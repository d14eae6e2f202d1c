import Impala.Util.BitStreamUtils
import Impala.Lib.Memory
import Impala.Lib.MachineInt

/-!
The Parquet DELTA_BINARY_PACKED encoder (exec/parquet/parquet-delta-encoder.h, .cc) for
`INT_T` of `width` bits, 32 or 64.

A page is a header (block size, miniblocks per block, value count, first value as zigzag)
and blocks of deltas: each block stores its least delta, the bit width of each miniblock,
and the deltas less the least one bit-packed at those widths. `Put` reserves the largest
header the page can need before the first block, and `FinalizePage` moves the blocks left
when the actual header is shorter, then writes it.

The output buffer is the memory from `output_buffer_` on, with `output_buffer_pos_` as an
offset into it; a `BitWriter` over the rest of the buffer stores its bytes there when it is
done. `WorstCaseOutputSize(0)` is zero, yet `FinalizePage` of a page with no value still
writes a header of five bytes or more (`finalizePage_exceeds_worstCaseOutputSize`).
-/

set_option autoImplicit false

namespace Impala

open LittleEndian MachineInt Memory

/-- The fields of `ParquetDeltaEncoder<INT_T>`; `output` is the memory from
`output_buffer_` on and `outputBufferPos` the offset of `output_buffer_pos_` in it. -/
structure ParquetDeltaEncoder where
  blockSizeInValues : Nat
  miniblocksInBlock : Nat
  miniblockSizeInValues : Nat
  maxPageValueCount : Nat
  reservedSpaceForHeader : Nat
  totalValueCount : Nat
  firstValue : Int
  previousValue : Int
  deltaBuffer : List Int
  minDeltaInBlock : Int
  output : Nat → UInt8
  outputBufferPos : Nat
  outputBufferLen : Int

namespace ParquetDeltaEncoder

section Width

variable (width : Nat)

def intMax : Int := 2 ^ (width - 1) - 1

def intMin : Int := -2 ^ (width - 1)

/-- `ParquetDeltaEncoder()`. The constructor leaves `first_value_` and `previous_value_`
uninitialised: they are parameters here. `output_buffer_pos_` is also left alone, and
`NewPage` sets it before any use. -/
def create (firstValue previousValue : Int) : ParquetDeltaEncoder where
  blockSizeInValues := 0
  miniblocksInBlock := 0
  miniblockSizeInValues := 0
  maxPageValueCount := 0
  reservedSpaceForHeader := 0
  totalValueCount := 0
  firstValue := firstValue
  previousValue := previousValue
  deltaBuffer := []
  minDeltaInBlock := intMax width
  output := fun _ => 0
  outputBufferPos := 0
  outputBufferLen := 0

def isInitialized (e : ParquetDeltaEncoder) : Bool := e.blockSizeInValues ≠ 0

/-- `Init(block_size_in_values, miniblocks_in_block, max_page_value_count)`, with the
source's error texts. -/
def init (e : ParquetDeltaEncoder) (blockSizeInValues miniblocksInBlock maxPageValueCount : Nat) :
    Except String ParquetDeltaEncoder :=
  if e.isInitialized then .error "Already initialized."
  else if blockSizeInValues = 0 then
    .error "The number of values in a block must not be zero."
  else if blockSizeInValues % 128 ≠ 0 then
    .error s!"The number of values in a block must be a multiple of 128. {blockSizeInValues} is not a multiple of 128."
  else if miniblocksInBlock = 0 then
    .error "The number of miniblocks in a block must not be zero."
  else if blockSizeInValues % miniblocksInBlock ≠ 0 then
    .error s!"The number of miniblocks in a block must be a divisor of the number of values in a block. {miniblocksInBlock} is not a divisor of {blockSizeInValues}."
  else if blockSizeInValues / miniblocksInBlock % 32 ≠ 0 then
    .error s!"The number of values in a miniblock must be a multiple of 32. {blockSizeInValues / miniblocksInBlock} is not a multiple of 32."
  else if maxPageValueCount = 0 then
    .error "The number of values allowed in a page must be non-zero."
  else .ok { e with
    blockSizeInValues := blockSizeInValues
    miniblocksInBlock := miniblocksInBlock
    miniblockSizeInValues := blockSizeInValues / miniblocksInBlock
    maxPageValueCount := maxPageValueCount }

def setOutputBuffer (e : ParquetDeltaEncoder) (output : Nat → UInt8) (outputBufferLen : Int) :
    ParquetDeltaEncoder :=
  { e with output := output, outputBufferPos := 0, outputBufferLen := outputBufferLen }

def resetBlock (e : ParquetDeltaEncoder) : ParquetDeltaEncoder :=
  { e with minDeltaInBlock := intMax width, deltaBuffer := [] }

def newPage (e : ParquetDeltaEncoder) (output : Nat → UInt8) (outputBufferLen : Int) :
    ParquetDeltaEncoder :=
  { (e.setOutputBuffer output outputBufferLen).resetBlock width with totalValueCount := 0 }

def advanceBufferPos (e : ParquetDeltaEncoder) (bytes : Nat) : ParquetDeltaEncoder :=
  { e with outputBufferLen := e.outputBufferLen - bytes, outputBufferPos := e.outputBufferPos + bytes }

def maxZigzagByteLen : Nat := BitWriter.vlqRequiredSize (2 ^ width - 1)

def headerSize (e : ParquetDeltaEncoder) (firstValue : Int) (totalValueCount : Nat) : Nat :=
  BitWriter.vlqRequiredSize e.blockSizeInValues + BitWriter.vlqRequiredSize e.miniblocksInBlock +
    BitWriter.vlqRequiredSize totalValueCount + BitWriter.zigZagRequiredBytes width firstValue

def worstCaseBlockSize (e : ParquetDeltaEncoder) : Nat :=
  maxZigzagByteLen width + e.miniblocksInBlock +
    e.miniblocksInBlock * (e.miniblockSizeInValues * (width / 8))

/-- `WorstCaseOutputSize(value_count)`: the largest header, and the worst case of every
block after the first value. -/
def worstCaseOutputSize (e : ParquetDeltaEncoder) (valueCount : Nat) : Nat :=
  if valueCount = 0 then 0
  else
    let headerSize := e.headerSize width (intMin width) e.maxPageValueCount
    let valuesInBlocks := valueCount - 1
    let nOfBlocks := (valuesInBlocks + e.blockSizeInValues - 1) / e.blockSizeInValues
    headerSize + nOfBlocks * e.worstCaseBlockSize width

def storeWriter (e : ParquetDeltaEncoder) (pos : Nat) (w : BitWriter) : ParquetDeltaEncoder :=
  { e with output := writeList e.output pos w.bytes }

def writeMinDelta (e : ParquetDeltaEncoder) : Bool × ParquetDeltaEncoder :=
  let (success, w) :=
    (BitWriter.create e.outputBufferLen.toNat).putZigZagInteger width e.minDeltaInBlock
  if !success then (false, e.storeWriter e.outputBufferPos w)
  else
    let (nextFreeByte, w) := w.getNextBytePtr 0
    let writtenLength := nextFreeByte.getD 0
    (true, (e.storeWriter e.outputBufferPos w).advanceBufferPos writtenLength)

/-- `CalculateMiniblockBitwidths()`: for each miniblock with a delta, the significant bits
of the OR of its deltas as `UINT_T`. -/
def calculateMiniblockBitwidths (e : ParquetDeltaEncoder) : List Nat :=
  let numActualMiniblocks :=
    (e.deltaBuffer.length + e.miniblockSizeInValues - 1) / e.miniblockSizeInValues
  (List.range numActualMiniblocks).map fun miniblockIndex =>
    let miniblock := (e.deltaBuffer.drop (miniblockIndex * e.miniblockSizeInValues)).take
      e.miniblockSizeInValues
    let mask := miniblock.foldl (fun mask d => mask ||| (d % 2 ^ width).toNat) 0
    BitWriter.numberOfSignificantBits mask

/-- `WriteMiniblockWidths(miniblock_bitwidths)`: one byte a miniblock, zeros for the
miniblocks a short last block does not have. -/
def writeMiniblockWidths (e : ParquetDeltaEncoder) (miniblockBitwidths : List Nat) :
    Bool × ParquetDeltaEncoder :=
  if (miniblockBitwidths.length : Int) > e.outputBufferLen then (false, e)
  else if miniblockBitwidths = [] then (true, e)
  else
    let e := { e with
      output := writeList e.output e.outputBufferPos (miniblockBitwidths.map UInt8.ofNat) }
    let e := e.advanceBufferPos miniblockBitwidths.length
    if miniblockBitwidths.length < e.miniblocksInBlock then
      let diff := e.miniblocksInBlock - miniblockBitwidths.length
      let e := { e with
        output := writeList e.output e.outputBufferPos (List.replicate diff 0) }
      (true, e.advanceBufferPos diff)
    else (true, e)

/-- The loop of `WriteMiniblocks` from miniblock `miniblockIndex`, with the writer `w` over
the buffer from `start`; deltas past the last are written as zero. -/
def writeMiniblocksFrom (e : ParquetDeltaEncoder) (start : Nat) :
    List Nat → Nat → BitWriter → Bool × ParquetDeltaEncoder
  | [], _, _ => (true, e)
  | bitwidth :: rest, deltaBufferIndex, w =>
    let values := (List.range e.miniblockSizeInValues).map fun i =>
      match e.deltaBuffer[deltaBufferIndex + i]? with
      | some d => (d % 2 ^ width).toNat
      | none => 0
    let (success, w) := values.foldl (fun (ok, w) v =>
      if ok then w.putValue v bitwidth else (false, w)) (true, w)
    if !success then (false, e.storeWriter start w)
    else
      let (nextFreeByte, w) := w.getNextBytePtr 0
      let writtenBytes := match nextFreeByte with
        | some p => start + p - e.outputBufferPos
        | none => e.outputBufferLen.toNat
      let e := (e.storeWriter start w).advanceBufferPos writtenBytes
      e.writeMiniblocksFrom start rest (deltaBufferIndex + e.miniblockSizeInValues) w

def writeMiniblocks (e : ParquetDeltaEncoder) (miniblockBitwidths : List Nat) :
    Bool × ParquetDeltaEncoder :=
  e.writeMiniblocksFrom width e.outputBufferPos miniblockBitwidths 0
    (BitWriter.create e.outputBufferLen.toNat)

def flushBlock (e : ParquetDeltaEncoder) : Bool × ParquetDeltaEncoder :=
  if e.deltaBuffer = [] then (true, e)
  else
    let e := { e with
      deltaBuffer := e.deltaBuffer.map fun d => toSigned width (d - e.minDeltaInBlock) }
    match e.writeMinDelta width with
    | (false, e) => (false, e)
    | (true, e) =>
      let miniblockBitwidths := e.calculateMiniblockBitwidths width
      match e.writeMiniblockWidths miniblockBitwidths with
      | (false, e) => (false, e)
      | (true, e) =>
        match e.writeMiniblocks width miniblockBitwidths with
        | (false, e) => (false, e)
        | (true, e) => (true, e.resetBlock width)

/-- `Put(value)`. The first value goes to the header, for which the largest size is
reserved; every later one is a delta in `INT_T`. -/
def put (e : ParquetDeltaEncoder) (value : Int) : Bool × ParquetDeltaEncoder :=
  if e.totalValueCount = 0 then
    let e := { e with
      firstValue := value
      previousValue := value
      reservedSpaceForHeader := e.headerSize width value e.maxPageValueCount }
    if (e.reservedSpaceForHeader : Int) > e.outputBufferLen then (false, e)
    else (true, { e.advanceBufferPos e.reservedSpaceForHeader with totalValueCount := 1 })
  else if e.deltaBuffer = [] ∧ (e.worstCaseBlockSize width : Int) > e.outputBufferLen then
    (false, e)
  else if e.totalValueCount ≥ e.maxPageValueCount then (false, e)
  else
    let delta := toSigned width (value - e.previousValue)
    let e := { e with
      previousValue := value
      deltaBuffer := e.deltaBuffer ++ [delta]
      minDeltaInBlock := min delta e.minDeltaInBlock }
    let e := if e.deltaBuffer.length = e.blockSizeInValues then (e.flushBlock width).2 else e
    (true, { e with totalValueCount := e.totalValueCount + 1 })

/-- `WriteHeader()`: each field is written only while the ones before succeeded. -/
def writeHeader (e : ParquetDeltaEncoder) : Bool × ParquetDeltaEncoder :=
  let headerSize := e.headerSize width e.firstValue e.totalValueCount
  let w := BitWriter.create headerSize
  let (s1, w) := w.putUleb128 e.blockSizeInValues
  let (s2, w) := if s1 then w.putUleb128 e.miniblocksInBlock else (false, w)
  let (s3, w) := if s2 then w.putUleb128 e.totalValueCount else (false, w)
  let (s4, w) := if s3 then w.putZigZagInteger width e.firstValue else (false, w)
  (s4, e.storeWriter 0 w)

/-- `FinalizePage()`: the last block is flushed, the blocks are moved to follow the actual
header, the header is written, and the page length returned. A negative `data_len` would
reach `memmove` as a huge `size_t`; the model moves nothing then. -/
def finalizePage (e : ParquetDeltaEncoder) : Int × ParquetDeltaEncoder :=
  let e := (e.flushBlock width).2
  let actualHeaderSize := e.headerSize width e.firstValue e.totalValueCount
  let dataLen : Int := (e.outputBufferPos : Int) - e.reservedSpaceForHeader
  let e := if actualHeaderSize ≠ e.reservedSpaceForHeader then
      { e with
        output := writeList e.output actualHeaderSize
          (readList e.output e.reservedSpaceForHeader dataLen.toNat) }
    else e
  let e := (e.writeHeader width).2
  (actualHeaderSize + dataLen, e.setOutputBuffer e.output 0)

end Width

/-! ### A page with no value -/

theorem init_ok {e e' : ParquetDeltaEncoder} {b m c : Nat} (h : e.init b m c = .ok e') :
    e'.blockSizeInValues = b ∧ e'.miniblocksInBlock = m ∧ 128 ≤ b ∧ 0 < m ∧
      e'.reservedSpaceForHeader = e.reservedSpaceForHeader ∧ e'.deltaBuffer = e.deltaBuffer := by
  unfold init at h
  split_ifs at h with h1 h2 h3 h4 h5 h6 h7
  cases h
  refine ⟨rfl, rfl, ?_, by omega, rfl, rfl⟩
  omega

theorem five_le_headerSize (width : Nat) {e : ParquetDeltaEncoder} (hb : 128 ≤ e.blockSizeInValues)
    (firstValue : Int) (totalValueCount : Nat) : 5 ≤ e.headerSize width firstValue totalValueCount := by
  have h1 := BitWriter.two_le_vlqRequiredSize hb
  have h2 := BitWriter.one_le_vlqRequiredSize e.miniblocksInBlock
  have h3 := BitWriter.one_le_vlqRequiredSize totalValueCount
  have h4 := BitWriter.one_le_vlqRequiredSize (BitWriter.zigzag width firstValue)
  unfold headerSize BitWriter.zigZagRequiredBytes
  omega

/-- Whatever the constructor left in `first_value_`, a page that received no value is
finalised into five bytes or more, though `WorstCaseOutputSize(0)`, the buffer the caller
was told to give `NewPage`, is zero bytes. -/
theorem finalizePage_exceeds_worstCaseOutputSize (width : Nat) (firstValue previousValue : Int)
    {b m c : Nat} {e : ParquetDeltaEncoder}
    (hinit : (create width firstValue previousValue).init b m c = .ok e) (buffer : Nat → UInt8) :
    e.worstCaseOutputSize width 0 = 0 ∧
      5 ≤ ((e.newPage width buffer (e.worstCaseOutputSize width 0)).finalizePage width).1 := by
  obtain ⟨hb, -, hb128, -, hres, hdelta⟩ := init_ok hinit
  refine ⟨rfl, ?_⟩
  have hflush : ((e.newPage width buffer 0).flushBlock width).2 = e.newPage width buffer 0 := by
    simp [flushBlock, newPage, resetBlock, setOutputBuffer]
  have hsize := five_le_headerSize width (e := e.newPage width buffer 0)
    (by simp [newPage, resetBlock, setOutputBuffer, hb, hb128]) e.firstValue 0
  simp only [worstCaseOutputSize, if_true, Nat.cast_zero]
  simp only [finalizePage, hflush]
  simp only [newPage, resetBlock, setOutputBuffer, hres, create] at hsize ⊢
  simp only [Nat.cast_zero, sub_zero, add_zero]
  exact_mod_cast hsize

theorem finalizePage_exceeds_worstCaseOutputSize_int32 :
    (create 32 0 0).init 128 4 1 = .ok { create 32 0 0 with
      blockSizeInValues := 128, miniblocksInBlock := 4, miniblockSizeInValues := 32,
      maxPageValueCount := 1 } ∧
    let e : ParquetDeltaEncoder := { create 32 0 0 with
      blockSizeInValues := 128, miniblocksInBlock := 4, miniblockSizeInValues := 32,
      maxPageValueCount := 1 }
    e.worstCaseOutputSize 32 0 = 0 ∧
      5 ≤ ((e.newPage 32 (fun _ => 0) (e.worstCaseOutputSize 32 0)).finalizePage 32).1 :=
  ⟨rfl, finalizePage_exceeds_worstCaseOutputSize 32 0 0 (b := 128) (m := 4) (c := 1) rfl
    (fun _ => 0)⟩

end ParquetDeltaEncoder

end Impala
