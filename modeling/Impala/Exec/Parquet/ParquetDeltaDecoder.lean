import Impala.Util.BitStreamUtils
import Impala.Lib.MachineInt

/-!
The Parquet DELTA_BINARY_PACKED decoder (exec/parquet/parquet-delta-decoder.h, .cc) for
`INT_T` of `width` bits, 32 or 64.

`NewPage` reads the header (block size, miniblocks per block, value count, first value) and
the first block header; the value calls hand out the first value from the header, then the
values left in the 32-value buffer, then whole batches from the input and a last batch
through the buffer.

The header's checks take `block_size_in_values_ % miniblocks_in_block_` before anything rules
out zero miniblocks (`newPage_divides_by_zero`). The first value is handed out whenever
`input_values_remaining_ == total_value_count_`, also on a page with no value, after which the
`size_t` count of values left wraps (`nextValues_empty_page`); and a call for no value still
writes it (`nextValues_zero_writes_first`).

The decoder's fields that `NewPage` leaves alone keep the values they had: they are those of
the decoder it is called on.
-/

set_option autoImplicit false

namespace Impala

open LittleEndian MachineInt

/-- The fields of `ParquetDeltaDecoder<INT_T>`. `buffer` is `buffer_`, 32 values. -/
structure ParquetDeltaDecoder where
  reader : BatchedBitReader
  initialized : Bool
  blockSizeInValues : Nat
  miniblocksInBlock : Nat
  miniblockSizeInValues : Nat
  totalValueCount : Nat
  inputValuesRemaining : Nat
  lastReadValue : Int
  minDeltaInBlock : Int
  valuesReadFromMiniblock : Nat
  miniblocksReadFromBlock : Nat
  bitwidths : List Nat
  buffer : List Int
  numBufferedValues : Int
  nextBufferedValueIndex : Int

/-- What `NewPage` returns: a `Status` message, or the division by zero of a header with no
miniblocks, which the source does not guard. -/
inductive NewPageError
  | status (msg : String)
  | divisionByZero
  deriving DecidableEq, Repr

namespace ParquetDeltaDecoder

def batchSize : Nat := 32

def zigzagDecode (v : Nat) : Int :=
  if v % 2 = 0 then ((v / 2 : Nat) : Int) else -((v / 2 : Nat) : Int) - 1

def getZigZagInteger (r : BatchedBitReader) (width : Nat) : Option (Int × BatchedBitReader) :=
  match r.getUleb128 width with
  | none => none
  | some (v, r) => some (zigzagDecode v, r)

def resize (bs : List Nat) (n : Nat) : List Nat := bs.take n ++ List.replicate (n - bs.length) 0

/-- The loop of `ReadBlockHeader` over the miniblocks: their bit widths, a byte each, none
above the width of `INT_T`. -/
def readBitwidths (width : Nat) : Nat → BatchedBitReader → Option (List Nat × BatchedBitReader)
  | 0, r => some ([], r)
  | n + 1, r =>
    match r.getBytes 1 with
    | none => none
    | some (bitWidth, r) =>
      if bitWidth > width then none
      else
        match readBitwidths width n r with
        | none => none
        | some (bws, r) => some (bitWidth :: bws, r)

section Width

variable (width : Nat)

def readBlockHeader (d : ParquetDeltaDecoder) : Option ParquetDeltaDecoder :=
  let d := { d with miniblocksReadFromBlock := 0, valuesReadFromMiniblock := 0 }
  match getZigZagInteger d.reader width with
  | none => none
  | some (minDelta, r) =>
    match readBitwidths width d.miniblocksInBlock r with
    | none => none
    | some (bws, r) =>
      some { d with
        reader := r
        minDeltaInBlock := minDelta
        bitwidths := bws ++ d.bitwidths.drop bws.length }

def newPage (d : ParquetDeltaDecoder) (input : List UInt8) :
    Except NewPageError ParquetDeltaDecoder :=
  let r : BatchedBitReader := ⟨input⟩
  match r.getUleb128 64 with
  | none => .error (.status "Error reading block size.")
  | some (blockSize, r) =>
  match r.getUleb128 64 with
  | none => .error (.status "Error reading the number of miniblocks in a block.")
  | some (miniblocks, r) =>
  match r.getUleb128 64 with
  | none => .error (.status "Error reading the number of total values.")
  | some (total, r) =>
  match getZigZagInteger r width with
  | none => .error (.status "Error reading the first value.")
  | some (first, r) =>
  if blockSize % 128 ≠ 0 ∨ blockSize = 0 then
    .error (.status s!"The number of values in a block must be a non-zero multiple of 128. Current value: {blockSize}.")
  else if miniblocks = 0 then .error .divisionByZero
  else if blockSize % miniblocks ≠ 0 then
    .error (.status s!"The number of miniblocks in a block must be a divisor of the number of values in a block. Number of miniblocks in a block: {miniblocks}, number of values in a block: {blockSize}.")
  else
    let miniblockSize := blockSize / miniblocks
    if miniblockSize % 32 ≠ 0 then
      .error (.status s!"The number of values in a miniblock must be a multiple of 32. Current value: {miniblockSize}.")
    else
      let d := { d with
        reader := r
        blockSizeInValues := blockSize
        miniblocksInBlock := miniblocks
        miniblockSizeInValues := miniblockSize
        totalValueCount := total
        lastReadValue := first
        bitwidths := resize d.bitwidths miniblocks
        inputValuesRemaining := total
        numBufferedValues := 0
        nextBufferedValueIndex := 0 }
      if total > 1 then
        match readBlockHeader width d with
        | none => .error (.status "First block header could not be read.")
        | some d => .ok { d with initialized := true }
      else .ok { d with initialized := true }

/-- The running values of a batch of deltas from `base`: each is the one before plus its
delta and the block's least delta, wrapping in `INT_T`. -/
def deltaDecode (minDelta : Int) : Int → List Nat → List Int
  | _, [] => []
  | base, delta :: deltas =>
    let v := toSigned width (base + delta + minDelta)
    v :: deltaDecode minDelta v deltas

def unpackAndDeltaDecodeBatch (r : BatchedBitReader) (bitWidth : Nat) (base minDelta : Int)
    (numValues : Nat) : List Int × BatchedBitReader :=
  let (deltas, r) := r.unpackBatch bitWidth numValues
  (deltaDecode width minDelta base deltas, r)

/-- `ReadAndDecodeBatchFromInput()`: the count it returns, the values it decodes and the
decoder after. -/
def readAndDecodeBatchFromInput (d : ParquetDeltaDecoder) : Int × List Int × ParquetDeltaDecoder :=
  let next :=
    if d.valuesReadFromMiniblock = d.miniblockSizeInValues then
      let d := { d with
        valuesReadFromMiniblock := 0
        miniblocksReadFromBlock := d.miniblocksReadFromBlock + 1 }
      if d.miniblocksReadFromBlock = d.miniblocksInBlock then readBlockHeader width d else some d
    else some d
  match next with
  | none => (-1, [], d)
  | some d =>
    let bitWidth := d.bitwidths.getD d.miniblocksReadFromBlock 0
    let (vals, r) :=
      unpackAndDeltaDecodeBatch width d.reader bitWidth d.lastReadValue d.minDeltaInBlock batchSize
    let d := { d with reader := r, lastReadValue := vals.getLast?.getD d.lastReadValue }
    if vals.length ≠ batchSize then (-1, vals, d)
    else
      let actual := min batchSize d.inputValuesRemaining
      (actual, vals, { d with
        valuesReadFromMiniblock := d.valuesReadFromMiniblock + batchSize
        inputValuesRemaining := d.inputValuesRemaining - actual })

def fillBuffer (d : ParquetDeltaDecoder) : Bool × ParquetDeltaDecoder :=
  let (count, vals, d) := readAndDecodeBatchFromInput width d
  let d := { d with buffer := vals ++ d.buffer.drop vals.length }
  if count ≤ 0 then (false, d)
  else (true, { d with numBufferedValues := count, nextBufferedValueIndex := 0 })

def bufferAt (buffer : List Int) (i : Int) : Option Int :=
  if 0 ≤ i then buffer[i.toNat]? else none

/-- `CopyOrSkipBufferedValues<SKIP>(num_values, ...)`: the values written, none for a read
outside `buffer_`. A negative count copies nothing, but is added to the index when skipping. -/
def copyOrSkipBufferedValues (skip : Bool) (numValues : Int) (d : ParquetDeltaDecoder) :
    List (Option Int) × ParquetDeltaDecoder :=
  if skip then ([], { d with nextBufferedValueIndex := d.nextBufferedValueIndex + numValues })
  else
    ((List.range numValues.toNat).map
        (fun (i : Nat) => bufferAt d.buffer (d.nextBufferedValueIndex + i)),
      { d with nextBufferedValueIndex := d.nextBufferedValueIndex + numValues.toNat })

/-- The loop of `GetOrSkipFromInput` over `n` whole batches: whether each gave 32 values, the
values written and the decoder after. When skipping, the batches are decoded into `buffer_`. -/
def readFullBatches (skip : Bool) :
    Nat → ParquetDeltaDecoder → Bool × List (Option Int) × ParquetDeltaDecoder
  | 0, d => (true, [], d)
  | n + 1, d =>
    let (count, vals, d) := readAndDecodeBatchFromInput width d
    let d := if skip then { d with buffer := vals ++ d.buffer.drop vals.length } else d
    let out := if skip then [] else vals.map some
    if count ≠ batchSize then (false, out, d)
    else
      let (ok, more, d) := readFullBatches skip n d
      (ok, out ++ more, d)

def getOrSkipFromInput (skip : Bool) (numValues : Nat) (d : ParquetDeltaDecoder) :
    Int × List (Option Int) × ParquetDeltaDecoder :=
  let (ok, out, d) := readFullBatches width skip (numValues / batchSize) d
  if !ok then (-1, out, d)
  else
    let extracted := numValues / batchSize * batchSize
    let remainder := numValues - extracted
    if remainder = 0 then (extracted, out, d)
    else
      let (filled, d) := fillBuffer width d
      if !filled then (-1, out, d)
      else
        let (copied, d) := copyOrSkipBufferedValues skip remainder d
        (extracted + remainder, out ++ copied, d)

/-- `GetOrSkipNextValues<SKIP>(num_values, ...)`: the count it returns, the values it writes
(none for a read outside `buffer_`) and the decoder after. -/
def getOrSkipNextValues (skip : Bool) (numValues : Int) (d : ParquetDeltaDecoder) :
    Int × List (Option Int) × ParquetDeltaDecoder :=
  let (extracted, out, d) :=
    if d.inputValuesRemaining = d.totalValueCount then
      ((1 : Int), (if skip then [] else [some d.lastReadValue]),
        { d with inputValuesRemaining := (d.inputValuesRemaining + 2 ^ 64 - 1) % 2 ^ 64 })
    else (0, [], d)
  let remainingBuffered := d.numBufferedValues - d.nextBufferedValueIndex
  let numToExtract := min (numValues - extracted) remainingBuffered
  let (copied, d) := copyOrSkipBufferedValues skip numToExtract d
  let extracted := extracted + numToExtract
  let yetToExtract :=
    toSigned 32 (min ((numValues - extracted) % 2 ^ 64).toNat d.inputValuesRemaining)
  if yetToExtract = 0 then (extracted, out ++ copied, d)
  else
    let (fromInput, more, d) := getOrSkipFromInput width skip yetToExtract.toNat d
    if fromInput = -1 then (-1, out ++ copied ++ more, d)
    else (extracted + fromInput, out ++ copied ++ more, d)

def nextValues (numValues : Int) (d : ParquetDeltaDecoder) :
    Int × List (Option Int) × ParquetDeltaDecoder :=
  getOrSkipNextValues width false numValues d

def skipValues (numValues : Int) (d : ParquetDeltaDecoder) :
    Int × List (Option Int) × ParquetDeltaDecoder :=
  getOrSkipNextValues width true numValues d

/-! ### The header -/

/-- What the header checks of `NewPage` establish: a block is a nonzero multiple of 128 values,
in miniblocks of a multiple of 32 values. -/
structure ValidBlocks (d : ParquetDeltaDecoder) : Prop where
  blockSize_mod : d.blockSizeInValues % 128 = 0
  blockSize_pos : 0 < d.blockSizeInValues
  miniblocks_pos : 0 < d.miniblocksInBlock
  miniblockSize_mul : d.miniblockSizeInValues * d.miniblocksInBlock = d.blockSizeInValues
  miniblockSize_mod : d.miniblockSizeInValues % 32 = 0

theorem validBlocks_of_checks {d : ParquetDeltaDecoder}
    (h128 : ¬(d.blockSizeInValues % 128 ≠ 0 ∨ d.blockSizeInValues = 0))
    (hm : ¬d.miniblocksInBlock = 0) (hdiv : ¬d.blockSizeInValues % d.miniblocksInBlock ≠ 0)
    (hsize : d.miniblockSizeInValues = d.blockSizeInValues / d.miniblocksInBlock)
    (h32 : ¬d.miniblockSizeInValues % 32 ≠ 0) : ValidBlocks d where
  blockSize_mod := by omega
  blockSize_pos := by omega
  miniblocks_pos := by omega
  miniblockSize_mul := by
    rw [hsize]
    exact Nat.div_mul_cancel (Nat.dvd_of_mod_eq_zero (by omega))
  miniblockSize_mod := by omega

theorem readBlockHeader_frame {d d' : ParquetDeltaDecoder} (h : readBlockHeader width d = some d') :
    d' = { d with
      reader := d'.reader
      minDeltaInBlock := d'.minDeltaInBlock
      bitwidths := d'.bitwidths
      miniblocksReadFromBlock := 0
      valuesReadFromMiniblock := 0 } := by
  unfold readBlockHeader at h
  dsimp only at h
  split at h
  · simp at h
  split at h
  · simp at h
  simp only [Option.some.injEq] at h
  subst h
  rfl

theorem newPage_ok {d d' : ParquetDeltaDecoder} {input : List UInt8}
    (h : newPage width d input = .ok d') :
    ValidBlocks d' ∧ d'.initialized ∧ d'.inputValuesRemaining = d'.totalValueCount ∧
      d'.numBufferedValues = 0 ∧ d'.nextBufferedValueIndex = 0 := by
  unfold newPage at h
  dsimp only at h
  repeat' split at h
  all_goals first
    | (simp at h; done)
    | skip
  · rename_i h128 hm hdiv h32 _ _ d'' hread
    simp only [Except.ok.injEq] at h
    subst h
    rw [readBlockHeader_frame width hread]
    exact ⟨validBlocks_of_checks h128 hm hdiv rfl h32, rfl, rfl, rfl, rfl⟩
  · rename_i h128 hm hdiv h32 _
    simp only [Except.ok.injEq] at h
    subst h
    exact ⟨validBlocks_of_checks h128 hm hdiv rfl h32, rfl, rfl, rfl, rfl⟩

theorem getZigZagInteger_uleb128 {z : Nat} (hw : 0 < width) (hz : z < 2 ^ width)
    (more : List UInt8) :
    getZigZagInteger ⟨uleb128 z ++ more⟩ width = some (zigzagDecode z, ⟨more⟩) := by
  rw [getZigZagInteger, BatchedBitReader.getUleb128_uleb128_append width hw hz]

/-- The bytes of a page header: block size, miniblocks per block, value count and the first
value in zigzag, each as ULEB-128. -/
def header (blockSize miniblocks total z : Nat) : List UInt8 :=
  uleb128 blockSize ++ uleb128 miniblocks ++ uleb128 total ++ uleb128 z

section Header

variable {width} (d : ParquetDeltaDecoder) {blockSize miniblocks total z : Nat} (more : List UInt8)

theorem newPage_header (hw : 0 < width) (hb : blockSize < 2 ^ 64) (hm : miniblocks < 2 ^ 64)
    (ht : total < 2 ^ 64) (hz : z < 2 ^ width) :
    newPage width d (header blockSize miniblocks total z ++ more) =
      if blockSize % 128 ≠ 0 ∨ blockSize = 0 then
        .error (.status s!"The number of values in a block must be a non-zero multiple of 128. Current value: {blockSize}.")
      else if miniblocks = 0 then .error .divisionByZero
      else if blockSize % miniblocks ≠ 0 then
        .error (.status s!"The number of miniblocks in a block must be a divisor of the number of values in a block. Number of miniblocks in a block: {miniblocks}, number of values in a block: {blockSize}.")
      else if blockSize / miniblocks % 32 ≠ 0 then
        .error (.status s!"The number of values in a miniblock must be a multiple of 32. Current value: {blockSize / miniblocks}.")
      else
        let d := { d with
          reader := ⟨more⟩
          blockSizeInValues := blockSize
          miniblocksInBlock := miniblocks
          miniblockSizeInValues := blockSize / miniblocks
          totalValueCount := total
          lastReadValue := zigzagDecode z
          bitwidths := resize d.bitwidths miniblocks
          inputValuesRemaining := total
          numBufferedValues := 0
          nextBufferedValueIndex := 0 }
        if total > 1 then
          match readBlockHeader width d with
          | none => .error (.status "First block header could not be read.")
          | some d => .ok { d with initialized := true }
        else .ok { d with initialized := true } := by
  simp only [newPage, header, List.append_assoc,
    BatchedBitReader.getUleb128_uleb128_append 64 (by norm_num) hb,
    BatchedBitReader.getUleb128_uleb128_append 64 (by norm_num) hm,
    BatchedBitReader.getUleb128_uleb128_append 64 (by norm_num) ht,
    getZigZagInteger_uleb128 width hw hz]

theorem newPage_divides_by_zero (hw : 0 < width) (hb : blockSize < 2 ^ 64) (ht : total < 2 ^ 64)
    (hz : z < 2 ^ width) (h128 : blockSize % 128 = 0) (hpos : 0 < blockSize) :
    newPage width d (header blockSize 0 total z ++ more) = .error .divisionByZero := by
  rw [newPage_header d more hw hb (by norm_num) ht hz, if_neg (by omega), if_pos rfl]

end Header

/-! ### The first value and the buffer -/

theorem toSigned_min_zero (n : Nat) :
    toSigned 32 (min ((((0 : Int) % 2 ^ 64).toNat : Nat) : Int) (n : Int)) = 0 := by
  simp [toSigned]

theorem getOrSkipNextValues_first (skip : Bool) {numValues : Int} (hk : 0 ≤ numValues)
    (hk1 : numValues ≤ 1) (d : ParquetDeltaDecoder)
    (hfirst : d.inputValuesRemaining = d.totalValueCount)
    (hbuffered : d.numBufferedValues = d.nextBufferedValueIndex) :
    getOrSkipNextValues width skip numValues d =
      (numValues, (if skip then [] else [some d.lastReadValue]),
        { d with
          inputValuesRemaining := (d.inputValuesRemaining + 2 ^ 64 - 1) % 2 ^ 64
          nextBufferedValueIndex :=
            if skip then d.nextBufferedValueIndex + (numValues - 1) else d.nextBufferedValueIndex }) := by
  have hmin : min (numValues - 1) (d.numBufferedValues - d.nextBufferedValueIndex) = numValues - 1 := by
    rw [hbuffered, sub_self]
    omega
  have hnone : (numValues - 1).toNat = 0 := by omega
  have hrest : numValues - (1 + (numValues - 1)) = 0 := by omega
  simp only [getOrSkipNextValues, if_pos hfirst, hmin, copyOrSkipBufferedValues, hrest,
    toSigned_min_zero, if_true]
  cases skip
  · simp only [Bool.false_eq_true, if_false, hnone, List.range_zero, List.map_nil, List.append_nil,
      Nat.cast_zero, add_zero]
    congr 1
    omega
  · simp only [if_true, List.append_nil]
    congr 1
    omega

section Header

variable {width} {d : ParquetDeltaDecoder} {blockSize miniblocks z : Nat} {more : List UInt8}

theorem newPage_empty (hw : 0 < width) (hb : blockSize < 2 ^ 64) (h128 : blockSize % 128 = 0)
    (hpos : 0 < blockSize) (hm : 0 < miniblocks) (hdiv : blockSize % miniblocks = 0)
    (h32 : blockSize / miniblocks % 32 = 0) (hz : z < 2 ^ width) :
    newPage width d (header blockSize miniblocks 0 z ++ more) =
      .ok { d with
        reader := ⟨more⟩
        initialized := true
        blockSizeInValues := blockSize
        miniblocksInBlock := miniblocks
        miniblockSizeInValues := blockSize / miniblocks
        totalValueCount := 0
        lastReadValue := zigzagDecode z
        bitwidths := resize d.bitwidths miniblocks
        inputValuesRemaining := 0
        numBufferedValues := 0
        nextBufferedValueIndex := 0 } := by
  have hm64 : miniblocks < 2 ^ 64 :=
    lt_of_le_of_lt (Nat.le_of_dvd hpos (Nat.dvd_of_mod_eq_zero hdiv)) hb
  rw [newPage_header d more hw hb hm64 (by norm_num) hz, if_neg (by omega), if_neg (by omega),
    if_neg (by omega), if_neg (by omega), if_neg (by norm_num)]

/-- A page of no value: `NewPage` succeeds, and `NextValues(1)` still returns one value, the
first value of the header. -/
theorem nextValues_empty_page (hw : 0 < width) (hb : blockSize < 2 ^ 64)
    (h128 : blockSize % 128 = 0) (hpos : 0 < blockSize) (hm : 0 < miniblocks)
    (hdiv : blockSize % miniblocks = 0) (h32 : blockSize / miniblocks % 32 = 0) (hz : z < 2 ^ width) :
    ∃ d', newPage width d (header blockSize miniblocks 0 z ++ more) = .ok d' ∧
      d'.totalValueCount = 0 ∧ (nextValues width 1 d').1 = 1 ∧
      (nextValues width 1 d').2.1 = [some (zigzagDecode z)] := by
  refine ⟨_, newPage_empty hw hb h128 hpos hm hdiv h32 hz, rfl, ?_⟩
  rw [nextValues, getOrSkipNextValues_first width false (by norm_num : (0 : Int) ≤ 1) le_rfl _ rfl rfl]
  exact ⟨rfl, rfl⟩

theorem nextValues_empty_page_128 :
    ∃ d', newPage 32 ⟨⟨[]⟩, false, 0, 0, 0, 0, 0, 0, 0, 0, 0, [], [], 0, 0⟩ (header 128 4 0 0 ++ []) =
        .ok d' ∧
      d'.totalValueCount = 0 ∧ (nextValues 32 1 d').1 = 1 ∧
      (nextValues 32 1 d').2.1 = [some (zigzagDecode 0)] :=
  nextValues_empty_page (by decide) (by decide) (by decide) (by decide) (by decide) (by decide)
    (by decide) (by decide)

end Header

theorem nextValues_zero_writes_first {d d' : ParquetDeltaDecoder} {input : List UInt8}
    (h : newPage width d input = .ok d') :
    (nextValues width 0 d').1 = 0 ∧ (nextValues width 0 d').2.1 = [some d'.lastReadValue] := by
  obtain ⟨-, -, hfirst, hnum, hnext⟩ := newPage_ok width h
  rw [nextValues, getOrSkipNextValues_first width false le_rfl (by norm_num) d' hfirst
    (by rw [hnum, hnext])]
  exact ⟨rfl, rfl⟩

end Width

end ParquetDeltaDecoder

end Impala
