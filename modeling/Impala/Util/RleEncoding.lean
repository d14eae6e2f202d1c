import Impala.Util.BitStreamUtils

/-!
The RLE / bit-packing hybrid encoder (util/rle-encoding.h, `RleEncoder`), and the format
it writes, as the header of that file gives it:

    encoded-block := run*
    literal-run := varint(number_of_groups << 1 | 1) <values bit-packed in groups of 8>
    repeated-run := varint(number_of_repetitions << 1) <value, padded to whole bytes>

The encoder buffers values eight at a time. Eight equal values start a repeated run that
grows without buffering; other groups are appended to a literal run whose one-byte
indicator is reserved first and written when the run ends, at 63 groups at most. After
each run the encoder reserves `MinBufferSize` bytes for the next one (`CheckBufferFull`)
and refuses values once they are not there.
-/

set_option autoImplicit false

namespace Impala

open LittleEndian

def int32Max : Nat := 2 ^ 31 - 1

/-- A run of the encoding: a value repeated, or literal values. -/
inductive RleRun
  | repeated (count value : Nat)
  | literal (values : List Nat)

namespace RleRun

def values : RleRun → List Nat
  | repeated count value => List.replicate count value
  | literal values => values

def encode (bitWidth : Nat) : RleRun → List UInt8
  | repeated count value => uleb128 (count * 2) ++ toBytes value ((bitWidth + 7) / 8)
  | literal values => uleb128 (values.length / 8 * 2 + 1) ++ pack bitWidth values

@[simp] theorem values_repeated (count value : Nat) :
    (repeated count value).values = List.replicate count value := rfl

@[simp] theorem values_literal (values : List Nat) : (literal values).values = values := rfl

end RleRun

def encodeRuns (bitWidth : Nat) (runs : List RleRun) : List UInt8 :=
  runs.flatMap (RleRun.encode bitWidth)

@[simp] theorem encodeRuns_nil (bitWidth : Nat) : encodeRuns bitWidth [] = [] := rfl

@[simp] theorem encodeRuns_cons (bitWidth : Nat) (r : RleRun) (runs : List RleRun) :
    encodeRuns bitWidth (r :: runs) = r.encode bitWidth ++ encodeRuns bitWidth runs := rfl

/-- `RleEncoder`: the bit width, the writer, `buffer_full_`, `max_run_byte_size_`, the
buffered values `buffered_values_[0, num_buffered_values_)`, `current_value_`,
`repeat_count_`, `literal_count_` and the reserved `literal_indicator_byte_`. -/
structure RleEncoder where
  bitWidth : Nat
  bitWriter : BitWriter
  bufferFull : Bool
  maxRunByteSize : Nat
  bufferedValues : List Nat
  currentValue : Nat
  repeatCount : Nat
  literalCount : Nat
  literalIndicatorByte : Option Nat

namespace RleEncoder

def maxValuesPerLiteralRun : Nat := (1 <<< 6) * 8

def minBufferSize (bitWidth : Nat) : Nat :=
  let maxLiteralRunSize := 1 + (maxValuesPerLiteralRun * bitWidth + 7) / 8
  let maxRepeatedRunSize := BatchedBitReader.maxVlqByteLen 32 + (bitWidth + 7) / 8
  max maxLiteralRunSize maxRepeatedRunSize

def maxBufferSize (bitWidth numValues : Nat) : Nat :=
  let bytesPerRun := (bitWidth * maxValuesPerLiteralRun + 7) / 8
  let numRuns := (numValues + maxValuesPerLiteralRun - 1) / maxValuesPerLiteralRun
  let literalMaxSize := numRuns + numRuns * bytesPerRun
  max (minBufferSize bitWidth) literalMaxSize

def create (bufferLen bitWidth : Nat) : RleEncoder where
  bitWidth := bitWidth
  bitWriter := BitWriter.create bufferLen
  bufferFull := false
  maxRunByteSize := minBufferSize bitWidth
  bufferedValues := []
  currentValue := 0
  repeatCount := 0
  literalCount := 0
  literalIndicatorByte := none

def len (e : RleEncoder) : Nat := e.bitWriter.bytesWritten

/-- `CheckBufferFull()`: full once a run of the largest size would not fit. -/
def checkBufferFull (e : RleEncoder) : RleEncoder :=
  if e.bitWriter.bytesWritten + e.maxRunByteSize > e.bitWriter.maxBytes then
    { e with bufferFull := true }
  else e

/-- `FlushLiteralRun(update_indicator_byte)`. A missing indicator byte is the source's
`DCHECK`; the model then writes none. -/
def flushLiteralRun (e : RleEncoder) (updateIndicatorByte : Bool) : RleEncoder :=
  let (indicator, bw) := match e.literalIndicatorByte with
    | none => e.bitWriter.getNextBytePtr 1
    | some ptr => (some ptr, e.bitWriter)
  let bw := e.bufferedValues.foldl (fun bw v => (bw.putValue v e.bitWidth).2) bw
  let e := { e with bitWriter := bw, literalIndicatorByte := indicator, bufferedValues := [] }
  if updateIndicatorByte then
    let indicatorValue := e.literalCount / 8 * 2 + 1
    let bw := match e.literalIndicatorByte with
      | some ptr => e.bitWriter.writeAt ptr (indicatorValue % 256)
      | none => e.bitWriter
    checkBufferFull { e with bitWriter := bw, literalIndicatorByte := none, literalCount := 0 }
  else e

def flushRepeatedRun (e : RleEncoder) : RleEncoder :=
  let indicatorValue := e.repeatCount * 2 % 2 ^ 32
  let bw := (e.bitWriter.putUleb128 indicatorValue).2
  let bw := (bw.putAligned e.currentValue ((e.bitWidth + 7) / 8)).2
  checkBufferFull { e with bitWriter := bw, bufferedValues := [], repeatCount := 0 }

/-- `FlushBufferedValues(done)`: a group of eight becomes part of the repeated run, or is
appended to the literal run, which ends at 63 groups. -/
def flushBufferedValues (e : RleEncoder) (done : Bool) : RleEncoder :=
  if e.repeatCount ≥ 8 then
    let e := { e with bufferedValues := [] }
    if e.literalCount ≠ 0 then e.flushLiteralRun true else e
  else
    let e := { e with literalCount := e.literalCount + e.bufferedValues.length }
    let numGroups := e.literalCount / 8
    let e := if numGroups + 1 ≥ 1 <<< 6 then e.flushLiteralRun true else e.flushLiteralRun done
    { e with repeatCount := 0 }

def bufferValue (e : RleEncoder) (value : Nat) : RleEncoder :=
  let e := { e with bufferedValues := e.bufferedValues ++ [value] }
  if e.bufferedValues.length = 8 then e.flushBufferedValues false else e

/-- `Put(value)`, for `value < 2^bit_width` (its `DCHECK`). -/
def put (e : RleEncoder) (value : Nat) : Bool × RleEncoder :=
  if e.bufferFull then (false, e)
  else if e.currentValue = value ∧ e.repeatCount < int32Max then
    let e := { e with repeatCount := e.repeatCount + 1 }
    if e.repeatCount > 8 then (true, e) else (true, e.bufferValue value)
  else
    let e := if e.repeatCount ≥ 8 then e.flushRepeatedRun else e
    (true, { e with repeatCount := 1, currentValue := value }.bufferValue value)

/-- `Flush()`: the pending values go out as a repeated run when they are all one run, and
otherwise as a literal run with the last group padded with zeros; the bytes written. -/
def flush (e : RleEncoder) : Nat × RleEncoder :=
  let e :=
    if e.literalCount > 0 ∨ e.repeatCount > 0 ∨ e.bufferedValues.length > 0 then
      let allRepeat := e.literalCount = 0 ∧
        (e.repeatCount = e.bufferedValues.length ∨ e.bufferedValues.length = 0)
      if e.repeatCount > 0 ∧ allRepeat then e.flushRepeatedRun
      else
        let padded := if e.bufferedValues = [] then []
          else e.bufferedValues ++ List.replicate (8 - e.bufferedValues.length) 0
        let e := { e with bufferedValues := padded, literalCount := e.literalCount + padded.length }
        { e.flushLiteralRun true with repeatCount := 0 }
    else e
  (e.bitWriter.bytesWritten, e)

def putAll (e : RleEncoder) : List Nat → List Bool × RleEncoder
  | [] => ([], e)
  | v :: vs =>
    let (ok, e) := e.put v
    let (oks, e) := e.putAll vs
    (ok :: oks, e)

theorem putAll_append (e : RleEncoder) (vs ws : List Nat) :
    e.putAll (vs ++ ws) =
      ((e.putAll vs).1 ++ ((e.putAll vs).2.putAll ws).1, ((e.putAll vs).2.putAll ws).2) := by
  induction vs generalizing e with
  | nil => rfl
  | cons v vs ih => simp [putAll, ih]

theorem putAll_replicate_of_repeating {e : RleEncoder} {v : Nat} (hfull : e.bufferFull = false)
    (hcur : e.currentValue = v) (h8 : 8 ≤ e.repeatCount) (n : Nat)
    (hn : e.repeatCount + n ≤ int32Max) :
    e.putAll (List.replicate n v) =
      (List.replicate n true, { e with repeatCount := e.repeatCount + n }) := by
  induction n generalizing e with
  | zero => rfl
  | succ n ih =>
    have hput : e.put v = (true, { e with repeatCount := e.repeatCount + 1 }) := by
      have hlt : e.repeatCount < int32Max := by omega
      have hmore : e.repeatCount + 1 > 8 := by omega
      simp [put, hfull, hcur, hlt, hmore]
    rw [List.replicate_succ, putAll, hput]
    dsimp only
    rw [ih (e := { e with repeatCount := e.repeatCount + 1 }) hfull hcur (by dsimp only; omega)
      (by dsimp only; omega)]
    simp only [List.replicate_succ, Prod.mk.injEq, true_and]
    congr 1
    omega

end RleEncoder

end Impala
