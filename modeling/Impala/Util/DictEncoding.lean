import Impala.Util.RleEncoding

/-!
The dictionary encoder (util/dict-encoding.h, `DictEncoder<T>` and `DictEncoderBase`).

`Put` appends the index of the value in the dictionary, adding the value as a new entry
when it is not there and the dictionary has room. `WriteData` writes the bit width in one
byte and the buffered indices through an `RleEncoder`; `EstimatedDataEncodedSize` is the
buffer size the header comment prescribes for it.

The chained hash table only finds entries: a lookup through it returns the entry equal to
the value, the entries being distinct, so the dictionary is its list of entries here.

`MaxBufferSize` counts a literal run per 512 values, but the encoder closes a literal run
at 504 (63 groups) and then reserves a whole run more: 505 alternating indices over two
entries do not fit the estimate (`writeData_estimatedDataEncodedSize_fails`).
-/

set_option autoImplicit false

namespace Impala

/-- `DictEncoder<T>`: the entries `nodes_` in the order they were added, the
`buffered_indices_`, and `dict_encoded_size_`. -/
structure DictEncoder (α : Type) where
  nodes : List α
  bufferedIndices : List Nat
  dictEncodedSize : Nat

namespace DictEncoder

variable {α : Type} [DecidableEq α]

def invalidIndex : Nat := 40000

def empty : DictEncoder α := ⟨[], [], 0⟩

def numEntries (e : DictEncoder α) : Nat := e.nodes.length

/-- `Put(value)`: zero for a value already in the dictionary, the bytes the new entry adds
(`encoded_value_size_`, or `ParquetPlainEncoder::ByteSize` for strings) for a new one, and
-1 when the dictionary is full. -/
def put (byteSize : α → Nat) (e : DictEncoder α) (value : α) : Int × DictEncoder α :=
  if value ∈ e.nodes then
    (0, { e with bufferedIndices := e.bufferedIndices ++ [e.nodes.idxOf value] })
  else if e.nodes.length ≥ invalidIndex then (-1, e)
  else
    (byteSize value, { nodes := e.nodes ++ [value]
                       bufferedIndices := e.bufferedIndices ++ [e.nodes.length]
                       dictEncodedSize := e.dictEncodedSize + byteSize value })

def putAll (byteSize : α → Nat) (e : DictEncoder α) : List α → List Int × DictEncoder α
  | [] => ([], e)
  | v :: vs =>
    let (r, e) := e.put byteSize v
    let (rs, e) := e.putAll byteSize vs
    (r :: rs, e)

theorem putAll_append (byteSize : α → Nat) (e : DictEncoder α) (vs ws : List α) :
    e.putAll byteSize (vs ++ ws) =
      ((e.putAll byteSize vs).1 ++ ((e.putAll byteSize vs).2.putAll byteSize ws).1,
        ((e.putAll byteSize vs).2.putAll byteSize ws).2) := by
  induction vs generalizing e with
  | nil => rfl
  | cons v vs ih => simp [putAll, ih]

def log2Ceiling64 (n : Nat) : Nat := if n &&& (n - 1) = 0 then n.log2 else n.log2 + 1

def bitWidth (e : DictEncoder α) : Nat :=
  if e.numEntries = 0 then 0
  else if e.numEntries = 1 then 1
  else log2Ceiling64 e.numEntries

def estimatedDataEncodedSize (e : DictEncoder α) : Nat :=
  1 + RleEncoder.maxBufferSize e.bitWidth e.bufferedIndices.length

end DictEncoder

/-- The loop of `WriteData`: whether every index was accepted, and the encoder after the
last one tried. -/
def RleEncoder.putIndices (encoder : RleEncoder) : List Nat → Bool × RleEncoder
  | [] => (true, encoder)
  | index :: rest =>
    match encoder.put index with
    | (true, encoder) => encoder.putIndices rest
    | (false, encoder) => (false, encoder)

namespace DictEncoder

variable {α : Type}

/-- `WriteData(buffer, buffer_len)`: the bit width in the first byte, then the indices
through an `RleEncoder` over the rest; the bytes written, or -1 when an index is refused. -/
def writeData (e : DictEncoder α) (bufferLen : Nat) : Int :=
  let encoder := RleEncoder.create (bufferLen - 1) e.bitWidth
  match encoder.putIndices e.bufferedIndices with
  | (false, _) => -1
  | (true, encoder) => 1 + (encoder.flush).1

section Alternating

variable [DecidableEq α] (byteSize : α → Nat) {a b : α}

def alternate (a b : α) (n : Nat) : List α :=
  (List.range n).map fun i => if i % 2 = 0 then a else b

theorem putAll_alternate (hab : a ≠ b) (n : Nat) :
    (empty.putAll byteSize (alternate a b (n + 2))) =
      ((byteSize a : Int) :: (byteSize b : Int) :: List.replicate n 0,
        ⟨[a, b], (List.range (n + 2)).map (· % 2), byteSize a + byteSize b⟩) := by
  induction n with
  | zero =>
    simp [alternate, putAll, put, empty, invalidIndex, Ne.symm hab, List.range_succ]
  | succ n ih =>
    have hsplit : alternate a b (n + 1 + 2) = alternate a b (n + 2) ++
        [if (n + 2) % 2 = 0 then a else b] := by
      simp [alternate, List.range_succ]
    rw [hsplit, putAll_append, ih]
    have hidx : [a, b].idxOf (if (n + 2) % 2 = 0 then a else b) = (n + 2) % 2 := by
      split_ifs with h
      · simp [h]
      · have hb : [a, b].idxOf b = 1 := by simp [List.idxOf_cons, beq_false_of_ne hab]
        rw [hb]
        omega
    have hmem : (if (n + 2) % 2 = 0 then a else b) ∈ [a, b] := by split_ifs <;> simp
    simp only [putAll, put, hmem, if_true, hidx, List.replicate_succ', List.append_assoc,
      List.cons_append, List.nil_append, List.range_succ, List.map_append, List.map_cons,
      List.map_nil]

end Alternating

/-- Two distinct values put 505 times in turn are all accepted, yet `WriteData` into a
buffer of `EstimatedDataEncodedSize()` bytes, the size it is documented to need, refuses
the last index and returns -1. -/
theorem writeData_estimatedDataEncodedSize_fails [DecidableEq α] (byteSize : α → Nat) {a b : α}
    (hab : a ≠ b) :
    let e := (empty.putAll byteSize (alternate a b 505)).2
    (∀ r ∈ (empty.putAll byteSize (alternate a b 505)).1, r ≠ -1) ∧
      e.numEntries = 2 ∧ e.estimatedDataEncodedSize = 66 ∧
      e.writeData e.estimatedDataEncodedSize = -1 := by
  have hrun := putAll_alternate byteSize hab 503
  have hbw : (⟨[a, b], (List.range (503 + 2)).map (· % 2), byteSize a + byteSize b⟩ :
      DictEncoder α).bitWidth = 1 := by
    have hlog : log2Ceiling64 2 = 1 := by decide +kernel
    simp [bitWidth, numEntries, hlog]
  have hsize : (⟨[a, b], (List.range (503 + 2)).map (· % 2), byteSize a + byteSize b⟩ :
      DictEncoder α).estimatedDataEncodedSize = 66 := by
    simp only [estimatedDataEncodedSize, hbw, List.length_map, List.length_range]
    decide
  simp only [hrun]
  refine ⟨?_, rfl, hsize, ?_⟩
  · intro r hr
    simp only [List.mem_cons, List.mem_replicate] at hr
    omega
  · rw [hsize, writeData, hbw]
    dsimp only
    decide +kernel

theorem writeData_estimatedDataEncodedSize_fails_int32 :
    let e := (empty.putAll (fun _ : Nat => 4) (alternate 0 1 505)).2
    (∀ r ∈ (empty.putAll (fun _ : Nat => 4) (alternate 0 1 505)).1, r ≠ -1) ∧
      e.numEntries = 2 ∧ e.estimatedDataEncodedSize = 66 ∧
      e.writeData e.estimatedDataEncodedSize = -1 :=
  writeData_estimatedDataEncodedSize_fails (fun _ => 4) (by decide)

end DictEncoder

end Impala
