import Impala.Lib.LittleEndian
import Impala.Lib.MachineInt

/-!
The length scan of PLAIN-encoded BYTE_ARRAY values (exec/parquet/parquet-common.h,
`ParquetPlainEncoder::EncodedLen<BYTE_ARRAY>`), which `SkipEncodedValuesInPage`
(exec/parquet/parquet-column-readers.cc) uses to skip values of a page.

A value is a little-endian `int32_t` length and that many bytes. The loop adds
`sizeof(int32_t)` to the length in `size_t` and keeps the sum as an `int32_t`. It
compares that sum with `sizeof(int32_t)` as unsigned, so a negative sum passes, and with
the bytes left as signed, so it passes again: the scan moves back, and `EncodedLen` returns
a negative length other than `-1` (`encodedLen_negative_length`). On values whose lengths
are not negative it returns their size exactly (`encodedLen_records`).

Memory is a function from addresses to bytes; the buffer is `[buffer, buffer_end)`.
-/

set_option autoImplicit false

namespace Impala.ParquetPlainEncoder

open LittleEndian MachineInt

def toSizeT (x : Int) : Nat := (x % 2 ^ 64).toNat

def readInt32 (mem : Int → UInt8) (buffer : Int) : Int :=
  toSigned 32 (ofBytes ((List.range 4).map fun (i : Nat) => mem (buffer + i)))

/-- The loop of `EncodedLen<BYTE_ARRAY>`: the position after `valuesRemaining` more values
from `buffer`, or nothing where the source returns `-1`. -/
def encodedLenFrom (mem : Int → UInt8) (bufferEnd : Int) : Nat → Int → Option Int
  | 0, buffer => some buffer
  | valuesRemaining + 1, buffer =>
    if toSizeT (bufferEnd - buffer) < 4 then none
    else
      let strLen := toSigned 32 (readInt32 mem buffer + 4)
      if toSizeT strLen < 4 ∨ bufferEnd - buffer < strLen then none
      else encodedLenFrom mem bufferEnd valuesRemaining (buffer + strLen)

def encodedLen (mem : Int → UInt8) (buffer bufferEnd : Int) (numValues : Int) : Int :=
  match encodedLenFrom mem bufferEnd numValues.toNat buffer with
  | none => -1
  | some b => b - buffer

/-- `SkipEncodedValuesInPage(num_values)` of a PLAIN page: whether it succeeded, and
`data_` after it. -/
def skipEncodedValuesInPage (mem : Int → UInt8) (data dataEnd : Int) (numValues : Int) :
    Bool × Int :=
  let encodedLen := encodedLen mem data dataEnd numValues
  if encodedLen < 0 then (false, data) else (true, data + encodedLen)

theorem toSizeT_of_bounds {x : Int} (h0 : 0 ≤ x) (h : x < 2 ^ 64) : (toSizeT x : Int) = x := by
  unfold toSizeT
  rw [Int.emod_eq_of_lt h0 h, Int.toNat_of_nonneg h0]

theorem toSizeT_of_neg {x : Int} (h0 : -2 ^ 63 ≤ x) (h : x < 0) :
    (toSizeT x : Int) = x + 2 ^ 64 := by
  unfold toSizeT
  have hmod : x % 2 ^ 64 = x + 2 ^ 64 := by
    rw [← Int.add_mul_emod_self_left x (2 ^ 64) 1]
    exact Int.emod_eq_of_lt (by omega) (by omega)
  rw [hmod, Int.toNat_of_nonneg (by omega)]

theorem readInt32_bounds (mem : Int → UInt8) (buffer : Int) :
    -2 ^ 31 ≤ readInt32 mem buffer ∧ readInt32 mem buffer < 2 ^ 31 :=
  ⟨le_toSigned 31 _, toSigned_lt 31 _⟩

/-! ### Well-formed values -/

def record (bytes : List UInt8) : List UInt8 := toBytes bytes.length 4 ++ bytes

def Holds (mem : Int → UInt8) (buffer : Int) (bs : List UInt8) : Prop :=
  ∀ (i : Nat) (h : i < bs.length), mem (buffer + i) = bs[i]

theorem Holds.left {mem : Int → UInt8} {buffer : Int} {xs ys : List UInt8}
    (h : Holds mem buffer (xs ++ ys)) : Holds mem buffer xs := fun i hi => by
  rw [h i (by simp; omega), List.getElem_append_left hi]

theorem Holds.right {mem : Int → UInt8} {buffer : Int} {xs ys : List UInt8}
    (h : Holds mem buffer (xs ++ ys)) : Holds mem (buffer + xs.length) ys := fun i hi => by
  have := h (xs.length + i) (by simp; omega)
  rw [List.getElem_append_right (by omega)] at this
  simpa [add_assoc] using this

theorem readInt32_of_holds {mem : Int → UInt8} {buffer : Int} {n : Nat} {rest : List UInt8}
    (h : Holds mem buffer (toBytes n 4 ++ rest)) (hn : n < 2 ^ 31) : readInt32 mem buffer = n := by
  have hbytes : (List.range 4).map (fun (i : Nat) => mem (buffer + i)) = toBytes n 4 := by
    apply List.ext_getElem (by simp)
    intro i hi _
    simp only [List.getElem_map, List.getElem_range]
    rw [h.left i (by simpa using hi)]
  rw [readInt32, hbytes, ofBytes_toBytes, Nat.mod_eq_of_lt (by omega)]
  exact toSigned_of_bounds (by omega) (by omega)

theorem encodedLenFrom_records {mem : Int → UInt8} {bufferEnd : Int} (vals : List (List UInt8))
    (hvals : ∀ v ∈ vals, v.length + 4 < 2 ^ 31) :
    ∀ buffer, Holds mem buffer (vals.flatMap record) →
      buffer + (vals.flatMap record).length ≤ bufferEnd → bufferEnd - buffer < 2 ^ 63 →
      encodedLenFrom mem bufferEnd vals.length buffer =
        some (buffer + (vals.flatMap record).length) := by
  induction vals with
  | nil => intro buffer _ _ _; simp [encodedLenFrom]
  | cons v vals ih =>
    intro buffer h hend hrange
    have hv := hvals v List.mem_cons_self
    simp only [List.flatMap_cons, List.length_append, record, length_toBytes,
      Nat.cast_add] at h hend ⊢
    rw [List.append_assoc] at h
    have hread := readInt32_of_holds h (by omega)
    have hsum : toSigned 32 (readInt32 mem buffer + 4) = (v.length : Int) + 4 := by
      rw [hread]
      exact toSigned_of_bounds (by omega) (by omega)
    have hleft : (toSizeT (bufferEnd - buffer) : Int) = bufferEnd - buffer :=
      toSizeT_of_bounds (by omega) (by omega)
    have hlen : (toSizeT ((v.length : Int) + 4) : Int) = v.length + 4 :=
      toSizeT_of_bounds (by omega) (by omega)
    have hfirst : ¬ toSizeT (bufferEnd - buffer) < 4 := by omega
    have hsecond : ¬ (toSizeT ((v.length : Int) + 4) < 4 ∨ bufferEnd - buffer < v.length + 4) := by
      omega
    have hrest : Holds mem (buffer + (v.length + 4)) (vals.flatMap record) := by
      have := (h.right).right
      simpa [length_toBytes, add_assoc, add_comm (4 : Int)] using this
    rw [List.length_cons, encodedLenFrom, if_neg hfirst]
    simp only [hsum, if_neg hsecond]
    rw [ih (fun u hu => hvals u (List.mem_cons_of_mem v hu)) _ hrest (by omega) (by omega)]
    apply congrArg some
    omega

theorem encodedLen_records {mem : Int → UInt8} {buffer bufferEnd : Int} {vals : List (List UInt8)}
    (hvals : ∀ v ∈ vals, v.length + 4 < 2 ^ 31) (h : Holds mem buffer (vals.flatMap record))
    (hend : buffer + (vals.flatMap record).length ≤ bufferEnd) (hrange : bufferEnd - buffer < 2 ^ 63) :
    encodedLen mem buffer bufferEnd vals.length = (vals.flatMap record).length := by
  rw [encodedLen, Int.toNat_natCast, encodedLenFrom_records vals hvals buffer h hend hrange]
  simp

/-- A length of `-6` or less, plus four, is negative: both tests pass it, and the scan of
one value ends before the buffer. -/
theorem encodedLen_negative_length {mem : Int → UInt8} {buffer bufferEnd : Int}
    (hend : buffer + 4 ≤ bufferEnd) (hrange : bufferEnd - buffer < 2 ^ 63)
    (hneg : readInt32 mem buffer ≤ -6) :
    encodedLen mem buffer bufferEnd 1 = readInt32 mem buffer + 4 ∧
      readInt32 mem buffer + 4 < -1 := by
  obtain ⟨hlow, -⟩ := readInt32_bounds mem buffer
  have hsum : toSigned 32 (readInt32 mem buffer + 4) = readInt32 mem buffer + 4 :=
    toSigned_of_bounds (by omega) (by omega)
  have hleft : (toSizeT (bufferEnd - buffer) : Int) = bufferEnd - buffer :=
    toSizeT_of_bounds (by omega) (by omega)
  have hlen : (toSizeT (readInt32 mem buffer + 4) : Int) = readInt32 mem buffer + 4 + 2 ^ 64 :=
    toSizeT_of_neg (by omega) (by omega)
  refine ⟨?_, by omega⟩
  have hfirst : ¬ toSizeT (bufferEnd - buffer) < 4 := by omega
  have hsecond : ¬ (toSizeT (readInt32 mem buffer + 4) < 4 ∨
      bufferEnd - buffer < readInt32 mem buffer + 4) := by omega
  simp only [encodedLen, Int.toNat_one, encodedLenFrom, hfirst, if_false, hsum, hsecond]
  omega

theorem encodedLen_negative_length_six :
    encodedLen (fun i => if i = 0 then 0xFA else 0xFF) 0 4 1 =
        readInt32 (fun i => if i = 0 then 0xFA else 0xFF) 0 + 4 ∧
      readInt32 (fun i => if i = 0 then 0xFA else 0xFF) 0 + 4 < -1 :=
  encodedLen_negative_length (by norm_num) (by norm_num) (by decide +kernel)

end Impala.ParquetPlainEncoder
