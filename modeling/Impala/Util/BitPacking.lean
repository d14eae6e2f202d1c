import Impala.Util.BitStreamUtils

/-!
The unrolled bit unpacking of util/bit-packing.inline.h: `UnpackValue`, `Unpack32Values`,
`UnpackUpTo31Values` and `UnpackValues` for a `BIT_WIDTH` of 0 to 64, over the bytes from
`in` to the end of the input. Positions in the input are byte offsets, so that a position
past its end can be stated.

Every load of `UnpackValue` is a window of the number the bytes denote, so whichever of its
32-bit, 64-bit or three-word reads a width and a position take, the value is the bit field
that `BatchedBitReader.unpackBatch` reads, and the loads stay within the bytes the callers
guarantee. The count of `NumValuesToUnpack` is where the fast path and the input part: its
product reaches `RoundUpNumBytes` as a `uint32_t`.
-/

set_option autoImplicit false

namespace Impala.BitPacking

open LittleEndian BatchedBitReader

def roundUpNumi32 (bits : UInt32) : UInt32 := (bits + 31) >>> 5

def isPowerOf2 (value : Nat) : Bool := value &&& (value - 1) == 0

def word32 (buf : List UInt8) (k : Nat) : Nat := ofBytes ((buf.drop (4 * k)).take 4)

def word64 (buf : List UInt8) (k : Nat) : Nat := ofBytes ((buf.drop (4 * k)).take 8)

def mask (bitWidth : Nat) : Nat := if bitWidth = 64 then 2 ^ 64 - 1 else 2 ^ bitWidth - 1

/-- The `constexpr` quantities of `UnpackValue<BIT_WIDTH, VALUE_IDX, FULL_BATCH>`. -/
structure Layout where
  firstWordIdx : Nat
  wordsToRead : Nat
  firstBitOffset : Nat
  read32Bits : Bool

def layout (bitWidth valueIdx : Nat) (fullBatch : Bool) : Layout :=
  let firstBitIdx := valueIdx * bitWidth
  let firstWordIdx := firstBitIdx / 32
  let lastBitIdx := firstBitIdx + bitWidth
  let lastWordIdx := (roundUpNumi32 lastBitIdx.toUInt32).toNat
  let wordsToRead := lastWordIdx - firstWordIdx
  let firstBitOffset := firstBitIdx - firstWordIdx * 32
  let canSafelyRead64Bits :=
    fullBatch && decide (firstBitIdx - firstBitOffset + 64 ≤ bitWidth * 32)
  ⟨firstWordIdx, wordsToRead, firstBitOffset,
    decide (wordsToRead = 1) && (!canSafelyRead64Bits || isPowerOf2 bitWidth)⟩

def unpackValue (bitWidth valueIdx : Nat) (fullBatch : Bool) (inBuf : List UInt8) : Nat :=
  if bitWidth = 0 then 0
  else
    let l := layout bitWidth valueIdx fullBatch
    if l.read32Bits then (word32 inBuf l.firstWordIdx >>> l.firstBitOffset) &&& mask bitWidth
    else
      let word := word64 inBuf l.firstWordIdx >>> l.firstBitOffset
      let word := if l.wordsToRead > 2 then
          word ||| (word32 inBuf (l.firstWordIdx + 2) <<< (64 - l.firstBitOffset)) % 2 ^ 64
        else word
      word &&& mask bitWidth

/-- The end of the bytes `UnpackValue` loads: one 32-bit word, or a 64-bit word and perhaps
the word after it. -/
def Layout.readEnd (l : Layout) : Nat :=
  if l.read32Bits then 4 * (l.firstWordIdx + 1)
  else if l.wordsToRead > 2 then 4 * (l.firstWordIdx + 3) else 4 * (l.firstWordIdx + 2)

/-- `Unpack32Values<OutType, BIT_WIDTH>(in, in_bytes, out)` at byte `inPos`: the 32 values and
the position after them. -/
def unpack32Values (bitWidth : Nat) (buf : List UInt8) (inPos : Nat) : List Nat × Nat :=
  ((List.range 32).map fun i => unpackValue bitWidth i true (buf.drop inPos),
    inPos + (roundUpNumBytes (32 * bitWidth).toUInt32).toNat)

/-- `UnpackUpTo31Values<OutType, BIT_WIDTH>(in, in_bytes, num_values, out)` at byte `inPos`.
When a 32-bit load could pass the end of the input, the bytes are first copied into
`tmp_buffer`; `tmpTail` is what the uninitialised rest of that array holds. -/
def unpackUpTo31Values (bitWidth : Nat) (buf : List UInt8) (inPos : Nat) (inBytes : Int)
    (numValues : Nat) (tmpTail : List UInt8) : List Nat × Nat :=
  let bytesToRead := (roundUpNumBytes (numValues * bitWidth).toUInt32).toNat
  let inBuffer := if (((bytesToRead + 3) / 4 * 4 : Nat) : Int) > inBytes then
      (buf.drop inPos).take bytesToRead ++ tmpTail
    else buf.drop inPos
  ((List.range numValues).map fun i => unpackValue bitWidth i false inBuffer, inPos + bytesToRead)

def unpackBatches (bitWidth : Nat) (buf : List UInt8) : Nat → Nat → Int → List Nat × Nat × Int
  | 0, inPos, inBytes => ([], inPos, inBytes)
  | n + 1, inPos, inBytes =>
    let (values, inPos) := unpack32Values bitWidth buf inPos
    let (rest, inPos, inBytes) :=
      unpackBatches bitWidth buf n inPos (inBytes - ((32 * bitWidth / 8 : Nat) : Int))
    (values ++ rest, inPos, inBytes)

/-- `UnpackValues<OutType, BIT_WIDTH>(in, in_bytes, num_values, out)` over the input `buf`:
the values written, the position `in_pos` returned, and the count returned. -/
def unpackValues (bitWidth : Nat) (buf : List UInt8) (numValues : Nat) (tmpTail : List UInt8) :
    List Nat × Nat × Nat :=
  let valuesToRead := numValuesToUnpack bitWidth buf.length numValues
  let (out, inPos, inBytes) := unpackBatches bitWidth buf (valuesToRead / 32) 0 buf.length
  let remainderValues := valuesToRead % 32
  if remainderValues > 0 then
    let (rest, inPos) := unpackUpTo31Values bitWidth buf inPos inBytes remainderValues tmpTail
    (out ++ rest, inPos, valuesToRead)
  else (out, inPos, valuesToRead)

/-! ### The loads of `UnpackValue` -/

theorem word32_eq (buf : List UInt8) (k : Nat) :
    word32 buf k = ofBytes buf / 2 ^ (32 * k) % 2 ^ 32 := by
  rw [word32, ofBytes_window, show 8 * (4 * k) = 32 * k by ring]

theorem word64_eq (buf : List UInt8) (k : Nat) :
    word64 buf k = ofBytes buf / 2 ^ (32 * k) % 2 ^ 64 := by
  rw [word64, ofBytes_window, show 8 * (4 * k) = 32 * k by ring]

theorem and_mask (x : Nat) {bitWidth : Nat} (hw : bitWidth ≤ 64) :
    x &&& mask bitWidth = x % 2 ^ bitWidth := by
  unfold mask
  split_ifs with h64
  · subst h64
    exact Nat.and_two_pow_sub_one_eq_mod x 64
  · exact Nat.and_two_pow_sub_one_eq_mod x bitWidth

theorem roundUpNumi32_of_lt {n : Nat} (h : n + 31 < 2 ^ 32) :
    (roundUpNumi32 n.toUInt32).toNat = (n + 31) / 32 := by
  have h' : n + 31 < 4294967296 := h
  simp [roundUpNumi32, UInt32.toNat_shiftRight, UInt32.toNat_add, Nat.shiftRight_eq_div_pow,
    Nat.mod_eq_of_lt h']

section Layout

variable {bitWidth valueIdx : Nat} (fullBatch : Bool)

theorem layout_spec (hw : bitWidth ≤ 64) (hi : valueIdx < 32) :
    (layout bitWidth valueIdx fullBatch).firstWordIdx = valueIdx * bitWidth / 32 ∧
      (layout bitWidth valueIdx fullBatch).firstBitOffset = valueIdx * bitWidth % 32 ∧
      (layout bitWidth valueIdx fullBatch).wordsToRead =
        (valueIdx * bitWidth + bitWidth + 31) / 32 - valueIdx * bitWidth / 32 := by
  have hbits : valueIdx * bitWidth ≤ 31 * 64 :=
    Nat.mul_le_mul (by omega) hw
  refine ⟨rfl, ?_, ?_⟩
  · show valueIdx * bitWidth - valueIdx * bitWidth / 32 * 32 = valueIdx * bitWidth % 32
    omega
  · show (roundUpNumi32 (valueIdx * bitWidth + bitWidth).toUInt32).toNat - _ = _
    rw [roundUpNumi32_of_lt (by omega)]

theorem wordsToRead_of_read32Bits {bitWidth valueIdx : Nat} {fullBatch : Bool}
    (h : (layout bitWidth valueIdx fullBatch).read32Bits = true) :
    (layout bitWidth valueIdx fullBatch).wordsToRead = 1 := by
  simp only [layout, Bool.and_eq_true, decide_eq_true_eq] at h ⊢
  exact h.1

end Layout

theorem splice_words (Y off : Nat) {w : Nat} (hoff : off < 32) (hw : w ≤ 64) :
    (Y % 2 ^ 64 / 2 ^ off ||| ((Y / 2 ^ 64 % 2 ^ 32) <<< (64 - off)) % 2 ^ 64) % 2 ^ w =
      Y / 2 ^ off % 2 ^ w := by
  apply Nat.eq_of_testBit_eq
  intro j
  simp only [Nat.testBit_mod_two_pow, Nat.testBit_or, Nat.testBit_div_two_pow,
    Nat.testBit_shiftLeft]
  by_cases hj : j < w
  · by_cases hlow : j + off < 64
    · simp [hj, hlow, show ¬ 64 - off ≤ j by omega]
    · have hj' : j - (64 - off) + 64 = j + off := by omega
      simp [hj, hlow, show 64 - off ≤ j by omega, show j < 64 by omega,
        show j - (64 - off) < 32 by omega, hj']
  · simp [hj]

theorem unpackValue_eq {bitWidth valueIdx : Nat} (hw : bitWidth ≤ 64) (hi : valueIdx < 32)
    (fullBatch : Bool) (buf : List UInt8) :
    unpackValue bitWidth valueIdx fullBatch buf =
      ofBytes buf / 2 ^ (bitWidth * valueIdx) % 2 ^ bitWidth := by
  unfold unpackValue
  split_ifs with h0
  · subst h0
    simp [Nat.mod_one]
  obtain ⟨hfw, hoff, hwords⟩ := layout_spec fullBatch hw hi
  set l := layout bitWidth valueIdx fullBatch with hl
  set Y := ofBytes buf / 2 ^ (32 * l.firstWordIdx)
  have hY : ofBytes buf / 2 ^ (bitWidth * valueIdx) = Y / 2 ^ l.firstBitOffset := by
    rw [Nat.div_div_eq_div_mul, ← pow_add, hfw, hoff]
    congr 2
    rw [Nat.mul_comm bitWidth]
    omega
  rw [hY]
  dsimp only
  split_ifs with h32 h3
  · have hone : l.firstBitOffset + bitWidth ≤ 32 := by
      have := wordsToRead_of_read32Bits h32
      rw [← hl] at this
      omega
    rw [and_mask _ hw, Nat.shiftRight_eq_div_pow, word32_eq, mod_two_pow_div_mod _ hone]
  · have hthird : word32 buf (l.firstWordIdx + 2) = Y / 2 ^ 64 % 2 ^ 32 := by
      rw [word32_eq, Nat.div_div_eq_div_mul, ← pow_add]
      ring_nf
    rw [and_mask _ hw, Nat.shiftRight_eq_div_pow, word64_eq, hthird]
    exact splice_words Y l.firstBitOffset (by omega) hw
  · have htwo : l.firstBitOffset + bitWidth ≤ 64 := by omega
    rw [and_mask _ hw, Nat.shiftRight_eq_div_pow, word64_eq, mod_two_pow_div_mod _ htwo]


/-! ### Whole and partial batches -/

section Batches

variable {bitWidth : Nat} (buf : List UInt8)

theorem field_drop (j i : Nat) :
    ofBytes (buf.drop (4 * bitWidth * j)) / 2 ^ (bitWidth * i) % 2 ^ bitWidth =
      ofBytes buf / 2 ^ (bitWidth * (32 * j + i)) % 2 ^ bitWidth := by
  have hpow : (256 : Nat) ^ (4 * bitWidth * j) * 2 ^ (bitWidth * i) =
      2 ^ (bitWidth * (32 * j + i)) := by
    rw [show (256 : Nat) = 2 ^ 8 by norm_num, ← pow_mul, ← pow_add]
    ring_nf
  rw [ofBytes_drop, Nat.div_div_eq_div_mul, hpow]

theorem unpack32Values_eq (hw : bitWidth ≤ 64) (j : Nat) :
    unpack32Values bitWidth buf (4 * bitWidth * j) =
      ((List.range 32).map fun i => ofBytes buf / 2 ^ (bitWidth * (32 * j + i)) % 2 ^ bitWidth,
        4 * bitWidth * (j + 1)) := by
  have hbytes : (roundUpNumBytes (32 * bitWidth).toUInt32).toNat = 4 * bitWidth := by
    rw [roundUpNumBytes_of_lt (by omega)]
    omega
  simp only [unpack32Values, hbytes]
  congr 1
  · apply List.map_congr_left
    intro i hi
    rw [unpackValue_eq hw (List.mem_range.mp hi), field_drop]

theorem unpackBatches_eq (hw : bitWidth ≤ 64) (n : Nat) :
    ∀ (j : Nat) (inBytes : Int), unpackBatches bitWidth buf n (4 * bitWidth * j) inBytes =
      ((List.range (32 * n)).map fun i => ofBytes buf / 2 ^ (bitWidth * (32 * j + i)) % 2 ^ bitWidth,
        4 * bitWidth * (j + n), inBytes - n * ((4 * bitWidth : Nat) : Int)) := by
  induction n with
  | zero =>
    intro j inBytes
    simp [unpackBatches]
  | succ n ih =>
    intro j inBytes
    have h4 : 32 * bitWidth / 8 = 4 * bitWidth := by omega
    rw [unpackBatches, unpack32Values_eq buf hw j]
    dsimp only
    rw [h4, ih (j + 1)]
    simp only [Prod.mk.injEq]
    refine ⟨?_, by ring, by push_cast; ring⟩
    rw [show 32 * (n + 1) = 32 + 32 * n by ring, List.range_add, List.map_append, List.map_map]
    congr 2
    funext i
    simp only [Function.comp]
    ring_nf

theorem unpackUpTo31Values_eq (hw : bitWidth ≤ 64) {r : Nat} (hr : r < 32) (j : Nat)
    (inBytes : Int) (hin : 4 * bitWidth * j + (r * bitWidth + 7) / 8 ≤ buf.length)
    (tmpTail : List UInt8) :
    unpackUpTo31Values bitWidth buf (4 * bitWidth * j) inBytes r tmpTail =
      ((List.range r).map fun i => ofBytes buf / 2 ^ (bitWidth * (32 * j + i)) % 2 ^ bitWidth,
        4 * bitWidth * j + (r * bitWidth + 7) / 8) := by
  have hrw : r * bitWidth ≤ 31 * 64 := Nat.mul_le_mul (by omega) hw
  have hbytes : (roundUpNumBytes (r * bitWidth).toUInt32).toNat = (r * bitWidth + 7) / 8 :=
    roundUpNumBytes_of_lt (by omega)
  simp only [unpackUpTo31Values, hbytes]
  congr 1
  apply List.map_congr_left
  intro i hi
  have hi : i < r := List.mem_range.mp hi
  rw [unpackValue_eq hw (by omega), ← field_drop]
  split_ifs
  · have hlen : (r * bitWidth + 7) / 8 ≤ (buf.drop (4 * bitWidth * j)).length := by
      rw [List.length_drop]
      omega
    have hbits : bitWidth * i + bitWidth ≤ 8 * ((r * bitWidth + 7) / 8) := by
      have : (i + 1) * bitWidth ≤ r * bitWidth := Nat.mul_le_mul_right _ hi
      rw [Nat.add_mul, one_mul, Nat.mul_comm i] at this
      omega
    exact div_mod_congr (ofBytes_take_append_mod hlen tmpTail) hbits
  · rfl

end Batches

/-! ### `UnpackValues` -/

theorem numValuesToUnpack_covered {bitWidth len numValues : Nat}
    (hcover : numValues * bitWidth + 7 < 2 ^ 32 ∨ (numValues * bitWidth + 7) / 8 ≤ len) :
    (numValuesToUnpack bitWidth len numValues * bitWidth + 7) / 8 ≤ len := by
  rcases hcover with hlt | hfits
  · unfold numValuesToUnpack
    rw [roundUpNumBytes_of_lt hlt]
    split_ifs with h
    · rcases h with h0 | h
      · subst h0
        simp
      · exact h
    · have hdiv : len * 8 / bitWidth * bitWidth ≤ len * 8 := Nat.div_mul_le_self _ _
      omega
  · rw [numValuesToUnpack_of_fits hfits]
    exact hfits

theorem unpackValues_snd {bitWidth : Nat} (hw : bitWidth ≤ 64) (buf : List UInt8)
    (numValues : Nat) (tmpTail : List UInt8) :
    (unpackValues bitWidth buf numValues tmpTail).2 =
      ((numValuesToUnpack bitWidth buf.length numValues * bitWidth + 7) / 8,
        numValuesToUnpack bitWidth buf.length numValues) := by
  set m := numValuesToUnpack bitWidth buf.length numValues with hm_def
  have hsplit : m * bitWidth = 32 * (m / 32 * bitWidth) + m % 32 * bitWidth := by
    conv_lhs => rw [← Nat.div_add_mod m 32]
    ring
  have hwhole : 4 * bitWidth * (m / 32) = 4 * (m / 32 * bitWidth) := by ring
  have hbatches := unpackBatches_eq buf hw (m / 32) 0 buf.length
  simp only [Nat.mul_zero, Nat.zero_add] at hbatches
  have hrw : m % 32 * bitWidth ≤ 31 * 64 := Nat.mul_le_mul (by omega) hw
  simp only [unpackValues, ← hm_def, hbatches]
  by_cases hr0 : m % 32 > 0
  · rw [if_pos hr0]
    simp only [unpackUpTo31Values, roundUpNumBytes_of_lt (by omega : m % 32 * bitWidth + 7 < 2 ^ 32)]
    congr 1
    omega
  · have hnone : m % 32 * bitWidth = 0 := by rw [show m % 32 = 0 by omega, Nat.zero_mul]
    rw [if_neg hr0]
    dsimp only
    congr 1
    omega

theorem unpackValues_eq_unpackBatch {bitWidth : Nat} (hw : bitWidth ≤ 64) (buf : List UInt8)
    (numValues : Nat)
    (hcover : numValues * bitWidth + 7 < 2 ^ 32 ∨ (numValues * bitWidth + 7) / 8 ≤ buf.length)
    (tmpTail : List UInt8) :
    (unpackValues bitWidth buf numValues tmpTail).1 = (unpackBatch ⟨buf⟩ bitWidth numValues).1 ∧
      buf.drop (unpackValues bitWidth buf numValues tmpTail).2.1 =
        (unpackBatch ⟨buf⟩ bitWidth numValues).2.buffer ∧
      (unpackValues bitWidth buf numValues tmpTail).2.2 =
        numValuesToUnpack bitWidth buf.length numValues := by
  have hsnd := unpackValues_snd hw buf numValues tmpTail
  refine ⟨?_, by rw [hsnd]; rfl, by rw [hsnd]⟩
  have hm := numValuesToUnpack_covered hcover
  set m := numValuesToUnpack bitWidth buf.length numValues with hm_def
  have hsplit : m * bitWidth = 32 * (m / 32 * bitWidth) + m % 32 * bitWidth := by
    conv_lhs => rw [← Nat.div_add_mod m 32]
    ring
  have hrange : List.range m =
      List.range (32 * (m / 32)) ++ (List.range (m % 32)).map (32 * (m / 32) + ·) := by
    rw [← List.range_add, Nat.div_add_mod]
  have hbatches := unpackBatches_eq buf hw (m / 32) 0 buf.length
  simp only [Nat.mul_zero, Nat.zero_add] at hbatches
  simp only [unpackValues, unpackBatch, ← hm_def, hbatches]
  by_cases hr0 : m % 32 > 0
  · have hin : 4 * bitWidth * (m / 32) + (m % 32 * bitWidth + 7) / 8 ≤ buf.length := by
      have hwhole : 4 * bitWidth * (m / 32) = 4 * (m / 32 * bitWidth) := by ring
      omega
    rw [if_pos hr0, unpackUpTo31Values_eq buf hw (Nat.mod_lt _ (by norm_num)) (m / 32) _ hin]
    dsimp only
    rw [hrange, List.map_append, List.map_map]
    rfl
  · rw [if_neg hr0]
    dsimp only
    rw [hrange, show m % 32 = 0 by omega, List.range_zero, List.map_nil, List.append_nil]

theorem numValuesToUnpack_of_wrap {bitWidth numValues : Nat} (hwrap : 2 ^ 32 ∣ numValues * bitWidth)
    (inBytes : Nat) : numValuesToUnpack bitWidth inBytes numValues = numValues := by
  have hzero := roundUpNumBytes_of_dvd hwrap
  exact if_pos (Or.inr (by omega))

/-- When `num_values * bit_width` is a multiple of `2^32`, `RoundUpNumBytes` sees no bits, so
`UnpackValues` counts every value asked for although the input holds fewer: the count returned
exceeds `in_bytes * 8 / bit_width`, and the position returned lies past the input's end. -/
theorem unpackValues_count_wraps {bitWidth numValues : Nat} (hw0 : 0 < bitWidth)
    (hw : bitWidth ≤ 64) (hwrap : 2 ^ 32 ∣ numValues * bitWidth) (buf : List UInt8)
    (hshort : buf.length < (numValues * bitWidth + 7) / 8) (tmpTail : List UInt8) :
    (unpackValues bitWidth buf numValues tmpTail).2.2 = numValues ∧
      buf.length * 8 / bitWidth < numValues ∧
      buf.length < (unpackValues bitWidth buf numValues tmpTail).2.1 := by
  have hsnd := unpackValues_snd hw buf numValues tmpTail
  rw [numValuesToUnpack_of_wrap hwrap] at hsnd
  rw [hsnd]
  refine ⟨rfl, ?_, hshort⟩
  rw [Nat.div_lt_iff_lt_mul hw0]
  omega

theorem unpackValues_count_wraps_empty :
    (unpackValues 64 [] (2 ^ 26) []).2.2 = 2 ^ 26 ∧ ([] : List UInt8).length * 8 / 64 < 2 ^ 26 ∧
      ([] : List UInt8).length < (unpackValues 64 [] (2 ^ 26) []).2.1 :=
  unpackValues_count_wraps (by norm_num) le_rfl ⟨1, by norm_num⟩ [] (by norm_num) []

/-! ### The loads stay within the input -/

section Bounds

variable {bitWidth valueIdx : Nat}

theorem read32Bits_eq (fullBatch : Bool) :
    (layout bitWidth valueIdx fullBatch).read32Bits =
      (decide ((layout bitWidth valueIdx fullBatch).wordsToRead = 1) &&
        (!(fullBatch && decide (valueIdx * bitWidth -
          (layout bitWidth valueIdx fullBatch).firstBitOffset + 64 ≤ bitWidth * 32)) ||
          isPowerOf2 bitWidth)) := rfl

theorem readEnd_full (hw0 : 0 < bitWidth) (hw : bitWidth ≤ 64) (hi : valueIdx < 32) :
    (layout bitWidth valueIdx true).readEnd ≤ 4 * bitWidth := by
  obtain ⟨hfw, hoff, hwords⟩ := layout_spec true hw hi
  have hend : valueIdx * bitWidth + bitWidth ≤ 32 * bitWidth := by
    have := Nat.mul_le_mul_right bitWidth (show valueIdx + 1 ≤ 32 by omega)
    rw [Nat.add_mul, one_mul] at this
    exact this
  unfold Layout.readEnd
  split_ifs with h32 h3
  · omega
  · omega
  · rw [read32Bits_eq] at h32
    by_cases hone : (layout bitWidth valueIdx true).wordsToRead = 1
    · simp only [hone, decide_true, Bool.true_and, Bool.or_eq_true, Bool.not_eq_true', not_or,
        decide_eq_false_iff_not, not_not] at h32
      omega
    · omega

theorem readEnd_partial (hw0 : 0 < bitWidth) (hw : bitWidth ≤ 64) {numValues : Nat}
    (hi : valueIdx < numValues) (hn : numValues < 32) :
    (layout bitWidth valueIdx false).readEnd ≤ ((numValues * bitWidth + 7) / 8 + 3) / 4 * 4 := by
  obtain ⟨hfw, hoff, hwords⟩ := layout_spec false hw (by omega : valueIdx < 32)
  have hend : valueIdx * bitWidth + bitWidth ≤ numValues * bitWidth := by
    have := Nat.mul_le_mul_right bitWidth (show valueIdx + 1 ≤ numValues by omega)
    rw [Nat.add_mul, one_mul] at this
    exact this
  unfold Layout.readEnd
  have h32 : (layout bitWidth valueIdx false).read32Bits =
      decide ((layout bitWidth valueIdx false).wordsToRead = 1) := by
    rw [read32Bits_eq]
    simp
  rw [h32]
  split_ifs with hone h3
  · simp only [decide_eq_true_eq] at hone
    omega
  · omega
  · simp only [decide_eq_true_eq] at hone
    omega

theorem roundUp_le_tmpBufferSize {numValues : Nat} (hn : numValues < 32) :
    ((numValues * bitWidth + 7) / 8 + 3) / 4 * 4 ≤ bitWidth * 32 / 8 := by
  have := Nat.mul_le_mul_right bitWidth (show numValues ≤ 31 by omega)
  omega

end Bounds

end Impala.BitPacking

namespace Impala.BitWriter

def putValues (w : BitWriter) (numBits : Nat) : List Nat → BitWriter
  | [] => w
  | v :: vs => (w.putValue v numBits).2.putValues numBits vs

theorem putValues_eq {numBits : Nat} {vs : List Nat} (hvs : ∀ v ∈ vs, v < 2 ^ numBits) :
    ∀ w : BitWriter, w.offset + numBits * vs.length ≤ w.maxBytes * 8 →
      w.putValues numBits vs = { w with
        bits := w.bits ||| Nat.ofDigits (2 ^ numBits) vs <<< w.offset
        offset := w.offset + numBits * vs.length } := by
  induction vs with
  | nil =>
    intro w _
    simp [putValues]
  | cons v vs ih =>
    intro w hfit
    have hv : v < 2 ^ numBits := hvs v List.mem_cons_self
    rw [List.length_cons, Nat.mul_succ] at hfit
    have hput : w.putValue v numBits =
        (true, { w with bits := w.bits ||| v <<< w.offset, offset := w.offset + numBits }) := by
      rw [putValue, if_neg (by omega)]
    rw [putValues, hput]
    dsimp only
    rw [ih (fun u hu => hvs u (List.mem_cons_of_mem v hu)) _ (by dsimp only; omega)]
    dsimp only
    have hjoin : (v + 2 ^ numBits * Nat.ofDigits (2 ^ numBits) vs) <<< w.offset =
        v <<< w.offset ||| Nat.ofDigits (2 ^ numBits) vs <<< (w.offset + numBits) := by
      rw [add_comm v, show 2 ^ numBits * Nat.ofDigits (2 ^ numBits) vs =
        Nat.ofDigits (2 ^ numBits) vs <<< numBits by rw [Nat.shiftLeft_eq, mul_comm],
        Nat.shiftLeft_add_eq_or_of_lt hv, Nat.shiftLeft_or_distrib, ← Nat.shiftLeft_add,
        Nat.lor_comm, add_comm numBits]
    rw [Nat.ofDigits_cons, hjoin, Nat.or_assoc, List.length_cons, Nat.mul_succ]
    congr 1
    ring

end Impala.BitWriter

namespace Impala.BitPacking

open LittleEndian BatchedBitReader

theorem unpackValues_putValues {bitWidth maxBytes : Nat} (hw : bitWidth ≤ 64) {vs : List Nat}
    (hvs : ∀ v ∈ vs, v < 2 ^ bitWidth) (hfit : bitWidth * vs.length ≤ maxBytes * 8)
    (tmpTail : List UInt8) :
    (unpackValues bitWidth ((BitWriter.create maxBytes).putValues bitWidth vs).align.bytes
      vs.length tmpTail).1 = vs := by
  set X := Nat.ofDigits (2 ^ bitWidth) vs
  set L := (bitWidth * vs.length + 7) / 8
  have hput := BitWriter.putValues_eq hvs (BitWriter.create maxBytes)
    (by simpa [BitWriter.create] using hfit)
  have hbytes : ((BitWriter.create maxBytes).putValues bitWidth vs).align.bytes = toBytes X L := by
    rw [hput]
    simp only [BitWriter.align, BitWriter.bytes, BitWriter.bytesWritten, BitWriter.create]
    congr 1
    · simp [X]
    · omega
  have hlen : (toBytes X L).length = L := length_toBytes X L
  have hcover : (vs.length * bitWidth + 7) / 8 ≤ (toBytes X L).length := by
    rw [hlen, Nat.mul_comm]
  rw [hbytes, (unpackValues_eq_unpackBatch hw _ vs.length (Or.inr hcover) tmpTail).1]
  simp only [unpackBatch, numValuesToUnpack_of_fits hcover]
  apply List.ext_getElem (by simp)
  intro i hi _
  rw [List.length_map, List.length_range] at hi
  have hbits : bitWidth * i + bitWidth ≤ 8 * L := by
    have := Nat.mul_le_mul_left bitWidth (show i + 1 ≤ vs.length by omega)
    rw [Nat.mul_add, mul_one] at this
    omega
  have hpow : (256 : Nat) ^ L = 2 ^ (8 * L) := by rw [pow_mul]; norm_num
  simp only [List.getElem_map, List.getElem_range]
  rw [ofBytes_toBytes, hpow, mod_two_pow_div_mod X hbits]
  simpa using unpack_ofDigits hvs 0 hi

/-- Values of `bit_width` bits, for a width up to 64, written one after another with
`BitWriter::PutValue` from an empty buffer with room for them and flushed, come back from
`UnpackValues` in order, whatever the rest of `tmp_buffer` holds. Every load of `UnpackValue`
stays within the bytes its caller guarantees: `4 * BIT_WIDTH` for a full batch of 32 values,
and for a batch of `n < 32` values their bytes rounded up to whole words, which fit in
`tmp_buffer`. -/
theorem unpackValues_round_trip_in_bounds {bitWidth : Nat} (hw : bitWidth ≤ 64) :
    (∀ (maxBytes : Nat) (vs : List Nat) (tmpTail : List UInt8), (∀ v ∈ vs, v < 2 ^ bitWidth) →
      bitWidth * vs.length ≤ maxBytes * 8 →
      (unpackValues bitWidth ((BitWriter.create maxBytes).putValues bitWidth vs).align.bytes
        vs.length tmpTail).1 = vs) ∧
    (0 < bitWidth → ∀ valueIdx < 32, (layout bitWidth valueIdx true).readEnd ≤ 4 * bitWidth) ∧
    (0 < bitWidth → ∀ numValues < 32, ∀ valueIdx < numValues,
      (layout bitWidth valueIdx false).readEnd ≤ ((numValues * bitWidth + 7) / 8 + 3) / 4 * 4 ∧
        ((numValues * bitWidth + 7) / 8 + 3) / 4 * 4 ≤ bitWidth * 32 / 8) :=
  ⟨fun _ _ tmpTail hvs hfit => unpackValues_putValues hw hvs hfit tmpTail,
    fun hw0 _ hi => readEnd_full hw0 hw hi,
    fun hw0 _ hn _ hi => ⟨ readEnd_partial hw0 hw hi hn, roundUp_le_tmpBufferSize hn⟩⟩

theorem unpackValues_round_trip_in_bounds_three :
    (unpackValues 3 ((BitWriter.create 2).putValues 3 [5, 0, 7, 2]).align.bytes 4 []).1 =
      [5, 0, 7, 2] :=
  (@unpackValues_round_trip_in_bounds 3 (by norm_num)).1 2 _ [] (by decide)
    (by norm_num)

end Impala.BitPacking
