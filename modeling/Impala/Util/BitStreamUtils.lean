import Impala.Lib.LittleEndian
import Impala.Lib.MachineInt
import Mathlib.Data.Nat.Size
import Mathlib.Data.Nat.Bitwise

/-!
The bit stream writer and reader (util/bit-stream-utils.h, bit-stream-utils.inline.h, with
`BitPacking::UnpackValues` of util/bit-packing.inline.h).

`BitWriter` packs values from the lowest bit up. Its 64-bit `buffered_values_` and the bytes
already copied to `buffer_` are one number here, and `byte_offset_ * 8 + bit_offset_` one
bit offset: every observable of the writer (the bytes, `bytes_written()`, whether a write
fits) is a function of those two. Bytes reserved by `GetNextBytePtr` read as zero until the
caller writes them.

`BatchedBitReader` is the list of bytes from `buffer_pos_` to `buffer_end_`. Reading the
writer's formats back is proved here once: ULEB-128, whole bytes, and bit-packed values
taken a multiple of eight at a time.
-/

set_option autoImplicit false

namespace Impala

open LittleEndian

/-- `BitWriter`: the buffer length `max_bytes_`, the bits written so far, and the bit offset
`byte_offset_ * 8 + bit_offset_`. -/
structure BitWriter where
  maxBytes : Nat
  bits : Nat
  offset : Nat

namespace BitWriter

def create (bufferLen : Nat) : BitWriter := ⟨bufferLen, 0, 0⟩

def bytesWritten (w : BitWriter) : Nat := (w.offset + 7) / 8

/-- `PutValue(v, num_bits)`, for `v < 2^num_bits` (its `DCHECK`). -/
def putValue (w : BitWriter) (v numBits : Nat) : Bool × BitWriter :=
  if w.offset + numBits > w.maxBytes * 8 then (false, w)
  else (true, { w with bits := w.bits ||| v <<< w.offset, offset := w.offset + numBits })

/-- `Flush(true)`: the partial byte is closed with zero bits. `Flush(false)` only copies
`buffered_values_` out and changes nothing here. -/
def align (w : BitWriter) : BitWriter := { w with offset := 8 * w.bytesWritten }

/-- `GetNextBytePtr(num_bytes)`: the index of the reserved bytes, or `NULL` when they do not
fit; the writer is aligned either way. -/
def getNextBytePtr (w : BitWriter) (numBytes : Nat) : Option Nat × BitWriter :=
  let w := w.align
  if w.offset / 8 + numBytes > w.maxBytes then (none, w)
  else (some (w.offset / 8), { w with offset := w.offset + 8 * numBytes })

def writeAt (w : BitWriter) (ptr val : Nat) : BitWriter :=
  { w with bits := w.bits ||| val <<< (8 * ptr) }

def putAligned (w : BitWriter) (val numBytes : Nat) : Bool × BitWriter :=
  match w.getNextBytePtr numBytes with
  | (none, w) => (false, w)
  | (some ptr, w) => (true, w.writeAt ptr (val % 2 ^ (8 * numBytes)))

/-- `PutUleb128(v)`, for `v` within its unsigned type: while bits above the low seven are
set, the low seven go out with the top bit set. Every byte is attempted even after one
failed, and the result is the conjunction. -/
def putUleb128 (w : BitWriter) (v : Nat) : Bool × BitWriter :=
  if v < 128 then w.putAligned v 1
  else
    let (ok, w) := w.putAligned (v % 128 + 128) 1
    let (rest, w) := w.putUleb128 (v / 128)
    (ok && rest, w)
termination_by v
decreasing_by omega

/-- `(v_unsigned << 1) ^ (v >> (bit_length - 1))` over `width` bits: the value doubled in
the unsigned type, against the arithmetic shift's all ones or zero. -/
def zigzag (width : Nat) (v : Int) : Nat :=
  (2 * (v % 2 ^ width).toNat % 2 ^ width) ^^^ (if v < 0 then 2 ^ width - 1 else 0)

def putZigZagInteger (w : BitWriter) (width : Nat) (v : Int) : Bool × BitWriter :=
  w.putUleb128 (zigzag width v)

def numberOfSignificantBits (value : Nat) : Nat := value.size

def vlqRequiredSize (value : Nat) : Nat :=
  if value = 0 then 1 else (numberOfSignificantBits value + 6) / 7

def zigZagRequiredBytes (width : Nat) (value : Int) : Nat :=
  vlqRequiredSize (zigzag width value)

theorem one_le_vlqRequiredSize (value : Nat) : 1 ≤ vlqRequiredSize value := by
  unfold vlqRequiredSize numberOfSignificantBits
  split
  · exact le_rfl
  · have : 0 < value.size := Nat.size_pos.2 (by omega)
    omega

theorem two_le_vlqRequiredSize {value : Nat} (h : 128 ≤ value) : 2 ≤ vlqRequiredSize value := by
  unfold vlqRequiredSize numberOfSignificantBits
  have hsize : 8 ≤ value.size := Nat.lt_size.2 (by omega)
  rw [if_neg (by omega)]
  omega

theorem size_eq_size_div_128 {value : Nat} (h : 128 ≤ value) :
    value.size = (value / 128).size + 7 := by
  have hq : 0 < value / 128 := Nat.div_pos h (by norm_num)
  have hlow : value / 128 < 2 ^ (value / 128).size := Nat.lt_size_self _
  have hhigh : 2 ^ ((value / 128).size - 1) ≤ value / 128 :=
    Nat.lt_size.1 (by have := Nat.size_pos.2 hq; omega)
  have hle : value.size ≤ (value / 128).size + 7 := by
    rw [Nat.size_le, pow_add]
    rw [Nat.div_lt_iff_lt_mul (by norm_num)] at hlow
    exact hlow
  have hge : (value / 128).size + 6 < value.size := by
    rw [Nat.lt_size]
    have hpos : 1 ≤ (value / 128).size := Nat.size_pos.2 hq
    calc 2 ^ ((value / 128).size + 6) = 2 ^ ((value / 128).size - 1) * 128 := by
          rw [show (value / 128).size + 6 = (value / 128).size - 1 + 7 by omega, pow_add]; norm_num
      _ ≤ value / 128 * 128 := Nat.mul_le_mul_right _ hhigh
      _ ≤ value := Nat.div_mul_le_self _ _
  omega

theorem length_uleb128 (value : Nat) : (uleb128 value).length = vlqRequiredSize value := by
  induction value using Nat.strong_induction_on with
  | _ value ih =>
  rw [uleb128]
  unfold vlqRequiredSize numberOfSignificantBits
  by_cases hv : value < 128
  · rw [if_pos hv, List.length_singleton]
    split
    · rfl
    · have h1 : 0 < value.size := Nat.size_pos.2 (by omega)
      have h7 : value.size ≤ 7 := Nat.size_le.2 (by omega)
      omega
  · have hq : value / 128 ≠ 0 := by omega
    have hrest := ih (value / 128) (by omega)
    unfold vlqRequiredSize numberOfSignificantBits at hrest
    rw [if_neg hq] at hrest
    have hsize := size_eq_size_div_128 (by omega : 128 ≤ value)
    rw [if_neg hv, List.length_cons, hrest, if_neg (by omega)]
    omega

/-! ### ZigZag -/

section ZigZag

variable {w : Nat} {v : Int}

theorem zigzag_lt (width : Nat) (v : Int) : zigzag width v < 2 ^ width := by
  have hpos : 0 < 2 ^ width := Nat.two_pow_pos width
  unfold zigzag
  apply Nat.xor_lt_two_pow (Nat.mod_lt _ hpos)
  split <;> omega

theorem zigzag_of_nonneg (h0 : 0 ≤ v) (h2 : v < 2 ^ w) : zigzag (w + 1) v = 2 * v.toNat := by
  have hp : (2 : Int) ^ (w + 1) = 2 * 2 ^ w := by rw [pow_succ, mul_comm]
  have hmod : (v % 2 ^ (w + 1)).toNat = v.toNat := by rw [Int.emod_eq_of_lt h0 (by omega)]
  have hlt : 2 * v.toNat < 2 ^ (w + 1) := by
    have : ((2 * v.toNat : Nat) : Int) < ((2 ^ (w + 1) : Nat) : Int) := by push_cast; omega
    exact_mod_cast this
  simp only [zigzag, hmod, Nat.mod_eq_of_lt hlt, if_neg (not_lt.2 h0), Nat.xor_zero]

theorem zigzag_of_neg (h1 : -2 ^ w ≤ v) (h0 : v < 0) : zigzag (w + 1) v = 2 * (-v).toNat - 1 := by
  have hp : (2 : Int) ^ (w + 1) = 2 * 2 ^ w := by rw [pow_succ, mul_comm]
  have hpn : (2 : Nat) ^ (w + 1) = 2 * 2 ^ w := by rw [pow_succ, mul_comm]
  obtain ⟨n, hn⟩ : ∃ n : Nat, v = -((n : Int) + 1) := ⟨(-v - 1).toNat, by omega⟩
  subst hn
  have hcw : ((2 ^ w : Nat) : Int) = 2 ^ w := by push_cast; rfl
  have hcw1 : ((2 ^ (w + 1) : Nat) : Int) = 2 ^ (w + 1) := by push_cast; rfl
  have hn : n < 2 ^ w := by omega
  have hwrap : (-((n : Int) + 1) + 2 ^ (w + 1)) % 2 ^ (w + 1) = -((n : Int) + 1) % 2 ^ (w + 1) :=
    Int.emod_eq_add_self_emod.symm
  rw [Int.emod_eq_of_lt (by omega) (by omega)] at hwrap
  have hmod : ((-((n : Int) + 1)) % 2 ^ (w + 1)).toNat = 2 ^ (w + 1) - (n + 1) := by
    rw [← hwrap]
    omega
  have hdbl : 2 * (2 ^ (w + 1) - (n + 1)) % 2 ^ (w + 1) = 2 ^ (w + 1) - 2 * (n + 1) := by
    rw [show 2 * (2 ^ (w + 1) - (n + 1)) = 2 ^ (w + 1) - 2 * (n + 1) + 2 ^ (w + 1) by omega,
      Nat.add_mod_right, Nat.mod_eq_of_lt (by omega)]
  simp only [zigzag, hmod, hdbl, if_pos h0]
  rw [MachineInt.xor_two_pow_sub_one (by omega)]
  omega

end ZigZag

def bytes (w : BitWriter) : List UInt8 := toBytes w.bits w.bytesWritten

/-- A writer at a byte boundary whose bits stop at its offset, as `BitWriter(buffer, len)`
leaves it and `PutUleb128` keeps it. -/
structure Aligned extends BitWriter where
  aligned : offset % 8 = 0
  clean : bits < 2 ^ offset

def Aligned.create (bufferLen : Nat) : Aligned :=
  { BitWriter.create bufferLen with aligned := rfl, clean := Nat.one_pos }

section Aligned

variable {w : BitWriter} {n : Nat}

theorem align_of_aligned (h8 : w.offset % 8 = 0) : w.align = w := by
  simp only [align, bytesWritten]
  congr
  omega

theorem getNextBytePtr_of_fits (h8 : w.offset % 8 = 0) (hfit : w.offset / 8 + n ≤ w.maxBytes) :
    w.getNextBytePtr n = (some (w.offset / 8), { w with offset := w.offset + 8 * n }) := by
  simp [getNextBytePtr, align_of_aligned h8, not_lt.2 hfit]

theorem putAligned_of_fits (h8 : w.offset % 8 = 0) (hfit : w.offset / 8 + n ≤ w.maxBytes)
    (val : Nat) :
    w.putAligned val n =
      (true, { w with
        bits := w.bits ||| (val % 2 ^ (8 * n)) <<< w.offset
        offset := w.offset + 8 * n }) := by
  simp [putAligned, getNextBytePtr_of_fits h8 hfit, writeAt,
    Nat.mul_div_cancel' (Nat.dvd_of_mod_eq_zero h8)]

theorem putUleb128_of_fits (v : Nat) :
    ∀ {w : BitWriter}, w.offset % 8 = 0 → w.offset / 8 + (uleb128 v).length ≤ w.maxBytes →
      w.putUleb128 v = (true, { w with
        bits := w.bits ||| ofBytes (uleb128 v) <<< w.offset
        offset := w.offset + 8 * (uleb128 v).length }) := by
  induction v using Nat.strong_induction_on with
  | _ v ih =>
  intro w h8 hfit
  rw [putUleb128]
  by_cases hv : v < 128
  · have hbytes : uleb128 v = [UInt8.ofNat v] := by rw [uleb128, if_pos hv]
    rw [hbytes] at hfit ⊢
    rw [if_pos hv, putAligned_of_fits h8 (by simpa using hfit)]
    simp [UInt8.toNat_ofNat']
  · have hbytes : uleb128 v = UInt8.ofNat (v % 128 + 128) :: uleb128 (v / 128) := by
      rw [uleb128, if_neg hv]
    rw [hbytes] at hfit ⊢
    simp only [List.length_cons] at hfit
    have hlow : v % 128 + 128 < 2 ^ 8 := by omega
    let w1 : BitWriter := { w with
      bits := w.bits ||| (v % 128 + 128) <<< w.offset
      offset := w.offset + 8 }
    have h1 : w.putAligned (v % 128 + 128) 1 = (true, w1) := by
      rw [putAligned_of_fits h8 (by omega), Nat.mod_eq_of_lt (by simpa using hlow)]
    have h2 := ih (v / 128) (by omega) (w := w1) (by simp [w1]; omega) (by simp [w1]; omega)
    rw [if_neg hv, h1]
    dsimp only
    rw [h2]
    simp only [w1, Bool.and_self, List.length_cons, ofBytes_cons, UInt8.toNat_ofNat',
      Nat.mod_eq_of_lt hlow, Prod.mk.injEq, true_and]
    congr 1
    · have hjoin : (v % 128 + 128) ||| ofBytes (uleb128 (v / 128)) <<< 8 =
          v % 128 + 128 + 256 * ofBytes (uleb128 (v / 128)) := by
        rw [Nat.lor_comm, ← Nat.shiftLeft_add_eq_or_of_lt hlow, Nat.shiftLeft_eq]
        ring
      rw [Nat.or_assoc, add_comm w.offset 8, Nat.shiftLeft_add, ← Nat.shiftLeft_or_distrib, hjoin]
    · ring

end Aligned

theorem putUleb128_bytes (w : Aligned) (v : Nat)
    (hfit : w.offset / 8 + (uleb128 v).length ≤ w.maxBytes) :
    (w.putUleb128 v).2.bytes = w.bytes ++ uleb128 v ∧
      (w.putUleb128 v).2.offset % 8 = 0 ∧
      (w.putUleb128 v).2.bits < 2 ^ (w.putUleb128 v).2.offset := by
  obtain ⟨p, hp⟩ : ∃ p, w.offset = 8 * p := ⟨w.offset / 8, by have := w.aligned; omega⟩
  have hclean := w.clean
  rw [hp] at hclean
  have hjoin := ofBytes_toBytes_append_of_lt hclean (uleb128 v)
  rw [putUleb128_of_fits v w.aligned hfit]
  simp only [bytes, bytesWritten, hp]
  refine ⟨?_, by omega, ?_⟩
  · rw [show (8 * p + 8 * (uleb128 v).length + 7) / 8 = p + (uleb128 v).length by omega,
      show (8 * p + 7) / 8 = p by omega, toBytes_or_ofBytes_shiftLeft hclean]
  · have hbound := ofBytes_lt (toBytes w.bits p ++ uleb128 v)
    rw [hjoin, List.length_append, length_toBytes] at hbound
    calc w.bits ||| ofBytes (uleb128 v) <<< (8 * p) < 256 ^ (p + (uleb128 v).length) := hbound
      _ = 2 ^ (8 * p + 8 * (uleb128 v).length) := by rw [← Nat.mul_add, pow_mul]; norm_num

end BitWriter

/-- `BatchedBitReader`: the bytes from `buffer_pos_` to `buffer_end_`. -/
structure BatchedBitReader where
  buffer : List UInt8

namespace BatchedBitReader

def maxVlqByteLen (width : Nat) : Nat := (width + 6) / 7

def getBytes (r : BatchedBitReader) (numBytes : Nat) : Option (Nat × BatchedBitReader) :=
  if numBytes > r.buffer.length then none
  else some (ofBytes (r.buffer.take numBytes), ⟨r.buffer.drop numBytes⟩)

/-- The loop of `GetUleb128` for an unsigned type of `width` bits, from bit `shift` of the
value `v` read so far. -/
def getUleb128From (width shift v : Nat) (r : BatchedBitReader) :
    Option (Nat × BatchedBitReader) :=
  if shift ≥ maxVlqByteLen width * 7 then none
  else
    match r.getBytes 1 with
    | none => none
    | some (byte, r) =>
      let v := (v ||| (byte &&& 0x7F) <<< shift) % 2 ^ width
      if byte &&& 0x80 ≠ 0 then getUleb128From width (shift + 7) v r else some (v, r)
termination_by maxVlqByteLen width * 7 - shift

def getUleb128 (r : BatchedBitReader) (width : Nat) : Option (Nat × BatchedBitReader) :=
  getUleb128From width 0 0 r

def roundUpNumBytes (bits : UInt32) : UInt32 := (bits + 7) >>> 3

/-- `BitPacking::NumValuesToUnpack`: all the values asked for when the bytes hold them. The
product `num_values * bit_width` reaches `RoundUpNumBytes` as a `uint32_t`. -/
def numValuesToUnpack (bitWidth inBytes numValues : Nat) : Nat :=
  if bitWidth = 0 ∨ (roundUpNumBytes (numValues * bitWidth).toUInt32).toNat ≤ inBytes then numValues
  else inBytes * 8 / bitWidth

/-- `UnpackBatch(bit_width, num_values, v)`: the values read, and the reader past the bytes
they started in. -/
def unpackBatch (r : BatchedBitReader) (bitWidth numValues : Nat) :
    List Nat × BatchedBitReader :=
  let n := numValuesToUnpack bitWidth r.buffer.length numValues
  ((List.range n).map fun i => ofBytes r.buffer / 2 ^ (bitWidth * i) % 2 ^ bitWidth,
    ⟨r.buffer.drop ((n * bitWidth + 7) / 8)⟩)

/-- `SkipBatch(bit_width, num_values_to_skip)`. The product `bit_width * num_values_to_skip` is
an `int` that reaches `RoundUpNumBytes` as a `uint32_t`. -/
def skipBatch (r : BatchedBitReader) (bitWidth numValuesToSkip : Nat) :
    Option BatchedBitReader :=
  let skipBytes := (roundUpNumBytes (bitWidth * numValuesToSkip).toUInt32).toNat
  if skipBytes > r.buffer.length then none else some ⟨r.buffer.drop skipBytes⟩

theorem roundUpNumBytes_toNat (bits : UInt32) :
    (roundUpNumBytes bits).toNat = (bits.toNat + 7) % 2 ^ 32 / 8 := by
  simp [roundUpNumBytes, UInt32.toNat_shiftRight, UInt32.toNat_add, Nat.shiftRight_eq_div_pow]

theorem roundUpNumBytes_le (n : Nat) : (roundUpNumBytes n.toUInt32).toNat ≤ (n + 7) / 8 := by
  rw [roundUpNumBytes_toNat, Nat.toUInt32_eq, UInt32.toNat_ofNat']
  have h₁ : (n % 2 ^ 32 + 7) % 2 ^ 32 ≤ n % 2 ^ 32 + 7 := Nat.mod_le _ _
  have h₂ : n % 2 ^ 32 ≤ n := Nat.mod_le _ _
  omega

theorem roundUpNumBytes_of_lt {n : Nat} (h : n + 7 < 2 ^ 32) :
    (roundUpNumBytes n.toUInt32).toNat = (n + 7) / 8 := by
  rw [roundUpNumBytes_toNat, Nat.toUInt32_eq, UInt32.toNat_ofNat', Nat.mod_eq_of_lt (by omega : n < 2 ^ 32),
    Nat.mod_eq_of_lt h]

theorem roundUpNumBytes_of_dvd {n : Nat} (h : 2 ^ 32 ∣ n) : (roundUpNumBytes n.toUInt32).toNat = 0 := by
  rw [roundUpNumBytes_toNat, Nat.toUInt32_eq, UInt32.toNat_ofNat', Nat.mod_eq_zero_of_dvd h]
  norm_num

theorem skipBatch_of_wrap (r : BatchedBitReader) {bitWidth n : Nat} (h : 2 ^ 32 ∣ bitWidth * n) :
    r.skipBatch bitWidth n = some r := by
  simp only [skipBatch, roundUpNumBytes_of_dvd h, List.drop_zero]
  rw [if_neg (Nat.not_lt_zero _)]

theorem numValuesToUnpack_of_fits {bitWidth inBytes numValues : Nat}
    (h : (numValues * bitWidth + 7) / 8 ≤ inBytes) :
    numValuesToUnpack bitWidth inBytes numValues = numValues :=
  if_pos (Or.inr ((roundUpNumBytes_le _).trans h))

/-! ### Reading back what the writer's formats hold -/

theorem getBytes_toBytes_append (v n : Nat) (more : List UInt8) :
    getBytes ⟨toBytes v n ++ more⟩ n = some (v % 256 ^ n, ⟨more⟩) := by
  simp [getBytes, ofBytes_toBytes, List.drop_left' (length_toBytes v n)]

theorem and_0x7F (b : Nat) : b &&& 0x7F = b % 128 :=
  Nat.and_two_pow_sub_one_eq_mod b 7

theorem and_0x80_of_lt {b : Nat} (h : b < 128) : b &&& 0x80 = 0 := by
  rw [show (0x80 : Nat) = 2 ^ 7 by norm_num, Nat.and_two_pow,
    Nat.testBit_lt_two_pow (by simpa using h)]
  rfl

theorem and_0x80_add {b : Nat} (h : b < 128) : (b + 128) &&& 0x80 ≠ 0 := by
  rw [show (0x80 : Nat) = 2 ^ 7 by norm_num, Nat.and_two_pow, add_comm, Nat.testBit_two_pow_add_eq,
    Nat.testBit_lt_two_pow (by simpa using h)]
  simp

theorem getUleb128From_uleb128 (width : Nat) (x : Nat) :
    ∀ (shift v : Nat) (more : List UInt8), v < 2 ^ shift → v + x * 2 ^ shift < 2 ^ width →
      shift + 7 * (uleb128 x).length ≤ maxVlqByteLen width * 7 →
      getUleb128From width shift v ⟨uleb128 x ++ more⟩ = some (v + x * 2 ^ shift, ⟨more⟩) := by
  induction x using Nat.strong_induction_on with
  | _ x ih =>
  intro shift v more hv hfit hlen
  have hlen1 : 1 ≤ (uleb128 x).length := by rw [uleb128]; split <;> simp
  have hshift : ¬ shift ≥ maxVlqByteLen width * 7 := by omega
  rw [uleb128] at hlen ⊢
  by_cases hx : x < 128
  · have hbyte : (UInt8.ofNat x).toNat = x := by
      simp [UInt8.toNat_ofNat', Nat.mod_eq_of_lt (by omega : x < 256)]
    have hor : (v ||| (x % 128) <<< shift) = v + x * 2 ^ shift := by
      rw [Nat.mod_eq_of_lt hx, Nat.lor_comm, ← Nat.shiftLeft_add_eq_or_of_lt hv, Nat.shiftLeft_eq]
      ring
    rw [if_pos hx, getUleb128From, if_neg hshift]
    simp only [List.singleton_append, getBytes, List.length_cons, List.take_succ_cons,
      List.take_zero, ofBytes_cons, ofBytes_nil, List.drop_succ_cons, List.drop_zero]
    simp [hbyte, and_0x7F, hor, Nat.mod_eq_of_lt hfit, and_0x80_of_lt hx]
  · have hlow : x % 128 < 128 := Nat.mod_lt _ (by norm_num)
    have hbyte : (UInt8.ofNat (x % 128 + 128)).toNat = x % 128 + 128 := by
      simp only [UInt8.toNat_ofNat']; omega
    have hdigits : x = x % 128 + 128 * (x / 128) := (Nat.mod_add_div x 128).symm
    have hor : (v ||| ((x % 128 + 128) % 128) <<< shift) = v + x % 128 * 2 ^ shift := by
      rw [Nat.add_mod_right, Nat.mod_mod, Nat.lor_comm, ← Nat.shiftLeft_add_eq_or_of_lt hv,
        Nat.shiftLeft_eq]
      ring
    have hsum : v + x % 128 * 2 ^ shift + x / 128 * 2 ^ (shift + 7) = v + x * 2 ^ shift := by
      conv_rhs => rw [hdigits]
      rw [pow_add]
      ring
    have hacc : v + x % 128 * 2 ^ shift < 2 ^ (shift + 7) := by
      rw [pow_add]
      calc v + x % 128 * 2 ^ shift < 2 ^ shift + x % 128 * 2 ^ shift := by omega
        _ = (x % 128 + 1) * 2 ^ shift := by ring
        _ ≤ 2 ^ 7 * 2 ^ shift := Nat.mul_le_mul_right _ (by norm_num; omega)
        _ = 2 ^ shift * 2 ^ 7 := mul_comm _ _
    have hfit' : v + x % 128 * 2 ^ shift < 2 ^ width := by
      calc v + x % 128 * 2 ^ shift ≤ v + x * 2 ^ shift :=
            Nat.add_le_add_left (Nat.mul_le_mul_right _ (Nat.mod_le x 128)) v
        _ < 2 ^ width := hfit
    rw [if_neg hx, getUleb128From, if_neg hshift]
    simp only [List.cons_append, getBytes, List.length_cons, List.take_succ_cons,
      List.take_zero, ofBytes_cons, ofBytes_nil, List.drop_succ_cons, List.drop_zero]
    have hone : ¬ 1 > (uleb128 (x / 128) ++ more).length + 1 := by omega
    simp only [hone, if_false, mul_zero, add_zero, hbyte, and_0x7F, hor, Nat.mod_eq_of_lt hfit',
      ne_eq, and_0x80_add hlow, not_false_eq_true, if_true]
    rw [ih (x / 128) (by omega) (shift + 7) _ more hacc (by rw [hsum]; exact hfit)
      (by rw [if_neg hx, List.length_cons] at hlen; omega), hsum]

theorem getUleb128_uleb128 {width x : Nat} (hx : x < 2 ^ width)
    (hlen : (uleb128 x).length ≤ maxVlqByteLen width) (more : List UInt8) :
    getUleb128 ⟨uleb128 x ++ more⟩ width = some (x, ⟨more⟩) := by
  have h := getUleb128From_uleb128 width x 0 0 more (by norm_num) (by simpa using hx)
    (by omega)
  simpa [getUleb128] using h

theorem length_uleb128_le_maxVlqByteLen (width : Nat) {x : Nat} (hw : 0 < width)
    (hx : x < 2 ^ width) : (uleb128 x).length ≤ maxVlqByteLen width := by
  unfold maxVlqByteLen
  apply length_uleb128_le (by omega)
  calc x < 2 ^ width := hx
    _ ≤ 2 ^ (7 * ((width + 6) / 7)) := Nat.pow_le_pow_right (by norm_num) (by omega)
    _ = 128 ^ ((width + 6) / 7) := by rw [pow_mul]; norm_num

theorem getUleb128_uleb128_append (width : Nat) {x : Nat} (hw : 0 < width) (hx : x < 2 ^ width)
    (more : List UInt8) : (⟨uleb128 x ++ more⟩ : BatchedBitReader).getUleb128 width = some (x, ⟨more⟩) :=
  getUleb128_uleb128 hx (length_uleb128_le_maxVlqByteLen width hw hx) more

theorem getUleb128_nil (width : Nat) : getUleb128 ⟨[]⟩ width = none := by
  rw [getUleb128, getUleb128From]
  split <;> simp [getBytes]

/-! ### ZigZag -/

/-- `(v_unsigned >> 1) ^ -(v_unsigned & 1u)` in the unsigned type of `width` bits, converted to
the signed type. -/
def unzigzag (width u : Nat) : Int :=
  MachineInt.toSigned width ((u >>> 1) ^^^ (2 ^ width - (u &&& 1)) % 2 ^ width : Nat)

def getZigZagInteger (r : BatchedBitReader) (width : Nat) : Option (Int × BatchedBitReader) :=
  match r.getUleb128 width with
  | none => none
  | some (u, r) => some (unzigzag width u, r)

theorem unzigzag_of_lt {w u : Nat} (hu : u < 2 ^ (w + 1)) :
    unzigzag (w + 1) u = if u % 2 = 0 then ((u / 2 : Nat) : Int) else -((u / 2 : Nat) : Int) - 1 := by
  have hpn : (2 : Nat) ^ (w + 1) = 2 * 2 ^ w := by rw [pow_succ, mul_comm]
  have hhalf : u / 2 < 2 ^ w := by omega
  have hcw : ((2 ^ w : Nat) : Int) = 2 ^ w := by push_cast; rfl
  have hcw1 : ((2 ^ (w + 1) : Nat) : Int) = 2 ^ (w + 1) := by push_cast; rfl
  rw [unzigzag, Nat.shiftRight_eq_div_pow, pow_one, Nat.and_one_is_mod]
  split
  · next heven =>
    rw [heven, Nat.sub_zero, Nat.mod_self, Nat.xor_zero]
    exact MachineInt.toSigned_of_bounds (by omega) (by omega)
  · next hodd =>
    rw [show u % 2 = 1 by omega, Nat.mod_eq_of_lt (show 2 ^ (w + 1) - 1 < 2 ^ (w + 1) by omega),
      MachineInt.xor_two_pow_sub_one (by omega)]
    have hcast : (((2 ^ (w + 1) - 1 - u / 2 : Nat)) : Int) =
        (-((u / 2 : Nat) : Int) - 1) + 2 ^ (w + 1) := by
      omega
    rw [hcast, MachineInt.toSigned_add_two_pow]
    exact MachineInt.toSigned_of_bounds (by omega) (by omega)

theorem unzigzag_zigzag {w : Nat} {v : Int} (h1 : -2 ^ w ≤ v) (h2 : v < 2 ^ w) :
    unzigzag (w + 1) (BitWriter.zigzag (w + 1) v) = v := by
  rw [unzigzag_of_lt (BitWriter.zigzag_lt (w + 1) v)]
  by_cases h0 : 0 ≤ v
  · rw [BitWriter.zigzag_of_nonneg h0 h2, if_pos (by omega)]
    omega
  · rw [BitWriter.zigzag_of_neg h1 (by omega), if_neg (by omega)]
    omega

theorem getZigZagInteger_zigzag {w : Nat} {v : Int} (h1 : -2 ^ w ≤ v) (h2 : v < 2 ^ w)
    (more : List UInt8) :
    getZigZagInteger ⟨uleb128 (BitWriter.zigzag (w + 1) v) ++ more⟩ (w + 1) = some (v, ⟨more⟩) := by
  rw [getZigZagInteger, getUleb128_uleb128_append (w + 1) (by omega) (BitWriter.zigzag_lt _ v)]
  dsimp only
  rw [unzigzag_zigzag h1 h2]

section Packed

variable {w : Nat} {vs : List Nat}

theorem unpackBatch_pack_append (hvs : ∀ v ∈ vs, v < 2 ^ w) (h8 : 8 ∣ vs.length) {m : Nat}
    (hm : 8 ∣ m) (hle : m ≤ vs.length) (more : List UInt8) :
    unpackBatch ⟨pack w vs ++ more⟩ w m = (vs.take m, ⟨pack w (vs.drop m) ++ more⟩) := by
  have hbytes : (m * w + 7) / 8 = w * m / 8 := by
    obtain ⟨j, rfl⟩ := hm
    rw [show 8 * j * w + 7 = 8 * (j * w) + 7 by ring, show w * (8 * j) = 8 * (j * w) by ring]
    omega
  have hfits : w * m / 8 ≤ (pack w vs).length := by
    rw [length_pack]; exact Nat.div_le_div_right (Nat.mul_le_mul_left w hle)
  have hcount : numValuesToUnpack w (pack w vs ++ more).length m = m :=
    numValuesToUnpack_of_fits (by rw [hbytes, List.length_append]; omega)
  have h8' : 8 ∣ w * vs.length := Dvd.dvd.mul_left h8 w
  simp only [unpackBatch, hcount, hbytes]
  congr 1
  · apply List.ext_getElem (by simp [hle])
    intro i hi _
    simp only [List.getElem_map, List.getElem_range, List.getElem_take]
    rw [ofBytes_pack_append hvs h8' more]
    exact unpack_ofDigits hvs (ofBytes more) (by simp at hi; omega)
  · rw [List.drop_append_of_le_length hfits, drop_pack hvs hm]

theorem skipBatch_pack_append (hvs : ∀ v ∈ vs, v < 2 ^ w) {m : Nat} (hm : 8 ∣ m)
    (hle : m ≤ vs.length) (hfit : w * m + 7 < 2 ^ 32) (more : List UInt8) :
    skipBatch ⟨pack w vs ++ more⟩ w m = some ⟨pack w (vs.drop m) ++ more⟩ := by
  have hbytes : (roundUpNumBytes (w * m).toUInt32).toNat = w * m / 8 := by
    rw [roundUpNumBytes_of_lt hfit]
    obtain ⟨j, rfl⟩ := hm
    rw [show w * (8 * j) = 8 * (w * j) by ring]
    omega
  have hfits : w * m / 8 ≤ (pack w vs).length := by
    rw [length_pack]; exact Nat.div_le_div_right (Nat.mul_le_mul_left w hle)
  simp only [skipBatch, hbytes, List.length_append]
  rw [if_neg (by omega), List.drop_append_of_le_length hfits, drop_pack hvs hm]

end Packed

end BatchedBitReader

/-! ### A varint written and read back -/

section RoundTrip

variable {width : Nat} {w : BitWriter.Aligned}

theorem putUleb128_getUleb128 {v : Nat} (hw : 0 < width) (hv : v < 2 ^ width)
    (hfit : w.offset / 8 + BitWriter.vlqRequiredSize v ≤ w.maxBytes) :
    (w.putUleb128 v).1 = true ∧ (w.putUleb128 v).2.bytes = w.bytes ++ uleb128 v ∧
      (w.putUleb128 v).2.bytesWritten = w.bytesWritten + BitWriter.vlqRequiredSize v ∧
      ∀ more, BatchedBitReader.getUleb128
        ⟨(w.putUleb128 v).2.bytes.drop w.bytesWritten ++ more⟩ width = some (v, ⟨more⟩) := by
  have hlen := BitWriter.length_uleb128 v
  have hfit' : w.offset / 8 + (uleb128 v).length ≤ w.maxBytes := by rwa [hlen]
  have hput := BitWriter.putUleb128_of_fits v w.aligned hfit'
  have hbytes := (BitWriter.putUleb128_bytes w v hfit').1
  have hprefix : w.bytes.length = w.bytesWritten := length_toBytes _ _
  refine ⟨by rw [hput], hbytes, ?_, fun more => ?_⟩
  · rw [hput, ← hlen]
    simp only [BitWriter.bytesWritten]
    omega
  · rw [hbytes, List.drop_left' hprefix]
    exact BatchedBitReader.getUleb128_uleb128_append width hw hv more

theorem putZigZagInteger_getZigZagInteger {v : Int} (h1 : -2 ^ width ≤ v) (h2 : v < 2 ^ width)
    (hfit : w.offset / 8 + BitWriter.zigZagRequiredBytes (width + 1) v ≤ w.maxBytes) :
    (w.putZigZagInteger (width + 1) v).1 = true ∧
      (w.putZigZagInteger (width + 1) v).2.bytes = w.bytes ++ uleb128 (BitWriter.zigzag (width + 1) v) ∧
      (w.putZigZagInteger (width + 1) v).2.bytesWritten =
        w.bytesWritten + BitWriter.zigZagRequiredBytes (width + 1) v ∧
      ∀ more, BatchedBitReader.getZigZagInteger
        ⟨(w.putZigZagInteger (width + 1) v).2.bytes.drop w.bytesWritten ++ more⟩ (width + 1) =
          some (v, ⟨more⟩) := by
  obtain ⟨hok, hbytes, hcount, -⟩ :=
    putUleb128_getUleb128 (Nat.succ_pos width) (BitWriter.zigzag_lt (width + 1) v) hfit
  have hprefix : w.bytes.length = w.bytesWritten := length_toBytes _ _
  refine ⟨hok, hbytes, hcount, fun more => ?_⟩
  rw [BitWriter.putZigZagInteger, hbytes, List.drop_left' hprefix]
  exact BatchedBitReader.getZigZagInteger_zigzag h1 h2 more

end RoundTrip

/-- ULEB-128 and ZigZag round trips for the unsigned and signed types of 32 and 64 bits
(`size_t` has 64): from an aligned writer with room, the buffer grows by exactly the varint's
bytes, as many as `VlqRequiredSize` and `ZigZagRequiredBytes` say, and the reader at the first
of them returns the value and stops at the bytes after. -/
theorem uleb128_zigzag_round_trip :
    (∀ width ∈ [32, 64], ∀ v < 2 ^ width, ∀ w : BitWriter.Aligned,
      w.offset / 8 + BitWriter.vlqRequiredSize v ≤ w.maxBytes →
      (w.putUleb128 v).1 = true ∧ (w.putUleb128 v).2.bytes = w.bytes ++ uleb128 v ∧
      (w.putUleb128 v).2.bytesWritten = w.bytesWritten + BitWriter.vlqRequiredSize v ∧
      ∀ more, BatchedBitReader.getUleb128
        ⟨(w.putUleb128 v).2.bytes.drop w.bytesWritten ++ more⟩ width = some (v, ⟨more⟩)) ∧
    (∀ width ∈ [32, 64], ∀ v : Int, -2 ^ (width - 1) ≤ v → v < 2 ^ (width - 1) →
      ∀ w : BitWriter.Aligned, w.offset / 8 + BitWriter.zigZagRequiredBytes width v ≤ w.maxBytes →
      (w.putZigZagInteger width v).1 = true ∧
      (w.putZigZagInteger width v).2.bytes = w.bytes ++ uleb128 (BitWriter.zigzag width v) ∧
      (w.putZigZagInteger width v).2.bytesWritten =
        w.bytesWritten + BitWriter.zigZagRequiredBytes width v ∧
      ∀ more, BatchedBitReader.getZigZagInteger
        ⟨(w.putZigZagInteger width v).2.bytes.drop w.bytesWritten ++ more⟩ width =
          some (v, ⟨more⟩)) := by
  refine ⟨fun width hwidth v hv w hfit => ?_, fun width hwidth v h1 h2 w hfit => ?_⟩
  · have hw : 0 < width := by simp at hwidth; omega
    exact putUleb128_getUleb128 hw hv hfit
  · obtain ⟨k, rfl⟩ : ∃ k, width = k + 1 := ⟨width - 1, by simp at hwidth; omega⟩
    rw [Nat.add_sub_cancel] at h1 h2
    exact putZigZagInteger_getZigZagInteger h1 h2 hfit

theorem uleb128_zigzag_round_trip_int64_min :
    ((BitWriter.create 10).putZigZagInteger 64 (-2 ^ 63)).1 = true ∧
      ∀ more, BatchedBitReader.getZigZagInteger
        ⟨((BitWriter.create 10).putZigZagInteger 64 (-2 ^ 63)).2.bytes ++ more⟩ 64 =
          some (-2 ^ 63, ⟨more⟩) := by
  have hfit : (BitWriter.create 10).offset / 8 +
      BitWriter.zigZagRequiredBytes 64 (-2 ^ 63) ≤ (BitWriter.create 10).maxBytes := by
    have hlen := BatchedBitReader.length_uleb128_le_maxVlqByteLen 64 (by norm_num)
      (BitWriter.zigzag_lt 64 (-2 ^ 63))
    rw [BitWriter.zigZagRequiredBytes, ← BitWriter.length_uleb128]
    simp only [BitWriter.create, BatchedBitReader.maxVlqByteLen] at hlen ⊢
    omega
  obtain ⟨hok, -, -, hread⟩ := uleb128_zigzag_round_trip.2 64 (by simp) (-2 ^ 63) (by norm_num)
    (by norm_num) (BitWriter.Aligned.create 10) hfit
  exact ⟨hok, hread⟩

end Impala
