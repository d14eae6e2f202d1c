import Mathlib.Data.Nat.Digits.Defs

/-!
Little-endian byte strings and bit-packed values. A byte string denotes the number whose
base-256 digits it lists (`ofBytes`), and `toBytes n len` lists the low `len` bytes of `n`.
Values of `w` bits packed from the lowest bit up denote the number whose base-`2^w` digits
they are: reading the `i`-th back is a division by `2^(w*i)` and a remainder, and dropping
whole bytes from the front of a packing drops whole values. ULEB-128 lists the base-128
digits of a number, the top bit set on every byte but the last.
-/

set_option autoImplicit false

namespace Impala.LittleEndian

def ofBytes (bs : List UInt8) : Nat := Nat.ofDigits 256 (bs.map UInt8.toNat)

@[simp] theorem ofBytes_nil : ofBytes [] = 0 := rfl

@[simp] theorem ofBytes_cons (b : UInt8) (bs : List UInt8) :
    ofBytes (b :: bs) = b.toNat + 256 * ofBytes bs := rfl

theorem ofBytes_append (as bs : List UInt8) :
    ofBytes (as ++ bs) = ofBytes as + 256 ^ as.length * ofBytes bs := by
  simp [ofBytes, Nat.ofDigits_append]

def toBytes (n : Nat) : Nat → List UInt8
  | 0 => []
  | len + 1 => UInt8.ofNat n :: toBytes (n / 256) len

@[simp] theorem length_toBytes (n len : Nat) : (toBytes n len).length = len := by
  induction len generalizing n <;> simp [toBytes, *]

theorem ofBytes_toBytes (n len : Nat) : ofBytes (toBytes n len) = n % 256 ^ len := by
  induction len generalizing n with
  | zero => simp [toBytes, Nat.mod_one]
  | succ len ih =>
    rw [toBytes, ofBytes_cons, ih, UInt8.toNat_ofNat', pow_succ' (256 : Nat), Nat.mod_mul]

theorem drop_toBytes (n len k : Nat) : (toBytes n len).drop k = toBytes (n / 256 ^ k) (len - k) := by
  induction k generalizing n len with
  | zero => simp
  | succ k ih =>
    cases len with
    | zero => simp [toBytes]
    | succ len =>
      rw [toBytes, List.drop_succ_cons, ih, Nat.div_div_eq_div_mul, ← pow_succ']
      simp

theorem toBytes_ofBytes (bs : List UInt8) : toBytes (ofBytes bs) bs.length = bs := by
  induction bs with
  | nil => rfl
  | cons b bs ih =>
    have hb : b.toNat < 256 := b.toNat_lt
    rw [List.length_cons, toBytes, ofBytes_cons,
      show (b.toNat + 256 * ofBytes bs) / 256 = ofBytes bs by omega, ih]
    congr 1
    apply UInt8.toNat_inj.mp
    rw [UInt8.toNat_ofNat']
    omega

theorem ofBytes_lt (bs : List UInt8) : ofBytes bs < 256 ^ bs.length := by
  have h := ofBytes_toBytes (ofBytes bs) bs.length
  rw [toBytes_ofBytes] at h
  rw [h]
  exact Nat.mod_lt _ (by positivity)

theorem ofBytes_toBytes_append_of_lt {b p : Nat} (hb : b < 2 ^ (8 * p)) (l : List UInt8) :
    ofBytes (toBytes b p ++ l) = b ||| ofBytes l <<< (8 * p) := by
  have hpow : (256 : Nat) ^ p = 2 ^ (8 * p) := by rw [pow_mul]; norm_num
  rw [ofBytes_append, ofBytes_toBytes, length_toBytes, hpow, Nat.mod_eq_of_lt hb, Nat.or_comm,
    ← Nat.shiftLeft_add_eq_or_of_lt hb, Nat.shiftLeft_eq, Nat.mul_comm, Nat.add_comm]

theorem toBytes_or_ofBytes_shiftLeft {b p : Nat} (hb : b < 2 ^ (8 * p)) (l : List UInt8) :
    toBytes (b ||| ofBytes l <<< (8 * p)) (p + l.length) = toBytes b p ++ l := by
  have hround := toBytes_ofBytes (toBytes b p ++ l)
  rwa [List.length_append, length_toBytes, ofBytes_toBytes_append_of_lt hb] at hround

/-! ### Bit-packed values -/

def pack (w : Nat) (vs : List Nat) : List UInt8 :=
  toBytes (Nat.ofDigits (2 ^ w) vs) (w * vs.length / 8)

@[simp] theorem length_pack (w : Nat) (vs : List Nat) : (pack w vs).length = w * vs.length / 8 :=
  length_toBytes _ _

@[simp] theorem pack_nil (w : Nat) : pack w [] = [] := by simp [pack, toBytes]

section Packed

variable {w : Nat} {vs : List Nat}

theorem ofDigits_lt_two_pow (hvs : ∀ v ∈ vs, v < 2 ^ w) :
    Nat.ofDigits (2 ^ w) vs < 2 ^ (w * vs.length) := by
  induction vs with
  | nil => simp
  | cons v vs ih =>
    have hv : v < 2 ^ w := hvs v List.mem_cons_self
    have hrest := ih (fun u hu => hvs u (List.mem_cons_of_mem v hu))
    rw [Nat.ofDigits_cons, List.length_cons, Nat.mul_succ, pow_add, mul_comm (2 ^ (w * _))]
    calc v + 2 ^ w * Nat.ofDigits (2 ^ w) vs < 2 ^ w * (Nat.ofDigits (2 ^ w) vs + 1) := by
          rw [Nat.mul_succ]; omega
      _ ≤ 2 ^ w * 2 ^ (w * vs.length) := Nat.mul_le_mul_left _ hrest

theorem unpack_ofDigits (hvs : ∀ v ∈ vs, v < 2 ^ w) (M : Nat) {i : Nat} (hi : i < vs.length) :
    (Nat.ofDigits (2 ^ w) vs + 2 ^ (w * vs.length) * M) / 2 ^ (w * i) % 2 ^ w = vs[i] := by
  induction vs generalizing i with
  | nil => simp at hi
  | cons v vs ih =>
    have hv : v < 2 ^ w := hvs v List.mem_cons_self
    have hsplit : Nat.ofDigits (2 ^ w) (v :: vs) + 2 ^ (w * (v :: vs).length) * M =
        v + 2 ^ w * (Nat.ofDigits (2 ^ w) vs + 2 ^ (w * vs.length) * M) := by
      rw [Nat.ofDigits_cons, List.length_cons, Nat.mul_succ, pow_add]
      ring
    rw [hsplit]
    cases i with
    | zero => simp [Nat.add_mul_mod_self_left, Nat.mod_eq_of_lt hv]
    | succ i =>
      have hdiv : (v + 2 ^ w * (Nat.ofDigits (2 ^ w) vs + 2 ^ (w * vs.length) * M)) / 2 ^ w =
          Nat.ofDigits (2 ^ w) vs + 2 ^ (w * vs.length) * M := by
        rw [Nat.add_mul_div_left _ _ (by positivity), Nat.div_eq_of_lt hv, zero_add]
      rw [Nat.mul_succ, pow_add, mul_comm (2 ^ (w * i)), ← Nat.div_div_eq_div_mul, hdiv]
      exact ih (fun u hu => hvs u (List.mem_cons_of_mem v hu)) (by simpa using hi)

theorem ofBytes_pack_append (hvs : ∀ v ∈ vs, v < 2 ^ w) (h8 : 8 ∣ w * vs.length)
    (more : List UInt8) :
    ofBytes (pack w vs ++ more) = Nat.ofDigits (2 ^ w) vs + 2 ^ (w * vs.length) * ofBytes more := by
  have hpow : (256 : Nat) ^ (w * vs.length / 8) = 2 ^ (w * vs.length) := by
    rw [show (256 : Nat) = 2 ^ 8 by norm_num, ← pow_mul, Nat.mul_div_cancel' h8]
  rw [ofBytes_append, pack, ofBytes_toBytes, length_toBytes, hpow,
    Nat.mod_eq_of_lt (ofDigits_lt_two_pow hvs)]

theorem drop_pack (hvs : ∀ v ∈ vs, v < 2 ^ w) {m : Nat} (hm : 8 ∣ m) :
    (pack w vs).drop (w * m / 8) = pack w (vs.drop m) := by
  obtain ⟨j, rfl⟩ := hm
  have hpow : (256 : Nat) ^ (w * (8 * j) / 8) = (2 ^ w) ^ (8 * j) := by
    rw [show w * (8 * j) / 8 = w * j by
      rw [Nat.mul_left_comm, Nat.mul_div_cancel_left _ (by norm_num)]]
    rw [show (256 : Nat) = 2 ^ 8 by norm_num, ← pow_mul, ← pow_mul]
    ring_nf
  have hlen : w * vs.length / 8 - w * (8 * j) / 8 = w * (vs.length - 8 * j) / 8 := by
    rw [Nat.mul_sub, show w * (8 * j) = 8 * (w * j) by ring, Nat.mul_div_cancel_left _ (by norm_num)]
    omega
  rw [pack, drop_toBytes, hpow, Nat.ofDigits_div_pow_eq_ofDigits_drop _ (by positivity) _ hvs,
    hlen, pack, List.length_drop]

theorem ofBytes_pack (hvs : ∀ v ∈ vs, v < 2 ^ w) (h8 : 8 ∣ w * vs.length) :
    ofBytes (pack w vs) = Nat.ofDigits (2 ^ w) vs := by
  simpa using ofBytes_pack_append hvs h8 []

theorem pack_append {us : List Nat} (hus : ∀ u ∈ us, u < 2 ^ w) (hvs : ∀ v ∈ vs, v < 2 ^ w)
    (h8u : 8 ∣ w * us.length) (h8v : 8 ∣ w * vs.length) :
    pack w (us ++ vs) = pack w us ++ pack w vs := by
  have hall : ∀ v ∈ us ++ vs, v < 2 ^ w := by
    intro v hv
    rcases List.mem_append.1 hv with hv | hv
    exacts [hus v hv, hvs v hv]
  have h8 : 8 ∣ w * (us ++ vs).length := by
    rw [List.length_append, Nat.mul_add]
    exact Nat.dvd_add h8u h8v
  have hlen : (pack w (us ++ vs)).length = (pack w us ++ pack w vs).length := by
    simp only [length_pack, List.length_append, Nat.mul_add]
    omega
  have hval : ofBytes (pack w (us ++ vs)) = ofBytes (pack w us ++ pack w vs) := by
    rw [ofBytes_pack hall h8, ofBytes_pack_append hus h8u, ofBytes_pack hvs h8v,
      Nat.ofDigits_append, pow_mul]
  rw [← toBytes_ofBytes (pack w (us ++ vs)), hval, hlen, toBytes_ofBytes]

end Packed

/-! ### Windows of a byte string -/

theorem ofBytes_take (bs : List UInt8) (k : Nat) : ofBytes (bs.take k) = ofBytes bs % 256 ^ k := by
  induction bs generalizing k with
  | nil => simp
  | cons b bs ih =>
    cases k with
    | zero => simp [Nat.mod_one]
    | succ k =>
      have hb : b.toNat < 256 := b.toNat_lt
      have hlow : (b.toNat + 256 * ofBytes bs) % 256 = b.toNat := by omega
      have hhigh : (b.toNat + 256 * ofBytes bs) / 256 = ofBytes bs := by omega
      rw [List.take_succ_cons, ofBytes_cons, ofBytes_cons, ih, pow_succ', Nat.mod_mul, hlow, hhigh]

theorem ofBytes_drop (bs : List UInt8) (k : Nat) : ofBytes (bs.drop k) = ofBytes bs / 256 ^ k := by
  induction bs generalizing k with
  | nil => simp
  | cons b bs ih =>
    cases k with
    | zero => simp
    | succ k =>
      have hb : b.toNat < 256 := b.toNat_lt
      have hhigh : (b.toNat + 256 * ofBytes bs) / 256 = ofBytes bs := by omega
      rw [List.drop_succ_cons, ih, ofBytes_cons, pow_succ', ← Nat.div_div_eq_div_mul, hhigh]

theorem ofBytes_window (bs : List UInt8) (k n : Nat) :
    ofBytes ((bs.drop k).take n) = ofBytes bs / 2 ^ (8 * k) % 2 ^ (8 * n) := by
  rw [ofBytes_take, ofBytes_drop, pow_mul, pow_mul]
  norm_num

theorem mod_two_pow_div_mod (a : Nat) {N s w : Nat} (h : s + w ≤ N) :
    a % 2 ^ N / 2 ^ s % 2 ^ w = a / 2 ^ s % 2 ^ w := by
  apply Nat.eq_of_testBit_eq
  intro j
  simp only [Nat.testBit_mod_two_pow, Nat.testBit_div_two_pow]
  by_cases hj : j < w
  · have hN : j + s < N := by omega
    simp [hj, hN]
  · simp [hj]

theorem div_mod_congr {x y N s w : Nat} (hxy : x % 2 ^ N = y % 2 ^ N) (h : s + w ≤ N) :
    x / 2 ^ s % 2 ^ w = y / 2 ^ s % 2 ^ w := by
  rw [← mod_two_pow_div_mod x h, hxy, mod_two_pow_div_mod y h]

theorem ofBytes_take_append_mod {bs : List UInt8} {k : Nat} (hk : k ≤ bs.length)
    (more : List UInt8) : ofBytes (bs.take k ++ more) % 2 ^ (8 * k) = ofBytes bs % 2 ^ (8 * k) := by
  have hpow : (256 : Nat) ^ k = 2 ^ (8 * k) := by rw [pow_mul]; norm_num
  rw [ofBytes_append, List.length_take_of_le hk, ofBytes_take, hpow, Nat.add_mul_mod_self_left,
    Nat.mod_mod]

/-! ### ULEB-128 -/

/-- ULEB-128: the base-128 digits of `v`, least significant first, with the top bit set on
every byte but the last. -/
def uleb128 (v : Nat) : List UInt8 :=
  if v < 128 then [UInt8.ofNat v] else UInt8.ofNat (v % 128 + 128) :: uleb128 (v / 128)
termination_by v
decreasing_by omega

theorem length_uleb128_le {k : Nat} (hk : 0 < k) {v : Nat} (hv : v < 128 ^ k) :
    (uleb128 v).length ≤ k := by
  induction k generalizing v with
  | zero => omega
  | succ k ih =>
    rw [uleb128]
    split
    · simp
    · rcases Nat.eq_zero_or_pos k with rfl | hk'
      · omega
      · have hdiv : v / 128 < 128 ^ k := by
          rw [Nat.div_lt_iff_lt_mul (by norm_num), ← pow_succ]; exact hv
        simpa using ih hk' hdiv

end Impala.LittleEndian
