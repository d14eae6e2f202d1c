import Mathlib
import Impala.Lib.Morton
import Impala.Runtime.RawValue

/-!
`TupleRowZOrderComparator` (util/tuple-row-compare.h, tuple-row-compare.cc): the first
`num_lexical_keys_` ordering expressions compare lexically, ascending with NULLs last, and the
others in Z-order. Every Z-order value is brought to a shared unsigned type `U` of `u` bytes
(`uint32_t`, `uint64_t` or `uint128_t`, from the largest byte size of the Z-order columns), and
`CompareBasedOnSize` compares the two rows' values of the column whose pair differs in the
highest bit.

A value of `U` is a `Nat` below `2 ^ (8 * u)`; `<<` on `U` drops the bits shifted past the top.
In `GetSharedFloatRepresentation` the `int64_t tmp` gets only the value's `sizeof(T)` bytes; the
model puts zeros above them, which the shift by `(sizeof(U) - sizeof(T)) * 8` and the cast to
`U` discard for every `T` not wider than `U`.
-/

set_option autoImplicit false

namespace Impala.TupleRowZOrderComparator

open FloatBits MachineInt Morton RawValue

/-! ## The shared representation -/

def toU (u : Nat) (x : Int) : Nat := (x % 2 ^ (8 * u)).toNat

def shl (u x s : Nat) : Nat := (x <<< s) % 2 ^ (8 * u)

def mask (u : Nat) : Nat := 2 ^ (8 * u - 1)

/-- `GetSharedIntRepresentation<U, T>(val, mask)` for `t = sizeof(T)`: the value cast to `U`,
shifted up by the bytes `U` has more, the sign bit flipped. -/
def getSharedIntRepresentation (u t : Nat) (val : Int) : Nat :=
  let shiftSize := (u - t) * 8
  shl u (toU u val) shiftSize ^^^ mask u

/-- `GetSharedFloatRepresentation<U, T>(val, mask)` for the encoding `bits` of a `T` of `t`
bytes: NaN is `0`; below `0.0` every bit of `tmp` is flipped, otherwise only the sign bit. -/
def getSharedFloatRepresentation (u t : Nat) (f : Format) (bits : Nat) : Nat :=
  if FloatBits.isNaN f bits then 0
  else
    let shiftSize := (u - t) * 8
    if flt f bits 0 then shl u (toU u (-1 - bits)) shiftSize
    else shl u (toU u bits) shiftSize ^^^ mask u

/-- `GetSharedStringRepresentation<U>(char_ptr, length)`: at most `u` bytes, byte-swapped into
`dst` (so read big-endian) and shifted to the top of `U`. -/
def getSharedStringRepresentation (u : Nat) (s : Bytes) (length : Nat) : Nat :=
  let len := if length < u then length else u
  if len = 0 then 0
  else shl u (leNat (s.take len).reverse) ((u - len) * 8)

def getSharedRepresentation (u : Nat) (val : Option Value) (type : ColumnType) : Nat :=
  match val with
  | none => 0
  | some v =>
    match type with
    | .boolean => shl u (toU u (boolValue v)) (8 * u - 1)
    | .tinyint => getSharedIntRepresentation u 1 (toSigned 8 (v.bits 1))
    | .smallint => getSharedIntRepresentation u 2 (toSigned 16 (v.bits 2))
    | .int | .date => getSharedIntRepresentation u 4 (toSigned 32 (v.bits 4))
    | .bigint => getSharedIntRepresentation u 8 (toSigned 64 (v.bits 8))
    | .float => getSharedFloatRepresentation u 4 .single (v.bits 4)
    | .double => getSharedFloatRepresentation u 8 .double (v.bits 8)
    | .string | .varchar =>
      getSharedStringRepresentation u v.stringBytes v.stringBytes.length
    | .char len => getSharedStringRepresentation u v.fixedBytes len
    | .timestamp =>
      toU u ((shl 16 (dayNumber v) 64 ||| toU 16 (nanoseconds v) : Nat))
    | .decimal precision =>
      match AggregateFunctions.getDecimalByteSize precision with
      | 4 => getSharedIntRepresentation u 4 (toSigned 32 (v.bits 4))
      | 8 => getSharedIntRepresentation u 8 (toSigned 64 (v.bits 8))
      | 16 => toU u (toSigned 128 (v.bits 16)) ^^^ mask u
      | _ => 0

/-! ## The comparator -/

/-- The value an ordering expression gives each row, with the expression's type. -/
structure KeyValues where
  type : ColumnType
  lhs : Option Value
  rhs : Option Value

def maxColSize (first : ColumnType) (rest : List ColumnType) : Nat :=
  rest.foldl (fun m t => if t.getByteSize > m then t.getByteSize else m) first.getByteSize

def sharedSize (maxColSize : Nat) : Nat :=
  if maxColSize ≤ 4 then 4 else if maxColSize ≤ 8 then 8 else 16

def representations (u : Nat) (k : KeyValues) : Nat × Nat :=
  (getSharedRepresentation u k.lhs k.type, getSharedRepresentation u k.rhs k.type)

/-- The loop of `CompareBasedOnSize`: the pair of the next column replaces the kept one when
its exclusive or has a higher most significant bit. -/
def msdStep (u : Nat) (msd : Nat × Nat) (k : KeyValues) : Nat × Nat :=
  let lhsi := getSharedRepresentation u k.lhs k.type
  let rhsi := getSharedRepresentation u k.rhs k.type
  if lessMsb (msd.1 ^^^ msd.2) (lhsi ^^^ rhsi) then (lhsi, rhsi) else msd

def compareBasedOnSize (u : Nat) (first : KeyValues) (rest : List KeyValues) : Int :=
  let msd := rest.foldl (msdStep u) (representations u first)
  if msd.1 < msd.2 then -1 else if msd.1 > msd.2 then 1 else 0

/-- The lexical keys of `CompareInterpreted`, in order: NULLs last whatever the direction, the
first non-zero `RawValue::Compare` returned, and `zorder` when every key ties. -/
def compareLexical (zorder : Int) : List KeyValues → Int
  | [] => zorder
  | k :: ks =>
    match k.lhs, k.rhs with
    | none, none => compareLexical zorder ks
    | none, some _ => 1
    | some _, none => -1
    | some a, some b =>
      let result := RawValue.compare a b k.type
      if result ≠ 0 then result else compareLexical zorder ks

/-- `TupleRowZOrderComparator::CompareInterpreted(lhs, rhs)`: the lexical keys, then the Z-order
keys `first :: rest` in the `U` their largest byte size picks. -/
def compareInterpreted (lexical : List KeyValues) (first : KeyValues) (rest : List KeyValues) :
    Int :=
  let u := sharedSize (maxColSize first.type (rest.map (·.type)))
  compareLexical (compareBasedOnSize u first rest) lexical

/-! ## Values of `U` -/

section U

variable {u : Nat}

theorem toU_lt (x : Int) : toU u x < 2 ^ (8 * u) := by
  have hpos : (0 : Int) < 2 ^ (8 * u) := by positivity
  have h1 := Int.emod_nonneg x hpos.ne'
  have h2 := Int.emod_lt_of_pos x hpos
  have hcast : ((2 ^ (8 * u) : Nat) : Int) = 2 ^ (8 * u) := by push_cast; rfl
  unfold toU
  omega

theorem shl_lt (x s : Nat) : shl u x s < 2 ^ (8 * u) := Nat.mod_lt _ (Nat.two_pow_pos _)

theorem mask_lt (hu : 0 < u) : mask u < 2 ^ (8 * u) := Nat.pow_lt_pow_right (by omega) (by omega)

theorem getSharedRepresentation_lt (hu : 0 < u) (val : Option Value) (type : ColumnType) :
    getSharedRepresentation u val type < 2 ^ (8 * u) := by
  have hxor : ∀ x s, shl u x s ^^^ mask u < 2 ^ (8 * u) := fun x s =>
    Nat.xor_lt_two_pow (shl_lt x s) (mask_lt hu)
  have hpos : 0 < 2 ^ (8 * u) := Nat.two_pow_pos _
  cases val with
  | none => exact hpos
  | some v =>
    cases type with
    | float | double =>
      simp only [getSharedRepresentation, getSharedFloatRepresentation]
      split_ifs
      exacts [hpos, shl_lt _ _, hxor _ _]
    | string | varchar | char len =>
      simp only [getSharedRepresentation, getSharedStringRepresentation]
      split_ifs <;> first | exact hpos | exact shl_lt _ _
    | timestamp => exact toU_lt _
    | decimal precision =>
      simp only [getSharedRepresentation]
      split
      · exact hxor _ _
      · exact hxor _ _
      · exact Nat.xor_lt_two_pow (toU_lt _) (mask_lt hu)
      · exact hpos
    | boolean => exact shl_lt _ _
    | tinyint | smallint | int | bigint | date => exact hxor _ _

end U

/-! ## `CompareBasedOnSize` is the Morton order -/

theorem msdStep_eq (u : Nat) (msd : Nat × Nat) (k : KeyValues) :
    msdStep u msd k =
      if (msd.1 ^^^ msd.2).size < ((representations u k).1 ^^^ (representations u k).2).size
      then representations u k else msd := by
  unfold msdStep representations
  by_cases h : lessMsb (msd.1 ^^^ msd.2)
      (getSharedRepresentation u k.lhs k.type ^^^ getSharedRepresentation u k.rhs k.type) = true
  · rw [if_pos h, if_pos (lessMsb_iff.1 h)]
  · rw [if_neg h, if_neg (mt lessMsb_iff.2 h)]

theorem ofOrdering_compare (a b : Nat) :
    ofOrdering (compare a b) = if a < b then -1 else if a > b then 1 else 0 := by
  rcases Nat.lt_trichotomy a b with h | rfl | h
  · rw [Nat.compare_eq_lt.2 h, if_pos h]; rfl
  · rw [Nat.compare_eq_eq.2 rfl, if_neg (Nat.lt_irrefl a), if_neg (Nat.lt_irrefl a)]; rfl
  · rw [Nat.compare_eq_gt.2 h, if_neg (Nat.lt_asymm h), if_pos h]; rfl

theorem compareBasedOnSize_eq {u : Nat} (hu : 0 < u) (first : KeyValues) (rest : List KeyValues) :
    compareBasedOnSize u first rest =
      ofOrdering (compare
        (interleave (8 * u) ((first :: rest).map fun k => getSharedRepresentation u k.lhs k.type))
        (interleave (8 * u) ((first :: rest).map fun k => getSharedRepresentation u k.rhs k.type))) := by
  set key : Nat × Nat → Nat := fun q => (q.1 ^^^ q.2).size
  have hloop : rest.foldl (msdStep u) (representations u first) =
      (rest.map (representations u)).foldl (fun m x => if key m < key x then x else m)
        (representations u first) := by
    rw [List.foldl_map]
    exact congrArg (fun g => rest.foldl g (representations u first))
      (funext fun m => funext fun k => msdStep_eq u m k)
  obtain ⟨pre, post, hsplit, hpre, hpost⟩ :=
    exists_split_foldl key (representations u first) (rest.map (representations u))
  rw [← hloop] at hsplit hpre hpost
  set r := rest.foldl (msdStep u) (representations u first)
  have hps : (first :: rest).map (representations u) = pre ++ (r.1, r.2) :: post := by
    rw [List.map_cons, hsplit]
  have hw : ∀ q ∈ (first :: rest).map (representations u),
      q.1 < 2 ^ (8 * u) ∧ q.2 < 2 ^ (8 * u) := by
    intro q hq
    obtain ⟨k, -, rfl⟩ := List.mem_map.1 hq
    exact ⟨getSharedRepresentation_lt hu _ _, getSharedRepresentation_lt hu _ _⟩
  have hcmp := compare_interleave (8 * u) hps hw hpre hpost
  have hfst : Prod.fst ∘ representations u = fun k => getSharedRepresentation u k.lhs k.type := rfl
  have hsnd : Prod.snd ∘ representations u = fun k => getSharedRepresentation u k.rhs k.type := rfl
  rw [List.map_map, List.map_map, hfst, hsnd] at hcmp
  rw [hcmp, ofOrdering_compare]
  rfl

/-! ## The representations as `t`-byte keys

For a type of `t` bytes in a `U` of `u ≥ t` bytes, every representation is a `t`-byte key
shifted up by `(u - t) * 8` bits: the cast to `U` and the shift keep only the low `t` bytes. -/

section Keys

variable {u t : Nat}

theorem toU_mod (htu : t ≤ u) (x : Int) : toU u x % 2 ^ (8 * t) = toU t x := by
  have hu : (0 : Int) ≤ x % 2 ^ (8 * u) := Int.emod_nonneg x (by positivity)
  have ht : (0 : Int) ≤ x % 2 ^ (8 * t) := Int.emod_nonneg x (by positivity)
  apply Int.ofNat_inj.1
  rw [toU, toU, Int.natCast_emod, Int.toNat_of_nonneg hu, Int.toNat_of_nonneg ht]
  push_cast
  exact Int.emod_emod_of_dvd x (pow_dvd_pow 2 (by omega))

theorem shl_toU (htu : t ≤ u) (x : Int) :
    shl u (toU u x) ((u - t) * 8) = toU t x <<< ((u - t) * 8) := by
  unfold shl
  rw [Nat.shiftLeft_eq, Nat.shiftLeft_eq, show 8 * u = 8 * t + (u - t) * 8 by omega, Nat.pow_add,
    Nat.mul_mod_mul_right, toU_mod htu]

theorem mask_eq (ht : 0 < t) (htu : t ≤ u) : mask u = mask t <<< ((u - t) * 8) := by
  unfold mask
  rw [Nat.shiftLeft_eq, ← Nat.pow_add]
  congr 1
  omega

theorem toU_natCast {x : Nat} (hx : x < 2 ^ (8 * t)) : toU t x = x := by
  rw [toU, Int.emod_eq_of_lt (by omega) (by exact_mod_cast hx)]
  rfl

theorem toU_neg_one_sub {x : Nat} (hx : x < 2 ^ (8 * t)) :
    toU t (-1 - x) = 2 ^ (8 * t) - 1 - x := by
  have hc : ((2 ^ (8 * t) : Nat) : Int) = 2 ^ (8 * t) := by push_cast; rfl
  have h := Int.emod_eq_of_lt (a := -1 - x + 2 ^ (8 * t)) (b := 2 ^ (8 * t)) (by omega) (by omega)
  rw [Int.add_emod_right] at h
  rw [toU, h]
  omega

theorem toU_xor_mask (ht : 0 < t) {v : Int} (h1 : -2 ^ (8 * t - 1) ≤ v)
    (h2 : v < 2 ^ (8 * t - 1)) : toU t v ^^^ mask t = (v + 2 ^ (8 * t - 1)).toNat := by
  obtain ⟨T, hT⟩ : ∃ T, 8 * t = T + 1 := ⟨8 * t - 1, by omega⟩
  have hT' : 8 * t - 1 = T := by omega
  unfold toU mask
  rw [hT'] at h1 h2 ⊢
  rw [hT]
  have hp : (2 : Int) ^ (T + 1) = 2 * 2 ^ T := by ring
  have hc : ((2 ^ T : Nat) : Int) = 2 ^ T := by push_cast; rfl
  have hpos : (0 : Int) < 2 ^ T := by positivity
  rcases le_or_gt 0 v with hv | hv
  · rw [Int.emod_eq_of_lt hv (by omega), xor_two_pow_of_lt (by omega)]
    omega
  · have hmod : v % 2 ^ (T + 1) = v + 2 ^ (T + 1) := by
      have h := Int.emod_eq_of_lt (a := v + 2 ^ (T + 1)) (b := 2 ^ (T + 1)) (by omega) (by omega)
      rwa [Int.add_emod_right] at h
    rw [hmod, xor_two_pow_of_ge (by omega) (by rw [Nat.pow_succ]; omega)]
    omega

theorem getSharedIntRepresentation_eq (ht : 0 < t) (htu : t ≤ u) {v : Int}
    (h1 : -2 ^ (8 * t - 1) ≤ v) (h2 : v < 2 ^ (8 * t - 1)) :
    getSharedIntRepresentation u t v = (v + 2 ^ (8 * t - 1)).toNat <<< ((u - t) * 8) := by
  simp only [getSharedIntRepresentation]
  rw [shl_toU htu, mask_eq ht htu, ← Nat.shiftLeft_xor_distrib, toU_xor_mask ht h1 h2]

theorem getSharedIntRepresentation_mono (ht : 0 < t) (htu : t ≤ u) {v w : Int}
    (hv : -2 ^ (8 * t - 1) ≤ v) (hw : w < 2 ^ (8 * t - 1)) (h : v ≤ w) :
    getSharedIntRepresentation u t v ≤ getSharedIntRepresentation u t w := by
  rw [getSharedIntRepresentation_eq ht htu hv (by omega),
    getSharedIntRepresentation_eq ht htu (by omega) hw, Nat.shiftLeft_eq, Nat.shiftLeft_eq]
  exact Nat.mul_le_mul_right _ (by omega)

theorem getSharedFloatRepresentation_eq {f : Format} (ht : 0 < t) (htu : t ≤ u) {x : Nat}
    (hx : x < 2 ^ (8 * t)) (hnan : FloatBits.isNaN f x = false) :
    getSharedFloatRepresentation u t f x =
      (if flt f x 0 then 2 ^ (8 * t) - 1 - x else x ^^^ mask t) <<< ((u - t) * 8) := by
  simp only [getSharedFloatRepresentation, hnan, Bool.false_eq_true, if_false]
  split_ifs
  · rw [shl_toU htu, toU_neg_one_sub hx]
  · rw [shl_toU htu, toU_natCast hx, mask_eq ht htu, Nat.shiftLeft_xor_distrib]

theorem getSharedFloatRepresentation_mono {f : Format} (hf : f.expBits + f.manBits + 1 = 8 * t)
    (ht : 0 < t) (htu : t ≤ u) {x y : Nat} (hx : x < 2 ^ (8 * t)) (hy : y < 2 ^ (8 * t))
    (hy0 : y ≠ 2 ^ (f.expBits + f.manBits)) (h : compareFloating f x y ≤ 0) :
    getSharedFloatRepresentation u t f x ≤ getSharedFloatRepresentation u t f y := by
  by_cases hxn : FloatBits.isNaN f x = true
  · simp [getSharedFloatRepresentation, hxn]
  rw [Bool.not_eq_true] at hxn
  have hyn : FloatBits.isNaN f y = false := by
    by_contra hyn
    rw [Bool.not_eq_false] at hyn
    simp [compareFloating, hxn, hyn] at h
  have hkey : orderKey f x ≤ orderKey f y := by
    by_contra hlt
    have hyx : flt f y x = true := by simp [flt, hxn, hyn]; omega
    simp [compareFloating, hxn, hyn, hyx] at h
  have hx' : x < 2 ^ (f.expBits + f.manBits + 1) := by rw [hf]; exact hx
  have hy' : y < 2 ^ (f.expBits + f.manBits + 1) := by rw [hf]; exact hy
  have hnx := flt_zero_iff_lt hx' hxn
  have hny := flt_zero_iff_lt hy' hyn
  have hmask : mask t = 2 ^ (f.expBits + f.manBits) := by unfold mask; congr 1; omega
  rw [orderKey_eq hx', orderKey_eq hy'] at hkey
  rw [getSharedFloatRepresentation_eq ht htu hx hxn, getSharedFloatRepresentation_eq ht htu hy hyn,
    Nat.shiftLeft_eq, Nat.shiftLeft_eq, hmask, ← hf]
  apply Nat.mul_le_mul_right
  generalize f.expBits + f.manBits = E at hkey hnx hny hy0 hx' hy' ⊢
  have hE : 2 ^ (E + 1) = 2 ^ E * 2 := by rw [Nat.pow_succ]
  by_cases hys : 2 ^ E < y
  · rw [if_pos (hny.2 hys)]
    rw [if_pos (Nat.le_of_lt hys)] at hkey
    by_cases hxs : 2 ^ E < x
    · rw [if_pos (hnx.2 hxs)]
      rw [if_pos (Nat.le_of_lt hxs)] at hkey
      omega
    · split_ifs at hkey <;> omega
  · have hyl : y < 2 ^ E := by omega
    rw [if_neg (mt hny.1 hys), xor_two_pow_of_lt hyl]
    by_cases hxs : 2 ^ E < x
    · rw [if_pos (hnx.2 hxs)]
      omega
    · rw [if_neg (mt hnx.1 hxs)]
      rcases Nat.lt_or_eq_of_le (Nat.le_of_not_lt hxs) with hxl | rfl
      · rw [xor_two_pow_of_lt hxl]
        rw [if_neg (Nat.not_le_of_lt hxl), if_neg (Nat.not_le_of_lt hyl)] at hkey
        omega
      · rw [Nat.xor_self]
        exact Nat.zero_le _

theorem getSharedFloatRepresentation_eq_zero_iff {f : Format}
    (hf : f.expBits + f.manBits + 1 = 8 * t) (ht : 0 < t) (htu : t ≤ u) {x : Nat}
    (hx : x < 2 ^ (8 * t)) (hall : FloatBits.isNaN f (2 ^ (8 * t) - 1) = true) :
    getSharedFloatRepresentation u t f x = 0 ↔
      FloatBits.isNaN f x = true ∨ x = 2 ^ (f.expBits + f.manBits) := by
  by_cases hxn : FloatBits.isNaN f x = true
  · simp [getSharedFloatRepresentation, hxn]
  rw [Bool.not_eq_true] at hxn
  have hx' : x < 2 ^ (f.expBits + f.manBits + 1) := by rw [hf]; exact hx
  have hnx := flt_zero_iff_lt hx' hxn
  have hmask : mask t = 2 ^ (f.expBits + f.manBits) := by unfold mask; congr 1; omega
  have hones : x ≠ 2 ^ (8 * t) - 1 := by
    rintro rfl
    rw [hall] at hxn
    exact Bool.noConfusion hxn
  have hsh : 2 ^ ((u - t) * 8) ≠ 0 := Nat.pos_iff_ne_zero.1 (Nat.two_pow_pos _)
  rw [getSharedFloatRepresentation_eq ht htu hx hxn, Nat.shiftLeft_eq, Nat.mul_eq_zero,
    or_iff_left hsh, hxn, Bool.false_eq_true, false_or, hmask]
  split_ifs with hneg
  · have hlt := hnx.1 hneg
    constructor <;> intro h <;> omega
  · exact Nat.xor_eq_zero_iff

end Keys

theorem le_maxColSize (first : ColumnType) (rest : List ColumnType) :
    first.getByteSize ≤ maxColSize first rest := by
  unfold maxColSize
  generalize first.getByteSize = m
  induction rest generalizing m with
  | nil => exact le_refl m
  | cons t rest ih =>
    rw [List.foldl_cons]
    exact le_trans (by split_ifs <;> omega) (ih _)

theorem le_sharedSize {t m : Nat} (ht : t ≤ 8) (hm : t ≤ m) : t ≤ sharedSize m := by
  unfold sharedSize
  split_ifs <;> omega

/-! ## `CompareInterpreted` -/

def ties (k : KeyValues) : Bool :=
  match k.lhs, k.rhs with
  | none, none => true
  | some a, some b => RawValue.compare a b k.type == 0
  | _, _ => false

/-- What a lexical key that does not tie returns: NULL after every value. -/
def keyResult (k : KeyValues) : Int :=
  match k.lhs, k.rhs with
  | none, some _ => 1
  | some _, none => -1
  | some a, some b => RawValue.compare a b k.type
  | none, none => 0

theorem compareLexical_eq (zorder : Int) (ks : List KeyValues) :
    compareLexical zorder ks =
      match ks.find? (fun k => !ties k) with
      | some k => keyResult k
      | none => zorder := by
  induction ks with
  | nil => rfl
  | cons k ks ih =>
    rw [List.find?_cons, compareLexical]
    cases hl : k.lhs <;> cases hr : k.rhs
    · have ht : ties k = true := by simp [ties, hl, hr]
      simp only [ht, Bool.not_true, ih]
    · have ht : ties k = false := by simp [ties, hl, hr]
      have hk : keyResult k = 1 := by simp [keyResult, hl, hr]
      simp only [ht, Bool.not_false, hk]
    · have ht : ties k = false := by simp [ties, hl, hr]
      have hk : keyResult k = -1 := by simp [keyResult, hl, hr]
      simp only [ht, Bool.not_false, hk]
    · rename_i a b
      by_cases h : RawValue.compare a b k.type = 0
      · have ht : ties k = true := by simp [ties, hl, hr, h]
        simp only [h, ne_eq, not_true_eq_false, if_false, ht, Bool.not_true, ih]
      · have ht : ties k = false := by simp [ties, hl, hr, h]
        have hk : keyResult k = RawValue.compare a b k.type := by simp [keyResult, hl, hr]
        simp only [h, ne_eq, not_false_eq_true, if_true, ht, Bool.not_false, hk]

theorem ties_of_eq {k : KeyValues} (h : k.lhs = k.rhs) : ties k = true := by
  unfold ties
  rw [h]
  cases k.rhs <;> simp [RawValue.compare_self]

theorem sharedSize_pos (m : Nat) : 0 < sharedSize m := by
  unfold sharedSize
  split_ifs <;> omega

theorem compareInterpreted_eq (lexical : List KeyValues) (first : KeyValues)
    (rest : List KeyValues) :
    compareInterpreted lexical first rest =
      match lexical.find? (fun k => !ties k) with
      | some k => keyResult k
      | none =>
        let u := sharedSize (maxColSize first.type (rest.map (·.type)))
        ofOrdering (compare
          (interleave (8 * u) ((first :: rest).map fun k => getSharedRepresentation u k.lhs k.type))
          (interleave (8 * u) ((first :: rest).map fun k => getSharedRepresentation u k.rhs k.type)))
    := by
  rw [compareInterpreted, compareLexical_eq, compareBasedOnSize_eq (sharedSize_pos _)]

theorem foldl_msdStep_of_eq (u : Nat) (msd : Nat × Nat) {rest : List KeyValues}
    (hrest : ∀ k ∈ rest, k.lhs = k.rhs) : rest.foldl (msdStep u) msd = msd := by
  induction rest generalizing msd with
  | nil => rfl
  | cons k rest ih =>
    have hk : msdStep u msd k = msd := by
      simp [msdStep, hrest k List.mem_cons_self, lessMsb]
    rw [List.foldl_cons, hk, ih msd fun k' hk' => hrest k' (List.mem_cons_of_mem _ hk')]

theorem compareInterpreted_of_eq (lexical rest : List KeyValues) (first : KeyValues)
    (hlex : ∀ k ∈ lexical, k.lhs = k.rhs) (hrest : ∀ k ∈ rest, k.lhs = k.rhs) :
    compareInterpreted lexical first rest =
      let u := sharedSize (maxColSize first.type (rest.map (·.type)))
      ofOrdering (compare (getSharedRepresentation u first.lhs first.type)
        (getSharedRepresentation u first.rhs first.type)) := by
  have hfind : lexical.find? (fun k => !ties k) = none := by
    rw [List.find?_eq_none]
    intro k hk
    simp [ties_of_eq (hlex k hk)]
  rw [compareInterpreted, compareLexical_eq, hfind, compareBasedOnSize,
    foldl_msdStep_of_eq _ _ hrest, ofOrdering_compare]
  rfl

/-- `GetSharedFloatRepresentation` sends `-0.0` to `0`, the code of NaN and NULL, below every
other `FLOAT`: a row whose `FLOAT` Z-order key is negative, or `+0.0`, is ordered after the row
that differs from it only by `-0.0` there, though `RawValue::Compare` puts a negative value below
`-0.0` and `+0.0` equal to it. -/
theorem compareInterpreted_negative_zero_misordered (lexical rest : List KeyValues)
    (hlex : ∀ k ∈ lexical, k.lhs = k.rhs) (hrest : ∀ k ∈ rest, k.lhs = k.rhs) {x : Bytes}
    (hx : x.length = 4) (hneg : flt .single (leNat x) 0 = true) :
    let negZero := Value.fixed [0, 0, 0, 0x80]
    (RawValue.compare (.fixed x) negZero .float = -1 ∧
      compareInterpreted lexical ⟨.float, some (.fixed x), some negZero⟩ rest = 1) ∧
    (RawValue.compare (positiveFloatingZero .float) negZero .float = 0 ∧
      compareInterpreted lexical ⟨.float, some (positiveFloatingZero .float), some negZero⟩
        rest = 1) := by
  intro negZero
  have hf : Format.single.expBits + Format.single.manBits + 1 = 8 * 4 := rfl
  have hall : FloatBits.isNaN .single (2 ^ (8 * 4) - 1) = true := by decide
  have hz : negZero.bits 4 = 2 ^ (Format.single.expBits + Format.single.manBits) := by decide
  have hzero : (positiveFloatingZero .float).bits 4 = 0 := by decide
  have hu : 4 ≤ sharedSize (maxColSize .float (rest.map (·.type))) :=
    le_sharedSize (by norm_num) (le_maxColSize .float _)
  have hafter : ∀ v : Value, v.bits 4 < 2 ^ (8 * 4) → FloatBits.isNaN .single (v.bits 4) = false →
      v.bits 4 ≠ 2 ^ (Format.single.expBits + Format.single.manBits) →
      compareInterpreted lexical ⟨.float, some v, some negZero⟩ rest = 1 := by
    intro v hv hnan h0
    have hpos : getSharedFloatRepresentation (sharedSize (maxColSize .float (rest.map (·.type))))
        4 .single (v.bits 4) ≠ 0 := by
      rw [Ne, getSharedFloatRepresentation_eq_zero_iff hf (by norm_num) hu hv hall, hnan]
      simp [h0]
    have hnz := (getSharedFloatRepresentation_eq_zero_iff hf (by norm_num) hu
      (hz ▸ Nat.pow_lt_pow_right (by norm_num) (by decide)) hall (x := negZero.bits 4)).2
      (Or.inr hz)
    rw [compareInterpreted_of_eq lexical rest _ hlex hrest]
    show ofOrdering (compare (getSharedFloatRepresentation _ 4 .single (v.bits 4))
      (getSharedFloatRepresentation _ 4 .single (negZero.bits 4))) = 1
    rw [hnz, ofOrdering_compare, if_neg (Nat.not_lt_zero _), if_pos (Nat.pos_of_ne_zero hpos)]
  have hbits : (Value.fixed x).bits 4 = leNat x := bits_fixed hx
  have hlt : leNat x < 2 ^ (8 * 4) := hx ▸ leNat_lt x
  obtain ⟨hnan, -, -⟩ := flt_zero_iff.1 hneg
  have hbelow := (flt_zero_iff_lt (hf ▸ hlt) hnan).1 hneg
  refine ⟨⟨?_, ?_⟩, ⟨?_, ?_⟩⟩
  · show compareFloating .single ((Value.fixed x).bits 4) (negZero.bits 4) = -1
    rw [hbits, hz, compareFloating_two_pow, compareFloating_zero_of_flt hneg]
  · exact hafter _ (hbits ▸ hlt) (hbits ▸ hnan) (hbits ▸ Nat.ne_of_gt hbelow)
  · show compareFloating .single ((positiveFloatingZero .float).bits 4) (negZero.bits 4) = 0
    rw [hzero, hz, compareFloating_two_pow]
    simp [compareFloating, isNaN_zero, flt]
  · exact hafter _ (hzero ▸ Nat.two_pow_pos _) (hzero ▸ isNaN_zero) (hzero ▸ (Nat.two_pow_pos _).ne)

theorem compareInterpreted_negative_zero_misordered_minus_one :
    (RawValue.compare (.fixed [0, 0, 0x80, 0xBF]) (.fixed [0, 0, 0, 0x80]) .float = -1 ∧
      compareInterpreted [] ⟨.float, some (.fixed [0, 0, 0x80, 0xBF]),
        some (.fixed [0, 0, 0, 0x80])⟩ [] = 1) ∧
    (RawValue.compare (positiveFloatingZero .float) (.fixed [0, 0, 0, 0x80]) .float = 0 ∧
      compareInterpreted [] ⟨.float, some (positiveFloatingZero .float),
        some (.fixed [0, 0, 0, 0x80])⟩ [] = 1) :=
  compareInterpreted_negative_zero_misordered [] [] (by simp) (by simp) rfl (by decide)

/-- `TupleRowZOrderComparator::CompareInterpreted` compares rows in Z-order over representations
that keep each column's order. The lexical columns decide first, by the first pair that differs.
Past them, the rows compare as the interleavings of the bits of their shared representations,
the most significant bit of every column first. For a column of `t` bytes widened to `u ≥ t`
bytes, `GetSharedIntRepresentation` orders two values of the column's range as the values are
ordered, and `GetSharedFloatRepresentation` orders two floats of a format filling the `t` bytes as
they compare, except where the greater one is `-0`. -/
theorem compareInterpreted_zorder :
    (∀ (lexical : List KeyValues) (first : KeyValues) (rest : List KeyValues),
      compareInterpreted lexical first rest =
        match lexical.find? (fun k => !ties k) with
        | some k => keyResult k
        | none =>
          let u := sharedSize (maxColSize first.type (rest.map (·.type)))
          ofOrdering (compare
            (interleave (8 * u) ((first :: rest).map fun k => getSharedRepresentation u k.lhs k.type))
            (interleave (8 * u)
              ((first :: rest).map fun k => getSharedRepresentation u k.rhs k.type)))) ∧
    (∀ t u : Nat, 0 < t → t ≤ u → ∀ v w : Int, -2 ^ (8 * t - 1) ≤ v → w < 2 ^ (8 * t - 1) →
      v ≤ w → getSharedIntRepresentation u t v ≤ getSharedIntRepresentation u t w) ∧
    (∀ t u : Nat, 0 < t → t ≤ u → ∀ (f : Format) (x y : Nat), f.expBits + f.manBits + 1 = 8 * t →
      x < 2 ^ (8 * t) → y < 2 ^ (8 * t) → y ≠ 2 ^ (f.expBits + f.manBits) →
      compareFloating f x y ≤ 0 →
      getSharedFloatRepresentation u t f x ≤ getSharedFloatRepresentation u t f y) :=
  ⟨compareInterpreted_eq,
    fun _ _ ht htu _ _ hv hw h => getSharedIntRepresentation_mono ht htu hv hw h,
    fun _ _ ht htu _ _ _ hf hx hy hy0 h => getSharedFloatRepresentation_mono hf ht htu hx hy hy0 h⟩

theorem compareInterpreted_zorder_int :
    getSharedIntRepresentation 8 4 (-1) ≤ getSharedIntRepresentation 8 4 1 :=
  compareInterpreted_zorder.2.1 4 8 (by norm_num) (by norm_num) (-1) 1 (by norm_num) (by norm_num)
    (by norm_num)

end Impala.TupleRowZOrderComparator
