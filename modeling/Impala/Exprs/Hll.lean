import Mathlib

/-!
`NDV` (exprs/aggregate-functions-ir.cc, `HllInit`, `HllUpdate`, `HllMerge`).

A sketch of precision `p` has `2^p` one-byte registers. An input hashes to 64 bits; its low `p`
bits pick a register, which keeps the largest `1 +` the number of trailing zeros above them.
The generic `HllUpdate` counts them with `BitUtil::CountTrailingZeros`, which returns the
remaining width `64 - p` when no bit is set; `HllMerge` takes the larger register of the two.
Each update is then the join with the sketch of one hash, so sketches form a join semilattice:
a sketch is the join of its hashes' sketches, whatever their order and repetitions, and merging
is the join (`hllRun_eq_sup`, `hllRun_append`).

The `DecimalVal` specialization skips a hash of `0` and calls `__builtin_ctzl` on the bits above
the index, whose result is undefined for `0`. Hashes whose bits above `p` are all clear then have
no defined register, and the hash `0` leaves the sketch where the generic update sets register
`0` to `65 - p` (`hllUpdateDecimal_disagrees`).

The hash function of each argument type is a parameter, and so is the precision, with the
sketch's length `2^p` as `CheckHllArgs` requires. Registers are numbers: every value they take
is at most `65 - p`, so the `uint8_t` maximum is exact.
-/

set_option autoImplicit false

namespace Impala.AggregateFunctions

def ctzGo : Nat → Nat → Nat
  | 0, _ => 0
  | fuel + 1, v => if v % 2 = 1 then 0 else ctzGo fuel (v / 2) + 1

def ctz64 (v : Nat) : Nat := ctzGo 64 v

def builtinCtzl (v : Nat) : Option Nat := if v = 0 then none else some (ctz64 v)

def countTrailingZeros (v otherwise : Nat) : Nat := if v = 0 then otherwise else ctz64 v

def hllIdx (p h : Nat) : Fin (2 ^ p) :=
  ⟨h &&& (2 ^ p - 1), by rw [Nat.and_two_pow_sub_one_eq_mod]; exact Nat.mod_lt _ (Nat.two_pow_pos p)⟩

/-- `first_one_bit` of the generic update: one more than the trailing zeros above the index,
the remaining width when there is no set bit. -/
def firstOneBit (p h : Nat) : Nat := 1 + countTrailingZeros (h >>> p) (64 - p)

variable {α : Type} (hash : α → Nat) (p : Nat)

def hllInit : Fin (2 ^ p) → Nat := fun _ => 0

def hllUpdate (src : Option α) (dst : Fin (2 ^ p) → Nat) : Fin (2 ^ p) → Nat :=
  match src with
  | none => dst
  | some v =>
    let idx := hllIdx p (hash v)
    Function.update dst idx (max (dst idx) (firstOneBit p (hash v)))

def hllUpdateDecimal (src : Option α) (dst : Fin (2 ^ p) → Nat) : Option (Fin (2 ^ p) → Nat) :=
  match src with
  | none => some dst
  | some v =>
    let h := hash v
    if h ≠ 0 then
      let idx := hllIdx p h
      match builtinCtzl (h >>> p) with
      | none => none
      | some z => some (Function.update dst idx (max (dst idx) (z + 1)))
    else some dst

def hllMerge (src dst : Fin (2 ^ p) → Nat) : Fin (2 ^ p) → Nat := fun i => max (dst i) (src i)

def hllRun (inputs : List (Option α)) : Fin (2 ^ p) → Nat :=
  inputs.foldl (fun d x => hllUpdate hash p x d) (hllInit p)

/-! ## Trailing zeros -/

theorem pow_ctzGo_dvd (fuel v : Nat) : 2 ^ ctzGo fuel v ∣ v := by
  induction fuel generalizing v with
  | zero => simp [ctzGo]
  | succ fuel ih =>
    rw [ctzGo]
    split
    · simp
    · next hodd =>
      set c := ctzGo fuel (v / 2)
      obtain ⟨k, hk⟩ := ih (v / 2)
      refine ⟨k, ?_⟩
      calc v = 2 * (v / 2) := by omega
        _ = 2 ^ (c + 1) * k := by rw [hk, pow_succ]; ring

theorem ctz64_lt {v k : Nat} (hv : 0 < v) (hk : v < 2 ^ k) : ctz64 v < k := by
  have hle : 2 ^ ctz64 v ≤ v := Nat.le_of_dvd hv (pow_ctzGo_dvd 64 v)
  exact (Nat.pow_lt_pow_iff_right Nat.one_lt_two).1 (lt_of_le_of_lt hle hk)

theorem ctz64_zero : ctz64 0 = 64 := by decide

theorem firstOneBit_eq {h : Nat} (hh : h < 2 ^ 64) (hp : p ≤ 64) :
    firstOneBit p h = 1 + min (ctz64 (h >>> p)) (64 - p) := by
  have hshift : h >>> p < 2 ^ (64 - p) := by
    rw [Nat.shiftRight_eq_div_pow, Nat.div_lt_iff_lt_mul (Nat.two_pow_pos p), ← pow_add,
      Nat.sub_add_cancel hp]
    exact hh
  rw [firstOneBit, countTrailingZeros]
  split
  · next h0 => rw [h0, ctz64_zero, min_eq_right (by omega)]
  · next h0 => rw [min_eq_left (ctz64_lt (Nat.pos_of_ne_zero h0) hshift).le]

theorem firstOneBit_le {h : Nat} (hh : h < 2 ^ 64) (hp : p ≤ 64) : firstOneBit p h ≤ 65 - p := by
  rw [firstOneBit_eq p hh hp]
  omega

/-! ## The generic update is a join -/

def hashSketch (h : Nat) : Fin (2 ^ p) → Nat := Pi.single (hllIdx p h) (firstOneBit p h)

def hashSet (inputs : List (Option α)) : Finset Nat := ((inputs.filterMap id).map hash).toFinset

theorem hllUpdate_some (v : α) (dst : Fin (2 ^ p) → Nat) :
    hllUpdate hash p (some v) dst = dst ⊔ hashSketch p (hash v) := by
  funext i
  by_cases hi : i = hllIdx p (hash v)
  · subst hi
    simp [hllUpdate, hashSketch]
  · simp [hllUpdate, hashSketch, Function.update_of_ne hi, Pi.single_eq_of_ne hi]

theorem hllMerge_eq_sup (src dst : Fin (2 ^ p) → Nat) : hllMerge p src dst = dst ⊔ src := rfl

theorem foldl_hllUpdate (inputs : List (Option α)) (d : Fin (2 ^ p) → Nat) :
    inputs.foldl (fun d x => hllUpdate hash p x d) d = d ⊔ (hashSet hash inputs).sup (hashSketch p) := by
  induction inputs generalizing d with
  | nil => simp [hashSet]
  | cons x inputs ih =>
    cases x with
    | none =>
      simp only [List.foldl_cons, ih]
      simp [hllUpdate, hashSet]
    | some v =>
      have hset : hashSet hash (some v :: inputs) = insert (hash v) (hashSet hash inputs) := by
        simp [hashSet]
      rw [List.foldl_cons, hllUpdate_some, ih, hset, Finset.sup_insert, sup_assoc]

theorem hllRun_eq_sup (inputs : List (Option α)) :
    hllRun hash p inputs = (hashSet hash inputs).sup (hashSketch p) := by
  rw [hllRun, foldl_hllUpdate]
  exact bot_sup_eq _

theorem hllRun_congr {xs ys : List (Option α)} (h : hashSet hash xs = hashSet hash ys) :
    hllRun hash p xs = hllRun hash p ys := by
  rw [hllRun_eq_sup, hllRun_eq_sup, h]

theorem hllRun_append (xs ys : List (Option α)) :
    hllRun hash p (xs ++ ys) = hllMerge p (hllRun hash p ys) (hllRun hash p xs) := by
  have hset : hashSet hash (xs ++ ys) = hashSet hash xs ∪ hashSet hash ys := by
    simp [hashSet, List.toFinset_append]
  rw [hllRun_eq_sup, hllRun_eq_sup, hllRun_eq_sup, hset, Finset.sup_union, hllMerge_eq_sup]

theorem hllMerge_comm (a b : Fin (2 ^ p) → Nat) : hllMerge p a b = hllMerge p b a := sup_comm _ _

theorem hllMerge_assoc (a b c : Fin (2 ^ p) → Nat) :
    hllMerge p a (hllMerge p b c) = hllMerge p (hllMerge p a b) c := by
  simp only [hllMerge_eq_sup, sup_assoc]

theorem hllMerge_idem (a : Fin (2 ^ p) → Nat) : hllMerge p a a = a := sup_idem _

theorem hllRun_le (hp : p ≤ 64) (hh : ∀ v, hash v < 2 ^ 64) (inputs : List (Option α))
    (i : Fin (2 ^ p)) : hllRun hash p inputs i ≤ 65 - p := by
  rw [hllRun_eq_sup]
  have hsketch : ∀ h ∈ hashSet hash inputs, hashSketch p h ≤ fun _ => 65 - p := by
    intro h hmem j
    simp only [hashSet, List.mem_toFinset, List.mem_map] at hmem
    obtain ⟨v, -, rfl⟩ := hmem
    by_cases hj : j = hllIdx p (hash v)
    · subst hj
      simpa [hashSketch] using firstOneBit_le p (hh v) hp
    · simp [hashSketch, Pi.single_eq_of_ne hj]
  exact Finset.sup_le hsketch i

/-- The NDV sketch can be built in parts and merged in any grouping and order: the sketch of a
run depends only on the set of hashes of its non-NULL inputs, the sketch of two parts run one
after the other is the `HllMerge` of their sketches, `HllMerge` is commutative, associative and
idempotent, and every register stays at most `65 - p`, within a `uint8_t`. -/
theorem hll_sketch_mergeable (hp : p ≤ 64) (hh : ∀ v, hash v < 2 ^ 64) :
    (∀ xs ys : List (Option α), hashSet hash xs = hashSet hash ys →
      hllRun hash p xs = hllRun hash p ys) ∧
    (∀ xs ys : List (Option α),
      hllRun hash p (xs ++ ys) = hllMerge p (hllRun hash p ys) (hllRun hash p xs)) ∧
    (∀ a b : Fin (2 ^ p) → Nat, hllMerge p a b = hllMerge p b a) ∧
    (∀ a b c : Fin (2 ^ p) → Nat,
      hllMerge p a (hllMerge p b c) = hllMerge p (hllMerge p a b) c) ∧
    (∀ a : Fin (2 ^ p) → Nat, hllMerge p a a = a) ∧
    ∀ (inputs : List (Option α)) (i : Fin (2 ^ p)), hllRun hash p inputs i ≤ 65 - p :=
  ⟨fun _ _ h => hllRun_congr hash p h, hllRun_append hash p, hllMerge_comm p, hllMerge_assoc p,
    hllMerge_idem p, hllRun_le hash p hp hh⟩

theorem hll_sketch_mergeable_p4 :
    hllRun (fun v : Nat => v % 2 ^ 64) 4 [some 3, none, some 8] 5 ≤ 61 :=
  (hll_sketch_mergeable (fun v : Nat => v % 2 ^ 64) 4 (by norm_num)
    (fun v => Nat.mod_lt v (by norm_num))).2.2.2.2.2 [some 3, none, some 8] 5

/-! ## The `DecimalVal` update -/

/-- The `DecimalVal` update is not the generic one: a hash with no bit set above the index has
no defined register (`__builtin_ctzl(0)`), and the hash `0` leaves the sketch where the generic
update raises register `0` to `65 - p`. -/
theorem hllUpdateDecimal_disagrees (hp : 9 ≤ p ∧ p ≤ 18) (dst : Fin (2 ^ p) → Nat) (v : α) :
    (0 < hash v → hash v < 2 ^ p → hllUpdateDecimal hash p (some v) dst = none) ∧
    (hash v = 0 → hllUpdateDecimal hash p (some v) dst = some dst ∧
      hllUpdate hash p (some v) dst ⟨0, Nat.two_pow_pos p⟩ =
        max (dst ⟨0, Nat.two_pow_pos p⟩) (65 - p)) := by
  refine ⟨fun hpos hlt => ?_, fun h0 => ⟨?_, ?_⟩⟩
  · have hshift : hash v >>> p = 0 := by
      rw [Nat.shiftRight_eq_div_pow, Nat.div_eq_of_lt hlt]
    simp [hllUpdateDecimal, hpos.ne', hshift, builtinCtzl]
  · simp [hllUpdateDecimal, h0]
  · have hidx : hllIdx p (hash v) = ⟨0, Nat.two_pow_pos p⟩ := by
      ext
      simp [hllIdx, h0]
    have hbit : firstOneBit p (hash v) = 65 - p := by
      rw [firstOneBit, countTrailingZeros, h0]
      simp only [Nat.zero_shiftRight, if_true]
      omega
    simp [hllUpdate, hidx, hbit]

theorem hllUpdateDecimal_disagrees_default :
    hllUpdateDecimal (fun _ : Unit => 1) 10 (some ()) (hllInit 10) = none ∧
    hllUpdateDecimal (fun _ : Unit => 0) 10 (some ()) (hllInit 10) = some (hllInit 10) ∧
    hllUpdate (fun _ : Unit => 0) 10 (some ()) (hllInit 10) ⟨0, Nat.two_pow_pos 10⟩ = 55 := by
  have h1 := (hllUpdateDecimal_disagrees (fun _ : Unit => 1) 10 ⟨by decide, by decide⟩
    (hllInit 10) ()).1 (by decide) (by decide)
  have h0 := (hllUpdateDecimal_disagrees (fun _ : Unit => 0) 10 ⟨by decide, by decide⟩
    (hllInit 10) ()).2 rfl
  exact ⟨h1, h0.1, by rw [h0.2]; rfl⟩

end Impala.AggregateFunctions
