import Mathlib

/-!
Morton order: points compared by the interleaving of their coordinates' bits, at every bit
position the first coordinate most significant. Two points compare in Morton order as the
coordinate whose pair differs in the highest bit compares, the first such coordinate on a tie;
`lessMsb x y` tells with two comparisons and an exclusive or whether the highest set bit of `x`
is below that of `y`, so the deciding coordinate is found without building the codes.
-/

set_option autoImplicit false

namespace Impala.Morton

/-! ## The highest set bit -/

theorem testBit_size_pred {x : Nat} (hx : x ≠ 0) : x.testBit (x.size - 1) = true := by
  have hpos : 0 < x.size := Nat.size_pos.2 (Nat.pos_of_ne_zero hx)
  apply Nat.testBit_of_two_pow_le_and_two_pow_add_one_gt
  · exact Nat.lt_size.1 (by omega)
  · rw [Nat.sub_add_cancel hpos]
    exact Nat.lt_size_self x

theorem testBit_of_size_le {x i : Nat} (h : x.size ≤ i) : x.testBit i = false :=
  Nat.testBit_lt_two_pow (Nat.size_le.1 h)

theorem size_eq_of_testBit {x i : Nat} (hi : x.testBit i = true)
    (habove : ∀ j, i < j → x.testBit j = false) : x.size = i + 1 := by
  apply Nat.le_antisymm
  · exact Nat.size_le.2 (Nat.lt_pow_two_of_testBit x fun j hj => habove j hj)
  · exact Nat.lt_size.2 (Nat.ge_two_pow_of_testBit hi)

theorem lt_iff_testBit_size_xor {x y : Nat} (h : x ≠ y) :
    x < y ↔ x.testBit ((x ^^^ y).size - 1) = false := by
  have hk := testBit_size_pred (mt Nat.xor_eq_zero_iff.1 h)
  have habove : ∀ j, (x ^^^ y).size - 1 < j → x.testBit j = y.testBit j := fun j hj => by
    have := testBit_of_size_le (x := x ^^^ y) (i := j) (by omega)
    rw [Nat.testBit_xor] at this
    cases hx : x.testBit j <;> cases hy : y.testBit j <;> simp_all
  rw [Nat.testBit_xor] at hk
  constructor
  · intro hlt
    cases hx : x.testBit ((x ^^^ y).size - 1)
    · rfl
    · have hy : y.testBit ((x ^^^ y).size - 1) = false := by simp_all
      exact absurd hlt (Nat.not_lt.2 (Nat.le_of_lt
        (Nat.lt_of_testBit _ hy hx fun j hj => (habove j hj).symm)))
  · intro hx
    have hy : y.testBit ((x ^^^ y).size - 1) = true := by simp_all
    exact Nat.lt_of_testBit _ hx hy habove

def lessMsb (x y : Nat) : Bool := decide (x < y) && decide (x < x ^^^ y)

theorem lessMsb_iff {x y : Nat} : lessMsb x y = true ↔ x.size < y.size := by
  simp only [lessMsb, Bool.and_eq_true, decide_eq_true_eq]
  constructor
  · rintro ⟨hlt, hxor⟩
    by_contra hs
    have heq : x.size = y.size := Nat.le_antisymm (Nat.size_le_size hlt.le) (by omega)
    have hy0 : y ≠ 0 := by omega
    have hx0 : x ≠ 0 := fun h0 => by simp [h0] at heq; exact hy0 (Nat.size_eq_zero.1 heq.symm)
    have hxs : 0 < x.size := Nat.size_pos.2 (Nat.pos_of_ne_zero hx0)
    have hsmall : x ^^^ y < 2 ^ (x.size - 1) := by
      apply Nat.lt_pow_two_of_testBit
      intro j hj
      rw [Nat.testBit_xor]
      rcases Nat.eq_or_lt_of_le hj with rfl | hj
      · rw [testBit_size_pred hx0, heq, testBit_size_pred hy0]; rfl
      · rw [testBit_of_size_le (by omega), testBit_of_size_le (by omega)]; rfl
    have hx := Nat.lt_size.1 (show x.size - 1 < x.size by omega)
    omega
  · intro hs
    have hy0 : y ≠ 0 := fun h0 => by simp [h0] at hs
    have hxy : x < 2 ^ (y.size - 1) := Nat.size_le.1 (by omega)
    have hy := Nat.lt_size.1 (show y.size - 1 < y.size by omega)
    refine ⟨Nat.lt_of_lt_of_le hxy hy, Nat.lt_of_lt_of_le hxy (Nat.ge_two_pow_of_testBit ?_)⟩
    rw [Nat.testBit_xor, testBit_of_size_le (by omega), testBit_size_pred hy0]
    rfl

/-! ## Bit interleaving -/

def lowBits : List Nat → Nat
  | [] => 0
  | x :: xs => 2 ^ xs.length * (x % 2) + lowBits xs

/-- The Morton code of the low `w` bits of the coordinates: bit `b` of coordinate `i` of `d`
is bit `b * d + (d - 1 - i)` of the code. -/
def interleave : Nat → List Nat → Nat
  | 0, _ => 0
  | w + 1, xs => 2 ^ xs.length * interleave w (xs.map (· / 2)) + lowBits xs

@[simp] theorem interleave_nil (w : Nat) : interleave w [] = 0 := by
  induction w with
  | zero => rfl
  | succ w ih => simp [interleave, ih, lowBits]

theorem lowBits_lt (xs : List Nat) : lowBits xs < 2 ^ xs.length := by
  induction xs with
  | nil => simp [lowBits]
  | cons x xs ih =>
    have hx := Nat.mul_le_mul_left (2 ^ xs.length) (show x % 2 ≤ 1 by omega)
    rw [lowBits, List.length_cons, Nat.pow_succ]
    omega

theorem testBit_lowBits (xs : List Nat) (j : Nat) :
    (lowBits xs).testBit j =
      (decide (j < xs.length) && (xs.getD (xs.length - 1 - j) 0).testBit 0) := by
  induction xs with
  | nil => simp [lowBits]
  | cons x xs ih =>
    rw [lowBits, Nat.testBit_two_pow_mul_add _ (lowBits_lt xs), List.length_cons]
    by_cases hj : j < xs.length
    · rw [if_pos hj, ih, show xs.length + 1 - 1 - j = xs.length - 1 - j + 1 by omega,
        List.getD_cons_succ]
      simp [hj, show j < xs.length + 1 by omega]
    · rw [if_neg hj]
      rcases Nat.eq_or_lt_of_le (Nat.le_of_not_lt hj) with rfl | hlt
      · simp [Nat.testBit_zero]
      · have hbit : (x % 2).testBit (j - xs.length) = false :=
          Nat.testBit_lt_two_pow (Nat.lt_of_lt_of_le (Nat.mod_lt x (by omega))
            (Nat.le_self_pow (by omega) 2))
        simp [hbit, show ¬j < xs.length + 1 by omega]

theorem testBit_interleave (w : Nat) (xs : List Nat) (j : Nat) :
    (interleave w xs).testBit j =
      (decide (j < w * xs.length) &&
        (xs.getD (xs.length - 1 - j % xs.length) 0).testBit (j / xs.length)) := by
  induction w generalizing xs j with
  | zero => simp [interleave]
  | succ w ih =>
    rw [interleave, Nat.testBit_two_pow_mul_add _ (lowBits_lt xs)]
    rcases Nat.eq_zero_or_pos xs.length with hd | hd
    · obtain rfl := List.length_eq_zero_iff.1 hd
      simp
    by_cases hj : j < xs.length
    · rw [if_pos hj, testBit_lowBits, Nat.mod_eq_of_lt hj, Nat.div_eq_of_lt hj]
      simp [hj, Nat.lt_of_lt_of_le hj (Nat.le_mul_of_pos_left _ (Nat.succ_pos w))]
    · rw [if_neg hj, ih, List.length_map]
      obtain ⟨k, rfl⟩ := Nat.exists_eq_add_of_le (Nat.le_of_not_lt hj)
      have hmap : ∀ i, (xs.map (· / 2)).getD i 0 = xs.getD i 0 / 2 := fun i =>
        List.getD_map xs 0 (fun x => x / 2)
      rw [hmap, Nat.testBit_div_two, Nat.add_sub_cancel_left, Nat.add_mod_left,
        Nat.add_div_left k hd, Nat.succ_mul]
      congr 1
      simp only [decide_eq_decide]
      omega

theorem testBit_interleave_at (w : Nat) (xs : List Nat) {i : Nat} (hi : i < xs.length)
    (b : Nat) :
    (interleave w xs).testBit (b * xs.length + (xs.length - 1 - i)) =
      (decide (b < w) && (xs.getD i 0).testBit b) := by
  have hr : xs.length - 1 - i < xs.length := by omega
  have hmod : (b * xs.length + (xs.length - 1 - i)) % xs.length = xs.length - 1 - i := by
    rw [Nat.mul_comm, Nat.mul_add_mod, Nat.mod_eq_of_lt hr]
  have hdiv : (b * xs.length + (xs.length - 1 - i)) / xs.length = b := by
    rw [Nat.mul_comm, Nat.mul_add_div (by omega), Nat.div_eq_of_lt hr, Nat.add_zero]
  have hlt : b * xs.length + (xs.length - 1 - i) < w * xs.length ↔ b < w := by
    constructor
    · intro h
      by_contra hb
      have := Nat.mul_le_mul_right xs.length (Nat.le_of_not_lt hb)
      omega
    · intro h
      have := Nat.mul_le_mul_right xs.length (Nat.succ_le_of_lt h)
      rw [Nat.succ_mul] at this
      omega
  rw [testBit_interleave, hmod, hdiv, show xs.length - 1 - (xs.length - 1 - i) = i by omega]
  simp only [hlt]

/-! ## Points as pairs of coordinates -/

section Pairs

variable (w : Nat) (ps : List (Nat × Nat))

theorem getD_map_xor (i : Nat) :
    (ps.map fun q => q.1 ^^^ q.2).getD i 0 = (ps.getD i (0, 0)).1 ^^^ (ps.getD i (0, 0)).2 :=
  List.getD_map ps (0, 0) (fun q : Nat × Nat => q.1 ^^^ q.2)

theorem getD_map_fst (i : Nat) : (ps.map Prod.fst).getD i 0 = (ps.getD i (0, 0)).1 :=
  List.getD_map ps (0, 0) Prod.fst

theorem getD_map_snd (i : Nat) : (ps.map Prod.snd).getD i 0 = (ps.getD i (0, 0)).2 :=
  List.getD_map ps (0, 0) Prod.snd

theorem interleave_xor :
    interleave w (ps.map fun q => q.1 ^^^ q.2) =
      interleave w (ps.map Prod.fst) ^^^ interleave w (ps.map Prod.snd) := by
  apply Nat.eq_of_testBit_eq
  intro j
  simp only [Nat.testBit_xor, testBit_interleave, List.length_map, getD_map_xor, getD_map_fst,
    getD_map_snd]
  cases decide (j < w * ps.length) <;> simp

end Pairs

theorem compare_eq_of_lt_iff {x y a b : Nat} (hxy : x ≠ y) (hab : a ≠ b) (h : x < y ↔ a < b) :
    compare x y = compare a b := by
  rcases Nat.lt_or_gt_of_ne hxy with hlt | hgt
  · rw [Nat.compare_eq_lt.2 hlt, Nat.compare_eq_lt.2 (h.1 hlt)]
  · have hba : b < a := by
      rcases Nat.lt_or_gt_of_ne hab with h' | h'
      · exact absurd (h.2 h') (Nat.lt_asymm hgt)
      · exact h'
    rw [Nat.compare_eq_gt.2 hgt, Nat.compare_eq_gt.2 hba]

theorem compare_interleave (w : Nat) {ps pre post : List (Nat × Nat)} {a b : Nat}
    (hps : ps = pre ++ (a, b) :: post) (hw : ∀ q ∈ ps, q.1 < 2 ^ w ∧ q.2 < 2 ^ w)
    (hpre : ∀ q ∈ pre, (q.1 ^^^ q.2).size < (a ^^^ b).size)
    (hpost : ∀ q ∈ post, (q.1 ^^^ q.2).size ≤ (a ^^^ b).size) :
    compare (interleave w (ps.map Prod.fst)) (interleave w (ps.map Prod.snd)) = compare a b := by
  have hkey : ∀ q ∈ ps, (q.1 ^^^ q.2).size ≤ (a ^^^ b).size := by
    intro q hq
    rw [hps, List.mem_append, List.mem_cons] at hq
    rcases hq with hq | rfl | hq
    · exact (hpre q hq).le
    · exact le_refl _
    · exact hpost q hq
  by_cases hab : a = b
  · subst hab
    have hfst : ps.map Prod.fst = ps.map Prod.snd := List.map_congr_left fun q hq => by
      have := hkey q hq
      rw [Nat.xor_self, Nat.size_zero, Nat.le_zero, Nat.size_eq_zero,
        Nat.xor_eq_zero_iff] at this
      exact this
    rw [hfst, Nat.compare_eq_eq.2 rfl, Nat.compare_eq_eq.2 rfl]
  have hz : a ^^^ b ≠ 0 := mt Nat.xor_eq_zero_iff.1 hab
  have hs : 0 < (a ^^^ b).size := Nat.size_pos.2 (Nat.pos_of_ne_zero hz)
  have hsw : (a ^^^ b).size - 1 < w := by
    have hmem : a < 2 ^ w ∧ b < 2 ^ w := hw (a, b) (by rw [hps]; simp)
    have := Nat.size_le.2 (Nat.xor_lt_two_pow hmem.1 hmem.2)
    omega
  have hp : pre.length < ps.length := by rw [hps]; simp
  have hatp : ps.getD pre.length (0, 0) = (a, b) := by
    rw [hps, List.getD_append_right _ _ _ _ (le_refl _), Nat.sub_self, List.getD_cons_zero]
  set P := ((a ^^^ b).size - 1) * ps.length + (ps.length - 1 - pre.length) with hP
  have hbitP : (interleave w (ps.map fun q => q.1 ^^^ q.2)).testBit P = true := by
    have hat := testBit_interleave_at w (ps.map fun q => q.1 ^^^ q.2) (i := pre.length)
      (by simpa using hp) ((a ^^^ b).size - 1)
    rw [List.length_map] at hat
    rw [hP, hat, getD_map_xor, hatp]
    simp [hsw, testBit_size_pred hz]
  have habove : ∀ j, P < j → (interleave w (ps.map fun q => q.1 ^^^ q.2)).testBit j = false := by
    intro j hj
    rw [testBit_interleave, List.length_map, getD_map_xor]
    set d := ps.length
    have hd : 0 < d := by omega
    have hPd : P / d = (a ^^^ b).size - 1 := by
      rw [hP, Nat.mul_comm, Nat.mul_add_div hd, Nat.div_eq_of_lt (by omega), Nat.add_zero]
    have hPm : P % d = d - 1 - pre.length := by
      rw [hP, Nat.mul_comm, Nat.mul_add_mod, Nat.mod_eq_of_lt (by omega)]
    have hjd : (a ^^^ b).size - 1 ≤ j / d := hPd ▸ Nat.div_le_div_right hj.le
    have hjm := Nat.mod_lt j hd
    cases hj' : decide (j < w * d)
    · rfl
    simp only [decide_eq_true_eq] at hj'
    have hi : d - 1 - j % d < d := by omega
    have hmem : ps.getD (d - 1 - j % d) (0, 0) ∈ ps := by
      rw [List.getD_eq_getElem _ _ hi]; exact List.getElem_mem hi
    rw [Bool.true_and]
    rcases Nat.eq_or_lt_of_le hjd with hjd | hjd
    · have hjm' : d - 1 - pre.length < j % d := by
        have h1 := Nat.div_add_mod j d
        have h2 := Nat.div_add_mod P d
        rw [← hjd] at h1
        rw [hPd, hPm] at h2
        omega
      have hpre' : ps.getD (d - 1 - j % d) (0, 0) ∈ pre := by
        rw [hps, List.getD_append _ _ _ _ (by omega), List.getD_eq_getElem _ _ (by omega)]
        exact List.getElem_mem _
      exact testBit_of_size_le (by have := hpre _ hpre'; omega)
    · exact testBit_of_size_le (by have := hkey _ hmem; omega)
  have htop := size_eq_of_testBit hbitP habove
  rw [interleave_xor] at hbitP htop
  have hxy : interleave w (ps.map Prod.fst) ≠ interleave w (ps.map Prod.snd) := by
    intro h
    rw [h, Nat.xor_self, Nat.size_zero] at htop
    omega
  apply compare_eq_of_lt_iff hxy hab
  have hat := testBit_interleave_at w (ps.map Prod.fst) (i := pre.length) (by simpa using hp)
    ((a ^^^ b).size - 1)
  rw [List.length_map] at hat
  rw [lt_iff_testBit_size_xor hxy, htop, Nat.add_sub_cancel, hP, hat, getD_map_fst, hatp,
    lt_iff_testBit_size_xor hab]
  simp [hsw]

/-! ## The loop that finds the deciding pair -/

theorem exists_split_foldl {α : Type} (key : α → Nat) (a : α) (l : List α) :
    ∃ pre post, a :: l = pre ++ l.foldl (fun m x => if key m < key x then x else m) a :: post ∧
      (∀ q ∈ pre, key q < key (l.foldl (fun m x => if key m < key x then x else m) a)) ∧
      (∀ q ∈ post, key q ≤ key (l.foldl (fun m x => if key m < key x then x else m) a)) := by
  induction l generalizing a with
  | nil => exact ⟨[], [], rfl, by simp, by simp⟩
  | cons x l ih =>
    rw [List.foldl_cons]
    obtain ⟨pre, post, hsplit, hpre, hpost⟩ := ih (if key a < key x then x else a)
    set r := l.foldl (fun m x => if key m < key x then x else m) (if key a < key x then x else a)
    by_cases hax : key a < key x
    · rw [if_pos hax] at hsplit
      refine ⟨a :: pre, post, by rw [hsplit]; rfl, ?_, hpost⟩
      intro q hq
      rcases List.mem_cons.1 hq with rfl | hq
      · cases pre with
        | nil =>
          obtain ⟨hxr, -⟩ := List.cons.inj hsplit
          rw [← hxr]
          exact hax
        | cons y pre =>
          obtain ⟨rfl, -⟩ := List.cons.inj hsplit
          exact Nat.lt_trans hax (hpre _ List.mem_cons_self)
      · exact hpre q hq
    · rw [if_neg hax] at hsplit
      cases pre with
      | nil =>
        obtain ⟨har, rfl⟩ := List.cons.inj hsplit
        refine ⟨[], x :: l, by rw [← har]; rfl, by simp, ?_⟩
        intro q hq
        rcases List.mem_cons.1 hq with rfl | hq
        · rw [← har]; exact Nat.le_of_not_lt hax
        · exact hpost q hq
      | cons y pre =>
        obtain ⟨rfl, hl⟩ := List.cons.inj hsplit
        refine ⟨a :: x :: pre, post, by rw [hl]; rfl, ?_, hpost⟩
        intro q hq
        rcases List.mem_cons.1 hq with rfl | hq
        · exact hpre _ List.mem_cons_self
        rcases List.mem_cons.1 hq with rfl | hq
        · exact Nat.lt_of_le_of_lt (Nat.le_of_not_lt hax) (hpre _ List.mem_cons_self)
        · exact hpre q (List.mem_cons_of_mem _ hq)

end Impala.Morton
