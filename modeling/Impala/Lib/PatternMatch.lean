import Mathlib

/-!
Occurrences of a pattern in a text: `MatchAt p s i` when `p` is the window of `s` at offset
`i`, the least occurrence from an offset (`firstMatchFrom`) and the greatest below one
(`lastMatchBelow`). A search that skips offsets is correct when every offset it skips is no
occurrence (`firstMatchFrom_skip`, `lastMatchBelow_skip`), and the two ways to know that
without comparing the window are here: a character of the text that the pattern does not
contain rules out every window over it (`not_matchAt_of_not_mem`), and a character that
differs from the pattern at its place rules out the one window (`not_matchAt_of_ne`).
-/

set_option autoImplicit false

namespace Impala.PatternMatch

variable {α : Type*}

def MatchAt (p s : List α) (i : Nat) : Prop :=
  i + p.length ≤ s.length ∧ ∀ k < p.length, s[i + k]? = p[k]?

instance [DecidableEq α] (p s : List α) (i : Nat) : Decidable (MatchAt p s i) :=
  inferInstanceAs (Decidable (_ ∧ _))

def firstMatchIn [DecidableEq α] (p s : List α) (i : Nat) : Nat → Option Nat
  | 0 => none
  | count + 1 => if MatchAt p s i then some i else firstMatchIn p s (i + 1) count

def firstMatchFrom [DecidableEq α] (p s : List α) (i : Nat) : Option Nat :=
  firstMatchIn p s i (s.length + 1 - p.length - i)

def lastMatchBelow [DecidableEq α] (p s : List α) : Nat → Option Nat
  | 0 => none
  | t + 1 => if MatchAt p s t then some t else lastMatchBelow p s t

variable {p s : List α} {i j : Nat}

theorem MatchAt.le (h : MatchAt p s i) : i + p.length ≤ s.length := h.1

theorem not_matchAt_of_not_mem {q : Nat} {c : α} (hc : s[q]? = some c) (hnot : c ∉ p)
    (hi : i ≤ q) (hq : q < i + p.length) : ¬ MatchAt p s i := by
  intro h
  have hk := h.2 (q - i) (by omega)
  rw [show i + (q - i) = q by omega, hc] at hk
  exact hnot (List.mem_of_getElem? hk.symm)

theorem not_matchAt_of_ne {k : Nat} {c : α} (hc : s[i + k]? = some c) (hk : k < p.length)
    (hne : p[k]? ≠ some c) : ¬ MatchAt p s i := by
  intro h
  exact hne ((h.2 k hk).symm.trans hc)

theorem matchAt_zero_iff : MatchAt p s 0 ↔ p <+: s := by
  constructor
  · rintro ⟨hle, h⟩
    rw [List.prefix_iff_eq_take]
    refine List.ext_getElem? fun k => ?_
    by_cases hk : k < p.length
    · rw [List.getElem?_take, if_pos hk]
      simpa using (h k hk).symm
    · rw [List.getElem?_eq_none (by omega), List.getElem?_eq_none (by simp; omega)]
  · rintro ⟨t, rfl⟩
    refine ⟨by simp, fun k hk => ?_⟩
    rw [Nat.zero_add, List.getElem?_append_left hk]

theorem matchAt_drop {k : Nat} (hk : k ≤ s.length) :
    MatchAt p (s.drop k) j ↔ MatchAt p s (k + j) := by
  simp only [MatchAt, List.length_drop, List.getElem?_drop, Nat.add_assoc]
  constructor
  · rintro ⟨hle, h⟩
    exact ⟨by omega, h⟩
  · rintro ⟨hle, h⟩
    exact ⟨by omega, h⟩

theorem matchAt_take {t : Nat} : MatchAt p (s.take t) j ↔ MatchAt p s j ∧ j + p.length ≤ t := by
  simp only [MatchAt, List.length_take, List.getElem?_take]
  constructor
  · rintro ⟨hle, h⟩
    refine ⟨⟨by omega, fun k hk => ?_⟩, by omega⟩
    have hk' := h k hk
    rwa [if_pos (by omega)] at hk'
  · rintro ⟨⟨hle, h⟩, ht⟩
    refine ⟨by omega, fun k hk => ?_⟩
    rw [if_pos (by omega)]
    exact h k hk

section Sorted

variable {β : Type*} [LinearOrder β]

theorem filter_le_eq_cons {L : List β} (hL : L.Pairwise (· < ·)) {i j : β} (hj : j ∈ L)
    (hij : i ≤ j) (hleast : ∀ k ∈ L, i ≤ k → k < j → False) :
    L.filter (fun k => decide (i ≤ k)) = j :: L.filter (fun k => decide (j < k)) := by
  induction L with
  | nil => cases hj
  | cons a L ih =>
    rw [List.pairwise_cons] at hL
    rcases lt_trichotomy a j with haj | rfl | hja
    · have hai : ¬ i ≤ a := fun h => hleast a List.mem_cons_self h haj
      have hjL : j ∈ L := (List.mem_cons.1 hj).resolve_left (ne_of_gt haj)
      simp only [List.filter_cons, decide_eq_true_eq, hai, not_lt.2 (le_of_lt haj), if_false]
      exact ih hL.2 hjL fun k hk => hleast k (List.mem_cons_of_mem _ hk)
    · have hall : ∀ k ∈ L, a < k := hL.1
      simp only [List.filter_cons, decide_eq_true_eq, hij, lt_irrefl, if_true, if_false]
      rw [List.filter_eq_self.2 fun k hk => by simpa using le_trans hij (le_of_lt (hall k hk)),
        List.filter_eq_self.2 fun k hk => by simpa using hall k hk]
    · rcases List.mem_cons.1 hj with h | h
      · exact absurd h (ne_of_lt hja)
      · exact absurd (hL.1 j h) (lt_asymm hja)

theorem filter_lt_eq_cons {L : List β} (hL : L.Pairwise (· > ·)) {t j : β} (hj : j ∈ L)
    (hjt : j < t) (hgreatest : ∀ k ∈ L, k < t → j < k → False) :
    L.filter (fun k => decide (k < t)) = j :: L.filter (fun k => decide (k < j)) := by
  induction L with
  | nil => cases hj
  | cons a L ih =>
    rw [List.pairwise_cons] at hL
    rcases lt_trichotomy j a with hja | rfl | haj
    · have hat : ¬ a < t := fun h => hgreatest a List.mem_cons_self h hja
      have hjL : j ∈ L := (List.mem_cons.1 hj).resolve_left (ne_of_lt hja)
      simp only [List.filter_cons, decide_eq_true_eq, hat, not_lt.2 (le_of_lt hja), if_false]
      exact ih hL.2 hjL fun k hk => hgreatest k (List.mem_cons_of_mem _ hk)
    · have hall : ∀ k ∈ L, k < j := hL.1
      simp only [List.filter_cons, decide_eq_true_eq, hjt, lt_irrefl, if_true, if_false]
      rw [List.filter_eq_self.2 fun k hk => by simpa using lt_trans (hall k hk) hjt,
        List.filter_eq_self.2 fun k hk => by simpa using hall k hk]
    · rcases List.mem_cons.1 hj with h | h
      · exact absurd h (ne_of_gt haj)
      · exact absurd (hL.1 j h) (lt_asymm haj)

end Sorted

section Decidable

variable [DecidableEq α]

theorem firstMatchIn_eq_some_iff {count : Nat} :
    firstMatchIn p s i count = some j ↔
      i ≤ j ∧ j < i + count ∧ MatchAt p s j ∧ ∀ k, i ≤ k → k < j → ¬ MatchAt p s k := by
  induction count generalizing i with
  | zero => simp [firstMatchIn]; omega
  | succ count ih =>
    simp only [firstMatchIn]
    split_ifs with hi
    · constructor
      · rintro ⟨⟩
        exact ⟨Nat.le_refl _, by omega, hi, fun k hk hkj => by omega⟩
      · rintro ⟨hij, -, -, hleast⟩
        rcases Nat.eq_or_lt_of_le hij with rfl | hlt
        · rfl
        · exact absurd hi (hleast i (Nat.le_refl _) hlt)
    · rw [ih]
      constructor
      · rintro ⟨hij, hj, hm, hleast⟩
        refine ⟨by omega, by omega, hm, fun k hk hkj => ?_⟩
        rcases Nat.eq_or_lt_of_le hk with rfl | hk
        · exact hi
        · exact hleast k hk hkj
      · rintro ⟨hij, hj, hm, hleast⟩
        have hne : i ≠ j := fun h => hi (h ▸ hm)
        exact ⟨by omega, by omega, hm, fun k hk hkj => hleast k (by omega) hkj⟩

theorem firstMatchIn_eq_none_iff {count : Nat} :
    firstMatchIn p s i count = none ↔ ∀ k, i ≤ k → k < i + count → ¬ MatchAt p s k := by
  induction count generalizing i with
  | zero => simp [firstMatchIn]; omega
  | succ count ih =>
    simp only [firstMatchIn]
    split_ifs with hi
    · simp only [false_iff, not_forall, not_not]
      exact ⟨i, Nat.le_refl _, by omega, hi⟩
    · rw [ih]
      constructor
      · intro h k hk hkc
        rcases Nat.eq_or_lt_of_le hk with rfl | hk
        · exact hi
        · exact h k hk (by omega)
      · exact fun h k hk hkc => h k (by omega) (by omega)

theorem firstMatchFrom_eq_some_iff :
    firstMatchFrom p s i = some j ↔
      i ≤ j ∧ MatchAt p s j ∧ ∀ k, i ≤ k → k < j → ¬ MatchAt p s k := by
  rw [firstMatchFrom, firstMatchIn_eq_some_iff]
  constructor
  · rintro ⟨hij, -, hm, hleast⟩
    exact ⟨hij, hm, hleast⟩
  · rintro ⟨hij, hm, hleast⟩
    exact ⟨hij, by have := hm.le; omega, hm, hleast⟩

theorem firstMatchFrom_eq_none_iff :
    firstMatchFrom p s i = none ↔ ∀ k, i ≤ k → ¬ MatchAt p s k := by
  rw [firstMatchFrom, firstMatchIn_eq_none_iff]
  constructor
  · intro h k hk hm
    exact h k hk (by have := hm.le; omega) hm
  · exact fun h k hk _ => h k hk

theorem firstMatchFrom_of_matchAt (h : MatchAt p s i) : firstMatchFrom p s i = some i :=
  firstMatchFrom_eq_some_iff.2 ⟨Nat.le_refl _, h, fun _ hk hki => absurd hki (by omega)⟩

theorem firstMatchFrom_skip {n : Nat} (hle : i ≤ n)
    (hskip : ∀ k, i ≤ k → k < n → ¬ MatchAt p s k) : firstMatchFrom p s i = firstMatchFrom p s n := by
  cases h : firstMatchFrom p s n with
  | none =>
    rw [firstMatchFrom_eq_none_iff] at h ⊢
    intro k hk
    by_cases hki : k < n
    · exact hskip k hk hki
    · exact h k (by omega)
  | some j =>
    obtain ⟨hij, hm, hleast⟩ := firstMatchFrom_eq_some_iff.1 h
    refine firstMatchFrom_eq_some_iff.2 ⟨by omega, hm, fun k hk hkj => ?_⟩
    by_cases hki : k < n
    · exact hskip k hk hki
    · exact hleast k (by omega) hkj

theorem firstMatchFrom_of_lt (h : s.length < i + p.length) : firstMatchFrom p s i = none :=
  firstMatchFrom_eq_none_iff.2 fun _ hk hm => by have := hm.le; omega

theorem lastMatchBelow_eq_some_iff {t : Nat} :
    lastMatchBelow p s t = some j ↔ j < t ∧ MatchAt p s j ∧ ∀ k, j < k → k < t → ¬ MatchAt p s k := by
  induction t with
  | zero => simp [lastMatchBelow]
  | succ t ih =>
    simp only [lastMatchBelow]
    split_ifs with ht
    · constructor
      · rintro ⟨⟩
        exact ⟨by omega, ht, fun k hk hkt => by omega⟩
      · rintro ⟨hjt, -, hgreatest⟩
        rcases Nat.lt_succ_iff_lt_or_eq.1 hjt with hlt | rfl
        · exact absurd ht (hgreatest t hlt (by omega))
        · rfl
    · rw [ih]
      constructor
      · rintro ⟨hjt, hm, hgreatest⟩
        refine ⟨by omega, hm, fun k hjk hkt => ?_⟩
        rcases Nat.lt_succ_iff_lt_or_eq.1 hkt with hkt | rfl
        · exact hgreatest k hjk hkt
        · exact ht
      · rintro ⟨hjt, hm, hgreatest⟩
        have hne : j ≠ t := fun h => ht (h ▸ hm)
        exact ⟨by omega, hm, fun k hjk hkt => hgreatest k hjk (by omega)⟩

theorem lastMatchBelow_eq_none_iff {t : Nat} :
    lastMatchBelow p s t = none ↔ ∀ k < t, ¬ MatchAt p s k := by
  induction t with
  | zero => simp [lastMatchBelow]
  | succ t ih =>
    simp only [lastMatchBelow]
    split_ifs with ht
    · simp only [false_iff, not_forall, not_not]
      exact ⟨t, by omega, ht⟩
    · rw [ih]
      constructor
      · intro h k hk
        rcases Nat.lt_succ_iff_lt_or_eq.1 hk with hk | rfl
        · exact h k hk
        · exact ht
      · exact fun h k hk => h k (by omega)

theorem lastMatchBelow_succ_of_matchAt (h : MatchAt p s i) : lastMatchBelow p s (i + 1) = some i := by
  simp [lastMatchBelow, h]

theorem lastMatchBelow_skip {t t' : Nat} (hle : t' ≤ t)
    (hskip : ∀ k, t' ≤ k → k < t → ¬ MatchAt p s k) : lastMatchBelow p s t = lastMatchBelow p s t' := by
  cases h : lastMatchBelow p s t' with
  | none =>
    rw [lastMatchBelow_eq_none_iff] at h ⊢
    intro k hk
    by_cases hkt : k < t'
    · exact h k hkt
    · exact hskip k (by omega) hk
  | some j =>
    obtain ⟨hjt, hm, hgreatest⟩ := lastMatchBelow_eq_some_iff.1 h
    refine lastMatchBelow_eq_some_iff.2 ⟨by omega, hm, fun k hjk hkt => ?_⟩
    by_cases hkt' : k < t'
    · exact hgreatest k hjk hkt'
    · exact hskip k (by omega) hkt

def occurrences (p s : List α) : List Nat :=
  (List.range (s.length + 1)).filter fun j => decide (MatchAt p s j)

theorem mem_occurrences : j ∈ occurrences p s ↔ MatchAt p s j := by
  simp only [occurrences, List.mem_filter, List.mem_range, decide_eq_true_eq]
  exact ⟨fun h => h.2, fun h => ⟨by have := h.le; omega, h⟩⟩

theorem occurrences_pairwise : (occurrences p s).Pairwise (· < ·) :=
  List.pairwise_lt_range.filter _

theorem firstMatchFrom_drop {k : Nat} (hk : k ≤ s.length) :
    firstMatchFrom p (s.drop k) 0 = (firstMatchFrom p s k).map (· - k) := by
  cases h : firstMatchFrom p s k with
  | none =>
    rw [Option.map_none, firstMatchFrom_eq_none_iff]
    intro j _ hm
    exact firstMatchFrom_eq_none_iff.1 h (k + j) (Nat.le_add_right _ _) ((matchAt_drop hk).1 hm)
  | some j =>
    obtain ⟨hkj, hm, hleast⟩ := firstMatchFrom_eq_some_iff.1 h
    simp only [Option.map_some]
    refine firstMatchFrom_eq_some_iff.2 ⟨Nat.zero_le _, ?_, fun l _ hl hml => ?_⟩
    · rw [matchAt_drop hk, Nat.add_sub_cancel' hkj]
      exact hm
    · exact hleast (k + l) (Nat.le_add_right _ _) (by omega) ((matchAt_drop hk).1 hml)

theorem lastMatchBelow_take {t u : Nat} (h : u + p.length ≤ t + 1) :
    lastMatchBelow p (s.take t) u = lastMatchBelow p s u := by
  induction u with
  | zero => rfl
  | succ u ih =>
    have hu : MatchAt p (s.take t) u ↔ MatchAt p s u := by
      rw [matchAt_take]
      exact ⟨fun h' => h'.1, fun h' => ⟨h', by omega⟩⟩
    simp only [lastMatchBelow, hu, ih (by omega)]

theorem occurrences_filter_of_firstMatchFrom (h : firstMatchFrom p s i = some j) :
    (occurrences p s).filter (fun k => decide (i ≤ k)) =
      j :: (occurrences p s).filter (fun k => decide (j < k)) := by
  obtain ⟨hij, hm, hleast⟩ := firstMatchFrom_eq_some_iff.1 h
  exact filter_le_eq_cons occurrences_pairwise (mem_occurrences.2 hm) hij
    fun k hk hik hkj => hleast k hik hkj (mem_occurrences.1 hk)

theorem occurrences_filter_of_firstMatchFrom_none (h : firstMatchFrom p s i = none) :
    (occurrences p s).filter (fun k => decide (i ≤ k)) = [] := by
  rw [List.filter_eq_nil_iff]
  intro k hk hik
  exact firstMatchFrom_eq_none_iff.1 h k (of_decide_eq_true hik) (mem_occurrences.1 hk)

theorem occurrences_filter_of_lastMatchBelow {t : Nat} (h : lastMatchBelow p s t = some j) :
    (occurrences p s).reverse.filter (fun k => decide (k < t)) =
      j :: (occurrences p s).reverse.filter (fun k => decide (k < j)) := by
  obtain ⟨hjt, hm, hgreatest⟩ := lastMatchBelow_eq_some_iff.1 h
  exact filter_lt_eq_cons (List.pairwise_reverse.2 occurrences_pairwise)
    (List.mem_reverse.2 (mem_occurrences.2 hm)) hjt
    fun k hk hkt hjk => hgreatest k hjk hkt (mem_occurrences.1 (List.mem_reverse.1 hk))

theorem occurrences_filter_of_lastMatchBelow_none {t : Nat} (h : lastMatchBelow p s t = none) :
    (occurrences p s).reverse.filter (fun k => decide (k < t)) = [] := by
  rw [List.filter_eq_nil_iff]
  intro k hk hkt
  exact lastMatchBelow_eq_none_iff.1 h k (of_decide_eq_true hkt)
    (mem_occurrences.1 (List.mem_reverse.1 hk))

/-- Every occurrence of `p` in `s`, from the left and each after the one before, replaced by
`r`; the empty pattern replaces nothing. -/
def replaceAll (p r : List α) : List α → List α
  | [] => []
  | c :: s =>
    if p ≠ [] ∧ p <+: c :: s then r ++ replaceAll p r (s.drop (p.length - 1))
    else c :: replaceAll p r s
termination_by s => s.length
decreasing_by all_goals simp only [List.length_drop, List.length_cons]; omega

theorem firstMatchFrom_cons {c : α} (h0 : ¬ MatchAt p (c :: s) 0) :
    firstMatchFrom p (c :: s) 0 = (firstMatchFrom p s 0).map (· + 1) := by
  have hdrop := firstMatchFrom_drop (p := p) (s := c :: s) (k := 1) (by simp)
  rw [List.drop_one, List.tail_cons] at hdrop
  rw [hdrop, Option.map_map, firstMatchFrom_skip (n := 1) (Nat.zero_le _)
    fun k _ hk => by rwa [show k = 0 by omega]]
  cases h : firstMatchFrom p (c :: s) 1 with
  | none => rfl
  | some j =>
    have := (firstMatchFrom_eq_some_iff.1 h).1
    simp only [Option.map_some, Function.comp_apply, Option.some.injEq]
    omega

theorem replaceAll_nil_pattern (r s : List α) : replaceAll [] r s = s := by
  induction s with
  | nil => rw [replaceAll]
  | cons c s ih => rw [replaceAll, if_neg (by simp), ih]

theorem replaceAll_of_none {r : List α} (h : firstMatchFrom p s 0 = none) :
    replaceAll p r s = s := by
  induction s with
  | nil => rw [replaceAll]
  | cons c s ih =>
    have h0 : ¬ MatchAt p (c :: s) 0 := firstMatchFrom_eq_none_iff.1 h 0 (Nat.le_refl _)
    rw [firstMatchFrom_cons h0, Option.map_eq_none_iff] at h
    rw [replaceAll, if_neg fun h' => h0 (matchAt_zero_iff.2 h'.2), ih h]

theorem replaceAll_of_firstMatch {r : List α} (hp : p ≠ []) (h : firstMatchFrom p s 0 = some j) :
    replaceAll p r s = s.take j ++ r ++ replaceAll p r (s.drop (j + p.length)) := by
  have hlen := List.length_pos_of_ne_nil hp
  induction j generalizing s with
  | zero =>
    have hm := (firstMatchFrom_eq_some_iff.1 h).2.1
    cases s with
    | nil => exact absurd hm.le (by simp; omega)
    | cons c s =>
      rw [replaceAll, if_pos ⟨hp, matchAt_zero_iff.1 hm⟩, Nat.zero_add,
        show p.length = p.length - 1 + 1 by omega, List.drop_succ_cons, Nat.add_sub_cancel]
      rfl
  | succ j ih =>
    obtain ⟨-, hm, hleast⟩ := firstMatchFrom_eq_some_iff.1 h
    cases s with
    | nil => exact absurd hm.le (by simp)
    | cons c s =>
      have h0 : ¬ MatchAt p (c :: s) 0 := hleast 0 (Nat.le_refl _) (Nat.succ_pos _)
      rw [firstMatchFrom_cons h0, Option.map_eq_some_iff] at h
      obtain ⟨j', hj', hjj⟩ := h
      rw [Nat.succ_inj.1 hjj] at hj'
      rw [replaceAll, if_neg fun h' => h0 (matchAt_zero_iff.2 h'.2), ih hj',
        List.take_succ_cons, Nat.add_right_comm, List.drop_succ_cons]
      rfl

theorem length_le_replaceAll {r : List α} (hpr : p.length ≤ r.length) (s : List α) :
    s.length ≤ (replaceAll p r s).length := by
  fun_induction replaceAll p r s with
  | case1 => exact Nat.le_refl _
  | case2 c s h ih =>
    have := h.2.length_le
    have := List.length_pos_of_ne_nil h.1
    simp only [List.length_append, List.length_cons, List.length_drop] at ih this ⊢
    omega
  | case3 c s _ ih =>
    simp only [List.length_cons]
    omega

end Decidable

end Impala.PatternMatch
