import Mathlib
import Impala.Lib.Run
import Impala.Runtime.Bufferpool.ReservationTracker

/-!
What `CheckConsistency` asserts of every tracker, with the tree: the reservations
of a tracker's children add up to its `child_reservations_`. During a call the
sums are off at one tracker at a time, by an amount the call is about to settle:
the parent has counted a child's increase the child has not taken yet, or a
child has given back reservation its parent still counts. `Consistent s δ` is the
invariant with the sum at each tracker `t` off by `δ t`; every change of one
tracker shifts `δ` from that tracker to its parent (`Consistent.adjust`), and each
call, run along a path, ends with `δ = 0`.

The invariant holds after every run of calls that keep the documented
preconditions and whose sums stay inside `int64_t`.
-/

set_option autoImplicit false

namespace Impala.ReservationTracker

open Forest

variable {n : Nat}

def childSum (s : Trackers n) (t : Fin n) : Int :=
  ∑ c, if (s c).initialized ∧ (s c).parent = some t then (s c).reservation else 0

/-- The invariant of the initialized trackers, with the child sums off by `δ`. -/
structure Consistent (s : Trackers n) (δ : Fin n → Int) : Prop where
  used_nonneg : ∀ t, (s t).initialized → 0 ≤ (s t).usedReservation
  reservation_nonneg : ∀ t, (s t).initialized → 0 ≤ (s t).reservation
  reservation_le_limit : ∀ t, (s t).initialized → (s t).reservation ≤ (s t).reservationLimit
  limit_le_max : ∀ t, (s t).initialized → (s t).reservationLimit ≤ int64Max
  used_add_child_le : ∀ t, (s t).initialized →
    (s t).usedReservation + (s t).childReservations ≤ (s t).reservation
  childReservations_eq : ∀ t, (s t).initialized → (s t).childReservations = childSum s t + δ t
  parent_initialized : ∀ t p, (s t).initialized → (s t).parent = some p → (s p).initialized
  rootPath : ∀ t, (s t).initialized → ∃ l, RootPath (parentOf s) t l

/-- The invariant between calls. -/
abbrev Inv (s : Trackers n) : Prop := Consistent s 0

/-- Add `d` to the reservation and `e` to the child reservations, without wrapping. -/
def Tracker.adjust (d e : Int) (tr : Tracker n) : Tracker n :=
  { tr with reservation := tr.reservation + d, childReservations := tr.childReservations + e }

/-! ## Child sums -/

section ChildSum

variable {s : Trackers n}

theorem childSum_modify (s : Trackers n) (u : Fin n) (f : Tracker n → Tracker n)
    (hi : (f (s u)).initialized = (s u).initialized) (hp : (f (s u)).parent = (s u).parent)
    (t : Fin n) :
    childSum (modify s u f) t = childSum s t +
      if (s u).initialized ∧ (s u).parent = some t then
        (f (s u)).reservation - (s u).reservation
      else 0 := by
  unfold childSum
  rw [← sub_eq_iff_eq_add', ← Finset.sum_sub_distrib, Finset.sum_eq_single u]
  · simp only [modify_self, hi, hp]
    split_ifs <;> ring
  · intro v _ hv
    simp [modify_of_ne _ _ hv]
  · simp

theorem childSum_update_eq (s : Trackers n) (u : Fin n) (tr : Tracker n)
    (h₁ : ∀ v, (s u).initialized ∧ (s u).parent = some v → (s u).reservation = 0)
    (h₂ : ∀ v, tr.initialized ∧ tr.parent = some v → tr.reservation = 0) (t : Fin n) :
    childSum (Function.update s u tr) t = childSum s t := by
  unfold childSum
  refine Finset.sum_congr rfl fun c _ => ?_
  by_cases hc : c = u
  · subst hc
    simp only [Function.update_self]
    split_ifs with ha hb hb
    · rw [h₂ t ha, h₁ t hb]
    · exact h₂ t ha
    · exact (h₁ t hb).symm
    · rfl
  · rw [Function.update_of_ne hc]

theorem childSum_eq_zero {t : Fin n} (h : ∀ c, (s c).initialized → (s c).parent ≠ some t) :
    childSum s t = 0 := by
  refine Finset.sum_eq_zero fun c _ => ?_
  rw [if_neg fun hc => h c hc.1 hc.2]

theorem childSum_nonneg (hres : ∀ c, (s c).initialized → 0 ≤ (s c).reservation) (t : Fin n) :
    0 ≤ childSum s t := by
  apply Finset.sum_nonneg
  intro c _
  split_ifs with h
  · exact hres c h.1
  · exact le_refl 0

end ChildSum

/-! ## One tracker at a time -/

section Consistent

variable {s : Trackers n} {δ : Fin n → Int}

theorem Consistent.path (hs : Consistent s δ) {t : Fin n} (ht : (s t).initialized) :
    RootPath (parentOf s) t (findPathToRoot s t) := by
  obtain ⟨l, hl⟩ := hs.rootPath t ht
  have hlen : l.length ≤ n + 1 := by
    have := hl.length_le_card
    rw [Fintype.card_fin] at this
    omega
  rw [findPathToRoot, walkUp_eq hl hlen]
  exact hl

theorem Consistent.initialized_of_mem (hs : Consistent s δ) {t : Fin n} {l : List (Fin n)}
    (hl : RootPath (parentOf s) t l) (ht : (s t).initialized) : ∀ x ∈ l, (s x).initialized :=
  hl.forall_mem ht fun x p hx hp => hs.parent_initialized x p hx hp

theorem Consistent.childReservations_nonneg (hs : Consistent s δ) {t : Fin n}
    (ht : (s t).initialized) (hδ : 0 ≤ δ t) : 0 ≤ (s t).childReservations := by
  have := childSum_nonneg hs.reservation_nonneg t
  rw [hs.childReservations_eq t ht]
  omega

theorem Consistent.unusedReservation_eq (hs : Consistent s δ) {t : Fin n}
    (ht : (s t).initialized) (hδ : 0 ≤ δ t) :
    (s t).unusedReservation =
      (s t).reservation - (s t).usedReservation - (s t).childReservations := by
  have h0 := hs.used_nonneg t ht
  have h1 := hs.childReservations_nonneg ht hδ
  have h2 := hs.used_add_child_le t ht
  have h3 := hs.reservation_le_limit t ht
  have h4 := hs.limit_le_max t ht
  unfold int64Max at h4
  rw [Tracker.unusedReservation,
    sub64_of_bounds (a := (s t).reservation) (by omega) (by unfold int64Max; omega),
    sub64_of_bounds (by omega) (by unfold int64Max; omega)]

theorem modify_field {β : Type} (g : Tracker n → β) {u : Fin n} {f : Tracker n → Tracker n}
    (hf : g (f (s u)) = g (s u)) (v : Fin n) : g (modify s u f v) = g (s v) := by
  by_cases h : v = u
  · subst h; simpa using hf
  · rw [modify_of_ne _ _ h]

theorem Consistent.of_modify (hs : Consistent s δ) {u : Fin n} (hu : (s u).initialized)
    {f : Tracker n → Tracker n} (hi : (f (s u)).initialized = (s u).initialized)
    (hp : (f (s u)).parent = (s u).parent)
    (hl : (f (s u)).reservationLimit = (s u).reservationLimit)
    (h0 : 0 ≤ (f (s u)).usedReservation) (h1 : 0 ≤ (f (s u)).reservation)
    (hlim : (f (s u)).reservation ≤ (s u).reservationLimit)
    (hle : (f (s u)).usedReservation + (f (s u)).childReservations ≤ (f (s u)).reservation)
    (δ' : Fin n → Int)
    (hδ : ∀ v, δ' v = δ v + (if v = u then (f (s u)).childReservations - (s u).childReservations
      else 0) - if (s u).parent = some v then (f (s u)).reservation - (s u).reservation else 0) :
    Consistent (ReservationTracker.modify s u f) δ' := by
  have hi' := modify_field (s := s) Tracker.initialized hi
  have hlimit := modify_field (s := s) Tracker.reservationLimit hl
  have hpar : parentOf (ReservationTracker.modify s u f) = parentOf s :=
    funext (modify_field Tracker.parent hp)
  have hsum := childSum_modify s u f hi hp
  constructor
  · intro v hv
    rw [hi'] at hv
    by_cases h : v = u
    · subst h; simpa using h0
    · rw [modify_of_ne _ _ h]; exact hs.used_nonneg v hv
  · intro v hv
    rw [hi'] at hv
    by_cases h : v = u
    · subst h; simpa using h1
    · rw [modify_of_ne _ _ h]; exact hs.reservation_nonneg v hv
  · intro v hv
    rw [hi'] at hv
    by_cases h : v = u
    · subst h; simpa [hl] using hlim
    · rw [modify_of_ne _ _ h]; exact hs.reservation_le_limit v hv
  · intro v hv
    rw [hi'] at hv
    rw [hlimit]
    exact hs.limit_le_max v hv
  · intro v hv
    rw [hi'] at hv
    by_cases h : v = u
    · subst h; simpa using hle
    · rw [modify_of_ne _ _ h]; exact hs.used_add_child_le v hv
  · intro v hv
    rw [hi'] at hv
    have hc := hs.childReservations_eq v hv
    rw [hsum v, hδ v]
    by_cases h : v = u
    · subst h
      simp only [modify_self, hu, true_and, if_true]
      split_ifs <;> omega
    · rw [modify_of_ne _ _ h]
      simp only [h, hu, true_and, if_false]
      split_ifs <;> omega
  · intro v p hv hp'
    rw [hi'] at hv ⊢
    have hp'' : (s v).parent = some p := by
      rw [← hp']; exact (modify_field Tracker.parent hp v).symm
    exact hs.parent_initialized v p hv hp''
  · intro v hv
    rw [hi'] at hv
    rw [hpar]
    exact hs.rootPath v hv

theorem Consistent.adjust (hs : Consistent s δ) {u : Fin n} (hu : (s u).initialized)
    {d e : Int} (h0 : 0 ≤ (s u).reservation + d)
    (hlim : (s u).reservation + d ≤ (s u).reservationLimit)
    (hle : (s u).usedReservation + ((s u).childReservations + e) ≤ (s u).reservation + d)
    (δ' : Fin n → Int)
    (hδ : ∀ v, δ' v = δ v + (if v = u then e else 0) - if (s u).parent = some v then d else 0) :
    Consistent (ReservationTracker.modify s u (Tracker.adjust d e)) δ' :=
  hs.of_modify hu rfl rfl rfl (hs.used_nonneg u hu) h0 hlim hle δ' fun v => by
    simp only [Tracker.adjust, add_sub_cancel_left]
    exact hδ v

end Consistent

/-! ## The int64 updates without overflow -/

section Updates

variable {tr : Tracker n}

theorem Tracker.updateReservation_eq {d : Int} (h1 : 0 ≤ tr.reservation + d)
    (h2 : tr.reservation + d ≤ int64Max) : tr.updateReservation d = tr.adjust d 0 := by
  rw [Tracker.updateReservation, add64_of_bounds (by omega) h2, Tracker.adjust, add_zero]

theorem Tracker.addChildReservations_eq {e : Int} (h1 : 0 ≤ tr.childReservations + e)
    (h2 : tr.childReservations + e ≤ int64Max) :
    tr.addChildReservations e = tr.adjust 0 e := by
  rw [Tracker.addChildReservations, add64_of_bounds (by omega) h2, Tracker.adjust, add_zero]

@[simp]
theorem Tracker.adjust_adjust (d e d' e' : Int) :
    (tr.adjust d e).adjust d' e' = tr.adjust (d + d') (e + e') := by
  simp only [Tracker.adjust, add_assoc]

theorem modify_congr {s : Trackers n} {t : Fin n} {f g : Tracker n → Tracker n}
    (h : f (s t) = g (s t)) : modify s t f = modify s t g := by
  rw [modify, modify, h]

end Updates

/-! ## Calls that keep the tree -/

def SameTree (s s' : Trackers n) : Prop :=
  ∀ v, (s' v).initialized = (s v).initialized ∧ (s' v).parent = (s v).parent

section SameTree

variable {s s₁ s₂ : Trackers n}

theorem SameTree.refl (s : Trackers n) : SameTree s s := fun _ => ⟨rfl, rfl⟩

theorem SameTree.trans (h₁ : SameTree s s₁) (h₂ : SameTree s₁ s₂) : SameTree s s₂ :=
  fun v => ⟨(h₂ v).1.trans (h₁ v).1, (h₂ v).2.trans (h₁ v).2⟩

theorem SameTree.modify {u : Fin n} {f : Tracker n → Tracker n}
    (hi : (f (s u)).initialized = (s u).initialized) (hp : (f (s u)).parent = (s u).parent) :
    SameTree s (ReservationTracker.modify s u f) :=
  fun v => ⟨modify_field Tracker.initialized hi v, modify_field Tracker.parent hp v⟩

theorem SameTree.parentOf_eq (h : SameTree s s₁) : parentOf s₁ = parentOf s :=
  funext fun v => (h v).2

theorem decreaseReservationLocked_sameTree :
    ∀ (path : List (Fin n)) (s : Trackers n) (bytes : Int) (isChild : Bool),
      SameTree s (decreaseReservationLocked path s bytes isChild)
  | [], s, _, _ => SameTree.refl s
  | t :: up, s, bytes, isChild => by
    unfold decreaseReservationLocked
    by_cases hb0 : bytes = 0
    · rw [if_pos hb0]
      exact SameTree.refl s
    · rw [if_neg hb0]
      dsimp only
      refine SameTree.trans ?_ (decreaseReservationLocked_sameTree up _ bytes true)
      cases isChild
      · exact SameTree.modify rfl rfl
      · exact (SameTree.modify rfl rfl).trans (SameTree.modify rfl rfl)

theorem decreaseReservationLocked_of_not_mem :
    ∀ (path : List (Fin n)) (s : Trackers n) (bytes : Int) (isChild : Bool) (v : Fin n),
      v ∉ path → decreaseReservationLocked path s bytes isChild v = s v
  | [], _, _, _, _, _ => rfl
  | t :: up, s, bytes, isChild, v, hv => by
    have hvt : v ≠ t := fun h => hv (h ▸ List.mem_cons_self)
    have hvup : v ∉ up := fun h => hv (List.mem_cons_of_mem _ h)
    unfold decreaseReservationLocked
    by_cases hb0 : bytes = 0
    · rw [if_pos hb0]
    · rw [if_neg hb0]
      rw [decreaseReservationLocked_of_not_mem up _ bytes true v hvup, modify_of_ne _ _ hvt]
      cases isChild
      · rfl
      · exact modify_of_ne _ _ hvt

theorem decreaseReservationLocked_self {t : Fin n} {up : List (Fin n)} (ht : t ∉ up)
    (s : Trackers n) (bytes : Int) :
    (decreaseReservationLocked (t :: up) s bytes false t).reservation =
      if bytes = 0 then (s t).reservation else add64 (s t).reservation (-bytes) := by
  unfold decreaseReservationLocked
  by_cases hb0 : bytes = 0
  · rw [if_pos hb0, if_pos hb0]
  · rw [if_neg hb0, if_neg hb0]
    rw [decreaseReservationLocked_of_not_mem up _ bytes true t ht]
    simp [Tracker.updateReservation]

end SameTree

/-! ## Decreases -/

section Decrease

variable {s : Trackers n}

def hole (p : Option (Fin n)) (x : Int) : Fin n → Int := fun v => if p = some v then x else 0

@[simp]
theorem hole_none (x : Int) : hole (n := n) none x = 0 := by
  funext v; simp [hole]

@[simp]
theorem hole_zero (p : Option (Fin n)) : hole p 0 = 0 := by
  funext v; simp [hole]

theorem Consistent.decreaseReservationLocked :
    ∀ (up : List (Fin n)) {s : Trackers n} {t : Fin n} {bytes : Int} {isChild : Bool},
      Consistent s (if isChild then hole (some t) bytes else 0) →
      RootPath (parentOf s) t (t :: up) → (s t).initialized → 0 ≤ bytes →
      (isChild = false →
        (s t).usedReservation + (s t).childReservations + bytes ≤ (s t).reservation) →
      Inv (ReservationTracker.decreaseReservationLocked (t :: up) s bytes isChild)
  | up, s, t, bytes, isChild, hs, hpath, ht, hb, hfree => by
    unfold ReservationTracker.decreaseReservationLocked
    by_cases hb0 : bytes = 0
    · subst hb0
      rw [if_pos rfl]
      cases isChild <;> simpa using hs
    rw [if_neg hb0]
    have hu0 := hs.used_nonneg t ht
    have hlim := hs.reservation_le_limit t ht
    have hmax := hs.limit_le_max t ht
    have hused := hs.used_add_child_le t ht
    have hchild := hs.childReservations_eq t ht
    have hsum := childSum_nonneg hs.reservation_nonneg t
    unfold int64Max at hmax
    have hc : (s t).childReservations + (if isChild then -bytes else 0) = childSum s t := by
      cases isChild <;> simp [hole] at hchild ⊢ <;> omega
    have hle : (s t).usedReservation + ((s t).childReservations +
        (if isChild then -bytes else 0)) ≤ (s t).reservation + -bytes := by
      cases isChild
      · have := hfree rfl
        simp only [Bool.false_eq_true, if_false]
        omega
      · simp only [if_true]
        omega
    have hstep : Consistent (modify s t (Tracker.adjust (-bytes) (if isChild then -bytes else 0)))
        (hole (s t).parent bytes) := by
      refine hs.adjust ht (by omega) (by omega) hle _ ?_
      intro v
      by_cases hv : v = t
      · subst hv
        cases isChild <;> simp only [hole, if_true, if_false, Bool.false_eq_true, Pi.zero_apply] <;>
          split_ifs <;> omega
      · cases isChild <;> simp [hole, hv, Ne.symm hv] <;> split_ifs <;> ring
    have heq : modify (if isChild then modify s t (·.addChildReservations (-bytes)) else s) t
        (·.updateReservation (-bytes)) =
        modify s t (Tracker.adjust (-bytes) (if isChild then -bytes else 0)) := by
      cases isChild
      · simp only [Bool.false_eq_true, if_false, add_zero] at hle ⊢
        exact modify_congr (Tracker.updateReservation_eq (by omega)
          (by unfold int64Max; omega))
      · simp only [if_true, modify_modify]
        refine modify_congr ?_
        simp only [Function.comp_apply, if_true] at hc ⊢
        rw [Tracker.addChildReservations_eq (by omega) (by unfold int64Max; omega),
          Tracker.updateReservation_eq (by simp only [Tracker.adjust]; omega)
            (by simp only [Tracker.adjust]; unfold int64Max; omega),
          Tracker.adjust_adjust, zero_add, add_zero]
    dsimp only
    rw [heq]
    cases up with
    | nil =>
      cases hpath with
      | root hn =>
        rw [parentOf] at hn
        rw [hn, hole_none] at hstep
        exact hstep
      | step _ hrest => cases hrest
    | cons p up =>
      cases hpath with
      | @step _ p' _ hp hrest =>
        obtain ⟨_, he⟩ := hrest.exists_tail
        obtain ⟨rfl, -⟩ := List.cons.inj he
        have hsame := SameTree.modify (s := s) (u := t)
          (f := Tracker.adjust (-bytes) (if isChild then -bytes else 0)) rfl rfl
        rw [parentOf] at hp
        rw [hp] at hstep
        refine Consistent.decreaseReservationLocked up
          (show Consistent _ (if true then hole (some p) bytes else 0) by simpa using hstep)
          (hsame.parentOf_eq ▸ hrest) ?_ hb (fun h => nomatch h)
        rw [(hsame p).1]
        exact hs.parent_initialized t p ht hp

end Decrease

/-! ## Increases -/

section Increase

/-- What `IncreaseReservationInternalLocked` at `t` leaves: the invariant, with the
sum at `t` ahead by `bytes` when it granted a child's request; the same tree; and
the trackers off the path as they were. -/
structure IncreaseResult (s : Trackers n) (path : List (Fin n)) (t : Fin n) (bytes : Int)
    (useExisting isChild : Bool) (r : Trackers n × Bool) : Prop where
  consistent : Consistent r.1 (if r.2 && isChild then hole (some t) bytes else 0)
  sameTree : SameTree s r.1
  frame : ∀ v, v ∉ path → r.1 v = s v
  /-- `IncreaseReservationToFit` leaves `bytes` unused. -/
  fit : r.2 = true → useExisting = true → isChild = false →
    (r.1 t).usedReservation + (r.1 t).childReservations + bytes ≤ (r.1 t).reservation

theorem Consistent.grant_eq {s : Trackers n} {t : Fin n} {inc bytes : Int} {isChild : Bool}
    {δ : Fin n → Int} (hs : Consistent s δ) (ht : (s t).initialized) (hδ : 0 ≤ δ t)
    (hinc : 0 ≤ inc) (hlim : (s t).reservation + inc ≤ (s t).reservationLimit)
    (hb : 0 ≤ bytes)
    (hfit : isChild = true → (s t).usedReservation + (s t).childReservations + bytes ≤
      (s t).reservation + inc) :
    (if isChild then modify (modify s t (·.updateReservation inc)) t
      (·.addChildReservations bytes) else modify s t (·.updateReservation inc)) =
      modify s t (Tracker.adjust inc (if isChild then bytes else 0)) := by
  have hu0 := hs.used_nonneg t ht
  have hres0 := hs.reservation_nonneg t ht
  have hmax := hs.limit_le_max t ht
  have hc0 := hs.childReservations_nonneg ht hδ
  unfold int64Max at hmax
  cases isChild
  · exact modify_congr (Tracker.updateReservation_eq (by omega) (by unfold int64Max; omega))
  · have := hfit rfl
    simp only [if_true, modify_modify]
    refine modify_congr ?_
    rw [Function.comp_apply, Tracker.updateReservation_eq (by omega) (by unfold int64Max; omega),
      Tracker.addChildReservations_eq (by simp only [Tracker.adjust]; omega)
        (by simp only [Tracker.adjust]; unfold int64Max; omega),
      Tracker.adjust_adjust, add_zero, zero_add]

theorem IncreaseResult.grant {s s₁ : Trackers n} {path : List (Fin n)} {t : Fin n}
    {inc bytes : Int} {useExisting isChild : Bool}
    (hs₁ : Consistent s₁ (hole (s t).parent inc)) (hs₁t : s₁ t = s t) (hsame : SameTree s s₁)
    (hframe : ∀ v, v ∉ path → s₁ v = s v) (htp : t ∈ path) (ht : (s t).initialized)
    (hinc : 0 ≤ inc) (hlim : (s t).reservation + inc ≤ (s t).reservationLimit) (hb : 0 ≤ bytes)
    (hfit : useExisting = true → (s t).usedReservation + (s t).childReservations + bytes ≤
      (s t).reservation + inc)
    (hue : isChild = true → useExisting = true) :
    IncreaseResult s path t bytes useExisting isChild
      (if isChild then modify (modify s₁ t (·.updateReservation inc)) t
        (·.addChildReservations bytes) else modify s₁ t (·.updateReservation inc), true) := by
  rw [← hs₁t] at ht hlim hfit
  rw [← hs₁t] at hs₁
  have hδ : 0 ≤ hole (s₁ t).parent inc t := by simp only [hole]; split_ifs <;> omega
  have heq := hs₁.grant_eq ht hδ hinc hlim hb fun hc => hfit (hue hc)
  rw [heq]
  refine ⟨?_, hsame.trans (SameTree.modify rfl rfl), fun v hv => ?_, fun _ hue' hc => ?_⟩
  · refine hs₁.adjust ht (by have := hs₁.reservation_nonneg t ht; omega) hlim ?_ _ ?_
    · have := hs₁.used_add_child_le t ht
      cases isChild
      · simp only [Bool.false_eq_true, if_false, add_zero]; omega
      · have := hfit (hue rfl)
        simp only [if_true]; omega
    · intro v
      by_cases hv : v = t
      · subst hv
        cases isChild <;> simp [hole]
      · cases isChild <;> simp [hole, hv, Ne.symm hv]
  · have hvt : v ≠ t := fun h => hv (h ▸ htp)
    dsimp only
    rw [modify_of_ne _ _ hvt, hframe v hv]
  · have := hfit hue'
    subst hc
    simp only [modify_self, Tracker.adjust, Bool.false_eq_true, if_false, add_zero]
    omega

variable (ans : Answers n)

theorem Consistent.increaseReservationInternalLocked :
    ∀ (up : List (Fin n)) {s : Trackers n} {t : Fin n} {bytes : Int}
      {useExisting isChild : Bool},
      Inv s → RootPath (parentOf s) t (t :: up) → (s t).initialized → 0 ≤ bytes →
      (∀ u, (s u).initialized → (s u).reservationLimit + bytes ≤ int64Max) →
      (isChild = true → useExisting = true) →
      IncreaseResult s (t :: up) t bytes useExisting isChild
        (ReservationTracker.increaseReservationInternalLocked ans (t :: up) s bytes useExisting
          isChild)
  | up, s, t, bytes, useExisting, isChild, hs, hpath, ht, hb, hover, hue => by
    have hu0 := hs.used_nonneg t ht
    have hlim := hs.reservation_le_limit t ht
    have hmax := hs.limit_le_max t ht
    have hused := hs.used_add_child_le t ht
    have hc0 := hs.childReservations_nonneg ht (le_refl 0)
    have hunused := hs.unusedReservation_eq ht (le_refl 0)
    have hovt := hover t ht
    unfold int64Max at hmax hovt
    unfold ReservationTracker.increaseReservationInternalLocked
    dsimp only
    set inc := if useExisting then max 0 (sub64 bytes (s t).unusedReservation) else bytes
      with hinc
    have hsub : sub64 bytes (s t).unusedReservation =
        bytes - ((s t).reservation - (s t).usedReservation - (s t).childReservations) := by
      rw [hunused, sub64_of_bounds (by omega) (by unfold int64Max; omega)]
    have hinc0 : 0 ≤ inc := by
      rw [hinc]; split_ifs
      · exact le_max_left _ _
      · exact hb
    have hincb : inc ≤ bytes := by
      rw [hinc]; split_ifs
      · rw [hsub]; exact max_le hb (by omega)
      · exact le_refl _
    have hfit : useExisting = true → (s t).usedReservation + (s t).childReservations + bytes ≤
        (s t).reservation + inc := by
      intro hu
      have hle : bytes - ((s t).reservation - (s t).usedReservation - (s t).childReservations) ≤
          inc := by
        rw [hinc, if_pos hu, hsub]; exact le_max_right _ _
      omega
    have hnodup := hpath.nodup
    have hdenied : IncreaseResult s (t :: up) t bytes useExisting isChild (s, false) :=
      ⟨by simpa using hs, SameTree.refl s, fun _ _ => rfl, fun h => absurd h Bool.false_ne_true⟩
    by_cases hz : inc = 0
    · simp only [hz, if_true]
      exact IncreaseResult.grant (by rw [hole_zero]; exact hs) rfl (SameTree.refl s)
        (fun _ _ => rfl) List.mem_cons_self ht (le_refl 0) (by omega) hb
        (fun hu => by have := hfit hu; omega) hue
    simp only [hz, if_false]
    by_cases hd : ans.deny t = true
    · simp only [hd, if_true]
      exact hdenied
    simp only [hd, Bool.false_eq_true, if_false]
    have hfits : add64 (s t).reservation inc = (s t).reservation + inc :=
      add64_of_bounds (by omega) (by unfold int64Max; omega)
    by_cases hc : add64 (s t).reservation inc > (s t).reservationLimit
    · simp only [hc, if_true]
      exact hdenied
    simp only [hc, if_false]
    rw [hfits] at hc
    have hlim' : (s t).reservation + inc ≤ (s t).reservationLimit := by omega
    cases up with
    | nil =>
      have hroot : (s t).parent = none := by
        cases hpath with
        | root hn => exact hn
        | step _ h => cases h
      simp only [if_true]
      exact IncreaseResult.grant (by rw [hroot, hole_none]; exact hs) rfl (SameTree.refl s)
        (fun _ _ => rfl) List.mem_cons_self ht hinc0 hlim' hb hfit hue
    | cons p up =>
      obtain ⟨hp, hrest⟩ : (s t).parent = some p ∧ RootPath (parentOf s) p (p :: up) := by
        cases hpath with
        | @step _ p' _ hp hrest =>
          obtain ⟨_, he⟩ := hrest.exists_tail
          obtain ⟨rfl, -⟩ := List.cons.inj he
          exact ⟨hp, hrest⟩
      have hpinit := hs.parent_initialized t p ht hp
      have htp : t ∉ p :: up := (List.nodup_cons.1 hnodup).1
      have ih := Consistent.increaseReservationInternalLocked up hs hrest hpinit hinc0
        (fun u hu => by have := hover u hu; omega) (fun (_ : true = true) => (rfl : true = true))
      generalize ReservationTracker.increaseReservationInternalLocked ans (p :: up) s inc true true
        = pc at ih ⊢
      obtain ⟨hpc, hsame, hframe, -⟩ := ih
      have hpct : pc.1 t = s t := hframe t htp
      have hframe' : ∀ v, v ∉ t :: p :: up → pc.1 v = s v :=
        fun v hv => hframe v fun h => hv (List.mem_cons_of_mem _ h)
      by_cases hg : pc.2 = true
      · by_cases hcons : ans.consume t = true
        · simp only [hg, hcons, Bool.not_true, Bool.and_false, Bool.false_eq_true, if_false,
            if_true]
          have hpc' : Consistent pc.1 (hole (s t).parent inc) := by
            rw [hp]; simpa [hg] using hpc
          exact IncreaseResult.grant hpc' hpct hsame hframe' List.mem_cons_self ht hinc0 hlim' hb
            hfit hue
        · simp only [hg, hcons, Bool.not_false, Bool.and_true, if_true, Bool.false_eq_true,
            if_false]
          refine ⟨?_, ?_, ?_, fun h => nomatch h⟩
          · simp only [Bool.false_and, Bool.false_eq_true, if_false]
            refine Consistent.decreaseReservationLocked up
              (show Consistent _ (if true then hole (some p) inc else 0) by simpa [hg] using hpc)
              (hsame.parentOf_eq ▸ hrest) ?_ hinc0 (fun h => nomatch h)
            rw [(hsame p).1]; exact hpinit
          · exact hsame.trans (decreaseReservationLocked_sameTree _ _ _ _)
          · intro v hv
            dsimp only
            rw [decreaseReservationLocked_of_not_mem _ _ _ _ v
              (fun h => hv (List.mem_cons_of_mem _ h)), hframe' v hv]
      · simp only [hg, Bool.false_and, Bool.false_eq_true, if_false]
        refine ⟨?_, hsame, hframe', fun h => nomatch h⟩
        simpa [hg] using hpc

end Increase

/-! ## Transfers -/

section Transfer

theorem Consistent.foldl_adjust {d : Int} {δ₀ : Fin n → Int} {c : Fin n} {Q : List (Fin n)}
    (f : Trackers n → Fin n → Trackers n)
    (hf : ∀ s u, Consistent s (δ₀ + hole (some u) (-d)) → (s u).initialized →
      (s u).reservation + d ≤ (s u).reservationLimit → δ₀ u = 0 →
      f s u = modify s u (Tracker.adjust d d)) :
    ∀ (rest : List (Fin n)) {s : Trackers n} {x : Fin n},
      Consistent s (δ₀ + hole (some x) (-d)) → RootPath (parentOf s) x (rest ++ c :: Q) →
      (∀ u ∈ rest, (s u).initialized ∧ (s u).reservation + d ≤ (s u).reservationLimit ∧
        δ₀ u = 0) →
      Consistent (rest.foldl f s) (δ₀ + hole (some c) (-d)) ∧ SameTree s (rest.foldl f s) ∧
        ∀ v ∉ rest, rest.foldl f s v = s v
  | [], s, x, hs, hpath, _ => by
    obtain ⟨_, he⟩ := hpath.exists_tail
    obtain ⟨rfl, -⟩ := List.cons.inj he
    exact ⟨hs, SameTree.refl s, fun _ _ => rfl⟩
  | u :: rest, s, x, hs, hpath, hrest => by
    obtain ⟨_, he⟩ := hpath.exists_tail
    obtain ⟨rfl, -⟩ := List.cons.inj he
    obtain ⟨hu, hlim, hδ₀⟩ := hrest u List.mem_cons_self
    obtain ⟨y, hy, hpath'⟩ : ∃ y, (s u).parent = some y ∧
        RootPath (parentOf s) y (rest ++ c :: Q) :=
      hpath.tail (by simp)
    have hnot : u ∉ rest := (List.nodup_cons.1 (List.nodup_append.1 hpath.nodup).1).1
    have hused := hs.used_add_child_le u hu
    have hstep : Consistent (modify s u (Tracker.adjust d d)) (δ₀ + hole (some y) (-d)) := by
      have hchild := hs.childReservations_eq u hu
      have hsum := childSum_nonneg hs.reservation_nonneg u
      simp only [Pi.add_apply, hole, if_true, hδ₀] at hchild
      refine hs.adjust hu (by have := hs.used_nonneg u hu; omega) hlim (by omega) _ ?_
      intro v
      by_cases hv : v = u
      · subst hv
        simp only [Pi.add_apply, hole, hy, hδ₀, if_true, Option.some.injEq]
        split_ifs <;> omega
      · simp only [Pi.add_apply, hole, hv, hy, Option.some.injEq, Ne.symm hv, if_false]
        split_ifs <;> omega
    have hsame := SameTree.modify (s := s) (u := u) (f := Tracker.adjust d d) rfl rfl
    have hrest' : ∀ v ∈ rest, ((modify s u (Tracker.adjust d d)) v).initialized ∧
        ((modify s u (Tracker.adjust d d)) v).reservation + d ≤
          ((modify s u (Tracker.adjust d d)) v).reservationLimit ∧ δ₀ v = 0 := by
      intro v hv
      have hvu : v ≠ u := fun h => hnot (h ▸ hv)
      rw [modify_of_ne _ _ hvu]
      exact hrest v (List.mem_cons_of_mem _ hv)
    obtain ⟨ih, ihsame, ihframe⟩ :=
      Consistent.foldl_adjust f hf rest hstep (hsame.parentOf_eq ▸ hpath') hrest'
    rw [List.foldl_cons, hf s u hs hu hlim hδ₀]
    refine ⟨ih, hsame.trans ihsame, fun v hv => ?_⟩
    have hvu : v ≠ u := fun h => hv (h ▸ List.mem_cons_self)
    rw [ihframe v (fun h => hv (List.mem_cons_of_mem _ h)), modify_of_ne _ _ hvu]

section Loops

variable {s : Trackers n} {δ₀ : Fin n → Int} {b : Int} {u : Fin n}

theorem Consistent.grow_body (hs : Consistent s (δ₀ + hole (some u) (-b))) (hu : (s u).initialized)
    (hlim : (s u).reservation + b ≤ (s u).reservationLimit) (hδ₀ : δ₀ u = 0) (hb : 0 ≤ b) :
    modify (modify s u (·.updateReservation b)) u (·.addChildReservations b) =
      modify s u (Tracker.adjust b b) := by
  have hmax := hs.limit_le_max u hu
  have hused := hs.used_add_child_le u hu
  have hu0 := hs.used_nonneg u hu
  have hchild := hs.childReservations_eq u hu
  have hsum := childSum_nonneg hs.reservation_nonneg u
  simp only [Pi.add_apply, hole, if_true, hδ₀, zero_add] at hchild
  unfold int64Max at hmax
  rw [modify_modify]
  refine modify_congr ?_
  rw [Function.comp_apply,
    Tracker.updateReservation_eq (by have := hs.reservation_nonneg u hu; omega)
      (by unfold int64Max; omega),
    Tracker.addChildReservations_eq (by simp only [Tracker.adjust]; omega)
      (by simp only [Tracker.adjust]; unfold int64Max; omega),
    Tracker.adjust_adjust, add_zero, zero_add]

theorem Consistent.shrink_body (hs : Consistent s (δ₀ + hole (some u) (-(-b))))
    (hu : (s u).initialized) (hδ₀ : δ₀ u = 0) (hb : 0 ≤ b) :
    modify (modify s u (·.addChildReservations (-b))) u (·.updateReservation (-b)) =
      modify s u (Tracker.adjust (-b) (-b)) := by
  have hmax := hs.limit_le_max u hu
  have hlim := hs.reservation_le_limit u hu
  have hused := hs.used_add_child_le u hu
  have hu0 := hs.used_nonneg u hu
  have hchild := hs.childReservations_eq u hu
  have hsum := childSum_nonneg hs.reservation_nonneg u
  simp only [Pi.add_apply, hole, if_true, hδ₀, zero_add, neg_neg] at hchild
  unfold int64Max at hmax
  rw [modify_modify]
  refine modify_congr ?_
  rw [Function.comp_apply,
    Tracker.addChildReservations_eq (by omega) (by unfold int64Max; omega),
    Tracker.updateReservation_eq (by simp only [Tracker.adjust]; omega)
      (by simp only [Tracker.adjust]; unfold int64Max; omega),
    Tracker.adjust_adjust, add_zero, zero_add]

end Loops

theorem Consistent.growPath {s : Trackers n} {b : Int} (hb : 0 ≤ b) {o c : Fin n}
    {B Q : List (Fin n)} (hs : Inv s) (hpath : RootPath (parentOf s) o (B ++ c :: Q))
    (ho : (s o).initialized) (hchk : ∀ u ∈ B, (s u).reservation + b ≤ (s u).reservationLimit) :
    Consistent (growPath B b s) (if B = [] then 0 else hole (some c) (-b)) ∧
      SameTree s (growPath B b s) ∧ ∀ v ∉ B, growPath B b s v = s v := by
  cases B with
  | nil => exact ⟨by simpa [ReservationTracker.growPath] using hs, SameTree.refl s, fun _ _ => rfl⟩
  | cons o' rest =>
    obtain ⟨_, he⟩ := hpath.exists_tail
    obtain ⟨rfl, -⟩ := List.cons.inj he
    have hnot : o' ∉ rest := (List.nodup_cons.1 (List.nodup_append.1 hpath.nodup).1).1
    obtain ⟨y, hy, hpath'⟩ := hpath.tail (by simp)
    have hinit := hs.initialized_of_mem hpath ho
    have hlim := hchk o' List.mem_cons_self
    have hmax := hs.limit_le_max o' ho
    have hused := hs.used_add_child_le o' ho
    have hres0 := hs.reservation_nonneg o' ho
    unfold int64Max at hmax
    have hhead : Consistent (modify s o' (Tracker.adjust b 0)) (0 + hole (some y) (-b)) := by
      refine hs.adjust ho (by omega) hlim (by omega) _ ?_
      intro v
      simp only [parentOf] at hy
      simp only [Pi.add_apply, Pi.zero_apply, hole, hy, zero_add, Option.some.injEq]
      split_ifs <;> omega
    have heq : modify s o' (·.updateReservation b) = modify s o' (Tracker.adjust b 0) :=
      modify_congr (Tracker.updateReservation_eq (by omega) (by unfold int64Max; omega))
    have hsame := SameTree.modify (s := s) (u := o') (f := Tracker.adjust b 0) rfl rfl
    obtain ⟨h₁, h₂, h₃⟩ := Consistent.foldl_adjust (c := c) (Q := Q)
      (fun s u => modify (modify s u (·.updateReservation b)) u (·.addChildReservations b))
      (fun s u hs hu hlim hδ₀ => hs.grow_body hu hlim hδ₀ hb) rest hhead
      (hsame.parentOf_eq ▸ hpath') (fun u hu => by
        have hu' : u ≠ o' := fun h => hnot (h ▸ hu)
        rw [modify_of_ne _ _ hu']
        exact ⟨hinit u (List.mem_cons_of_mem _ (List.mem_append_left _ hu)),
          hchk u (List.mem_cons_of_mem _ hu), rfl⟩)
    rw [growPath_cons hnot, heq]
    refine ⟨by simpa using h₁, hsame.trans h₂, fun v hv => ?_⟩
    have hvo : v ≠ o' := fun h => hv (h ▸ List.mem_cons_self)
    rw [h₃ v (fun h => hv (List.mem_cons_of_mem _ h)), modify_of_ne _ _ hvo]

theorem Consistent.shrinkPath {s : Trackers n} {δ₀ : Fin n → Int} {b : Int} (hb : 0 ≤ b)
    {t c : Fin n} {A Q : List (Fin n)} (hs : Consistent s δ₀)
    (hpath : RootPath (parentOf s) t (A ++ c :: Q)) (ht : (s t).initialized)
    (hδ₀ : ∀ u ∈ A, δ₀ u = 0)
    (hfree : A ≠ [] →
      (s t).usedReservation + (s t).childReservations + b ≤ (s t).reservation) :
    Consistent (shrinkPath A b s) (if A = [] then δ₀ else δ₀ + hole (some c) b) ∧
      SameTree s (shrinkPath A b s) := by
  cases A with
  | nil => exact ⟨by simpa [ReservationTracker.shrinkPath] using hs, SameTree.refl s⟩
  | cons t' rest =>
    obtain ⟨_, he⟩ := hpath.exists_tail
    obtain ⟨rfl, -⟩ := List.cons.inj he
    have hnot : t' ∉ rest := (List.nodup_cons.1 (List.nodup_append.1 hpath.nodup).1).1
    obtain ⟨y, hy, hpath'⟩ := hpath.tail (by simp)
    have hinit := hs.initialized_of_mem hpath ht
    have hfree := hfree (List.cons_ne_nil _ _)
    have hmax := hs.limit_le_max t' ht
    have hlim := hs.reservation_le_limit t' ht
    have hu0 := hs.used_nonneg t' ht
    have hchild := hs.childReservations_eq t' ht
    have hsum := childSum_nonneg hs.reservation_nonneg t'
    rw [hδ₀ t' List.mem_cons_self, add_zero] at hchild
    unfold int64Max at hmax
    have hhead : Consistent (modify s t' (Tracker.adjust (-b) 0)) (δ₀ + hole (some y) (-(-b))) := by
      refine hs.adjust ht (by omega) (by omega) (by omega) _ ?_
      intro v
      simp only [parentOf] at hy
      simp only [Pi.add_apply, hole, hy, neg_neg, Option.some.injEq]
      split_ifs <;> omega
    have heq : modify s t' (·.updateReservation (-b)) = modify s t' (Tracker.adjust (-b) 0) :=
      modify_congr (Tracker.updateReservation_eq (by omega) (by unfold int64Max; omega))
    have hsame := SameTree.modify (s := s) (u := t') (f := Tracker.adjust (-b) 0) rfl rfl
    obtain ⟨h₁, h₂, -⟩ := Consistent.foldl_adjust (d := -b) (c := c) (Q := Q)
      (fun s u => modify (modify s u (·.addChildReservations (-b))) u (·.updateReservation (-b)))
      (fun s u hs hu _ hδ₀ => hs.shrink_body hu hδ₀ hb) rest hhead
      (hsame.parentOf_eq ▸ hpath') (fun u hu => by
        have hu' : u ≠ t' := fun h => hnot (h ▸ hu)
        rw [modify_of_ne _ _ hu']
        have hui := hinit u (List.mem_cons_of_mem _ (List.mem_append_left _ hu))
        exact ⟨hui, by have := hs.reservation_le_limit u hui; omega,
          hδ₀ u (List.mem_cons_of_mem _ hu)⟩)
    rw [shrinkPath_cons hnot, heq]
    exact ⟨by simpa using h₁, hsame.trans h₂⟩

theorem Consistent.settle {s : Trackers n} {c : Fin n} {x e : Int}
    (hs : Consistent s (hole (some c) x)) (hc : (s c).initialized) (he : x + e = 0)
    (hle : (s c).usedReservation + (s c).childReservations + e ≤ (s c).reservation) :
    Inv (modify s c (·.addChildReservations e)) := by
  have hmax := hs.limit_le_max c hc
  have hlim := hs.reservation_le_limit c hc
  have hu0 := hs.used_nonneg c hc
  have hres0 := hs.reservation_nonneg c hc
  have hchild := hs.childReservations_eq c hc
  have hsum := childSum_nonneg hs.reservation_nonneg c
  simp only [hole, if_true] at hchild
  unfold int64Max at hmax
  rw [modify_congr (Tracker.addChildReservations_eq (by omega) (by unfold int64Max; omega))]
  refine hs.adjust hc (by omega) (by omega) (by omega) _ fun v => ?_
  by_cases hv : v = c
  · subst hv
    simp only [hole, if_true, Pi.zero_apply]
    split_ifs <;> omega
  · simp [hole, hv, Ne.symm hv]

theorem Consistent.transferReservationTo {s : Trackers n} {t other : Fin n} {bytes : Int}
    (hs : Inv s) (ht : (s t).initialized) (ho : (s other).initialized) (hb : 0 ≤ bytes)
    (hfree : (s t).usedReservation + (s t).childReservations + bytes ≤ (s t).reservation)
    (hroot : (findPathToRoot s t).getLast? = (findPathToRoot s other).getLast?)
    (hover : ∀ u, (s u).initialized → (s u).reservationLimit + bytes ≤ int64Max) :
    Inv (ReservationTracker.transferReservationTo t other bytes s).1 ∧
      SameTree s (ReservationTracker.transferReservationTo t other bytes s).1 := by
  unfold ReservationTracker.transferReservationTo
  by_cases hot : other = t
  · rw [if_pos hot]
    exact ⟨hs, SameTree.refl s⟩
  rw [if_neg hot]
  dsimp only
  have h₁ := hs.path ht
  have h₂ := hs.path ho
  obtain ⟨Q, hL₁, hL₂, hlast⟩ := popCommonAncestors_paths h₁ h₂ hroot hot
  generalize popCommonAncestors (findPathToRoot s t).reverse (findPathToRoot s other).reverse
    ((findPathToRoot s t).getLastD t) = popped at hL₁ hL₂ hlast ⊢
  obtain ⟨R₁, R₂, c⟩ := popped
  simp only at hL₁ hL₂ hlast ⊢
  generalize R₁.reverse = A at hL₁ hlast ⊢
  generalize R₂.reverse = B at hL₂ hlast ⊢
  rw [hL₁] at h₁
  rw [hL₂] at h₂
  have hdisj := RootPath.disjoint h₁ h₂ hlast
  have hinitB := hs.initialized_of_mem h₂ ho
  have hcA : c ∉ A := fun h => (List.nodup_append.1 h₁.nodup).2.2 c h c List.mem_cons_self rfl
  have hcB : c ∉ B := fun h => (List.nodup_append.1 h₂.nodup).2.2 c h c List.mem_cons_self rfl
  have htA : A = [] ∧ t = c ∨ t ∈ A := by
    obtain ⟨_, he⟩ := h₁.exists_tail
    cases A with
    | nil => exact Or.inl ⟨rfl, (List.cons.inj he).1.symm⟩
    | cons a A => exact Or.inr ((List.cons.inj he).1 ▸ List.mem_cons_self)
  have hoB : B = [] ∧ other = c ∨ other ∈ B := by
    obtain ⟨_, he⟩ := h₂.exists_tail
    cases B with
    | nil => exact Or.inl ⟨rfl, (List.cons.inj he).1.symm⟩
    | cons a B => exact Or.inr ((List.cons.inj he).1 ▸ List.mem_cons_self)
  have htB : t ∉ B := by
    rcases htA with ⟨-, rfl⟩ | htA
    · exact hcB
    · exact hdisj t htA
  by_cases hchk : (B.any fun u => add64 (s u).reservation bytes > (s u).reservationLimit) = true
  · rw [if_pos hchk]
    exact ⟨hs, SameTree.refl s⟩
  rw [if_neg hchk]
  have hfits : ∀ u ∈ B, (s u).reservation + bytes ≤ (s u).reservationLimit := by
    intro u hu
    have hu' := hinitB u (List.mem_append_left _ hu)
    have hno : ¬add64 (s u).reservation bytes > (s u).reservationLimit := by
      intro h
      exact hchk (List.any_eq_true.2 ⟨u, hu, decide_eq_true h⟩)
    have := hs.reservation_nonneg u hu'
    have := hs.reservation_le_limit u hu'
    have := hover u hu'
    rw [add64_of_bounds (by omega) (by omega)] at hno
    omega
  obtain ⟨hG, hGsame, hGframe⟩ := hs.growPath hb h₂ ho hfits
  have hGt := hGframe t htB
  obtain ⟨hS, hSsame⟩ := hG.shrinkPath hb (hGsame.parentOf_eq ▸ h₁)
    (by rw [(hGsame t).1]; exact ht)
    (fun u hu => by
      split_ifs
      · rfl
      · simp only [hole, Option.some.injEq]
        rw [if_neg fun (h : c = u) => hcA (h ▸ hu)])
    (fun _ => by rw [hGt]; exact hfree)
  have hSt : A = [] →
      ReservationTracker.shrinkPath A bytes (ReservationTracker.growPath B bytes s) t = s t := by
    rintro rfl
    simpa [ReservationTracker.shrinkPath] using hGt
  generalize ReservationTracker.shrinkPath A bytes (ReservationTracker.growPath B bytes s) = s'
    at hS hSsame hSt ⊢
  have hsame := hGsame.trans hSsame
  have hc : (s' c).initialized := by
    rw [(hsame c).1]
    exact hs.initialized_of_mem h₁ ht c (List.mem_append_right _ List.mem_cons_self)
  have hsame' : ∀ {u : Fin n} {e : Int}, SameTree s (modify s' u (·.addChildReservations e)) :=
    hsame.trans (SameTree.modify rfl rfl)
  rcases htA with ⟨hA, htc⟩ | htA <;> rcases hoB with ⟨hB, hoc⟩ | hoB
  · exact absurd (hoc.trans htc.symm) hot
  · have hco : c ≠ other := fun h => hcB (h ▸ hoB)
    rw [if_pos htc.symm, if_neg hco]
    refine ⟨?_, hsame'⟩
    have hS' : Consistent s' (hole (some t) (-bytes)) := by
      simpa [hA, List.ne_nil_of_mem hoB, htc] using hS
    refine hS'.settle (by rw [htc]; exact hc) (by ring) ?_
    rw [hSt hA]
    exact hfree
  · have hct : c ≠ t := fun h => hcA (h ▸ htA)
    rw [if_neg hct, if_pos hoc.symm]
    refine ⟨?_, hsame'⟩
    have hS' : Consistent s' (hole (some other) bytes) := by
      simpa [List.ne_nil_of_mem htA, hB, hoc] using hS
    refine hS'.settle (by rw [hoc]; exact hc) (by ring) ?_
    have := hS'.used_add_child_le other (by rw [hoc]; exact hc)
    omega
  · have hct : c ≠ t := fun h => hcA (h ▸ htA)
    have hco : c ≠ other := fun h => hcB (h ▸ hoB)
    rw [if_neg hct, if_neg hco]
    refine ⟨?_, hsame⟩
    have hzero : hole (some c) (-bytes) + hole (some c) bytes = (0 : Fin n → Int) := by
      funext v
      simp only [Pi.add_apply, hole, Pi.zero_apply]
      split_ifs <;> ring
    simpa [List.ne_nil_of_mem htA, List.ne_nil_of_mem hoB, hzero] using hS

end Transfer

/-! ## Runs of calls -/

section Runs

variable {s : Trackers n}

def Fits (s : Trackers n) (bytes : Int) : Prop :=
  ∀ u, (s u).initialized → (s u).reservationLimit + bytes ≤ int64Max

def Unused (s : Trackers n) (t : Fin n) (bytes : Int) : Prop :=
  (s t).usedReservation + (s t).childReservations + bytes ≤ (s t).reservation

/-- The preconditions of the calls: those the header documents (a child under an
initialized parent; `Close` once the reservation is unused and the children are
closed; `DecreaseReservation`, `AllocateFrom` and `TransferReservationTo` within the
unused reservation, `ReleaseTo` within the used one; a transfer inside one tree),
byte counts and limits that are non-negative `int64_t`s, and sums that stay inside
`int64_t`. -/
def Pre (s : Trackers n) : Op n → Prop
  | .initRootTracker t limit => (s t).initialized = false ∧ 0 ≤ limit ∧ limit ≤ int64Max
  | .initChildTracker t p limit =>
    (s t).initialized = false ∧ (s p).initialized ∧ 0 ≤ limit ∧ limit ≤ int64Max
  | .close t => (s t).initialized → (s t).usedReservation = 0 ∧ (s t).childReservations = 0 ∧
    ∀ c, (s c).initialized → (s c).parent ≠ some t
  | .increaseReservation t bytes _ => (s t).initialized ∧ 0 ≤ bytes ∧ Fits s bytes
  | .increaseReservationToFit t bytes _ => (s t).initialized ∧ 0 ≤ bytes ∧ Fits s bytes
  | .increaseReservationToFitAndAllocate t bytes _ =>
    (s t).initialized ∧ 0 ≤ bytes ∧ Fits s bytes
  | .decreaseReservation t bytes => (s t).initialized ∧ 0 ≤ bytes ∧ Unused s t bytes
  | .transferReservationTo t other bytes => (s t).initialized ∧ (s other).initialized ∧
    0 ≤ bytes ∧ Unused s t bytes ∧
    (findPathToRoot s t).getLast? = (findPathToRoot s other).getLast? ∧ Fits s bytes
  | .allocateFrom t bytes => (s t).initialized ∧ 0 ≤ bytes ∧ Unused s t bytes
  | .releaseTo t bytes => (s t).initialized ∧ 0 ≤ bytes ∧ bytes ≤ (s t).usedReservation

theorem Inv.empty : Inv (Trackers.empty : Trackers n) := by
  constructor <;> simp [Trackers.empty]

theorem rootPath_update {t v : Fin n} {tr : Tracker n} {l : List (Fin n)}
    (h : RootPath (parentOf s) v l) (hl : t ∉ l) :
    RootPath (parentOf (Function.update s t tr)) v l :=
  h.congr fun x hx => by
    have hxt : x ≠ t := fun h => hl (h ▸ hx)
    simp [parentOf, Function.update_of_ne hxt]

theorem Inv.init (hs : Inv s) {t : Fin n} (ht : (s t).initialized = false)
    {par : Option (Fin n)} (hpar : ∀ p, par = some p → (s p).initialized) {limit : Int}
    (h0 : 0 ≤ limit) (hmax : limit ≤ int64Max) :
    Inv (Function.update s t ⟨true, par, limit, 0, 0, 0⟩) := by
  have hsum := childSum_update_eq s t ⟨true, par, limit, 0, 0, 0⟩
    (fun v h => by rw [ht] at h; cases h.1) (fun _ _ => rfl)
  have hnot : ∀ x, (s x).initialized → x ≠ t := fun x hx h => by rw [h, ht] at hx; cases hx
  have hpath : ∀ v l, RootPath (parentOf s) v l → (s v).initialized →
      RootPath (parentOf (Function.update s t ⟨true, par, limit, 0, 0, 0⟩)) v l :=
    fun v l h hv => rootPath_update h fun ht' => hnot t (hs.initialized_of_mem h hv t ht') rfl
  constructor
  · intro v hv
    by_cases h : v = t
    · subst h; simp
    · rw [Function.update_of_ne h] at hv ⊢; exact hs.used_nonneg v hv
  · intro v hv
    by_cases h : v = t
    · subst h; simp
    · rw [Function.update_of_ne h] at hv ⊢; exact hs.reservation_nonneg v hv
  · intro v hv
    by_cases h : v = t
    · subst h; simpa using h0
    · rw [Function.update_of_ne h] at hv ⊢; exact hs.reservation_le_limit v hv
  · intro v hv
    by_cases h : v = t
    · subst h; simpa using hmax
    · rw [Function.update_of_ne h] at hv ⊢; exact hs.limit_le_max v hv
  · intro v hv
    by_cases h : v = t
    · subst h; simp
    · rw [Function.update_of_ne h] at hv ⊢; exact hs.used_add_child_le v hv
  · intro v hv
    rw [hsum v, Pi.zero_apply, add_zero]
    by_cases h : v = t
    · subst h
      simp only [Function.update_self]
      refine (childSum_eq_zero fun c hc hp => ?_).symm
      have := hs.parent_initialized c v hc hp
      rw [ht] at this
      cases this
    · rw [Function.update_of_ne h] at hv ⊢
      simpa using hs.childReservations_eq v hv
  · intro v p hv hp
    by_cases hpt : p = t
    · subst hpt; simp
    rw [Function.update_of_ne hpt]
    by_cases h : v = t
    · subst h
      simp only [Function.update_self] at hp
      exact hpar p hp
    · rw [Function.update_of_ne h] at hv hp
      exact hs.parent_initialized v p hv hp
  · intro v hv
    by_cases h : v = t
    · subst h
      cases par with
      | none => exact ⟨[v], .root (by simp [parentOf])⟩
      | some p =>
        have hpi := hpar p rfl
        obtain ⟨l, hl⟩ := hs.rootPath p hpi
        exact ⟨v :: l, .step (by simp [parentOf]) (hpath p l hl hpi)⟩
    · rw [Function.update_of_ne h] at hv
      obtain ⟨l, hl⟩ := hs.rootPath v hv
      exact ⟨l, hpath v l hl hv⟩

theorem Inv.updateUsed (hs : Inv s) {t : Fin n} (ht : (s t).initialized) {d : Int}
    (h0 : 0 ≤ (s t).usedReservation + d)
    (hle : (s t).usedReservation + d + (s t).childReservations ≤ (s t).reservation) :
    Inv (modify s t (·.updateUsedReservation d)) := by
  have hmax := hs.limit_le_max t ht
  have hlim := hs.reservation_le_limit t ht
  have hc0 := hs.childReservations_nonneg ht (le_refl 0)
  unfold int64Max at hmax
  have heq : (s t).updateUsedReservation d =
      (fun tr : Tracker n => { tr with usedReservation := tr.usedReservation + d }) (s t) := by
    rw [Tracker.updateUsedReservation, add64_of_bounds (by omega) (by unfold int64Max; omega)]
  rw [modify_congr (g := fun tr : Tracker n => { tr with usedReservation := tr.usedReservation + d })
    heq]
  exact hs.of_modify ht rfl rfl rfl h0 (hs.reservation_nonneg t ht) hlim (by simpa using hle) 0
    fun v => by simp

theorem Inv.close (hs : Inv s) {t : Fin n}
    (hpre : (s t).initialized → (s t).usedReservation = 0 ∧ (s t).childReservations = 0 ∧
      ∀ c, (s c).initialized → (s c).parent ≠ some t) :
    Inv (ReservationTracker.close t s) := by
  unfold ReservationTracker.close
  by_cases ht : (s t).initialized = true
  swap
  · simp only [Bool.not_eq_true] at ht
    simp [ht, hs]
  obtain ⟨hu, hc, hchildren⟩ := hpre ht
  simp only [ht, Bool.not_true, Bool.false_eq_true, if_false]
  have hstep : Inv (if (s t).parent.isSome = true then
        decreaseReservationLocked (findPathToRoot s t) s (s t).reservation false else s) ∧
      SameTree s (if (s t).parent.isSome = true then
        decreaseReservationLocked (findPathToRoot s t) s (s t).reservation false else s) ∧
      ∀ v, (s t).parent = some v → ((if (s t).parent.isSome = true then
        decreaseReservationLocked (findPathToRoot s t) s (s t).reservation false else s)
          t).reservation = 0 := by
    cases hp : (s t).parent with
    | none => exact ⟨by simpa using hs, by simpa using SameTree.refl s, fun _ h => nomatch h⟩
    | some p =>
      simp only [Option.isSome_some, if_true]
      obtain ⟨up, hup⟩ := (hs.path ht).exists_tail
      have htup : t ∉ up := (List.nodup_cons.1 (hup ▸ (hs.path ht).nodup)).1
      rw [hup]
      refine ⟨Consistent.decreaseReservationLocked up (by simpa using hs) (hup ▸ hs.path ht) ht
        (hs.reservation_nonneg t ht) (fun _ => by omega), decreaseReservationLocked_sameTree _ _ _ _,
        fun _ _ => ?_⟩
      rw [decreaseReservationLocked_self htup]
      split_ifs with h0
      · exact h0
      · simp [add64, MachineInt.toSigned]
  generalize (if (s t).parent.isSome = true then
    decreaseReservationLocked (findPathToRoot s t) s (s t).reservation false else s) = s₁ at hstep
  obtain ⟨hs₁, hsame, hzero⟩ := hstep
  have hchildren₁ : ∀ c, (s₁ c).initialized → (s₁ c).parent ≠ some t := fun c hc => by
    rw [(hsame c).1] at hc
    rw [(hsame c).2]
    exact hchildren c hc
  unfold modify
  dsimp only
  generalize hnew : ({ s₁ t with parent := none, initialized := false } : Tracker n) = tr
  have htr : tr.initialized = false := by rw [← hnew]
  have hsum := childSum_update_eq s₁ t tr
    (fun v h => hzero v ((hsame t).2 ▸ h.2)) (fun v h => by rw [htr] at h; cases h.1)
  have hinit : ∀ v, (Function.update s₁ t tr v).initialized → v ≠ t ∧ (s₁ v).initialized :=
    fun v hv => by
      by_cases h : v = t
      · subst h; rw [Function.update_self, htr] at hv; cases hv
      · rw [Function.update_of_ne h] at hv; exact ⟨h, hv⟩
  constructor
  · intro v hv
    obtain ⟨h, hv⟩ := hinit v hv
    rw [Function.update_of_ne h]; exact hs₁.used_nonneg v hv
  · intro v hv
    obtain ⟨h, hv⟩ := hinit v hv
    rw [Function.update_of_ne h]; exact hs₁.reservation_nonneg v hv
  · intro v hv
    obtain ⟨h, hv⟩ := hinit v hv
    rw [Function.update_of_ne h]; exact hs₁.reservation_le_limit v hv
  · intro v hv
    obtain ⟨h, hv⟩ := hinit v hv
    rw [Function.update_of_ne h]; exact hs₁.limit_le_max v hv
  · intro v hv
    obtain ⟨h, hv⟩ := hinit v hv
    rw [Function.update_of_ne h]; exact hs₁.used_add_child_le v hv
  · intro v hv
    obtain ⟨h, hv⟩ := hinit v hv
    rw [Function.update_of_ne h, hsum v]; exact hs₁.childReservations_eq v hv
  · intro v p hv hp
    obtain ⟨h, hv⟩ := hinit v hv
    rw [Function.update_of_ne h] at hp
    have hpt : p ≠ t := fun hpt => hchildren₁ v hv (hpt ▸ hp)
    rw [Function.update_of_ne hpt]
    exact hs₁.parent_initialized v p hv hp
  · intro v hv
    obtain ⟨h, hv⟩ := hinit v hv
    obtain ⟨l, hl⟩ := hs₁.rootPath v hv
    refine ⟨l, rootPath_update hl fun htl => ?_⟩
    obtain ⟨y, hy, hyt⟩ := hl.exists_child htl (Ne.symm h)
    exact hchildren₁ y (hs₁.initialized_of_mem hl hv y hy) hyt

theorem Inv.increase (ans : Answers n) (hs : Inv s) {t : Fin n} (ht : (s t).initialized)
    {bytes : Int} (hb : 0 ≤ bytes) (hfits : Fits s bytes) (useExisting : Bool) :
    IncreaseResult s (findPathToRoot s t) t bytes useExisting false
      (increaseReservationInternalLocked ans (findPathToRoot s t) s bytes useExisting false) := by
  obtain ⟨up, hup⟩ := (hs.path ht).exists_tail
  rw [hup]
  exact Consistent.increaseReservationInternalLocked ans up hs (hup ▸ hs.path ht) ht hb hfits
    fun h => nomatch h

theorem Inv.step (hs : Inv s) {op : Op n} (hpre : Pre s op) : Inv (step s op) := by
  cases op with
  | initRootTracker t limit =>
    obtain ⟨ht, h0, hmax⟩ := hpre
    simp only [ReservationTracker.step, Op.apply, ReservationTracker.initRootTracker]
    exact hs.init ht (fun _ h => by cases h) h0 hmax
  | initChildTracker t p limit =>
    obtain ⟨ht, hp, h0, hmax⟩ := hpre
    simp only [ReservationTracker.step, Op.apply, ReservationTracker.initChildTracker]
    exact hs.init ht (fun _ h => by cases h; exact hp) h0 hmax
  | close t => exact hs.close hpre
  | increaseReservation t bytes ans =>
    obtain ⟨ht, hb, hfits⟩ := hpre
    simp only [ReservationTracker.step, Op.apply, ReservationTracker.increaseReservation]
    simpa using (hs.increase ans ht hb hfits false).consistent
  | increaseReservationToFit t bytes ans =>
    obtain ⟨ht, hb, hfits⟩ := hpre
    simp only [ReservationTracker.step, Op.apply, ReservationTracker.increaseReservationToFit]
    simpa using (hs.increase ans ht hb hfits true).consistent
  | increaseReservationToFitAndAllocate t bytes ans =>
    obtain ⟨ht, hb, hfits⟩ := hpre
    have hr := hs.increase ans ht hb hfits true
    simp only [ReservationTracker.step, Op.apply,
      ReservationTracker.increaseReservationToFitAndAllocate]
    generalize increaseReservationInternalLocked ans (findPathToRoot s t) s bytes true false = r
      at hr ⊢
    obtain ⟨s₁, granted⟩ := r
    have hs₁ : Inv s₁ := by simpa using hr.consistent
    cases granted
    · exact hs₁
    have ht₁ : (s₁ t).initialized := (hr.sameTree t).1 ▸ ht
    have hfit := hr.fit rfl rfl rfl
    dsimp only at hfit
    exact hs₁.updateUsed ht₁ (by have := hs₁.used_nonneg t ht₁; omega) (by omega)
  | decreaseReservation t bytes =>
    obtain ⟨ht, hb, hfree⟩ := hpre
    obtain ⟨up, hup⟩ := (hs.path ht).exists_tail
    simp only [ReservationTracker.step, Op.apply, ReservationTracker.decreaseReservation]
    rw [hup]
    exact Consistent.decreaseReservationLocked up (by simpa using hs) (hup ▸ hs.path ht) ht hb
      fun _ => hfree
  | transferReservationTo t other bytes =>
    obtain ⟨ht, ho, hb, hfree, hroot, hfits⟩ := hpre
    exact (hs.transferReservationTo ht ho hb hfree hroot hfits).1
  | allocateFrom t bytes =>
    obtain ⟨ht, hb, hfree⟩ := hpre
    exact hs.updateUsed ht (by have := hs.used_nonneg t ht; omega)
      (by unfold Unused at hfree; omega)
  | releaseTo t bytes =>
    obtain ⟨ht, hb, hle⟩ := hpre
    exact hs.updateUsed ht (by omega) (by have := hs.used_add_child_le t ht; omega)

theorem Inv.run (ops : List (Op n))
    (hadm : Run.Admissible ReservationTracker.step Pre Trackers.empty ops) :
    Inv (ops.foldl ReservationTracker.step Trackers.empty) :=
  Run.foldl_keeps_admissible ReservationTracker.step Inv Pre (fun _ _ hpre hs => hs.step hpre) ops _ hadm Inv.empty

/-- The limit test adds in `int64_t`: an increase at a root that takes the
reservation past the largest `int64_t` wraps the sum below the limit, is granted
however far past the limit it goes, and leaves the reservation negative. -/
theorem increaseReservation_wraps (ans : Answers n) {s : Trackers n} {t : Fin n} {bytes : Int}
    (hs : Inv s) (ht : (s t).initialized) (hroot : (s t).parent = none)
    (hdeny : ans.deny t = false) (hbig : int64Max < (s t).reservation + bytes)
    (hb : bytes ≤ int64Max) :
    (increaseReservation ans t bytes s).2 = true ∧
      (s t).reservationLimit < (s t).reservation + bytes ∧
      ((increaseReservation ans t bytes s).1 t).reservation =
        (s t).reservation + bytes - 2 ^ 64 ∧
      ¬ Inv (increaseReservation ans t bytes s).1 := by
  have hpath : findPathToRoot s t = [t] := (hs.path ht).unique (.root hroot)
  have hlim := hs.reservation_le_limit t ht
  have hmax := hs.limit_le_max t ht
  have hres0 := hs.reservation_nonneg t ht
  unfold int64Max at hbig hb hmax
  have hwrap : add64 (s t).reservation bytes = (s t).reservation + bytes - 2 ^ 64 :=
    MachineInt.toSigned_of_wrap (by norm_num; omega) (by norm_num; omega)
  have hpass : ¬ add64 (s t).reservation bytes > (s t).reservationLimit := by rw [hwrap]; omega
  have hgrant : increaseReservation ans t bytes s =
      (modify s t (·.updateReservation bytes), true) := by
    simp [ReservationTracker.increaseReservation, hpath, increaseReservationInternalLocked,
      show bytes ≠ 0 by omega, hdeny, hpass]
  have hres : ((increaseReservation ans t bytes s).1 t).reservation =
      (s t).reservation + bytes - 2 ^ 64 := by
    rw [hgrant]
    simp only [modify_self, Tracker.updateReservation, hwrap]
  refine ⟨by rw [hgrant], by omega, hres, fun h => ?_⟩
  have ht' : ((increaseReservation ans t bytes s).1 t).initialized := by
    rw [hgrant]
    simpa only [modify_self, Tracker.updateReservation] using ht
  have := h.reservation_nonneg t ht'
  omega

theorem increaseReservation_wraps_int64Max :
    (increaseReservation ⟨fun _ => false, fun _ => true⟩ 0 int64Max
        (increaseReservation ⟨fun _ => false, fun _ => true⟩ 0 1
          (initRootTracker 0 100 (Trackers.empty : Trackers 1))).1).2 = true ∧
      ((increaseReservation ⟨fun _ => false, fun _ => true⟩ 0 int64Max
        (increaseReservation ⟨fun _ => false, fun _ => true⟩ 0 1
          (initRootTracker 0 100 (Trackers.empty : Trackers 1))).1).1 0).reservation =
        -2 ^ 63 := by
  have hs : Inv (increaseReservation ⟨fun _ => false, fun _ => true⟩ 0 1
      (initRootTracker 0 100 (Trackers.empty : Trackers 1))).1 :=
    Inv.run [.initRootTracker 0 100, .increaseReservation 0 1 ⟨fun _ => false, fun _ => true⟩]
      ⟨⟨rfl, by decide, by decide⟩, ⟨rfl, by decide, by unfold Fits; decide⟩, trivial⟩
  obtain ⟨hgrant, -, hres, -⟩ :=
    @increaseReservation_wraps 1 ⟨fun _ => false, fun _ => true⟩ _ 0 int64Max hs (by decide)
      (by decide) rfl (by decide) (le_refl _)
  refine ⟨hgrant, ?_⟩
  rw [hres]
  decide

end Runs

/-! ## Refused increases -/

/-- A refusal from the `MemTracker` after the ancestors granted does not give back
what they granted: the rollback takes the whole request from every ancestor, while
the root below gave it from its unused reservation and grew by nothing. The root
holds 10 unused; the child asks for 5 and its `MemTracker` refuses; the root is left
with 5. -/
theorem increaseReservation_refused_shrinks_parent :
    Run.Admissible step Pre (Trackers.empty : Trackers 2)
        [.initRootTracker 0 100, .initChildTracker 1 0 100,
          .increaseReservation 0 10 ⟨fun _ => false, fun _ => true⟩] ∧
      (([.initRootTracker 0 100, .initChildTracker 1 0 100,
          .increaseReservation 0 10 ⟨fun _ => false, fun _ => true⟩].foldl step
          (Trackers.empty : Trackers 2)) 0).reservation = 10 ∧
      (increaseReservation ⟨fun _ => false, fun u => u != 1⟩ 1 5
        ([.initRootTracker 0 100, .initChildTracker 1 0 100,
          .increaseReservation 0 10 ⟨fun _ => false, fun _ => true⟩].foldl step
          (Trackers.empty : Trackers 2))).2 = false ∧
      ((increaseReservation ⟨fun _ => false, fun u => u != 1⟩ 1 5
        ([.initRootTracker 0 100, .initChildTracker 1 0 100,
          .increaseReservation 0 10 ⟨fun _ => false, fun _ => true⟩].foldl step
          (Trackers.empty : Trackers 2))).1 0).reservation = 5 := by
  refine ⟨⟨⟨rfl, by decide, by decide⟩, ⟨rfl, rfl, by decide, by decide⟩,
    ⟨rfl, by decide, by unfold Fits; decide⟩, trivial⟩, by decide, by decide, by decide⟩

end Impala.ReservationTracker
