import Mathlib.Algebra.BigOperators.Group.List.Basic

/-!
Runs of a step function over a list of operations. A run is a left fold; the
two rules here are the ones every state machine of the development uses:
a property that every admissible step keeps holds after the whole run, and a
fact that one step establishes and every later step keeps holds at the end.
A third rule is for checked accumulation, where a step adds to a tracked
quantity and fails when the sum leaves a range.
-/

set_option autoImplicit false

namespace Impala.Run

variable {σ ι β : Type}

theorem foldl_keeps (step : σ → ι → σ) (P : σ → Prop) (OK : ι → Prop)
    (h : ∀ s i, OK i → P s → P (step s i)) (ops : List ι) (hops : ∀ i ∈ ops, OK i)
    (s : σ) (hs : P s) : P (ops.foldl step s) :=
  List.foldlRecOn ops step hs (fun s hs i hi => h s i (hops i hi) hs)

theorem foldl_establish (step : σ → ι → σ) (I : σ → Prop) (C : σ → β → Prop)
    (Q : ι → β → Prop) (OK : ι → Prop)
    (hI : ∀ s i, OK i → I s → I (step s i))
    (hkeep : ∀ s i b, OK i → I s → C s b → C (step s i) b)
    (hnew : ∀ s i b, OK i → I s → Q i b → C (step s i) b)
    (ops : List ι) (hops : ∀ i ∈ ops, OK i) (s : σ) (hs : I s) (b : β)
    (h : ∃ i ∈ ops, Q i b) : C (ops.foldl step s) b := by
  induction ops generalizing s with
  | nil => simp at h
  | cons i ops ih =>
    have hi : OK i := hops i List.mem_cons_self
    have hrest : ∀ j ∈ ops, OK j := fun j hj => hops j (List.mem_cons_of_mem i hj)
    simp only [List.foldl_cons]
    by_cases hq : ∃ j ∈ ops, Q j b
    · exact ih hrest _ (hI s i hi hs) hq
    · have hqi : Q i b := by
        obtain ⟨j,hj,hqj⟩ := h
        rcases List.mem_cons.1 hj with rfl | hj
        · exact hqj
        · exact absurd ⟨j,hj,hqj⟩ hq
      have hboth := foldl_keeps step (fun s => I s ∧ C s b) OK
        (fun s j hj hs => ⟨hI s j hj hs.1, hkeep s j b hj hs.1 hs.2⟩) ops hrest _
        ⟨hI s i hi hs, hnew s i b hi hs hqi⟩
      exact hboth.2

theorem foldl_good_of_good (step : σ → ι → σ) (ok : σ → Prop)
    (hmono : ∀ s i, ok (step s i) → ok s) (ops : List ι) (s : σ)
    (h : ok (ops.foldl step s)) : ok s := by
  induction ops generalizing s with
  | nil => exact h
  | cons i ops ih => exact hmono s i (ih (step s i) h)

theorem foldl_checked [AddMonoid β] (step : σ → ι → σ) (ok : σ → Prop) (val : σ → β)
    (value : ι → β) (InRange : β → Prop) (OK : ι → Prop)
    (hstep : ∀ s i, OK i → ok s → InRange (val s) →
      (ok (step s i) ↔ InRange (val s + value i)) ∧
        (ok (step s i) → val (step s i) = val s + value i))
    (hmono : ∀ s i, ok (step s i) → ok s)
    (ops : List ι) (hops : ∀ i ∈ ops, OK i) (s : σ) (hs : ok s) (hr : InRange (val s)) :
    (ok (ops.foldl step s) ↔
        ∀ k ≤ ops.length, InRange (val s + ((ops.take k).map value).sum)) ∧
      (ok (ops.foldl step s) → val (ops.foldl step s) = val s + (ops.map value).sum) := by
  induction ops generalizing s with
  | nil => simp [hs, hr]
  | cons i ops ih =>
    have hi := hstep s i (hops i List.mem_cons_self) hs hr
    have hrest : ∀ j ∈ ops, OK j := fun j hj => hops j (List.mem_cons_of_mem i hj)
    simp only [List.foldl_cons, List.length_cons, List.map_cons, List.sum_cons]
    by_cases hgood : ok (step s i)
    · have ih' := ih hrest (step s i) hgood (hi.2 hgood ▸ hi.1.1 hgood)
      rw [hi.2 hgood] at ih'
      refine ⟨⟨fun h k hk => ?_, fun h => ih'.1.2 fun k hk => ?_⟩, fun h => ?_⟩
      · cases k with
        | zero => simpa using hr
        | succ k => simpa [add_assoc] using ih'.1.1 h k (by omega)
      · simpa [add_assoc] using h (k + 1) (by omega)
      · rw [ih'.2 h, add_assoc]
    · have hbad := foldl_good_of_good step ok hmono ops (step s i)
      refine ⟨⟨fun h => absurd (hbad h) hgood, fun h => ?_⟩, fun h => absurd (hbad h) hgood⟩
      exact absurd (hi.1.2 (by simpa using h 1 (by omega))) hgood

/-- Every operation of a run is admissible in the state it is applied to: the
preconditions a caller of a state machine must keep, which may depend on the
state. -/
def Admissible (step : σ → ι → σ) (pre : σ → ι → Prop) : σ → List ι → Prop
  | _, [] => True
  | s, i :: ops => pre s i ∧ Admissible step pre (step s i) ops

theorem foldl_keeps_admissible (step : σ → ι → σ) (P : σ → Prop) (pre : σ → ι → Prop)
    (h : ∀ s i, pre s i → P s → P (step s i)) :
    ∀ (ops : List ι) (s : σ), Admissible step pre s ops → P s → P (ops.foldl step s)
  | [], _, _, hs => hs
  | i :: ops, s, ⟨hi, hrest⟩, hs =>
    foldl_keeps_admissible step P pre h ops (step s i) hrest (h s i hi hs)

end Impala.Run
