import Mathlib.Data.Fintype.Card

/-!
Forests given by parent pointers. `RootPath parent t l` says that `l` lists the
nodes from `t` up to its root; such a path is unique, has no repeated node, and so
is no longer than the number of nodes, which is what bounds the walk that follows
the pointers (`walkUp`). Two paths that meet continue together to the root; before
the node where they meet they share no node.
-/

set_option autoImplicit false

namespace Impala.Forest

variable {α : Type*}

section Paths

variable (parent : α → Option α)

/-- `l` lists the nodes from `t` up to its root. -/
inductive RootPath : α → List α → Prop
  | root {t : α} : parent t = none → RootPath t [t]
  | step {t p : α} {l : List α} : parent t = some p → RootPath p l → RootPath t (t :: l)

def walkUp : Nat → α → List α
  | 0, t => [t]
  | fuel + 1, t => t :: match parent t with
    | none => []
    | some p => walkUp fuel p

variable {parent}

theorem RootPath.exists_tail {t : α} {l : List α} (h : RootPath parent t l) :
    ∃ l', l = t :: l' := by
  cases h <;> exact ⟨_, rfl⟩

theorem RootPath.tail {t : α} {l : List α} (h : RootPath parent t (t :: l)) (hl : l ≠ []) :
    ∃ p, parent t = some p ∧ RootPath parent p l := by
  cases h with
  | root _ => exact absurd rfl hl
  | step hp h' => exact ⟨_, hp, h'⟩

theorem RootPath.unique {t : α} {l₁ l₂ : List α} (h₁ : RootPath parent t l₁)
    (h₂ : RootPath parent t l₂) : l₁ = l₂ := by
  induction h₁ generalizing l₂ with
  | root hn =>
    cases h₂ with
    | root _ => rfl
    | step hp _ => rw [hn] at hp; cases hp
  | step hp _ ih =>
    cases h₂ with
    | root hn => rw [hn] at hp; cases hp
    | step hp' h' =>
      rw [hp] at hp'
      cases hp'
      rw [ih h']

theorem RootPath.drop {t x : α} {l₁ l₂ : List α} (h : RootPath parent t (l₁ ++ x :: l₂)) :
    RootPath parent x (x :: l₂) := by
  induction l₁ generalizing t with
  | nil =>
    obtain ⟨_, he⟩ := h.exists_tail
    cases he
    exact h
  | cons y l₁ ih =>
    generalize hL : y :: l₁ ++ x :: l₂ = L at h
    cases h with
    | root _ => simp at hL
    | step _ hl =>
      obtain ⟨-, rfl⟩ := List.cons.inj hL
      exact ih hl

theorem RootPath.nodup {t : α} {l : List α} (h : RootPath parent t l) : l.Nodup := by
  induction h with
  | root _ => exact List.nodup_singleton _
  | @step t p l hp hl ih =>
    refine List.nodup_cons.2 ⟨fun ht => ?_, ih⟩
    obtain ⟨l₁, l₂, rfl⟩ := List.append_of_mem ht
    have he := (RootPath.step hp hl).unique hl.drop
    have hlen := congrArg List.length he
    simp at hlen
    omega

theorem RootPath.length_le_card [Fintype α] {t : α} {l : List α} (h : RootPath parent t l) :
    l.length ≤ Fintype.card α :=
  h.nodup.length_le_card

theorem walkUp_eq {t : α} {l : List α} (h : RootPath parent t l) {fuel : Nat}
    (hf : l.length ≤ fuel + 1) : walkUp parent fuel t = l := by
  induction h generalizing fuel with
  | root hn =>
    cases fuel with
    | zero => rfl
    | succ fuel => simp [walkUp, hn]
  | step hp hl ih =>
    obtain ⟨l', rfl⟩ := hl.exists_tail
    cases fuel with
    | zero => simp at hf
    | succ fuel =>
      simp only [List.length_cons] at hf
      simp only [walkUp, hp]
      rw [ih (by simp; omega)]

theorem RootPath.congr {parent' : α → Option α} {t : α} {l : List α} (h : RootPath parent t l)
    (hag : ∀ x ∈ l, parent' x = parent x) : RootPath parent' t l := by
  induction h with
  | root hn => exact .root ((hag _ (List.mem_singleton_self _)).trans hn)
  | step hp _ ih =>
    refine .step ((hag _ List.mem_cons_self).trans hp) (ih fun x hx => hag x ?_)
    exact List.mem_cons_of_mem _ hx

theorem RootPath.forall_mem {P : α → Prop} {t : α} {l : List α} (h : RootPath parent t l)
    (ht : P t) (hstep : ∀ x p, P x → parent x = some p → P p) : ∀ x ∈ l, P x := by
  induction h with
  | root _ =>
    intro x hx
    rw [List.mem_singleton.1 hx]
    exact ht
  | step hp _ ih =>
    intro x hx
    rcases List.mem_cons.1 hx with rfl | hx
    · exact ht
    · exact ih (hstep _ _ ht hp) x hx

theorem RootPath.exists_child {t x : α} {l : List α} (h : RootPath parent t l) (hx : x ∈ l)
    (hxt : x ≠ t) : ∃ y ∈ l, parent y = some x := by
  induction h with
  | root _ => exact absurd (List.mem_singleton.1 hx) hxt
  | @step t p l hp hl ih =>
    have hxl : x ∈ l := (List.mem_cons.1 hx).resolve_left hxt
    obtain ⟨_, rfl⟩ := hl.exists_tail
    by_cases hxp : x = p
    · subst hxp
      exact ⟨t, List.mem_cons_self, hp⟩
    · obtain ⟨y, hy, hyx⟩ := ih hxl hxp
      exact ⟨y, List.mem_cons_of_mem _ hy, hyx⟩

theorem RootPath.disjoint {a b c : α} {A B Q : List α} (ha : RootPath parent a (A ++ c :: Q))
    (hb : RootPath parent b (B ++ c :: Q)) (hlast : A.getLast? ≠ B.getLast?) :
    ∀ x ∈ A, x ∉ B := by
  intro x hxa hxb
  obtain ⟨A₁, A₂, rfl⟩ := List.append_of_mem hxa
  obtain ⟨B₁, B₂, rfl⟩ := List.append_of_mem hxb
  have hA : RootPath parent a (A₁ ++ x :: (A₂ ++ c :: Q)) := by
    simpa only [List.append_assoc, List.cons_append] using ha
  have hB : RootPath parent b (B₁ ++ x :: (B₂ ++ c :: Q)) := by
    simpa only [List.append_assoc, List.cons_append] using hb
  have he := List.append_cancel_right (List.cons.inj (hA.drop.unique hB.drop)).2
  apply hlast
  rw [List.getLast?_append, List.getLast?_append, List.getLast?_cons, List.getLast?_cons, he,
    Option.some_or, Option.some_or]

end Paths

end Impala.Forest
