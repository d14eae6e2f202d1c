import Mathlib.Algebra.BigOperators.Group.List.Basic

/-!
Association lists as finite maps: a map with unique keys is a list of
key-value pairs whose keys have no duplicate. `find?`, `replace` and
`erase` are the map's lookup, overwrite and removal. The sum lemmas say how
a total over the entries changes when one entry is removed or overwritten,
which is what a ledger kept beside the map needs.
-/

namespace AssocList

variable {α β : Type*}

def keys (l : List (α × β)) : List α := l.map Prod.fst

@[simp] theorem keys_nil : keys ([] : List (α × β)) = [] := rfl

@[simp] theorem keys_cons (e : α × β) (l : List (α × β)) : keys (e :: l) = e.1 :: keys l := rfl

variable [DecidableEq α]

def find? (a : α) : List (α × β) → Option β
  | [] => none
  | e :: l => if e.1 = a then some e.2 else find? a l

def replace (a : α) (b : β) (l : List (α × β)) : List (α × β) :=
  l.map fun e => if e.1 = a then (a, b) else e

def erase (a : α) (l : List (α × β)) : List (α × β) :=
  l.filter fun e => e.1 ≠ a

@[simp] theorem find?_nil (a : α) : find? a ([] : List (α × β)) = none := rfl

theorem find?_cons (a : α) (e : α × β) (l : List (α × β)) :
    find? a (e :: l) = if e.1 = a then some e.2 else find? a l := rfl

@[simp] theorem erase_nil (a : α) : erase a ([] : List (α × β)) = [] := rfl

theorem erase_cons (a : α) (e : α × β) (l : List (α × β)) :
    erase a (e :: l) = if e.1 = a then erase a l else e :: erase a l := by
  by_cases h : e.1 = a <;> simp [erase, h]

theorem mem_of_find? {a : α} {b : β} {l : List (α × β)} (h : find? a l = some b) :
    (a, b) ∈ l := by
  induction l with
  | nil => simp at h
  | cons e l ih =>
    rw [find?_cons] at h
    split_ifs at h with he
    · cases h
      subst he
      exact List.mem_cons_self
    · exact List.mem_cons_of_mem _ (ih h)

theorem mem_keys_of_find? {a : α} {b : β} {l : List (α × β)} (h : find? a l = some b) :
    a ∈ keys l :=
  List.mem_map.mpr ⟨(a, b), mem_of_find? h, rfl⟩

theorem find?_eq_none {a : α} {l : List (α × β)} : find? a l = none ↔ a ∉ keys l := by
  induction l with
  | nil => simp
  | cons e l ih =>
    rw [find?_cons, keys_cons, List.mem_cons]
    by_cases he : e.1 = a
    · simp [he]
    · simp [he, ih, Ne.symm he]

theorem find?_of_mem_keys {a : α} {l : List (α × β)} (h : a ∈ keys l) : ∃ b, find? a l = some b := by
  cases hf : find? a l with
  | none => exact absurd h (find?_eq_none.mp hf)
  | some b => exact ⟨b, rfl⟩

section Replace

theorem replace_cons (a : α) (b : β) (e : α × β) (l : List (α × β)) :
    replace a b (e :: l) = (if e.1 = a then (a, b) else e) :: replace a b l := rfl

@[simp] theorem keys_replace (a : α) (b : β) (l : List (α × β)) : keys (replace a b l) = keys l := by
  induction l with
  | nil => rfl
  | cons e l ih =>
    rw [replace_cons, keys_cons, keys_cons, ih]
    by_cases he : e.1 = a <;> simp [he]

theorem replace_of_not_mem {a : α} (b : β) {l : List (α × β)} (h : a ∉ keys l) :
    replace a b l = l := by
  induction l with
  | nil => rfl
  | cons e l ih =>
    rw [keys_cons, List.mem_cons, not_or] at h
    rw [replace_cons, if_neg (Ne.symm h.1), ih h.2]

theorem find?_replace_self {a : α} (b : β) {l : List (α × β)} (h : a ∈ keys l) :
    find? a (replace a b l) = some b := by
  obtain ⟨b', hb'⟩ := find?_of_mem_keys h
  induction l with
  | nil => simp at h
  | cons e l ih =>
    rw [find?_cons] at hb'
    by_cases he : e.1 = a
    · simp [replace, find?_cons, he]
    · rw [if_neg he] at hb'
      have hl : a ∈ keys l := mem_keys_of_find? hb'
      simpa [replace, find?_cons, he] using ih hl hb'

theorem mem_replace {a : α} {b : β} {l : List (α × β)} {e : α × β} (h : e ∈ replace a b l) :
    e = (a, b) ∨ (e ∈ l ∧ e.1 ≠ a) := by
  obtain ⟨e', he', rfl⟩ := List.mem_map.mp h
  by_cases hk : e'.1 = a
  · simp [hk]
  · simp [hk, he']

def modify (a : α) (f : β → β) (l : List (α × β)) : List (α × β) :=
  l.map fun e => if e.1 = a then (a, f e.2) else e

@[simp] theorem keys_modify (a : α) (f : β → β) (l : List (α × β)) : keys (modify a f l) = keys l := by
  induction l with
  | nil => rfl
  | cons e l ih =>
    by_cases he : e.1 = a
    · simp [modify, he]
      simpa [modify] using ih
    · simp [modify, he]
      simpa [modify] using ih

theorem find?_modify (a c : α) (f : β → β) (l : List (α × β)) :
    find? c (modify a f l) = if a = c then (find? c l).map f else find? c l := by
  induction l with
  | nil => simp [modify]
  | cons e l ih =>
    have hl : modify a f (e :: l) = (if e.1 = a then (a, f e.2) else e) :: modify a f l := rfl
    rw [hl, find?_cons, find?_cons, ih]
    by_cases he : e.1 = a
    · rw [if_pos he]
      subst he
      by_cases hc : e.1 = c <;> simp [hc]
    · rw [if_neg he]
      by_cases hc : a = c
      · subst hc
        simp [he]
      · simp [hc]

end Replace

section Erase

theorem keys_erase (a : α) (l : List (α × β)) : keys (erase a l) = (keys l).filter (· ≠ a) := by
  induction l with
  | nil => rfl
  | cons e l ih =>
    by_cases he : e.1 = a <;> simp [erase_cons, he, ih]

theorem mem_erase {a : α} {l : List (α × β)} {e : α × β} : e ∈ erase a l ↔ e ∈ l ∧ e.1 ≠ a := by
  simp [erase]

theorem erase_sublist (a : α) (l : List (α × β)) : (erase a l).Sublist l := List.filter_sublist

theorem Nodup.erase {l : List (α × β)} (hnd : (keys l).Nodup) (a : α) : (keys (erase a l)).Nodup :=
  (erase_sublist a l).map Prod.fst |>.nodup hnd

@[simp] theorem find?_erase_self (a : α) (l : List (α × β)) : find? a (erase a l) = none := by
  rw [find?_eq_none, keys_erase]
  simp

theorem find?_erase_ne {a c : α} (l : List (α × β)) (hne : a ≠ c) :
    find? c (erase a l) = find? c l := by
  induction l with
  | nil => rfl
  | cons e l ih =>
    by_cases he : e.1 = a
    · have hec : e.1 ≠ c := he ▸ hne
      rw [erase_cons, if_pos he, ih, find?_cons, if_neg hec]
    · rw [erase_cons, if_neg he, find?_cons, find?_cons, ih]

theorem erase_of_not_mem {a : α} {l : List (α × β)} (h : a ∉ keys l) : erase a l = l := by
  induction l with
  | nil => rfl
  | cons e l ih =>
    rw [keys_cons, List.mem_cons, not_or] at h
    rw [erase_cons, if_neg (Ne.symm h.1), ih h.2]

theorem length_erase {a : α} {l : List (α × β)} (hnd : (keys l).Nodup) (h : a ∈ keys l) :
    (erase a l).length + 1 = l.length := by
  induction l with
  | nil => simp at h
  | cons e l ih =>
    rw [keys_cons, List.nodup_cons] at hnd
    rw [erase_cons]
    by_cases he : e.1 = a
    · rw [if_pos he, erase_of_not_mem (he ▸ hnd.1), List.length_cons]
    · rw [keys_cons, List.mem_cons] at h
      rw [if_neg he, List.length_cons, List.length_cons, ih hnd.2 (h.resolve_left (Ne.symm he))]

end Erase

section Sums

variable {M : Type*} [AddCommMonoid M]

theorem sum_erase {a : α} {b : β} {l : List (α × β)} (hnd : (keys l).Nodup)
    (h : find? a l = some b) (f : α × β → M) :
    (l.map f).sum = ((erase a l).map f).sum + f (a, b) := by
  induction l with
  | nil => simp at h
  | cons e l ih =>
    rw [keys_cons, List.nodup_cons] at hnd
    rw [find?_cons] at h
    rw [erase_cons]
    by_cases he : e.1 = a
    · rw [if_pos he] at h
      cases h
      obtain ⟨k, v⟩ := e
      dsimp only at he
      subst he
      rw [if_pos rfl, erase_of_not_mem hnd.1, List.map_cons, List.sum_cons, add_comm]
    · rw [if_neg he] at h
      rw [if_neg he, List.map_cons, List.map_cons, List.sum_cons, List.sum_cons, ih hnd.2 h,
        add_assoc]

theorem sum_replace {a : α} {b : β} {l : List (α × β)} (hnd : (keys l).Nodup)
    (h : find? a l = some b) (b' : β) (f : α × β → M) :
    ((replace a b' l).map f).sum + f (a, b) = (l.map f).sum + f (a, b') := by
  induction l with
  | nil => simp at h
  | cons e l ih =>
    rw [keys_cons, List.nodup_cons] at hnd
    rw [find?_cons] at h
    by_cases he : e.1 = a
    · rw [if_pos he] at h
      cases h
      obtain ⟨k, v⟩ := e
      dsimp only at he
      subst he
      rw [replace_cons, if_pos rfl, replace_of_not_mem b' hnd.1, List.map_cons, List.map_cons,
        List.sum_cons, List.sum_cons]
      ac_rfl
    · rw [if_neg he] at h
      rw [replace_cons, if_neg he, List.map_cons, List.map_cons, List.sum_cons, List.sum_cons, add_assoc,
        ih hnd.2 h, add_assoc]

end Sums

end AssocList
