import Mathlib.Data.List.Basic

/-!
Memories as functions from addresses to cells, with the block operations of a
copying loop: reading `n` cells from an address, and writing a list of cells at
an address. A write changes only its window, and reading the window back gives
what was written. Two memories that agree on a window read the same there.
-/

set_option autoImplicit false

namespace Impala.Memory

variable {α : Type*}

def readList (m : Nat → α) (a n : Nat) : List α :=
  (List.range n).map fun k => m (a + k)

def writeList (m : Nat → α) (a : Nat) (l : List α) : Nat → α :=
  fun x => if a ≤ x then (l[x - a]?).getD (m x) else m x

variable {m m' : Nat → α} {a n x : Nat} {l : List α}

@[simp]
theorem length_readList : (readList m a n).length = n := by
  simp [readList]

theorem getElem_readList {k : Nat} (hk : k < (readList m a n).length) :
    (readList m a n)[k] = m (a + k) := by
  simp [readList]

theorem writeList_of_lt (h : x < a) : writeList m a l x = m x := by
  simp [writeList, Nat.not_le.2 h]

theorem writeList_of_le (h : a + l.length ≤ x) : writeList m a l x = m x := by
  have : l[x - a]? = none := List.getElem?_eq_none (by omega)
  simp [writeList, this]

theorem writeList_of_not_mem (h : x < a ∨ a + l.length ≤ x) : writeList m a l x = m x :=
  h.elim writeList_of_lt writeList_of_le

theorem writeList_add {k : Nat} (hk : k < l.length) : writeList m a l (a + k) = l[k] := by
  simp [writeList, hk]

@[simp]
theorem readList_writeList : readList (writeList m a l) a l.length = l := by
  apply List.ext_getElem (by simp)
  intro k hk _
  rw [getElem_readList, writeList_add (by simpa using hk)]

theorem readList_congr (h : ∀ k < n, m (a + k) = m' (a + k)) : readList m a n = readList m' a n := by
  simp only [readList, List.map_inj_left, List.mem_range]
  exact h

theorem mem_readList {k : Nat} (hk : k < n) : m (a + k) ∈ readList m a n := by
  simp only [readList, List.mem_map, List.mem_range]
  exact ⟨k, hk, rfl⟩

theorem readList_shift (b : Nat) : readList (fun x => m (b + x)) a n = readList m (b + a) n := by
  simp [readList, Nat.add_assoc]

theorem readList_add (m : Nat → α) (a n k : Nat) :
    readList m a (n + k) = readList m a n ++ readList m (a + n) k := by
  simp [readList, List.range_add, Nat.add_assoc]

@[simp]
theorem readList_zero : readList m a 0 = [] := rfl

@[simp]
theorem readList_one : readList m a 1 = [m a] := by
  simp [readList]

theorem readList_writeList_of_disjoint {b : Nat} (h : b + l.length ≤ a ∨ a + n ≤ b) :
    readList (writeList m b l) a n = readList m a n :=
  readList_congr fun _ _ => writeList_of_not_mem (by omega)

theorem readList_writeList_of_length (h : l.length = n) : readList (writeList m a l) a n = l :=
  h ▸ readList_writeList

theorem readList_of_append {l₁ l₂ : List α} (h : readList m a (l₁ ++ l₂).length = l₁ ++ l₂) :
    readList m a l₁.length = l₁ ∧ readList m (a + l₁.length) l₂.length = l₂ := by
  rw [List.length_append, readList_add] at h
  exact List.append_inj h length_readList

theorem readList_of_cons {c : α} (h : readList m a (c :: l).length = c :: l) :
    m a = c ∧ readList m (a + 1) l.length = l := by
  obtain ⟨h₁, h₂⟩ := readList_of_append (show readList m a ([c] ++ l).length = [c] ++ l from h)
  exact ⟨by simpa using h₁, h₂⟩

theorem readList_append_of {l₁ l₂ : List α} (h₁ : readList m a l₁.length = l₁)
    (h₂ : readList m (a + l₁.length) l₂.length = l₂) : readList m a (l₁ ++ l₂).length = l₁ ++ l₂ := by
  rw [List.length_append, readList_add, h₁, h₂]

theorem readList_cons_of {c : α} (h₁ : readList m a 1 = [c])
    (h₂ : readList m (a + 1) l.length = l) : readList m a (c :: l).length = c :: l :=
  readList_append_of (show readList m a [c].length = [c] from h₁) h₂

end Impala.Memory
