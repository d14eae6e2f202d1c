import Mathlib
import Impala.Runtime.StringValue
import Impala.Lib.Run

/-!
IN-list runtime filters (util/in-list-filter.h, in-list-filter.cc, in-list-filter-ir.cc):
`InListFilterImpl<T, SLOT_TYPE>` for the numeric types, one definition over the value type `α`
(TINYINT, SMALLINT, INT, BIGINT and DATE differ only in `T`), and
`InListFilterImpl<StringValue, SLOT_TYPE>` for STRING, VARCHAR and CHAR, which stages new strings
in `newly_inserted_values_` until `MaterializeValues` copies them.

A filter holds its distinct values in a set, `total_entries_` counts them as a `uint32_t`, and
`Reset` makes it always true. `Find` is true for every value inserted as long as the filter is
not always true, and a reset happens only when the distinct values exceed the entry limit, the
strings reach `STRING_SET_MAX_TOTAL_LENGTH` bytes, or materializing cannot allocate. The counter
is exact for every entry limit but `UINT32_MAX`: there it wraps after `2^32` distinct values.
-/

set_option autoImplicit false

namespace Impala

namespace InListFilter

/-- `InListFilterPB`: the values of a filter that is not always true, and its NULL flag. -/
structure InListFilterPB (β : Type) where
  alwaysTrue : Bool := false
  containsNull : Bool := false
  value : List β := []
  deriving Repr

/-- A call on a filter: `Insert(val)`, `nullptr` being `none`, or `MaterializeValues()`, whose
pool allocation succeeds or not. -/
inductive Call (β : Type)
  | insert (val : Option β)
  | materializeValues (allocOk : Bool)
  deriving Repr

/-! ### Numeric filters -/

/-- `InListFilterImpl<T, SLOT_TYPE>` of a numeric type: `std::unordered_set<T>` is the list of
its elements. -/
structure NumericFilter (α : Type) where
  entryLimit : Nat
  totalEntries : Nat
  alwaysTrue : Bool
  containsNull : Bool
  values : List α
  deriving Repr

namespace NumericFilter

variable {α : Type} [DecidableEq α]

def create (entryLimit : Nat) (containsNull : Bool) : NumericFilter α :=
  ⟨entryLimit, 0, false, containsNull, []⟩

def reset (f : NumericFilter α) : NumericFilter α :=
  { f with alwaysTrue := true, containsNull := false, values := [], totalEntries := 0 }

def addNew (f : NumericFilter α) (v : α) : NumericFilter α :=
  { f with values := v :: f.values, totalEntries := (f.totalEntries + 1) % 2 ^ 32 }

def overLimit (f : NumericFilter α) : Bool := f.totalEntries > f.entryLimit

def insert (f : NumericFilter α) (val : Option α) : NumericFilter α :=
  if f.alwaysTrue then f
  else match val with
    | none => { f with containsNull := true }
    | some v =>
      if v ∈ f.values then f
      else if (f.addNew v).overLimit then (f.addNew v).reset
      else f.addNew v

def find (f : NumericFilter α) (val : Option α) : Bool :=
  if f.alwaysTrue then true
  else match val with
    | none => f.containsNull
    | some v => decide (v ∈ f.values)

/-- `InsertBatch(batch)`: the entry limit stops the loop; `always_true_` is not checked. -/
def insertBatch (f : NumericFilter α) : List α → NumericFilter α
  | [] => f
  | v :: batch =>
    if v ∈ f.values then f.insertBatch batch
    else if (f.addNew v).overLimit then (f.addNew v).reset
    else (f.addNew v).insertBatch batch

def toProtobuf (f : NumericFilter α) : InListFilterPB α :=
  if f.alwaysTrue then { alwaysTrue := true }
  else { alwaysTrue := false, containsNull := f.containsNull, value := f.values }

/-- `InListFilter::Create(protobuf, type, entry_limit, ...)`; `MaterializeValues` of a numeric
filter does nothing. -/
def ofProtobuf (pb : InListFilterPB α) (entryLimit : Nat) : NumericFilter α :=
  { create entryLimit pb.containsNull with alwaysTrue := pb.alwaysTrue }.insertBatch pb.value

def step (f : NumericFilter α) : Call α → NumericFilter α
  | .insert val => f.insert val
  | .materializeValues _ => f

def run (f : NumericFilter α) (calls : List (Call α)) : NumericFilter α := calls.foldl step f

def alwaysFalse (f : NumericFilter α) : Bool :=
  !f.alwaysTrue && !f.containsNull && f.totalEntries == 0

/-! #### What one call does -/

section Fields

omit [DecidableEq α]

variable (f : NumericFilter α) (v : α)

@[simp] theorem addNew_values : (f.addNew v).values = v :: f.values := rfl

@[simp] theorem addNew_alwaysTrue : (f.addNew v).alwaysTrue = f.alwaysTrue := rfl

@[simp] theorem addNew_containsNull : (f.addNew v).containsNull = f.containsNull := rfl

@[simp] theorem addNew_entryLimit : (f.addNew v).entryLimit = f.entryLimit := rfl

@[simp] theorem reset_alwaysTrue : f.reset.alwaysTrue = true := rfl

@[simp] theorem reset_values : f.reset.values = [] := rfl

end Fields

theorem insert_of_alwaysTrue {f : NumericFilter α} (h : f.alwaysTrue = true) (val : Option α) :
    f.insert val = f := by
  simp [insert, h]

theorem insert_cases {f : NumericFilter α} (hf : f.alwaysTrue = false) (val : Option α) :
    (val = none ∧ f.insert val = { f with containsNull := true }) ∨
      (∃ v, val = some v ∧ v ∈ f.values ∧ f.insert val = f) ∨
      (∃ v, val = some v ∧ v ∉ f.values ∧ (f.addNew v).overLimit = false ∧
        f.insert val = f.addNew v) ∨
      (∃ v, val = some v ∧ v ∉ f.values ∧ (f.addNew v).overLimit = true ∧
        f.insert val = (f.addNew v).reset) := by
  cases val with
  | none => exact Or.inl ⟨rfl, by simp [insert, hf]⟩
  | some v =>
    by_cases hv : v ∈ f.values
    · exact Or.inr (Or.inl ⟨v, rfl, hv, by simp [insert, hf, hv]⟩)
    · cases hover : (f.addNew v).overLimit
      · exact Or.inr (Or.inr (Or.inl ⟨v, rfl, hv, hover, by simp [insert, hf, hv, hover]⟩))
      · exact Or.inr (Or.inr (Or.inr ⟨v, rfl, hv, hover, by simp [insert, hf, hv, hover]⟩))

theorem insert_not_alwaysTrue {f : NumericFilter α} {val : Option α}
    (h : (f.insert val).alwaysTrue = false) :
    f.alwaysTrue = false ∧ (∀ x, x ∈ (f.insert val).values ↔ x ∈ f.values ∨ val = some x) ∧
      ((f.insert val).containsNull = true ↔ f.containsNull = true ∨ val = none) := by
  have hf : f.alwaysTrue = false := by
    cases hf : f.alwaysTrue
    · rfl
    · rw [insert_of_alwaysTrue hf, hf] at h
      exact h
  refine ⟨hf, ?_⟩
  rcases insert_cases hf val with ⟨rfl, heq⟩ | ⟨v, rfl, hv, heq⟩ | ⟨v, rfl, -, -, heq⟩ |
    ⟨v, rfl, -, -, heq⟩ <;> rw [heq] <;> rw [heq] at h
  · simp
  · refine ⟨fun x => ?_, by simp⟩
    constructor
    · exact Or.inl
    · rintro (hx | hx)
      · exact hx
      · cases hx
        exact hv
  · refine ⟨fun x => ?_, by simp⟩
    rw [addNew_values, List.mem_cons, Option.some.injEq, eq_comm, or_comm]
  · simp at h

/-! #### The invariant -/

/-- The set has no duplicates and `total_entries_` counts it as a `uint32_t`; below
`UINT32_MAX` the entry limit bounds it. -/
structure Inv (f : NumericFilter α) : Prop where
  nodup : f.values.Nodup
  totalEntries_eq : f.totalEntries = f.values.length % 2 ^ 32
  length_le : f.entryLimit < 2 ^ 32 - 1 → f.values.length ≤ f.entryLimit

omit [DecidableEq α] in
theorem inv_create (entryLimit : Nat) (containsNull : Bool) :
    (create entryLimit containsNull : NumericFilter α).Inv :=
  ⟨List.nodup_nil, rfl, fun _ => Nat.zero_le _⟩

omit [DecidableEq α] in
theorem Inv.reset {f : NumericFilter α} : f.reset.Inv :=
  ⟨List.nodup_nil, rfl, fun _ => Nat.zero_le _⟩

omit [DecidableEq α] in
theorem Inv.addNew {f : NumericFilter α} (h : f.Inv) {v : α} (hv : v ∉ f.values)
    (hover : (f.addNew v).overLimit = false) : (f.addNew v).Inv := by
  have htotal : (f.addNew v).totalEntries = (f.values.length + 1) % 2 ^ 32 := by
    show (f.totalEntries + 1) % 2 ^ 32 = _
    rw [h.totalEntries_eq, Nat.mod_add_mod]
  refine ⟨List.nodup_cons.2 ⟨hv, h.nodup⟩, htotal, fun hlim => ?_⟩
  rw [addNew_entryLimit] at hlim ⊢
  have hle := h.length_le hlim
  have hnot : ¬ (f.addNew v).totalEntries > f.entryLimit := of_decide_eq_false hover
  rw [htotal, Nat.mod_eq_of_lt (by omega)] at hnot
  rw [addNew_values, List.length_cons]
  omega

theorem Inv.insert {f : NumericFilter α} (h : f.Inv) (val : Option α) : (f.insert val).Inv := by
  cases hf : f.alwaysTrue
  · rcases insert_cases hf val with ⟨-, heq⟩ | ⟨v, -, -, heq⟩ | ⟨v, -, hv, hover, heq⟩ |
      ⟨v, -, -, -, heq⟩ <;> rw [heq]
    · exact ⟨h.nodup, h.totalEntries_eq, h.length_le⟩
    · exact h
    · exact h.addNew hv hover
    · exact Inv.reset
  · rwa [insert_of_alwaysTrue hf]

theorem Inv.run {f : NumericFilter α} (h : f.Inv) (calls : List (Call α)) : (f.run calls).Inv :=
  Run.foldl_keeps step Inv (fun _ => True)
    (fun f c _ hf => by cases c with
      | insert val => exact hf.insert val
      | materializeValues _ => exact hf)
    calls (fun _ _ => trivial) f h

omit [DecidableEq α] in
theorem Inv.totalEntries_eq_length {f : NumericFilter α} (h : f.Inv)
    (hlim : f.entryLimit < 2 ^ 32 - 1) : f.totalEntries = f.values.length := by
  rw [h.totalEntries_eq, Nat.mod_eq_of_lt]
  have := h.length_le hlim
  omega

omit [DecidableEq α] in
theorem Inv.lt_of_overLimit {f : NumericFilter α} (h : f.Inv) {v : α}
    (hover : (f.addNew v).overLimit = true) : f.entryLimit < f.values.length + 1 := by
  have hgt : (f.totalEntries + 1) % 2 ^ 32 > f.entryLimit := of_decide_eq_true hover
  rw [h.totalEntries_eq] at hgt
  omega

theorem Inv.insert_reset {f : NumericFilter α} (h : f.Inv) (hf : f.alwaysTrue = false)
    {val : Option α} (hreset : (f.insert val).alwaysTrue = true) :
    ∃ v, val = some v ∧ v ∉ f.values ∧ f.entryLimit < f.values.length + 1 := by
  rcases insert_cases hf val with ⟨-, heq⟩ | ⟨v, -, -, heq⟩ | ⟨v, -, -, -, heq⟩ |
    ⟨v, rfl, hv, hover, -⟩
  · rw [heq] at hreset
    simp [hf] at hreset
  · rw [heq, hf] at hreset
    exact absurd hreset Bool.false_ne_true
  · rw [heq, addNew_alwaysTrue, hf] at hreset
    exact absurd hreset Bool.false_ne_true
  · exact ⟨v, rfl, hv, h.lt_of_overLimit hover⟩

theorem insert_entryLimit (f : NumericFilter α) (val : Option α) :
    (f.insert val).entryLimit = f.entryLimit := by
  unfold insert
  split
  · rfl
  · split
    · rfl
    · split
      · rfl
      · split <;> rfl

theorem step_entryLimit (f : NumericFilter α) (c : Call α) : (f.step c).entryLimit = f.entryLimit := by
  cases c with
  | insert val => exact insert_entryLimit f val
  | materializeValues _ => rfl

theorem run_entryLimit (f : NumericFilter α) (calls : List (Call α)) :
    (f.run calls).entryLimit = f.entryLimit :=
  Run.foldl_keeps step (fun g => g.entryLimit = f.entryLimit) (fun _ => True)
    (fun g c _ hg => (step_entryLimit g c).trans hg) calls (fun _ _ => trivial) f rfl

/-! #### Runs -/

theorem run_cons (f : NumericFilter α) (c : Call α) (calls : List (Call α)) :
    f.run (c :: calls) = (f.step c).run calls := rfl

theorem run_not_alwaysTrue {calls : List (Call α)} :
    ∀ {f : NumericFilter α}, (f.run calls).alwaysTrue = false →
      f.alwaysTrue = false ∧
        (∀ x, x ∈ (f.run calls).values ↔ x ∈ f.values ∨ Call.insert (some x) ∈ calls) ∧
        ((f.run calls).containsNull = true ↔ f.containsNull = true ∨ Call.insert none ∈ calls) := by
  induction calls with
  | nil => intro f h; simpa [run] using h
  | cons c calls ih =>
    intro f h
    rw [run_cons] at h ⊢
    obtain ⟨hs, hvals, hnull⟩ := ih h
    cases c with
    | insert val =>
      obtain ⟨hf, hv1, hn1⟩ := insert_not_alwaysTrue hs
      refine ⟨hf, fun x => ?_, ?_⟩
      · rw [hvals x]
        simp only [step, hv1 x, List.mem_cons, Call.insert.injEq]
        tauto
      · rw [hnull]
        simp only [step, hn1, List.mem_cons, Call.insert.injEq]
        tauto
    | materializeValues allocOk =>
      refine ⟨hs, fun x => ?_, ?_⟩
      · rw [hvals x]
        simp [step]
      · rw [hnull]
        simp [step]

theorem run_alwaysTrue {calls : List (Call α)} :
    ∀ {f : NumericFilter α}, f.Inv → f.alwaysTrue = false → (f.run calls).alwaysTrue = true →
      ∃ l : List α, l.Nodup ∧ f.entryLimit < l.length ∧
        ∀ x ∈ l, x ∈ f.values ∨ Call.insert (some x) ∈ calls := by
  induction calls with
  | nil => intro f _ hf h; simp [run, hf] at h
  | cons c calls ih =>
    intro f hi hf h
    rw [run_cons] at h
    cases c with
    | materializeValues allocOk =>
      obtain ⟨l, hl, hlen, hmem⟩ := ih hi hf h
      exact ⟨l, hl, hlen, fun x hx => (hmem x hx).imp_right (List.mem_cons_of_mem _)⟩
    | insert val =>
      cases hstep : (f.insert val).alwaysTrue
      · obtain ⟨l, hl, hlen, hmem⟩ := ih (hi.insert val) hstep h
        obtain ⟨-, hv1, -⟩ := insert_not_alwaysTrue hstep
        refine ⟨l, hl, by rwa [← insert_entryLimit f val], fun x hx => ?_⟩
        rcases hmem x hx with hx | hx
        · rcases (hv1 x).1 hx with hx | rfl
          · exact Or.inl hx
          · exact Or.inr List.mem_cons_self
        · exact Or.inr (List.mem_cons_of_mem _ hx)
      · obtain ⟨v, rfl, hv, hlt⟩ := hi.insert_reset hf hstep
        refine ⟨v :: f.values, List.nodup_cons.2 ⟨hv, hi.nodup⟩, hlt, fun x hx => ?_⟩
        rcases List.mem_cons.1 hx with rfl | hx
        · exact Or.inr List.mem_cons_self
        · exact Or.inl hx

/-! #### Batches from a protobuf -/

theorem Inv.insertBatch {batch : List α} :
    ∀ {f : NumericFilter α}, f.Inv → (f.insertBatch batch).Inv := by
  induction batch with
  | nil => intro f h; exact h
  | cons v batch ih =>
    intro f h
    by_cases hv : v ∈ f.values
    · rw [NumericFilter.insertBatch, if_pos hv]
      exact ih h
    · cases hover : (f.addNew v).overLimit
      · rw [NumericFilter.insertBatch, if_neg hv, hover]
        exact ih (h.addNew hv hover)
      · rw [NumericFilter.insertBatch, if_neg hv, hover, if_pos rfl]
        exact Inv.reset

theorem insertBatch_not_alwaysTrue {batch : List α} :
    ∀ {f : NumericFilter α}, (f.insertBatch batch).alwaysTrue = false →
      f.alwaysTrue = false ∧ (∀ x, x ∈ (f.insertBatch batch).values ↔ x ∈ f.values ∨ x ∈ batch) ∧
        (f.insertBatch batch).containsNull = f.containsNull := by
  induction batch with
  | nil => intro f h; exact ⟨h, by simp [insertBatch], rfl⟩
  | cons v batch ih =>
    intro f h
    by_cases hv : v ∈ f.values
    · rw [insertBatch, if_pos hv] at h ⊢
      obtain ⟨hf, hx, hn⟩ := ih h
      refine ⟨hf, fun x => ?_, hn⟩
      rw [hx, List.mem_cons]
      constructor
      · rintro (hx | hx)
        · exact Or.inl hx
        · exact Or.inr (Or.inr hx)
      · rintro (hx | rfl | hx)
        · exact Or.inl hx
        · exact Or.inl hv
        · exact Or.inr hx
    · cases hover : (f.addNew v).overLimit
      · rw [insertBatch, if_neg hv, hover, if_neg Bool.false_ne_true] at h ⊢
        obtain ⟨hf, hx, hn⟩ := ih h
        refine ⟨hf, fun x => ?_, hn⟩
        rw [hx, addNew_values, List.mem_cons, List.mem_cons]
        tauto
      · rw [insertBatch, if_neg hv, hover, if_pos rfl, reset_alwaysTrue] at h
        exact absurd h (by decide)

theorem insertBatch_alwaysTrue {batch : List α} :
    ∀ {f : NumericFilter α}, f.Inv → (f.insertBatch batch).alwaysTrue = true →
      f.alwaysTrue = true ∨ ∃ l : List α, l.Nodup ∧ f.entryLimit < l.length ∧
        ∀ x ∈ l, x ∈ f.values ∨ x ∈ batch := by
  induction batch with
  | nil => intro f _ h; exact Or.inl h
  | cons v batch ih =>
    intro f hi h
    by_cases hv : v ∈ f.values
    · rw [insertBatch, if_pos hv] at h
      refine (ih hi h).imp_right fun ⟨l, hl, hlen, hmem⟩ => ⟨l, hl, hlen, fun x hx => ?_⟩
      exact (hmem x hx).imp_right (List.mem_cons_of_mem _)
    · cases hover : (f.addNew v).overLimit
      · rw [insertBatch, if_neg hv, hover] at h
        refine (ih (hi.addNew hv hover) h).imp id fun ⟨l, hl, hlen, hmem⟩ =>
          ⟨l, hl, hlen, fun x hx => ?_⟩
        rcases hmem x hx with hx | hx
        · rcases List.mem_cons.1 hx with rfl | hx
          · exact Or.inr List.mem_cons_self
          · exact Or.inl hx
        · exact Or.inr (List.mem_cons_of_mem _ hx)
      · refine Or.inr ⟨v :: f.values, List.nodup_cons.2 ⟨hv, hi.nodup⟩,
          hi.lt_of_overLimit hover, fun x hx => ?_⟩
        rcases List.mem_cons.1 hx with rfl | hx
        · exact Or.inr List.mem_cons_self
        · exact Or.inl hx

theorem ofProtobuf_toProtobuf (f : NumericFilter α) (entryLimit : Nat) :
    (ofProtobuf f.toProtobuf entryLimit).Inv ∧
      (f.alwaysTrue = true → (ofProtobuf f.toProtobuf entryLimit).alwaysTrue = true) ∧
      ((ofProtobuf f.toProtobuf entryLimit).alwaysTrue = false →
        (∀ x, x ∈ (ofProtobuf f.toProtobuf entryLimit).values ↔ x ∈ f.values) ∧
          (ofProtobuf f.toProtobuf entryLimit).containsNull = f.containsNull) ∧
      ((ofProtobuf f.toProtobuf entryLimit).alwaysTrue = true →
        f.alwaysTrue = true ∨ entryLimit < f.values.length) := by
  cases hf : f.alwaysTrue
  · have hpb : f.toProtobuf = { alwaysTrue := false, containsNull := f.containsNull, value := f.values } := by
      simp [toProtobuf, hf]
    have hstart : (({ create entryLimit f.containsNull with alwaysTrue := false } :
        NumericFilter α)).Inv := inv_create entryLimit f.containsNull
    rw [ofProtobuf, hpb]
    refine ⟨hstart.insertBatch, fun h => absurd h Bool.false_ne_true, fun h => ?_, fun h => ?_⟩
    · obtain ⟨-, hx, hn⟩ := insertBatch_not_alwaysTrue h
      exact ⟨fun x => by simpa [create] using hx x, hn⟩
    · rcases insertBatch_alwaysTrue hstart h with h | ⟨l, hl, hlen, hmem⟩
      · exact Or.inl h
      · have hsub : l ⊆ f.values := fun x hx => by simpa [create] using hmem x hx
        exact Or.inr (Nat.lt_of_lt_of_le hlen (hl.length_le_of_subset hsub))
  · have hpb : f.toProtobuf = { alwaysTrue := true } := by simp [toProtobuf, hf]
    rw [ofProtobuf, hpb]
    exact ⟨⟨List.nodup_nil, rfl, fun _ => Nat.zero_le _⟩, fun _ => rfl,
      fun h => absurd h (by simp [insertBatch]), fun _ => Or.inl rfl⟩

/-! #### What the filter guarantees -/

theorem sound (entryLimit : Nat) (calls : List (Call α)) :
    ((create entryLimit false).run calls).Inv ∧
      (((create entryLimit false).run calls).alwaysTrue = false →
        (∀ v, Call.insert (some v) ∈ calls → ((create entryLimit false).run calls).find (some v) = true) ∧
        (((create entryLimit false).run calls).find none = true ↔ Call.insert none ∈ calls)) ∧
      (((create entryLimit false).run calls).alwaysTrue = true →
        ∃ l : List α, l.Nodup ∧ entryLimit < l.length ∧ ∀ x ∈ l, Call.insert (some x) ∈ calls) ∧
      (entryLimit < 2 ^ 32 - 1 →
        ((create entryLimit false).run calls).totalEntries = ((create entryLimit false).run calls).values.length) ∧
      ∀ entryLimit' : Nat,
        (ofProtobuf ((create entryLimit false).run calls).toProtobuf entryLimit').alwaysTrue = true ∨
          ((∀ v, Call.insert (some v) ∈ calls →
              (ofProtobuf ((create entryLimit false).run calls).toProtobuf entryLimit').find (some v) = true) ∧
            ((ofProtobuf ((create entryLimit false).run calls).toProtobuf entryLimit').find none = true ↔
              Call.insert none ∈ calls)) := by
  have h0 : (create entryLimit false : NumericFilter α).Inv := inv_create entryLimit false
  have hinv := h0.run calls
  have hfind : ∀ g : NumericFilter α, g.alwaysTrue = false →
      (∀ x, x ∈ g.values ↔ x ∈ ((create entryLimit false).run calls).values) →
      g.containsNull = ((create entryLimit false).run calls).containsNull →
      ((create entryLimit false).run calls).alwaysTrue = false →
      (∀ v, Call.insert (some v) ∈ calls → g.find (some v) = true) ∧
        (g.find none = true ↔ Call.insert none ∈ calls) := by
    intro g hg hvals hnull h
    obtain ⟨-, hx, hn⟩ := run_not_alwaysTrue h
    refine ⟨fun v hv => ?_, ?_⟩
    · simp only [find, hg, Bool.false_eq_true, if_false, decide_eq_true_eq]
      exact (hvals v).2 ((hx v).2 (Or.inr hv))
    · simp only [find, hg, Bool.false_eq_true, if_false, hnull]
      simpa [create] using hn
  refine ⟨hinv, fun h => hfind _ h (fun _ => Iff.rfl) rfl h, fun h => ?_,
    fun hlim => hinv.totalEntries_eq_length (by rw [run_entryLimit]; exact hlim), fun entryLimit' => ?_⟩
  · obtain ⟨l, hl, hlen, hmem⟩ := run_alwaysTrue h0 rfl h
    exact ⟨l, hl, hlen, fun x hx => (hmem x hx).resolve_left List.not_mem_nil⟩
  · obtain ⟨-, htrue, hsame, -⟩ := ofProtobuf_toProtobuf ((create entryLimit false).run calls) entryLimit'
    cases hg : (ofProtobuf ((create entryLimit false).run calls).toProtobuf entryLimit').alwaysTrue
    · cases hf : ((create entryLimit false).run calls).alwaysTrue
      · obtain ⟨hvals, hnull⟩ := hsame hg
        exact Or.inr (hfind _ hg hvals hnull hf)
      · rw [htrue hf] at hg
        exact absurd hg (by decide)
    · exact Or.inl rfl

omit [DecidableEq α] in
theorem overLimit_uint32Max {f : NumericFilter α} (hlim : f.entryLimit = 2 ^ 32 - 1) (v : α) :
    (f.addNew v).overLimit = false := by
  have hlt : (f.totalEntries + 1) % 2 ^ 32 < 2 ^ 32 := Nat.mod_lt _ (Nat.two_pow_pos 32)
  have hnot : ¬ (f.totalEntries + 1) % 2 ^ 32 > 2 ^ 32 - 1 := by omega
  simp only [overLimit, addNew_entryLimit, hlim]
  exact decide_eq_false hnot

theorem step_uint32Max {g : NumericFilter α} (hg : g.alwaysTrue = false)
    (hgl : g.entryLimit = 2 ^ 32 - 1) (c : Call α) :
    (g.step c).alwaysTrue = false ∧ (g.step c).entryLimit = 2 ^ 32 - 1 := by
  refine ⟨?_, (step_entryLimit g c).trans hgl⟩
  cases c with
  | materializeValues _ => exact hg
  | insert val =>
    rcases insert_cases hg val with ⟨-, heq⟩ | ⟨v, -, -, heq⟩ | ⟨v, -, -, -, heq⟩ |
      ⟨v, -, -, hover, -⟩
    · simp only [step, heq]
      exact hg
    · simp only [step, heq]
      exact hg
    · simp only [step, heq, addNew_alwaysTrue]
      exact hg
    · rw [overLimit_uint32Max hgl v] at hover
      exact absurd hover Bool.false_ne_true

theorem run_uint32Max {calls : List (Call α)} {f : NumericFilter α} (hf : f.alwaysTrue = false)
    (hlim : f.entryLimit = 2 ^ 32 - 1) : (f.run calls).alwaysTrue = false :=
  (Run.foldl_keeps step (fun g => g.alwaysTrue = false ∧ g.entryLimit = 2 ^ 32 - 1)
    (fun _ => True) (fun _ c _ hg => step_uint32Max hg.1 hg.2 c) calls (fun _ _ => trivial) f
    ⟨hf, hlim⟩).1

/-- With the entry limit `UINT32_MAX`, inserting distinct values never resets the filter, and
`total_entries_` is their number modulo `2^32`: after `2^32` of them it reads `0`, and
`AlwaysFalse()` holds of a filter that finds every value inserted. -/
theorem inListFilter_totalEntries_wraps (vs : List α) (hvs : vs.Nodup) :
    ((create (2 ^ 32 - 1) false).run (vs.map fun v => .insert (some v))).alwaysTrue = false ∧
      ((create (2 ^ 32 - 1) false).run (vs.map fun v => .insert (some v))).totalEntries =
        vs.length % 2 ^ 32 ∧
      (∀ v ∈ vs, ((create (2 ^ 32 - 1) false).run (vs.map fun v => .insert (some v))).find (some v) = true) ∧
      (vs.length = 2 ^ 32 →
        ((create (2 ^ 32 - 1) false).run (vs.map fun v => .insert (some v))).alwaysFalse = true) := by
  have halive : ((create (2 ^ 32 - 1) false : NumericFilter α).run
      (vs.map fun v => .insert (some v))).alwaysTrue = false := run_uint32Max rfl rfl
  have hinv := (inv_create (2 ^ 32 - 1) false : (create (2 ^ 32 - 1) false : NumericFilter α).Inv).run
    (vs.map fun v => .insert (some v))
  obtain ⟨-, hx, hn⟩ := run_not_alwaysTrue halive
  have hmem : ∀ x, x ∈ ((create (2 ^ 32 - 1) false : NumericFilter α).run
      (vs.map fun v => .insert (some v))).values ↔ x ∈ vs := by
    intro x
    rw [hx x]
    simp [create]
  have hlen : ((create (2 ^ 32 - 1) false : NumericFilter α).run
      (vs.map fun v => .insert (some v))).values.length = vs.length :=
    ((List.perm_ext_iff_of_nodup hinv.nodup hvs).2 hmem).length_eq
  have hnull : ((create (2 ^ 32 - 1) false : NumericFilter α).run
      (vs.map fun v => .insert (some v))).containsNull = false := by
    cases h : ((create (2 ^ 32 - 1) false : NumericFilter α).run
        (vs.map fun v => .insert (some v))).containsNull
    · rfl
    · have := hn.1 h
      simp [create] at this
  refine ⟨halive, by rw [hinv.totalEntries_eq, hlen], fun v hv => ?_, fun h => ?_⟩
  · simp only [find, halive, Bool.false_eq_true, if_false, decide_eq_true_eq]
    exact (hmem v).2 hv
  · simp only [alwaysFalse, halive, hnull, hinv.totalEntries_eq, hlen, h]
    rfl

theorem inListFilter_totalEntries_wraps_all_int32 :
    ((List.range (2 ^ 32)).map fun n : Nat => (n : Int) - 2 ^ 31).Nodup ∧
      ((create (2 ^ 32 - 1) false).run (((List.range (2 ^ 32)).map fun n : Nat => (n : Int) - 2 ^ 31).map
        fun v => .insert (some v))).alwaysTrue = false ∧
      ((create (2 ^ 32 - 1) false).run (((List.range (2 ^ 32)).map fun n : Nat => (n : Int) - 2 ^ 31).map
        fun v => .insert (some v))).totalEntries =
        ((List.range (2 ^ 32)).map fun n : Nat => (n : Int) - 2 ^ 31).length % 2 ^ 32 ∧
      (∀ v ∈ (List.range (2 ^ 32)).map fun n : Nat => (n : Int) - 2 ^ 31,
        ((create (2 ^ 32 - 1) false).run (((List.range (2 ^ 32)).map fun n : Nat => (n : Int) - 2 ^ 31).map
          fun v => .insert (some v))).find (some v) = true) ∧
      (((List.range (2 ^ 32)).map fun n : Nat => (n : Int) - 2 ^ 31).length = 2 ^ 32 →
        ((create (2 ^ 32 - 1) false).run (((List.range (2 ^ 32)).map fun n : Nat => (n : Int) - 2 ^ 31).map
          fun v => .insert (some v))).alwaysFalse = true) := by
  have hnodup : ((List.range (2 ^ 32)).map fun n : Nat => (n : Int) - 2 ^ 31).Nodup :=
    List.nodup_range.map fun a b h => by omega
  exact ⟨hnodup, inListFilter_totalEntries_wraps _ hnodup⟩

end NumericFilter

/-! ### String filters -/

def stringSetMaxTotalLength : Nat := 4 * 1024 * 1024

/-- A `StringValue` as a set holds it: its bytes, and whether it has the small-string layout
(`IsSmall()`), whose bytes live in the value itself. The sets compare and hash the bytes. -/
structure StrValue where
  bytes : Bytes
  isSmall : Bool
  deriving DecidableEq, Repr

/-- `StringSetWithTotalLen`: the set, and `total_len` as a `uint32_t`. -/
structure StringSet where
  values : List StrValue
  totalLen : Nat
  deriving Repr

namespace StringSet

def empty : StringSet := ⟨[], 0⟩

def find (s : StringSet) (v : Bytes) : Bool := s.values.any (·.bytes == v)

def insert (s : StringSet) (v : StrValue) : StringSet × Bool :=
  if s.find v.bytes then (s, false)
  else (⟨v :: s.values, (s.totalLen + if v.isSmall then 0 else v.bytes.length) % 2 ^ 32⟩, true)

/-- `insert(const string&)`: `StringValue(s)` points into the string, so it is never small and its
whole length counts. -/
def insertString (s : StringSet) (v : Bytes) : StringSet × Bool := s.insert ⟨v, false⟩

def insertRange (s : StringSet) (vs : List StrValue) : StringSet :=
  vs.foldl (fun s v => if s.find v.bytes then s else { s with values := v :: s.values }) s

end StringSet

/-- `InListFilterImpl<StringValue, SLOT_TYPE>` (STRING, VARCHAR, CHAR). -/
structure StringFilter where
  entryLimit : Nat
  totalEntries : Nat
  alwaysTrue : Bool
  containsNull : Bool
  values : StringSet
  newlyInsertedValues : StringSet
  deriving Repr

namespace StringFilter

def create (entryLimit : Nat) (containsNull : Bool) : StringFilter :=
  ⟨entryLimit, 0, false, containsNull, .empty, .empty⟩

def reset (f : StringFilter) : StringFilter :=
  { f with
    alwaysTrue := true, containsNull := false, values := StringSet.empty,
    newlyInsertedValues := StringSet.empty, totalEntries := 0 }

def addNew (f : StringFilter) (newly : StringSet) : StringFilter :=
  { f with newlyInsertedValues := newly, totalEntries := (f.totalEntries + 1) % 2 ^ 32 }

def overLimit (f : StringFilter) : Bool := f.totalEntries > f.entryLimit

/-- `values_.total_len + newly_inserted_values_.total_len >= STRING_SET_MAX_TOTAL_LENGTH`, the sum
in `uint32_t`. -/
def overLength (f : StringFilter) : Bool :=
  (f.values.totalLen + f.newlyInsertedValues.totalLen) % 2 ^ 32 ≥ stringSetMaxTotalLength

/-- `Insert(val)`: a string not yet materialized is staged in `newly_inserted_values_`. -/
def insert (f : StringFilter) (val : Option StrValue) : StringFilter :=
  if f.alwaysTrue then f
  else match val with
    | none => { f with containsNull := true }
    | some s =>
      if f.values.find s.bytes then f
      else
        let res := f.newlyInsertedValues.insert s
        if res.2 then
          if (f.addNew res.1).overLimit || (f.addNew res.1).overLength then (f.addNew res.1).reset
          else f.addNew res.1
        else { f with newlyInsertedValues := res.1 }

/-- `MaterializeValues()`. A batch whose `total_len` is `0` is put into `values_` as it is and
`newly_inserted_values_` is not cleared; otherwise the strings that are not small are copied
into one pool allocation, and a failed allocation resets the filter. -/
def materializeValues (f : StringFilter) (allocOk : Bool) : StringFilter :=
  if f.newlyInsertedValues.totalLen = 0 then
    if f.newlyInsertedValues.values.isEmpty then f
    else { f with values := f.values.insertRange f.newlyInsertedValues.values }
  else if !allocOk then f.reset
  else
    { f with
      values := f.newlyInsertedValues.values.foldl
        (fun vs s => (vs.insert (if s.isSmall then s else ⟨s.bytes, false⟩)).1) f.values
      newlyInsertedValues := StringSet.empty }

/-- `Find(val)`: only the materialized set is consulted. -/
def find (f : StringFilter) (val : Option StrValue) : Bool :=
  if f.alwaysTrue then true
  else match val with
    | none => f.containsNull
    | some s => f.values.find s.bytes

/-- `InsertBatch(batch)`: the strings go to `newly_inserted_values_` with the entry limit only. -/
def insertBatch (f : StringFilter) : List Bytes → StringFilter
  | [] => f
  | v :: batch =>
    let res := f.newlyInsertedValues.insertString v
    if res.2 then
      if (f.addNew res.1).overLimit then (f.addNew res.1).reset
      else (f.addNew res.1).insertBatch batch
    else { f with newlyInsertedValues := res.1 }.insertBatch batch

def toProtobuf (f : StringFilter) : InListFilterPB Bytes :=
  if f.alwaysTrue then { alwaysTrue := true }
  else { alwaysTrue := false, containsNull := f.containsNull, value := f.values.values.map (·.bytes) }

def ofProtobuf (pb : InListFilterPB Bytes) (entryLimit : Nat) (allocOk : Bool) : StringFilter :=
  ({ create entryLimit pb.containsNull with alwaysTrue := pb.alwaysTrue }.insertBatch
    pb.value).materializeValues allocOk

def step (f : StringFilter) : Call StrValue → StringFilter
  | .insert val => f.insert val
  | .materializeValues allocOk => f.materializeValues allocOk

def run (f : StringFilter) (calls : List (Call StrValue)) : StringFilter := calls.foldl step f

end StringFilter

/-! #### The string sets -/

namespace StringSet

def keys (s : StringSet) : List Bytes := s.values.map (·.bytes)

def lenSum (bs : List Bytes) : Nat := (bs.map List.length).sum

@[simp] theorem keys_empty : empty.keys = [] := rfl

theorem lenSum_cons (b : Bytes) (bs : List Bytes) : lenSum (b :: bs) = b.length + lenSum bs := by
  simp [lenSum]

theorem lenSum_append (as bs : List Bytes) : lenSum (as ++ bs) = lenSum as + lenSum bs := by
  simp [lenSum]

theorem lenSum_filter_le (p : Bytes → Bool) (bs : List Bytes) : lenSum (bs.filter p) ≤ lenSum bs := by
  induction bs with
  | nil => exact Nat.le_refl _
  | cons b bs ih =>
    rw [List.filter_cons]
    split
    · rw [lenSum_cons, lenSum_cons]
      omega
    · rw [lenSum_cons]
      omega

theorem lenSum_perm {as bs : List Bytes} (h : as.Perm bs) : lenSum as = lenSum bs :=
  (h.map List.length).sum_nat

theorem find_iff (s : StringSet) (v : Bytes) : s.find v = true ↔ v ∈ s.keys := by
  simp [find, keys]

theorem insert_of_mem {s : StringSet} {v : StrValue} (h : v.bytes ∈ s.keys) : s.insert v = (s, false) := by
  rw [insert, if_pos ((find_iff _ _).2 h)]

theorem insert_of_not_mem {s : StringSet} {v : StrValue} (h : v.bytes ∉ s.keys) :
    s.insert v =
      (⟨v :: s.values, (s.totalLen + if v.isSmall then 0 else v.bytes.length) % 2 ^ 32⟩, true) := by
  rw [insert, if_neg (fun h' => h ((find_iff _ _).1 h'))]

theorem keys_insert (s : StringSet) (v : StrValue) :
    (s.insert v).1.keys = if v.bytes ∈ s.keys then s.keys else v.bytes :: s.keys := by
  by_cases h : v.bytes ∈ s.keys
  · rw [insert_of_mem h, if_pos h]
  · rw [insert_of_not_mem h, if_neg h]
    rfl

theorem totalLen_insert_le (s : StringSet) (v : StrValue) :
    (s.insert v).1.totalLen ≤ s.totalLen + v.bytes.length := by
  by_cases h : v.bytes ∈ s.keys
  · rw [insert_of_mem h]
    exact Nat.le_add_right _ _
  · rw [insert_of_not_mem h]
    have hc : (if v.isSmall then 0 else v.bytes.length) ≤ v.bytes.length := by
      split <;> omega
    exact Nat.le_trans (Nat.mod_le _ _) (Nat.add_le_add_left hc _)

theorem foldl_keys_perm (g : StringSet → StrValue → StringSet)
    (hg : ∀ t v, (g t v).keys = if v.bytes ∈ t.keys then t.keys else v.bytes :: t.keys)
    (vs : List StrValue) (hvs : (vs.map (·.bytes)).Nodup) :
    ∀ s : StringSet, (vs.foldl g s).keys.Perm
      ((vs.map (·.bytes)).filter (· ∉ s.keys) ++ s.keys) := by
  induction vs with
  | nil => intro s; exact List.Perm.refl _
  | cons v vs ih =>
    intro s
    rw [List.map_cons, List.nodup_cons] at hvs
    rw [List.foldl_cons, List.map_cons, List.filter_cons]
    by_cases hv : v.bytes ∈ s.keys
    · have h := ih hvs.2 (g s v)
      rw [hg, if_pos hv] at h
      rw [if_neg (by simp [hv])]
      exact h
    · have h := ih hvs.2 (g s v)
      rw [hg, if_neg hv] at h
      have hrest : (vs.map (·.bytes)).filter (· ∉ v.bytes :: s.keys) =
          (vs.map (·.bytes)).filter (· ∉ s.keys) := by
        refine List.filter_congr fun b hb => ?_
        have hne : b ≠ v.bytes := fun hb' => hvs.1 (hb' ▸ hb)
        simp [hne]
      rw [hrest] at h
      rw [if_pos (by simp [hv])]
      exact h.trans List.perm_middle

theorem insertRange_keys_perm (s : StringSet) (vs : List StrValue) (hvs : (vs.map (·.bytes)).Nodup) :
    (s.insertRange vs).keys.Perm ((vs.map (·.bytes)).filter (· ∉ s.keys) ++ s.keys) := by
  refine foldl_keys_perm _ (fun t v => ?_) vs hvs s
  by_cases h : v.bytes ∈ t.keys
  · rw [if_pos ((find_iff _ _).2 h), if_pos h]
  · rw [if_neg (fun h' => h ((find_iff _ _).1 h')), if_neg h]
    rfl

theorem totalLen_insertRange (s : StringSet) (vs : List StrValue) :
    (s.insertRange vs).totalLen = s.totalLen := by
  induction vs generalizing s with
  | nil => rfl
  | cons v vs ih =>
    rw [insertRange, List.foldl_cons, ← insertRange, ih]
    split <;> rfl

/-- The wrapper's `insert` of each string in turn. -/
def insertAll (s : StringSet) (vs : List StrValue) : StringSet := vs.foldl (fun t v => (t.insert v).1) s

theorem insertAll_keys_perm (s : StringSet) (vs : List StrValue) (hvs : (vs.map (·.bytes)).Nodup) :
    (s.insertAll vs).keys.Perm ((vs.map (·.bytes)).filter (· ∉ s.keys) ++ s.keys) :=
  foldl_keys_perm _ keys_insert vs hvs s

theorem totalLen_insertAll_le (vs : List StrValue) (hvs : (vs.map (·.bytes)).Nodup) :
    ∀ s : StringSet,
      (s.insertAll vs).totalLen ≤ s.totalLen + lenSum ((vs.map (·.bytes)).filter (· ∉ s.keys)) := by
  induction vs with
  | nil => intro s; simp [insertAll, lenSum]
  | cons v vs ih =>
    intro s
    rw [List.map_cons, List.nodup_cons] at hvs
    have h := ih hvs.2 (s.insert v).1
    rw [insertAll, List.foldl_cons, ← insertAll, List.map_cons, List.filter_cons]
    by_cases hv : v.bytes ∈ s.keys
    · rw [insert_of_mem hv] at h ⊢
      rw [if_neg (by simp [hv])]
      exact h
    · have hrest : (vs.map (·.bytes)).filter (· ∉ (s.insert v).1.keys) =
          (vs.map (·.bytes)).filter (· ∉ s.keys) := by
        refine List.filter_congr fun b hb => ?_
        have hne : b ≠ v.bytes := fun hb' => hvs.1 (hb' ▸ hb)
        rw [keys_insert, if_neg hv]
        simp [hne]
      rw [hrest] at h
      rw [if_pos (by simp [hv]), lenSum_cons]
      have := totalLen_insert_le s v
      omega

end StringSet

/-! #### What one call does to a string filter -/

namespace StringFilter

open StringSet

/-- The bytes of the distinct strings the filter holds: the materialized ones not also staged,
then the staged ones. -/
def heldKeys (f : StringFilter) : List Bytes :=
  f.values.keys.filter (· ∉ f.newlyInsertedValues.keys) ++ f.newlyInsertedValues.keys

theorem mem_heldKeys (f : StringFilter) (b : Bytes) :
    b ∈ f.heldKeys ↔ b ∈ f.values.keys ∨ b ∈ f.newlyInsertedValues.keys := by
  simp only [heldKeys, List.mem_append, List.mem_filter, decide_eq_true_eq]
  tauto

section Fields

variable (f : StringFilter) (newly : StringSet)

@[simp] theorem addNew_alwaysTrue : (f.addNew newly).alwaysTrue = f.alwaysTrue := rfl

@[simp] theorem addNew_containsNull : (f.addNew newly).containsNull = f.containsNull := rfl

@[simp] theorem addNew_entryLimit : (f.addNew newly).entryLimit = f.entryLimit := rfl

@[simp] theorem addNew_values : (f.addNew newly).values = f.values := rfl

@[simp] theorem addNew_newlyInsertedValues : (f.addNew newly).newlyInsertedValues = newly := rfl

@[simp] theorem reset_alwaysTrue : f.reset.alwaysTrue = true := rfl

end Fields

theorem insert_of_alwaysTrue {f : StringFilter} (h : f.alwaysTrue = true) (val : Option StrValue) :
    f.insert val = f := by
  simp [insert, h]

theorem insert_cases {f : StringFilter} (hf : f.alwaysTrue = false) (val : Option StrValue) :
    (val = none ∧ f.insert val = { f with containsNull := true }) ∨
      (∃ s, val = some s ∧ s.bytes ∈ f.heldKeys ∧ f.insert val = f) ∨
      (∃ s, val = some s ∧ s.bytes ∉ f.heldKeys ∧
        (f.addNew (f.newlyInsertedValues.insert s).1).overLimit = false ∧
        (f.addNew (f.newlyInsertedValues.insert s).1).overLength = false ∧
        f.insert val = f.addNew (f.newlyInsertedValues.insert s).1) ∨
      (∃ s, val = some s ∧ s.bytes ∉ f.heldKeys ∧
        ((f.addNew (f.newlyInsertedValues.insert s).1).overLimit = true ∨
          (f.addNew (f.newlyInsertedValues.insert s).1).overLength = true) ∧
        f.insert val = (f.addNew (f.newlyInsertedValues.insert s).1).reset) := by
  cases val with
  | none => exact Or.inl ⟨rfl, by simp [insert, hf]⟩
  | some s =>
    by_cases h1 : s.bytes ∈ f.values.keys
    · refine Or.inr (Or.inl ⟨s, rfl, (mem_heldKeys f _).2 (Or.inl h1), ?_⟩)
      simp [insert, hf, (find_iff _ _).2 h1]
    have hfind : f.values.find s.bytes = false := by
      cases h : f.values.find s.bytes
      · rfl
      · exact absurd ((find_iff _ _).1 h) h1
    by_cases h2 : s.bytes ∈ f.newlyInsertedValues.keys
    · refine Or.inr (Or.inl ⟨s, rfl, (mem_heldKeys f _).2 (Or.inr h2), ?_⟩)
      rw [insert, if_neg (by simp [hf])]
      simp only [hfind, insert_of_mem h2, Bool.false_eq_true, if_false]
    have hnot : s.bytes ∉ f.heldKeys := fun h => ((mem_heldKeys f _).1 h).elim h1 h2
    have hnew : (f.newlyInsertedValues.insert s).2 = true := by rw [insert_of_not_mem h2]
    cases hl : (f.addNew (f.newlyInsertedValues.insert s).1).overLimit <;>
      cases hn : (f.addNew (f.newlyInsertedValues.insert s).1).overLength
    · exact Or.inr (Or.inr (Or.inl ⟨s, rfl, hnot, hl, hn, by simp [insert, hf, hfind, hnew, hl, hn]⟩))
    · exact Or.inr (Or.inr (Or.inr ⟨s, rfl, hnot, Or.inr hn, by simp [insert, hf, hfind, hnew, hl, hn]⟩))
    · exact Or.inr (Or.inr (Or.inr ⟨s, rfl, hnot, Or.inl hl, by simp [insert, hf, hfind, hnew, hl, hn]⟩))
    · exact Or.inr (Or.inr (Or.inr ⟨s, rfl, hnot, Or.inl hl, by simp [insert, hf, hfind, hnew, hl, hn]⟩))

theorem heldKeys_addNew_perm {f : StringFilter} {s : StrValue} (hs : s.bytes ∉ f.heldKeys) :
    (f.addNew (f.newlyInsertedValues.insert s).1).heldKeys.Perm (s.bytes :: f.heldKeys) := by
  have h1 : s.bytes ∉ f.values.keys := fun h => hs ((mem_heldKeys f _).2 (Or.inl h))
  have h2 : s.bytes ∉ f.newlyInsertedValues.keys := fun h => hs ((mem_heldKeys f _).2 (Or.inr h))
  have hkeys : (f.newlyInsertedValues.insert s).1.keys = s.bytes :: f.newlyInsertedValues.keys := by
    rw [keys_insert, if_neg h2]
  have hfilter : f.values.keys.filter (· ∉ s.bytes :: f.newlyInsertedValues.keys) =
      f.values.keys.filter (· ∉ f.newlyInsertedValues.keys) := by
    refine List.filter_congr fun b hb => ?_
    have hne : b ≠ s.bytes := fun h => h1 (h ▸ hb)
    simp [hne]
  simp only [heldKeys, addNew_values, addNew_newlyInsertedValues, hkeys, hfilter]
  exact List.perm_middle

/-! #### The invariant of a string filter -/

/-- Both sets have no duplicates, `total_entries_` counts the distinct strings held as a
`uint32_t` (below `UINT32_MAX` the entry limit bounds them), and each `total_len` is at most the
length of the strings it stands for. -/
structure Inv (f : StringFilter) : Prop where
  values_nodup : f.values.keys.Nodup
  newly_nodup : f.newlyInsertedValues.keys.Nodup
  totalEntries_eq : f.totalEntries = f.heldKeys.length % 2 ^ 32
  length_le : f.entryLimit < 2 ^ 32 - 1 → f.heldKeys.length ≤ f.entryLimit
  values_totalLen_le :
    f.values.totalLen ≤ lenSum (f.values.keys.filter (· ∉ f.newlyInsertedValues.keys))
  newly_totalLen_le : f.newlyInsertedValues.totalLen ≤ lenSum f.newlyInsertedValues.keys

theorem inv_create (entryLimit : Nat) (containsNull : Bool) : (create entryLimit containsNull).Inv :=
  ⟨List.nodup_nil, List.nodup_nil, rfl, fun _ => Nat.zero_le _, Nat.le_refl _, Nat.le_refl _⟩

theorem Inv.reset {f : StringFilter} : f.reset.Inv :=
  ⟨List.nodup_nil, List.nodup_nil, rfl, fun _ => Nat.zero_le _, Nat.le_refl _, Nat.le_refl _⟩

theorem Inv.heldKeys_nodup {f : StringFilter} (h : f.Inv) : f.heldKeys.Nodup := by
  refine (h.values_nodup.filter _).append h.newly_nodup fun b hb hb' => ?_
  simp only [List.mem_filter, decide_eq_true_eq] at hb
  exact hb.2 hb'

theorem Inv.totalLen_le {f : StringFilter} (h : f.Inv) :
    f.values.totalLen + f.newlyInsertedValues.totalLen ≤ lenSum f.heldKeys := by
  rw [heldKeys, lenSum_append]
  exact Nat.add_le_add h.values_totalLen_le h.newly_totalLen_le

theorem Inv.addNew {f : StringFilter} (h : f.Inv) {s : StrValue} (hs : s.bytes ∉ f.heldKeys)
    (hover : (f.addNew (f.newlyInsertedValues.insert s).1).overLimit = false) :
    (f.addNew (f.newlyInsertedValues.insert s).1).Inv := by
  have h1 : s.bytes ∉ f.values.keys := fun h => hs ((mem_heldKeys f _).2 (Or.inl h))
  have h2 : s.bytes ∉ f.newlyInsertedValues.keys := fun h => hs ((mem_heldKeys f _).2 (Or.inr h))
  have hkeys : (f.newlyInsertedValues.insert s).1.keys = s.bytes :: f.newlyInsertedValues.keys := by
    rw [keys_insert, if_neg h2]
  have hlen := (heldKeys_addNew_perm hs).length_eq
  rw [List.length_cons] at hlen
  have htotal : (f.addNew (f.newlyInsertedValues.insert s).1).totalEntries =
      (f.heldKeys.length + 1) % 2 ^ 32 := by
    show (f.totalEntries + 1) % 2 ^ 32 = _
    rw [h.totalEntries_eq, Nat.mod_add_mod]
  have hnot : ¬ (f.heldKeys.length + 1) % 2 ^ 32 > f.entryLimit := by
    rw [← htotal]
    exact of_decide_eq_false hover
  refine ⟨h.values_nodup, ?_, by rw [htotal, hlen], fun hlim => ?_, ?_, ?_⟩
  · rw [addNew_newlyInsertedValues, hkeys]
    exact List.nodup_cons.2 ⟨h2, h.newly_nodup⟩
  · rw [addNew_entryLimit] at hlim ⊢
    have := h.length_le hlim
    rw [Nat.mod_eq_of_lt (by omega)] at hnot
    omega
  · have hfilter : f.values.keys.filter (· ∉ s.bytes :: f.newlyInsertedValues.keys) =
        f.values.keys.filter (· ∉ f.newlyInsertedValues.keys) := by
      refine List.filter_congr fun b hb => ?_
      have hne : b ≠ s.bytes := fun h => h1 (h ▸ hb)
      simp [hne]
    rw [addNew_values, addNew_newlyInsertedValues, hkeys, hfilter]
    exact h.values_totalLen_le
  · rw [addNew_newlyInsertedValues, hkeys, lenSum_cons]
    have := totalLen_insert_le f.newlyInsertedValues s
    have := h.newly_totalLen_le
    omega

theorem Inv.insert {f : StringFilter} (h : f.Inv) (val : Option StrValue) : (f.insert val).Inv := by
  cases hf : f.alwaysTrue
  · rcases insert_cases hf val with ⟨-, heq⟩ | ⟨s, -, -, heq⟩ | ⟨s, -, hs, hover, -, heq⟩ |
      ⟨s, -, -, -, heq⟩ <;> rw [heq]
    · exact ⟨h.values_nodup, h.newly_nodup, h.totalEntries_eq, h.length_le, h.values_totalLen_le,
        h.newly_totalLen_le⟩
    · exact h
    · exact h.addNew hs hover
    · exact Inv.reset
  · rwa [insert_of_alwaysTrue hf]

theorem insert_not_alwaysTrue {f : StringFilter} {val : Option StrValue}
    (h : (f.insert val).alwaysTrue = false) :
    f.alwaysTrue = false ∧
      (∀ b, b ∈ (f.insert val).heldKeys ↔ b ∈ f.heldKeys ∨ ∃ s, val = some s ∧ s.bytes = b) ∧
      ((f.insert val).containsNull = true ↔ f.containsNull = true ∨ val = none) := by
  have hf : f.alwaysTrue = false := by
    cases hf : f.alwaysTrue
    · rfl
    · rw [insert_of_alwaysTrue hf, hf] at h
      exact h
  refine ⟨hf, ?_⟩
  rcases insert_cases hf val with ⟨rfl, heq⟩ | ⟨s, rfl, hs, heq⟩ | ⟨s, rfl, hs, -, -, heq⟩ |
    ⟨s, rfl, -, -, heq⟩ <;> rw [heq] <;> rw [heq] at h
  · refine ⟨fun b => ?_, by simp⟩
    simp [heldKeys]
  · refine ⟨fun b => ?_, by simp⟩
    constructor
    · exact Or.inl
    · rintro (hb | ⟨s', hs', rfl⟩)
      · exact hb
      · cases hs'
        exact hs
  · refine ⟨fun b => ?_, by simp⟩
    rw [(heldKeys_addNew_perm hs).mem_iff, List.mem_cons]
    constructor
    · rintro (rfl | hb)
      · exact Or.inr ⟨s, rfl, rfl⟩
      · exact Or.inl hb
    · rintro (hb | ⟨s', hs', rfl⟩)
      · exact Or.inr hb
      · cases hs'
        exact Or.inl rfl
  · simp at h

theorem Inv.lt_of_overLimit {f : StringFilter} (h : f.Inv) {newly : StringSet}
    (hover : (f.addNew newly).overLimit = true) : f.entryLimit < f.heldKeys.length + 1 := by
  have hgt : (f.totalEntries + 1) % 2 ^ 32 > f.entryLimit := of_decide_eq_true hover
  rw [h.totalEntries_eq] at hgt
  omega

theorem Inv.insert_reset {f : StringFilter} (h : f.Inv) (hf : f.alwaysTrue = false)
    {val : Option StrValue} (hreset : (f.insert val).alwaysTrue = true) :
    ∃ s, val = some s ∧ s.bytes ∉ f.heldKeys ∧
      (f.entryLimit < f.heldKeys.length + 1 ∨
        stringSetMaxTotalLength ≤ lenSum (s.bytes :: f.heldKeys)) := by
  rcases insert_cases hf val with ⟨-, heq⟩ | ⟨s, -, -, heq⟩ | ⟨s, -, -, -, -, heq⟩ |
    ⟨s, rfl, hs, hover, -⟩
  · rw [heq] at hreset
    simp [hf] at hreset
  · rw [heq, hf] at hreset
    exact absurd hreset Bool.false_ne_true
  · rw [heq, addNew_alwaysTrue, hf] at hreset
    exact absurd hreset Bool.false_ne_true
  · refine ⟨s, rfl, hs, ?_⟩
    rcases hover with hover | hover
    · exact Or.inl (h.lt_of_overLimit hover)
    · have hge : (f.values.totalLen + (f.newlyInsertedValues.insert s).1.totalLen) % 2 ^ 32 ≥
          stringSetMaxTotalLength := of_decide_eq_true hover
      have hmod := Nat.mod_le (f.values.totalLen + (f.newlyInsertedValues.insert s).1.totalLen) (2 ^ 32)
      have hins := totalLen_insert_le f.newlyInsertedValues s
      have hsum := h.totalLen_le
      right
      rw [lenSum_cons]
      omega

/-! #### `MaterializeValues` -/

theorem copy_eq (s : StrValue) : (if s.isSmall then s else ⟨s.bytes, false⟩) = s := by
  cases s with
  | mk bytes isSmall => cases isSmall <;> rfl

theorem materializeValues_cases (f : StringFilter) (allocOk : Bool) :
    (f.newlyInsertedValues.values = [] ∧ f.materializeValues allocOk = f) ∨
      (f.newlyInsertedValues.totalLen = 0 ∧ f.materializeValues allocOk =
        { f with values := f.values.insertRange f.newlyInsertedValues.values }) ∨
      (f.newlyInsertedValues.totalLen ≠ 0 ∧ allocOk = false ∧ f.materializeValues allocOk = f.reset) ∨
      (f.newlyInsertedValues.totalLen ≠ 0 ∧ allocOk = true ∧ f.materializeValues allocOk =
        { f with
          values := f.values.insertAll f.newlyInsertedValues.values
          newlyInsertedValues := StringSet.empty }) := by
  by_cases h0 : f.newlyInsertedValues.totalLen = 0
  · by_cases he : f.newlyInsertedValues.values = []
    · exact Or.inl ⟨he, by simp [materializeValues, h0, he]⟩
    · exact Or.inr (Or.inl ⟨h0, by simp [materializeValues, h0, he]⟩)
  · cases allocOk
    · exact Or.inr (Or.inr (Or.inl ⟨h0, rfl, by simp [materializeValues, h0]⟩))
    · refine Or.inr (Or.inr (Or.inr ⟨h0, rfl, ?_⟩))
      simp only [materializeValues, h0, if_false, Bool.not_true, Bool.false_eq_true, copy_eq]
      rfl

theorem heldKeys_insertRange_perm {f : StringFilter} (h : f.Inv) :
    ({ f with values := f.values.insertRange f.newlyInsertedValues.values } : StringFilter).heldKeys.Perm
      f.heldKeys := by
  have hperm := insertRange_keys_perm f.values f.newlyInsertedValues.values h.newly_nodup
  have hnone : (f.newlyInsertedValues.keys.filter (· ∉ f.values.keys)).filter
      (· ∉ f.newlyInsertedValues.keys) = [] := by
    simp only [List.filter_eq_nil_iff, List.mem_filter, decide_eq_true_eq]
    intro b hb
    simp [hb.1]
  have hfilter := hperm.filter (· ∉ f.newlyInsertedValues.keys)
  rw [List.filter_append] at hfilter
  rw [← keys] at hfilter
  rw [hnone, List.nil_append] at hfilter
  exact hfilter.append_right _

theorem heldKeys_insertAll_perm {f : StringFilter} (h : f.Inv) :
    ({ f with
        values := f.values.insertAll f.newlyInsertedValues.values
        newlyInsertedValues := StringSet.empty } : StringFilter).heldKeys.Perm f.heldKeys := by
  have hperm := insertAll_keys_perm f.values f.newlyInsertedValues.values h.newly_nodup
  have hnodup : (f.newlyInsertedValues.keys.filter (· ∉ f.values.keys) ++ f.values.keys).Nodup := by
    refine (h.newly_nodup.filter _).append h.values_nodup fun b hb hb' => ?_
    simp only [List.mem_filter, decide_eq_true_eq] at hb
    exact hb.2 hb'
  have hheld : ({ f with
      values := f.values.insertAll f.newlyInsertedValues.values
      newlyInsertedValues := StringSet.empty } : StringFilter).heldKeys =
      (f.values.insertAll f.newlyInsertedValues.values).keys := by
    simp [heldKeys]
  rw [hheld]
  refine hperm.trans ((List.perm_ext_iff_of_nodup hnodup h.heldKeys_nodup).2 fun b => ?_)
  rw [mem_heldKeys, List.mem_append, List.mem_filter, decide_eq_true_eq]
  tauto

theorem Inv.materializeValues {f : StringFilter} (h : f.Inv) (allocOk : Bool) :
    (f.materializeValues allocOk).Inv := by
  rcases materializeValues_cases f allocOk with ⟨-, heq⟩ | ⟨-, heq⟩ | ⟨-, -, heq⟩ | ⟨-, -, heq⟩ <;>
    rw [heq]
  · exact h
  · have hperm := heldKeys_insertRange_perm h
    have hkeys := insertRange_keys_perm f.values f.newlyInsertedValues.values h.newly_nodup
    have hnodup : (f.newlyInsertedValues.keys.filter (· ∉ f.values.keys) ++ f.values.keys).Nodup := by
      refine (h.newly_nodup.filter _).append h.values_nodup fun b hb hb' => ?_
      simp only [List.mem_filter, decide_eq_true_eq] at hb
      exact hb.2 hb'
    have hunstaged := (hkeys.filter (· ∉ f.newlyInsertedValues.keys))
    refine ⟨hkeys.nodup_iff.2 hnodup, h.newly_nodup, ?_, fun hlim => ?_, ?_, h.newly_totalLen_le⟩
    · rw [hperm.length_eq]
      exact h.totalEntries_eq
    · rw [hperm.length_eq]
      exact h.length_le hlim
    · show (f.values.insertRange f.newlyInsertedValues.values).totalLen ≤ _
      rw [totalLen_insertRange, lenSum_perm hunstaged, List.filter_append, lenSum_append]
      exact Nat.le_trans h.values_totalLen_le (Nat.le_add_left _ _)
  · exact Inv.reset
  · have hperm := heldKeys_insertAll_perm h
    have hkeys := insertAll_keys_perm f.values f.newlyInsertedValues.values h.newly_nodup
    have hnodup : (f.newlyInsertedValues.keys.filter (· ∉ f.values.keys) ++ f.values.keys).Nodup := by
      refine (h.newly_nodup.filter _).append h.values_nodup fun b hb hb' => ?_
      simp only [List.mem_filter, decide_eq_true_eq] at hb
      exact hb.2 hb'
    refine ⟨hkeys.nodup_iff.2 hnodup, List.nodup_nil, ?_, fun hlim => ?_, ?_, Nat.le_refl _⟩
    · rw [hperm.length_eq]
      exact h.totalEntries_eq
    · rw [hperm.length_eq]
      exact h.length_le hlim
    · have hle : (f.values.insertAll f.newlyInsertedValues.values).totalLen ≤ f.values.totalLen +
          lenSum (f.newlyInsertedValues.keys.filter (· ∉ f.values.keys)) :=
        totalLen_insertAll_le f.newlyInsertedValues.values h.newly_nodup f.values
      have hunstaged := lenSum_filter_le (· ∉ f.newlyInsertedValues.keys) f.values.keys
      have hvals := h.values_totalLen_le
      show (f.values.insertAll f.newlyInsertedValues.values).totalLen ≤
        lenSum ((f.values.insertAll f.newlyInsertedValues.values).keys.filter (· ∉ StringSet.empty.keys))
      have hk : f.newlyInsertedValues.values.map (·.bytes) = f.newlyInsertedValues.keys := rfl
      rw [keys_empty, List.filter_congr (q := fun _ => true) (by simp), List.filter_true,
        lenSum_perm hkeys, lenSum_append, hk]
      omega

theorem materializeValues_not_alwaysTrue {f : StringFilter} (h : f.Inv) {allocOk : Bool}
    (hm : (f.materializeValues allocOk).alwaysTrue = false) :
    f.alwaysTrue = false ∧ (∀ b, b ∈ (f.materializeValues allocOk).heldKeys ↔ b ∈ f.heldKeys) ∧
      (f.materializeValues allocOk).containsNull = f.containsNull ∧
      ∀ b ∈ (f.materializeValues allocOk).heldKeys, b ∈ (f.materializeValues allocOk).values.keys := by
  rcases materializeValues_cases f allocOk with ⟨he, heq⟩ | ⟨-, heq⟩ | ⟨-, -, heq⟩ | ⟨-, -, heq⟩ <;>
    rw [heq] at hm ⊢
  · refine ⟨hm, fun b => Iff.rfl, rfl, fun b hb => ?_⟩
    have hk : f.newlyInsertedValues.keys = [] := by simp [keys, he]
    rw [heldKeys, hk, List.append_nil, List.mem_filter] at hb
    exact hb.1
  · have hperm := heldKeys_insertRange_perm h
    have hkeys := insertRange_keys_perm f.values f.newlyInsertedValues.values h.newly_nodup
    refine ⟨hm, fun b => hperm.mem_iff, rfl, fun b hb => ?_⟩
    show b ∈ (f.values.insertRange f.newlyInsertedValues.values).keys
    rw [hkeys.mem_iff, List.mem_append, List.mem_filter, decide_eq_true_eq]
    rcases (mem_heldKeys f b).1 (hperm.mem_iff.1 hb) with hb | hb
    · exact Or.inr hb
    · by_cases hv : b ∈ f.values.keys
      · exact Or.inr hv
      · exact Or.inl ⟨hb, hv⟩
  · simp at hm
  · have hperm := heldKeys_insertAll_perm h
    refine ⟨hm, fun b => hperm.mem_iff, rfl, fun b hb => ?_⟩
    simpa [heldKeys] using hb

theorem materializeValues_alwaysTrue {f : StringFilter} {allocOk : Bool}
    (hm : (f.materializeValues allocOk).alwaysTrue = true) :
    f.alwaysTrue = true ∨ allocOk = false := by
  rcases materializeValues_cases f allocOk with ⟨-, heq⟩ | ⟨-, heq⟩ | ⟨-, ha, -⟩ | ⟨-, -, heq⟩
  · rw [heq] at hm
    exact Or.inl hm
  · rw [heq] at hm
    exact Or.inl hm
  · exact Or.inr ha
  · rw [heq] at hm
    exact Or.inl hm

theorem materializeValues_of_alwaysTrue {f : StringFilter} (h : f.alwaysTrue = true) (allocOk : Bool) :
    (f.materializeValues allocOk).alwaysTrue = true := by
  rcases materializeValues_cases f allocOk with ⟨-, heq⟩ | ⟨-, heq⟩ | ⟨-, -, heq⟩ | ⟨-, -, heq⟩ <;>
    rw [heq]
  · exact h
  · exact h
  · rfl
  · exact h

theorem find_some {f : StringFilter} (hf : f.alwaysTrue = false) (s : StrValue) :
    f.find (some s) = true ↔ s.bytes ∈ f.values.keys := by
  simp only [find, hf, Bool.false_eq_true, if_false]
  exact find_iff _ _

theorem find_none {f : StringFilter} (hf : f.alwaysTrue = false) : f.find none = f.containsNull := by
  simp [find, hf]

/-! #### Runs of a string filter -/

theorem run_cons (f : StringFilter) (c : Call StrValue) (calls : List (Call StrValue)) :
    f.run (c :: calls) = (f.step c).run calls := rfl

theorem Inv.step {f : StringFilter} (h : f.Inv) (c : Call StrValue) : (f.step c).Inv := by
  cases c with
  | insert val => exact h.insert val
  | materializeValues allocOk => exact h.materializeValues allocOk

theorem Inv.run {f : StringFilter} (h : f.Inv) (calls : List (Call StrValue)) : (f.run calls).Inv :=
  Run.foldl_keeps StringFilter.step Inv (fun _ => True) (fun _ c _ hf => hf.step c) calls
    (fun _ _ => trivial) f h

theorem step_not_alwaysTrue {f : StringFilter} (h : f.Inv) {c : Call StrValue}
    (hs : (f.step c).alwaysTrue = false) :
    f.alwaysTrue = false ∧
      (∀ b, b ∈ (f.step c).heldKeys ↔ b ∈ f.heldKeys ∨ ∃ s, c = .insert (some s) ∧ s.bytes = b) ∧
      ((f.step c).containsNull = true ↔ f.containsNull = true ∨ c = .insert none) := by
  cases c with
  | insert val =>
    obtain ⟨hf, hheld, hnull⟩ := insert_not_alwaysTrue hs
    refine ⟨hf, fun b => ?_, ?_⟩
    · rw [step, hheld]
      simp
    · rw [step, hnull]
      simp
  | materializeValues allocOk =>
    obtain ⟨hf, hheld, hnull, -⟩ := materializeValues_not_alwaysTrue h hs
    refine ⟨hf, fun b => ?_, ?_⟩
    · rw [step, hheld]
      simp
    · rw [step, hnull]
      simp

theorem insert_entryLimit (f : StringFilter) (val : Option StrValue) :
    (f.insert val).entryLimit = f.entryLimit := by
  cases hf : f.alwaysTrue
  · rcases insert_cases hf val with ⟨-, heq⟩ | ⟨s, -, -, heq⟩ | ⟨s, -, -, -, -, heq⟩ |
      ⟨s, -, -, -, heq⟩
    all_goals rw [heq]
    all_goals rfl
  · rw [insert_of_alwaysTrue hf]

theorem materializeValues_entryLimit (f : StringFilter) (allocOk : Bool) :
    (f.materializeValues allocOk).entryLimit = f.entryLimit := by
  rcases materializeValues_cases f allocOk with ⟨-, heq⟩ | ⟨-, heq⟩ | ⟨-, -, heq⟩ | ⟨-, -, heq⟩
  all_goals rw [heq]
  all_goals rfl

theorem step_entryLimit (f : StringFilter) (c : Call StrValue) : (f.step c).entryLimit = f.entryLimit := by
  cases c with
  | insert val => exact insert_entryLimit f val
  | materializeValues allocOk => exact materializeValues_entryLimit f allocOk

theorem run_not_alwaysTrue {calls : List (Call StrValue)} :
    ∀ {f : StringFilter}, f.Inv → (f.run calls).alwaysTrue = false →
      f.alwaysTrue = false ∧
        (∀ b, b ∈ (f.run calls).heldKeys ↔
          b ∈ f.heldKeys ∨ ∃ s, Call.insert (some s) ∈ calls ∧ s.bytes = b) ∧
        ((f.run calls).containsNull = true ↔ f.containsNull = true ∨ Call.insert none ∈ calls) := by
  induction calls with
  | nil => intro f _ h; simpa [run] using h
  | cons c calls ih =>
    intro f hi h
    rw [run_cons] at h ⊢
    obtain ⟨hs, hheld, hnull⟩ := ih (hi.step c) h
    obtain ⟨hf, hheld1, hnull1⟩ := step_not_alwaysTrue hi hs
    refine ⟨hf, fun b => ?_, ?_⟩
    · rw [hheld, hheld1]
      constructor
      · rintro ((hb | ⟨s, rfl, rfl⟩) | ⟨s, hs, rfl⟩)
        · exact Or.inl hb
        · exact Or.inr ⟨s, List.mem_cons_self, rfl⟩
        · exact Or.inr ⟨s, List.mem_cons_of_mem _ hs, rfl⟩
      · rintro (hb | ⟨s, hs, rfl⟩)
        · exact Or.inl (Or.inl hb)
        · rcases List.mem_cons.1 hs with rfl | hs
          · exact Or.inl (Or.inr ⟨s, rfl, rfl⟩)
          · exact Or.inr ⟨s, hs, rfl⟩
    · rw [hnull, hnull1, List.mem_cons]
      constructor
      · rintro ((hn | rfl) | hn)
        · exact Or.inl hn
        · exact Or.inr (Or.inl rfl)
        · exact Or.inr (Or.inr hn)
      · rintro (hn | rfl | hn)
        · exact Or.inl (Or.inl hn)
        · exact Or.inl (Or.inr rfl)
        · exact Or.inr hn

theorem run_alwaysTrue {calls : List (Call StrValue)} :
    ∀ {f : StringFilter}, f.Inv → f.alwaysTrue = false → (f.run calls).alwaysTrue = true →
      (∃ l : List Bytes, l.Nodup ∧
        (∀ b ∈ l, b ∈ f.heldKeys ∨ ∃ s, Call.insert (some s) ∈ calls ∧ s.bytes = b) ∧
        (f.entryLimit < l.length ∨ stringSetMaxTotalLength ≤ lenSum l)) ∨
      Call.materializeValues false ∈ calls := by
  induction calls with
  | nil => intro f _ hf h; simp [run, hf] at h
  | cons c calls ih =>
    intro f hi hf h
    rw [run_cons] at h
    cases hstep : (f.step c).alwaysTrue
    · obtain ⟨-, hheld, -⟩ := step_not_alwaysTrue hi hstep
      rcases ih (hi.step c) hstep h with ⟨l, hl, hmem, hbig⟩ | hfail
      · refine Or.inl ⟨l, hl, fun b hb => ?_, by rwa [← step_entryLimit f c]⟩
        rcases hmem b hb with hb | ⟨s, hs, rfl⟩
        · rcases (hheld b).1 hb with hb | ⟨s, rfl, rfl⟩
          · exact Or.inl hb
          · exact Or.inr ⟨s, List.mem_cons_self, rfl⟩
        · exact Or.inr ⟨s, List.mem_cons_of_mem _ hs, rfl⟩
      · exact Or.inr (List.mem_cons_of_mem _ hfail)
    · cases c with
      | insert val =>
        obtain ⟨s, rfl, hs, hbig⟩ := hi.insert_reset hf hstep
        refine Or.inl ⟨s.bytes :: f.heldKeys, List.nodup_cons.2 ⟨hs, hi.heldKeys_nodup⟩,
          fun b hb => ?_, hbig⟩
        rcases List.mem_cons.1 hb with rfl | hb
        · exact Or.inr ⟨s, List.mem_cons_self, rfl⟩
        · exact Or.inl hb
      | materializeValues allocOk =>
        rcases materializeValues_alwaysTrue hstep with h' | rfl
        · rw [hf] at h'
          exact absurd h' Bool.false_ne_true
        · exact Or.inr List.mem_cons_self

/-! #### Batches from a protobuf -/

theorem insertBatch_cons_of_mem {f : StringFilter} {v : Bytes} (batch : List Bytes)
    (hv : v ∈ f.newlyInsertedValues.keys) : f.insertBatch (v :: batch) = f.insertBatch batch := by
  have hres : f.newlyInsertedValues.insertString v = (f.newlyInsertedValues, false) :=
    insert_of_mem hv
  rw [insertBatch]
  simp only [hres, Bool.false_eq_true, if_false]

theorem insertBatch_cons_of_not_mem {f : StringFilter} {v : Bytes} (batch : List Bytes)
    (hv : v ∉ f.newlyInsertedValues.keys) :
    f.insertBatch (v :: batch) =
      if (f.addNew (f.newlyInsertedValues.insert ⟨v, false⟩).1).overLimit then
        (f.addNew (f.newlyInsertedValues.insert ⟨v, false⟩).1).reset
      else (f.addNew (f.newlyInsertedValues.insert ⟨v, false⟩).1).insertBatch batch := by
  have hres : (f.newlyInsertedValues.insert ⟨v, false⟩).2 = true := by
    rw [insert_of_not_mem hv]
  rw [insertBatch, insertString]
  simp only [hres, if_true]

theorem Inv.insertBatch {batch : List Bytes} :
    ∀ {f : StringFilter}, f.Inv → f.values = StringSet.empty →
      (f.insertBatch batch).Inv ∧ (f.insertBatch batch).values = StringSet.empty := by
  induction batch with
  | nil => intro f h hv; exact ⟨h, hv⟩
  | cons v batch ih =>
    intro f h hv
    by_cases hm : v ∈ f.newlyInsertedValues.keys
    · rw [insertBatch_cons_of_mem batch hm]
      exact ih h hv
    · have hs : v ∉ f.heldKeys := by simp [heldKeys, hv, hm]
      rw [insertBatch_cons_of_not_mem batch hm]
      split
      · exact ⟨Inv.reset, rfl⟩
      next hover => exact ih (h.addNew (s := ⟨v, false⟩) hs (by simpa using hover)) hv

theorem insertBatch_not_alwaysTrue {batch : List Bytes} :
    ∀ {f : StringFilter}, f.values = StringSet.empty → (f.insertBatch batch).alwaysTrue = false →
      f.alwaysTrue = false ∧
        (∀ b, b ∈ (f.insertBatch batch).heldKeys ↔ b ∈ f.heldKeys ∨ b ∈ batch) ∧
        (f.insertBatch batch).containsNull = f.containsNull := by
  induction batch with
  | nil => intro f _ h; exact ⟨h, fun b => ⟨Or.inl, fun hb => hb.resolve_right List.not_mem_nil⟩, rfl⟩
  | cons v batch ih =>
    intro f hv h
    by_cases hm : v ∈ f.newlyInsertedValues.keys
    · rw [insertBatch_cons_of_mem batch hm] at h ⊢
      obtain ⟨hf, hheld, hn⟩ := ih hv h
      refine ⟨hf, fun b => ?_, hn⟩
      have hvh : v ∈ f.heldKeys := (mem_heldKeys f v).2 (Or.inr hm)
      rw [hheld, List.mem_cons]
      constructor
      · rintro (hb | hb)
        · exact Or.inl hb
        · exact Or.inr (Or.inr hb)
      · rintro (hb | rfl | hb)
        · exact Or.inl hb
        · exact Or.inl hvh
        · exact Or.inr hb
    · have hs : v ∉ f.heldKeys := by simp [heldKeys, hv, hm]
      rw [insertBatch_cons_of_not_mem batch hm] at h ⊢
      split at h
      · simp at h
      · rw [if_neg (by assumption)]
        obtain ⟨hf, hheld, hn⟩ :=
          ih (show (f.addNew (f.newlyInsertedValues.insert ⟨v, false⟩).1).values = StringSet.empty
            from hv) h
        refine ⟨hf, fun b => ?_, hn⟩
        rw [hheld, (heldKeys_addNew_perm (s := ⟨v, false⟩) hs).mem_iff, List.mem_cons, List.mem_cons]
        tauto

theorem insertBatch_alwaysTrue {batch : List Bytes} :
    ∀ {f : StringFilter}, f.Inv → f.values = StringSet.empty →
      (f.insertBatch batch).alwaysTrue = true →
      f.alwaysTrue = true ∨ ∃ l : List Bytes, l.Nodup ∧ f.entryLimit < l.length ∧
        ∀ b ∈ l, b ∈ f.heldKeys ∨ b ∈ batch := by
  induction batch with
  | nil => intro f _ _ h; exact Or.inl h
  | cons v batch ih =>
    intro f hi hv h
    by_cases hm : v ∈ f.newlyInsertedValues.keys
    · rw [insertBatch_cons_of_mem batch hm] at h
      refine (ih hi hv h).imp_right fun ⟨l, hl, hlen, hmem⟩ => ⟨l, hl, hlen, fun b hb => ?_⟩
      exact (hmem b hb).imp_right (List.mem_cons_of_mem _)
    · have hs : v ∉ f.heldKeys := by simp [heldKeys, hv, hm]
      rw [insertBatch_cons_of_not_mem batch hm] at h
      split at h
      · refine Or.inr ⟨v :: f.heldKeys, List.nodup_cons.2 ⟨hs, hi.heldKeys_nodup⟩,
          hi.lt_of_overLimit (by assumption), fun b hb => ?_⟩
        rcases List.mem_cons.1 hb with rfl | hb
        · exact Or.inr List.mem_cons_self
        · exact Or.inl hb
      · have hover : (f.addNew (f.newlyInsertedValues.insert ⟨v, false⟩).1).overLimit = false := by
          simpa using (by assumption :
            ¬ (f.addNew (f.newlyInsertedValues.insert ⟨v, false⟩).1).overLimit = true)
        have hperm := heldKeys_addNew_perm (s := ⟨v, false⟩) hs
        refine (ih (hi.addNew (s := ⟨v, false⟩) hs hover) hv h).imp id
          fun ⟨l, hl, hlen, hmem⟩ => ⟨l, hl, hlen, fun b hb => ?_⟩
        rcases hmem b hb with hb | hb
        · rcases List.mem_cons.1 (hperm.mem_iff.1 hb) with rfl | hb
          · exact Or.inr List.mem_cons_self
          · exact Or.inl hb
        · exact Or.inr (List.mem_cons_of_mem _ hb)

theorem values_subset_heldKeys (f : StringFilter) : ∀ b ∈ f.values.keys, b ∈ f.heldKeys :=
  fun b hb => (mem_heldKeys f b).2 (Or.inl hb)

theorem ofProtobuf_toProtobuf (f : StringFilter) (entryLimit : Nat) (allocOk : Bool) :
    (ofProtobuf f.toProtobuf entryLimit allocOk).Inv ∧
      (f.alwaysTrue = true → (ofProtobuf f.toProtobuf entryLimit allocOk).alwaysTrue = true) ∧
      ((ofProtobuf f.toProtobuf entryLimit allocOk).alwaysTrue = false →
        (∀ b, b ∈ (ofProtobuf f.toProtobuf entryLimit allocOk).values.keys ↔ b ∈ f.values.keys) ∧
          (ofProtobuf f.toProtobuf entryLimit allocOk).containsNull = f.containsNull) ∧
      ((ofProtobuf f.toProtobuf entryLimit allocOk).alwaysTrue = true →
        f.alwaysTrue = true ∨ entryLimit < f.values.keys.length ∨ allocOk = false) := by
  cases hf : f.alwaysTrue
  · have hpb : f.toProtobuf =
        { alwaysTrue := false, containsNull := f.containsNull, value := f.values.keys } := by
      simp [toProtobuf, hf, keys]
    have hstart : ({ create entryLimit f.containsNull with alwaysTrue := false } : StringFilter).Inv :=
      inv_create entryLimit f.containsNull
    obtain ⟨hbatch, hempty⟩ := @Inv.insertBatch f.values.keys _ hstart rfl
    rw [ofProtobuf, hpb]
    refine ⟨hbatch.materializeValues allocOk, fun h => absurd h Bool.false_ne_true, fun h => ?_,
      fun h => ?_⟩
    · obtain ⟨hb, hheld, hnull, hmat⟩ := materializeValues_not_alwaysTrue hbatch h
      obtain ⟨-, hheld', hnull'⟩ := insertBatch_not_alwaysTrue rfl hb
      refine ⟨fun b => ⟨fun hv => ?_, fun hv => hmat b ?_⟩, hnull.trans hnull'⟩
      · have := (hheld' b).1 ((hheld b).1 (values_subset_heldKeys _ b hv))
        simpa [heldKeys, create] using this
      · exact (hheld b).2 ((hheld' b).2 (Or.inr hv))
    · rcases materializeValues_alwaysTrue h with h | h
      · rcases insertBatch_alwaysTrue hstart rfl h with h | ⟨l, hl, hlen, hmem⟩
        · exact absurd h Bool.false_ne_true
        · have hsub : l ⊆ f.values.keys := fun b hb => by
            simpa [heldKeys, create] using hmem b hb
          exact Or.inr (Or.inl (Nat.lt_of_lt_of_le hlen (hl.length_le_of_subset hsub)))
      · exact Or.inr (Or.inr h)
  · have hpb : f.toProtobuf = { alwaysTrue := true } := by simp [toProtobuf, hf]
    have h0 : ({ create entryLimit false with alwaysTrue := true } : StringFilter).Inv :=
      ⟨List.nodup_nil, List.nodup_nil, rfl, fun _ => Nat.zero_le _, Nat.le_refl _, Nat.le_refl _⟩
    have htrue := materializeValues_of_alwaysTrue
      (show ({ create entryLimit false with alwaysTrue := true } : StringFilter).alwaysTrue = true
        from rfl) allocOk
    rw [ofProtobuf, hpb]
    refine ⟨h0.materializeValues allocOk, fun _ => htrue, fun h => ?_, fun _ => Or.inl rfl⟩
    rw [show (({ create entryLimit false with alwaysTrue := true } : StringFilter).insertBatch [] :
      StringFilter) = { create entryLimit false with alwaysTrue := true } from rfl, htrue] at h
    exact absurd h (by decide)

/-! #### What the filter guarantees -/

theorem heldKeys_create (entryLimit : Nat) (containsNull : Bool) :
    (create entryLimit containsNull).heldKeys = [] := rfl

theorem sound (entryLimit : Nat) (calls : List (Call StrValue)) (allocOk : Bool) :
    (((create entryLimit false).run calls).materializeValues allocOk).Inv ∧
      ((((create entryLimit false).run calls).materializeValues allocOk).alwaysTrue = false →
        (∀ s, Call.insert (some s) ∈ calls →
          (((create entryLimit false).run calls).materializeValues allocOk).find (some s) = true) ∧
        ((((create entryLimit false).run calls).materializeValues allocOk).find none = true ↔
          Call.insert none ∈ calls)) ∧
      ((((create entryLimit false).run calls).materializeValues allocOk).alwaysTrue = true →
        (∃ l : List Bytes, l.Nodup ∧ (∀ b ∈ l, ∃ s, Call.insert (some s) ∈ calls ∧ s.bytes = b) ∧
          (entryLimit < l.length ∨ stringSetMaxTotalLength ≤ lenSum l)) ∨
        Call.materializeValues false ∈ calls ∨ allocOk = false) ∧
      (entryLimit < 2 ^ 32 - 1 →
        (((create entryLimit false).run calls).materializeValues allocOk).totalEntries =
          (((create entryLimit false).run calls).materializeValues allocOk).heldKeys.length) := by
  have h0 := inv_create entryLimit false
  have hrun := h0.run calls
  have hinv := hrun.materializeValues allocOk
  refine ⟨hinv, fun h => ?_, fun h => ?_, fun hlim => ?_⟩
  · obtain ⟨hr, hheld, hnull, hmat⟩ := materializeValues_not_alwaysTrue hrun h
    obtain ⟨-, hheld', hnull'⟩ := run_not_alwaysTrue h0 hr
    refine ⟨fun s hs => (find_some h s).2 (hmat _ ((hheld _).2 ((hheld' _).2
      (Or.inr ⟨s, hs, rfl⟩)))), ?_⟩
    rw [find_none h, hnull, hnull']
    simp [create]
  · rcases materializeValues_alwaysTrue h with h | h
    · rcases run_alwaysTrue h0 rfl h with ⟨l, hl, hmem, hbig⟩ | hfail
      · refine Or.inl ⟨l, hl, fun b hb => ?_, hbig⟩
        exact (hmem b hb).resolve_left (by rw [heldKeys_create]; exact List.not_mem_nil)
      · exact Or.inr (Or.inl hfail)
    · exact Or.inr (Or.inr h)
  · have hlim' : (((create entryLimit false).run calls).materializeValues allocOk).entryLimit =
        entryLimit := by
      rw [materializeValues_entryLimit]
      exact Run.foldl_keeps step (fun g => g.entryLimit = entryLimit) (fun _ => True)
        (fun g c _ hg => (step_entryLimit g c).trans hg) calls (fun _ _ => trivial) _ rfl
    have hle := hinv.length_le (by rw [hlim']; exact hlim)
    rw [hinv.totalEntries_eq, Nat.mod_eq_of_lt (by rw [hlim'] at hle; omega)]

/-- A string filter sent with `ToProtobuf` after `MaterializeValues` and rebuilt on another node
by `InListFilter::Create`, with any entry limit there and any outcome of either allocation, is
always-true or finds every string inserted, and finds NULL exactly when NULL was inserted. -/
theorem sound_ofProtobuf (entryLimit : Nat) (calls : List (Call StrValue)) (allocOk : Bool)
    (entryLimit' : Nat) (allocOk' : Bool) :
    (ofProtobuf (((create entryLimit false).run calls).materializeValues allocOk).toProtobuf
        entryLimit' allocOk').alwaysTrue = true ∨
      ((∀ s, Call.insert (some s) ∈ calls →
          (ofProtobuf (((create entryLimit false).run calls).materializeValues allocOk).toProtobuf
            entryLimit' allocOk').find (some s) = true) ∧
        ((ofProtobuf (((create entryLimit false).run calls).materializeValues allocOk).toProtobuf
            entryLimit' allocOk').find none = true ↔ Call.insert none ∈ calls)) := by
  obtain ⟨-, hfound, -, -⟩ := sound entryLimit calls allocOk
  obtain ⟨-, htrue, hsame, -⟩ :=
    ofProtobuf_toProtobuf (((create entryLimit false).run calls).materializeValues allocOk)
      entryLimit' allocOk'
  cases hg : (ofProtobuf (((create entryLimit false).run calls).materializeValues allocOk).toProtobuf
      entryLimit' allocOk').alwaysTrue
  · cases hf : (((create entryLimit false).run calls).materializeValues allocOk).alwaysTrue
    · obtain ⟨hvals, hnull⟩ := hsame hg
      obtain ⟨hfind, hfindNull⟩ := hfound hf
      refine Or.inr ⟨fun s hs => (find_some hg s).2 ((hvals _).2 ((find_some hf s).1 (hfind s hs))),
        ?_⟩
      rw [find_none hg, hnull, ← find_none hf]
      exact hfindNull
    · rw [htrue hf] at hg
      exact absurd hg (by decide)
  · exact Or.inl rfl

end StringFilter

end InListFilter

end Impala
