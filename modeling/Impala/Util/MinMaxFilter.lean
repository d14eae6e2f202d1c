import Mathlib.Order.Basic
import Mathlib.Tactic.Order
import Impala.Lib.Run
import Impala.Runtime.StringValue

/-!
Min-max runtime filters (util/min-max-filter.h, min-max-filter-ir.cc).

A filter is built on the build side of a join from the values of the join
column and is then used to skip data whose `[min, max]` range it does not
overlap. `FilterContext::InsertPerCompareOp` sends every build value of one
filter through one entry point, chosen by the filter's comparison: `Insert` for
`=`, `InsertForLE`, `InsertForLT`, `InsertForGE`, `InsertForGT`.

Three families of filters share the entry points:
* `NUMERIC_MIN_MAX_FILTER_FUNCS` (BOOLEAN and the integer types) keep
  `min_`/`max_` starting from the inverted range `[max(), lowest()]`;
* `DATE_TIME_MIN_MAX_FILTER_FUNCS` and the `DecimalMinMaxFilter` macros keep an
  `always_false_` flag and update through `UpdateMin`/`UpdateMax`;
* `StringMinMaxFilter` also truncates its bounds to `MAX_BOUND_LENGTH` bytes
  when it materializes them.
-/

set_option autoImplicit false

namespace Impala.MinMaxFilter

/-- The five entry points of the insert interface. -/
inductive Entry where
  | insert
  | insertForLE
  | insertForLT
  | insertForGE
  | insertForGT
  deriving DecidableEq, Repr

/-- One call: the entry point and the value, `none` for a NULL value, which
every entry point ignores (`if (LIKELY(val))`). -/
structure Call (α : Type) where
  entry : Entry
  val : Option α
  deriving DecidableEq, Repr

section Order

variable {α : Type} [LinearOrder α]

def Entry.Rel : Entry → α → α → Prop
  | .insert, t, v => t = v
  | .insertForLE, t, v => t ≤ v
  | .insertForLT, t, v => t < v
  | .insertForGE, t, v => v ≤ t
  | .insertForGT, t, v => v < t

def Call.Qualifies (c : Call α) (t : α) : Prop := ∃ v, c.val = some v ∧ c.entry.Rel t v

/-- `std::numeric_limits<TYPE>::lowest()`/`max()` of a column type, or the
`MIN_DATE`/`MAX_DATE` pair, with the type's `SubtractOne` and `AddOne`. -/
structure Limits (α : Type) where
  lowest : α
  max : α
  subtractOne : α → α
  addOne : α → α

def Limits.InRange (L : Limits α) (t : α) : Prop := L.lowest ≤ t ∧ t ≤ L.max

def Call.InRange (L : Limits α) (c : Call α) : Prop := ∀ v, c.val = some v → L.InRange v

/-- The column type is not a single value and `SubtractOne`/`AddOne` step to the
neighbouring value: nothing lies strictly between `v` and `v - 1`. -/
structure Limits.Exact (L : Limits α) : Prop where
  lowest_lt_max : L.lowest < L.max
  le_subtractOne : ∀ v t, L.InRange t → L.lowest < v → t < v → t ≤ L.subtractOne v
  addOne_le : ∀ v t, L.InRange t → v < L.max → v < t → L.addOne v ≤ t

end Order

/-! ## `NUMERIC_MIN_MAX_FILTER_FUNCS` -/

namespace NumericMinMaxFilter

variable {α : Type} [LinearOrder α]

structure State (α : Type) where
  min : α
  max : α
  alwaysTrue : Bool
  deriving DecidableEq, Repr

def create (L : Limits α) : State α := ⟨L.max, L.lowest, false⟩

def insert (s : State α) (v : α) : State α :=
  { s with min := if v < s.min then v else s.min, max := if v > s.max then v else s.max }

def insertForLE (L : Limits α) (s : State α) (v : α) : State α :=
  { s with min := L.lowest, max := if v > s.max then v else s.max }

def insertForLT (L : Limits α) (s : State α) (v : α) : State α :=
  let value := if v > L.lowest then L.subtractOne v else v
  { s with min := L.lowest, max := if value > s.max then value else s.max }

def insertForGE (L : Limits α) (s : State α) (v : α) : State α :=
  { s with max := L.max, min := if v < s.min then v else s.min }

def insertForGT (L : Limits α) (s : State α) (v : α) : State α :=
  let value := if v < L.max then L.addOne v else v
  { s with max := L.max, min := if value < s.min then value else s.min }

def step (L : Limits α) (s : State α) (c : Call α) : State α :=
  match c.val with
  | none => s
  | some v =>
    match c.entry with
    | .insert => insert s v
    | .insertForLE => insertForLE L s v
    | .insertForLT => insertForLT L s v
    | .insertForGE => insertForGE L s v
    | .insertForGT => insertForGT L s v

def run (L : Limits α) (calls : List (Call α)) : State α := calls.foldl (step L) (create L)

def alwaysFalse (L : Limits α) (s : State α) : Bool := s.min == L.max && s.max == L.lowest

def evalOverlap (s : State α) (dataMin dataMax : α) : Bool :=
  !(decide (s.max < dataMin) || decide (dataMax < s.min))

def Covers (s : State α) (t : α) : Prop := s.min ≤ t ∧ t ≤ s.max

theorem evalOverlap_self {s : State α} {t : α} (h : Covers s t) : evalOverlap s t t = true := by
  obtain ⟨h1,h2⟩ := h
  simp [evalOverlap, not_lt.2 h1, not_lt.2 h2]

theorem alwaysFalse_false {L : Limits α} (hL : L.Exact) {s : State α} {t : α} (h : Covers s t) :
    alwaysFalse L s = false := by
  obtain ⟨h1,h2⟩ := h
  have hlt := hL.lowest_lt_max
  by_contra hf
  simp only [alwaysFalse, Bool.not_eq_false, Bool.and_eq_true, beq_iff_eq] at hf
  obtain ⟨hmin,hmax⟩ := hf
  rw [hmin] at h1
  rw [hmax] at h2
  exact absurd (le_trans h1 h2) (not_le.2 hlt)

variable (L : Limits α)

theorem step_keeps (s : State α) (c : Call α) (t : α) (ht : L.InRange t) (h : Covers s t) :
    Covers (step L s c) t := by
  obtain ⟨h1,h2⟩ := h
  rcases c with ⟨e, _ | v⟩
  · exact ⟨h1,h2⟩
  cases e with
  | insert =>
    constructor
    · simp only [step, insert]; split_ifs <;> order
    · simp only [step, insert]; split_ifs <;> order
  | insertForLE => exact ⟨ht.1, by simp only [step, insertForLE]; split_ifs <;> order⟩
  | insertForLT => exact ⟨ht.1, by simp only [step, insertForLT]; split_ifs <;> order⟩
  | insertForGE => exact ⟨by simp only [step, insertForGE]; split_ifs <;> order, ht.2⟩
  | insertForGT => exact ⟨by simp only [step, insertForGT]; split_ifs <;> order, ht.2⟩

theorem step_new (hL : L.Exact) (s : State α) (c : Call α) (t : α) (ht : L.InRange t)
    (h : c.Qualifies t) : Covers (step L s c) t := by
  obtain ⟨v,hv,hr⟩ := h
  rcases c with ⟨e, _ | v'⟩
  · cases hv
  cases hv
  cases e with
  | insert =>
    simp only [Entry.Rel] at hr
    subst hr
    constructor
    · simp only [step, insert]; split_ifs <;> order
    · simp only [step, insert]; split_ifs <;> order
  | insertForLE =>
    simp only [Entry.Rel] at hr
    exact ⟨ht.1, by simp only [step, insertForLE]; split_ifs <;> order⟩
  | insertForLT =>
    simp only [Entry.Rel] at hr
    have hv : L.lowest < v := lt_of_le_of_lt ht.1 hr
    have hle := hL.le_subtractOne v t ht hv hr
    refine ⟨ht.1, ?_⟩
    simp only [step, insertForLT, gt_iff_lt, hv, if_true]
    split_ifs <;> order
  | insertForGE =>
    simp only [Entry.Rel] at hr
    exact ⟨by simp only [step, insertForGE]; split_ifs <;> order, ht.2⟩
  | insertForGT =>
    simp only [Entry.Rel] at hr
    have hv : v < L.max := lt_of_lt_of_le hr ht.2
    have hle := hL.addOne_le v t ht hv hr
    refine ⟨?_, ht.2⟩
    simp only [step, insertForGT, hv, if_true]
    split_ifs <;> order

theorem run_covers (hL : L.Exact) (calls : List (Call α)) (t : α) (ht : L.InRange t)
    (h : ∃ c ∈ calls, c.Qualifies t) : Covers (run L calls) t :=
  Run.foldl_establish (step L) (fun _ => True) (fun s t => L.InRange t → Covers s t)
    Call.Qualifies (fun _ => True) (fun _ _ _ _ => trivial)
    (fun s c t _ _ h ht => step_keeps L s c t ht (h ht))
    (fun s c t _ _ h ht => step_new L hL s c t ht h)
    calls (fun _ _ => trivial) (create L) trivial t h ht

end NumericMinMaxFilter

/-! ## `DATE_TIME_MIN_MAX_FILTER_FUNCS` and `DecimalMinMaxFilter`

Both keep `always_false_` and, for the one-sided entry points, go through
`UpdateMax`/`UpdateMin`, which open the range to the type's bound only while the
filter is still empty and otherwise move one end only. -/

namespace FlaggedMinMaxFilter

variable {α : Type} [LinearOrder α]

structure State (α : Type) where
  min : α
  max : α
  alwaysTrue : Bool
  alwaysFalse : Bool
  deriving DecidableEq, Repr

/-- The constructor sets `always_false_`; `min_`/`max_` are default values that no
entry point reads before overwriting them. -/
def create [Inhabited α] : State α := ⟨default, default, false, true⟩

def insert (s : State α) (v : α) : State α :=
  if s.alwaysFalse then { s with min := v, max := v, alwaysFalse := false }
  else if v < s.min then { s with min := v }
  else if v > s.max then { s with max := v }
  else s

def updateMax (L : Limits α) (s : State α) (v : α) : State α :=
  if s.alwaysFalse then { s with min := L.lowest, max := v, alwaysFalse := false }
  else if v > s.max then { s with max := v }
  else s

def updateMin (L : Limits α) (s : State α) (v : α) : State α :=
  if s.alwaysFalse then { s with min := v, max := L.max, alwaysFalse := false }
  else if v < s.min then { s with min := v }
  else s

def insertForLE (L : Limits α) (s : State α) (v : α) : State α := updateMax L s v

def insertForLT (L : Limits α) (s : State α) (v : α) : State α :=
  updateMax L s (if v > L.lowest then L.subtractOne v else v)

def insertForGE (L : Limits α) (s : State α) (v : α) : State α := updateMin L s v

def insertForGT (L : Limits α) (s : State α) (v : α) : State α :=
  updateMin L s (if v < L.max then L.addOne v else v)

def step (L : Limits α) (s : State α) (c : Call α) : State α :=
  match c.val with
  | none => s
  | some v =>
    match c.entry with
    | .insert => insert s v
    | .insertForLE => insertForLE L s v
    | .insertForLT => insertForLT L s v
    | .insertForGE => insertForGE L s v
    | .insertForGT => insertForGT L s v

def run [Inhabited α] (L : Limits α) (calls : List (Call α)) : State α :=
  calls.foldl (step L) create

def evalOverlap (s : State α) (dataMin dataMax : α) : Bool :=
  !(decide (dataMax < s.min) || decide (s.max < dataMin))

def Covers (s : State α) (t : α) : Prop := s.alwaysFalse = false ∧ s.min ≤ t ∧ t ≤ s.max

theorem evalOverlap_self {s : State α} {t : α} (h : Covers s t) : evalOverlap s t t = true := by
  obtain ⟨-,h1,h2⟩ := h
  simp [evalOverlap, not_lt.2 h1, not_lt.2 h2]

/-- What runs through one entry point keep: a non-empty `=` filter is a real
range, a one-sided filter stays open at the type's bound. -/
def Inv (L : Limits α) : Entry → State α → Prop
  | .insert, s => s.alwaysFalse = false → s.min ≤ s.max
  | .insertForLE, s | .insertForLT, s => s.alwaysFalse = true ∨ s.min = L.lowest
  | .insertForGE, s | .insertForGT, s => s.alwaysFalse = true ∨ s.max = L.max

variable (L : Limits α)

theorem updateMax_keeps (s : State α) (v t : α) (h : Covers s t) : Covers (updateMax L s v) t := by
  obtain ⟨hf,h1,h2⟩ := h
  have hn : ¬ s.alwaysFalse = true := by simp [hf]
  unfold updateMax
  rw [if_neg hn]
  split_ifs with hv
  · exact ⟨hf, h1, le_of_lt (lt_of_le_of_lt h2 hv)⟩
  · exact ⟨hf, h1, h2⟩

theorem updateMin_keeps (s : State α) (v t : α) (h : Covers s t) : Covers (updateMin L s v) t := by
  obtain ⟨hf,h1,h2⟩ := h
  have hn : ¬ s.alwaysFalse = true := by simp [hf]
  unfold updateMin
  rw [if_neg hn]
  split_ifs with hv
  · exact ⟨hf, le_of_lt (lt_of_lt_of_le hv h1), h2⟩
  · exact ⟨hf, h1, h2⟩

theorem step_keeps (s : State α) (c : Call α) (t : α) (h : Covers s t) :
    Covers (step L s c) t := by
  rcases c with ⟨e, _ | v⟩
  · exact h
  cases e with
  | insert =>
    obtain ⟨hf,h1,h2⟩ := h
    have hn : ¬ s.alwaysFalse = true := by simp [hf]
    simp only [step, insert]
    rw [if_neg hn]
    split_ifs with hlo hhi
    · exact ⟨hf, le_of_lt (lt_of_lt_of_le hlo h1), h2⟩
    · exact ⟨hf, h1, le_of_lt (lt_of_le_of_lt h2 hhi)⟩
    · exact ⟨hf, h1, h2⟩
  | insertForLE => exact updateMax_keeps L s v t h
  | insertForLT => exact updateMax_keeps L s _ t h
  | insertForGE => exact updateMin_keeps L s v t h
  | insertForGT => exact updateMin_keeps L s _ t h

theorem updateMax_inv (s : State α) (v : α) (h : s.alwaysFalse = true ∨ s.min = L.lowest) :
    (updateMax L s v).alwaysFalse = true ∨ (updateMax L s v).min = L.lowest := by
  unfold updateMax
  split_ifs with hf
  · exact .inr rfl
  · exact .inr (h.resolve_left hf)
  · exact .inr (h.resolve_left hf)

theorem updateMin_inv (s : State α) (v : α) (h : s.alwaysFalse = true ∨ s.max = L.max) :
    (updateMin L s v).alwaysFalse = true ∨ (updateMin L s v).max = L.max := by
  unfold updateMin
  split_ifs with hf
  · exact .inr rfl
  · exact .inr (h.resolve_left hf)
  · exact .inr (h.resolve_left hf)

theorem step_inv (e : Entry) (s : State α) (c : Call α) (hc : c.entry = e) (h : Inv L e s) :
    Inv L e (step L s c) := by
  rcases c with ⟨e', _ | v⟩
  · exact h
  simp only at hc
  subst hc
  cases e' with
  | insert =>
    simp only [Inv, step, insert] at h ⊢
    split_ifs with hf hlo hhi
    · intro _; exact le_refl v
    · intro _; exact le_of_lt (lt_of_lt_of_le hlo (h (by simpa using hf)))
    · intro _; exact le_of_lt (lt_of_le_of_lt (h (by simpa using hf)) hhi)
    · exact h
  | insertForLE => exact updateMax_inv L s v h
  | insertForLT => exact updateMax_inv L s _ h
  | insertForGE => exact updateMin_inv L s v h
  | insertForGT => exact updateMin_inv L s _ h

theorem updateMax_new (s : State α) (v t : α) (ht : L.InRange t) (hv : t ≤ v)
    (h : s.alwaysFalse = true ∨ s.min = L.lowest) : Covers (updateMax L s v) t := by
  unfold updateMax
  split_ifs with hf hm
  · exact ⟨rfl, ht.1, hv⟩
  · have hl := h.resolve_left hf
    exact ⟨by simpa using hf, hl ▸ ht.1, hv⟩
  · have hl := h.resolve_left hf
    exact ⟨by simpa using hf, hl ▸ ht.1, le_trans hv (not_lt.1 hm)⟩

theorem updateMin_new (s : State α) (v t : α) (ht : L.InRange t) (hv : v ≤ t)
    (h : s.alwaysFalse = true ∨ s.max = L.max) : Covers (updateMin L s v) t := by
  unfold updateMin
  split_ifs with hf hm
  · exact ⟨rfl, hv, ht.2⟩
  · have hl := h.resolve_left hf
    exact ⟨by simpa using hf, hv, hl ▸ ht.2⟩
  · have hl := h.resolve_left hf
    exact ⟨by simpa using hf, le_trans (not_lt.1 hm) hv, hl ▸ ht.2⟩

theorem step_new (hL : L.Exact) (e : Entry) (s : State α) (c : Call α) (hc : c.entry = e)
    (hs : Inv L e s) (t : α) (ht : L.InRange t) (h : c.Qualifies t) : Covers (step L s c) t := by
  obtain ⟨v,hv,hr⟩ := h
  rcases c with ⟨e', _ | v'⟩
  · cases hv
  cases hv
  simp only at hc
  subst hc
  cases e' with
  | insert =>
    simp only [Entry.Rel] at hr
    subst hr
    simp only [Inv] at hs
    simp only [step, insert]
    split_ifs with hf hlo hhi
    · exact ⟨rfl, le_refl t, le_refl t⟩
    · have hmm := hs (by simpa using hf)
      exact ⟨by simpa using hf, le_refl t, le_of_lt (lt_of_lt_of_le hlo hmm)⟩
    · exact ⟨by simpa using hf, not_lt.1 hlo, le_refl t⟩
    · exact ⟨by simpa using hf, not_lt.1 hlo, not_lt.1 hhi⟩
  | insertForLE => exact updateMax_new L s v t ht hr hs
  | insertForLT =>
    simp only [Entry.Rel] at hr
    have hv : L.lowest < v := lt_of_le_of_lt ht.1 hr
    have hle := hL.le_subtractOne v t ht hv hr
    simp only [step, insertForLT, gt_iff_lt, hv, if_true]
    exact updateMax_new L s _ t ht hle hs
  | insertForGE => exact updateMin_new L s v t ht hr hs
  | insertForGT =>
    simp only [Entry.Rel] at hr
    have hv : v < L.max := lt_of_lt_of_le hr ht.2
    have hle := hL.addOne_le v t ht hv hr
    simp only [step, insertForGT, hv, if_true]
    exact updateMin_new L s _ t ht hle hs

theorem create_inv [Inhabited α] (e : Entry) : Inv L e (create : State α) := by
  cases e <;> simp [Inv, create]

theorem run_covers [Inhabited α] (hL : L.Exact) (e : Entry) (calls : List (Call α))
    (hcalls : ∀ c ∈ calls, c.entry = e) (t : α) (ht : L.InRange t)
    (h : ∃ c ∈ calls, c.Qualifies t) : Covers (run L calls) t :=
  Run.foldl_establish (step L) (Inv L e) (fun s t => L.InRange t → Covers s t)
    Call.Qualifies (fun c => c.entry = e) (fun s c hc hs => step_inv L e s c hc hs)
    (fun s c t _ _ h ht => step_keeps L s c t (h ht))
    (fun s c t hc hs h ht => step_new L hL e s c hc hs t ht h)
    calls hcalls create (create_inv L e) t h ht

end FlaggedMinMaxFilter

/-! ## `StringMinMaxFilter`

Bounds are materialized into the filter's own buffers, truncated to
`MAX_BOUND_LENGTH` bytes; a truncated max is then increased in its last byte
that is not `0xff` so that it stays an upper bound. A small string is left in
place by `CopyToBuffer`; it is shorter than `MAX_BOUND_LENGTH`, so its bytes are
those a copy would hold. An out-of-memory `Append` is not modelled. -/

namespace StringMinMaxFilter

def maxBoundLength : Nat := 1024

def minBoundString : Bytes := [0]

def maxBoundString : Bytes := List.replicate maxBoundLength 0xff

structure State where
  min : Bytes
  max : Bytes
  /-- `min_` points into a non-empty `min_buffer_`. -/
  minBuffered : Bool
  maxBuffered : Bool
  alwaysTrue : Bool
  alwaysFalse : Bool
  deriving DecidableEq, Repr

def create : State := ⟨[], [], false, false, false, true⟩

def setAlwaysTrue (_ : State) : State := ⟨[], [], false, false, true, false⟩

/-- The carry loop of `MaterializeMaxValue`: trailing `0xff` bytes become `0x00`
and the last other byte is increased; `none` when every byte is `0xff`. -/
def increment (b : Bytes) : Option Bytes :=
  (StringValue.lastIndexNot 0xff b).map fun i =>
    b.take i ++ [b[i]! + 1] ++ List.replicate (b.length - 1 - i) 0

def copyMinToBuffer (s : State) (len : Nat) : State :=
  if s.minBuffered then s else { s with min := s.min.take len, minBuffered := true }

def copyMaxToBuffer (s : State) (len : Nat) : State :=
  if s.maxBuffered then s else { s with max := s.max.take len, maxBuffered := true }

def materializeMinValue (s : State) : State :=
  if s.min.length > maxBoundLength then copyMinToBuffer s maxBoundLength
  else copyMinToBuffer s s.min.length

def materializeMaxValue (s : State) : State :=
  if s.max.length > maxBoundLength then
    let s := copyMaxToBuffer s maxBoundLength
    if s.alwaysTrue then s
    else match increment s.max with
      | none => setAlwaysTrue s
      | some m => { s with max := m }
  else copyMaxToBuffer s s.max.length

def insert (s : State) (v : Bytes) : State :=
  if s.alwaysFalse then { s with min := v, max := v, alwaysFalse := false }
  else if StringValue.lt v s.min then { s with min := v, minBuffered := false }
  else if StringValue.lt s.max v then { s with max := v, maxBuffered := false }
  else s

def updateMax (s : State) (v : Bytes) : State :=
  materializeMaxValue <|
    if s.alwaysFalse then
      { s with min := minBoundString, minBuffered := false, max := v, maxBuffered := false,
               alwaysFalse := false }
    else if StringValue.lt s.max v then { s with max := v, maxBuffered := false }
    else s

def updateMin (s : State) (v : Bytes) : State :=
  materializeMinValue <|
    if s.alwaysFalse then
      { s with min := v, minBuffered := false, max := maxBoundString, maxBuffered := false,
               alwaysFalse := false }
    else if StringValue.lt v s.min then { s with min := v, minBuffered := false }
    else s

def insertForLE (s : State) (v : Bytes) : State := updateMax s v

def insertForLT (s : State) (v : Bytes) : State :=
  let result := StringValue.largestSmallerString v
  if result.length > 0 then updateMax s result else { s with alwaysTrue := true }

def insertForGE (s : State) (v : Bytes) : State := updateMin s v

def insertForGT (s : State) (v : Bytes) : State :=
  let result := StringValue.leastLargerString v
  if result.length ≤ maxBoundLength then updateMin s result else { s with alwaysTrue := true }

def step (s : State) (c : Call Bytes) : State :=
  match c.val with
  | none => s
  | some v =>
    match c.entry with
    | .insert => insert s v
    | .insertForLE => insertForLE s v
    | .insertForLT => insertForLT s v
    | .insertForGE => insertForGE s v
    | .insertForGT => insertForGT s v

def materializeValues (s : State) : State :=
  if s.alwaysTrue || s.alwaysFalse then s
  else
    let s := if s.minBuffered then s else materializeMinValue s
    if s.maxBuffered then s else materializeMaxValue s

def run (calls : List (Call Bytes)) : State := materializeValues (calls.foldl step create)

def evalOverlap (s : State) (dataMin dataMax : Bytes) : Bool :=
  !(StringValue.lt dataMax s.min || StringValue.lt s.max dataMin)

theorem run_insertForLT_append (p : Bytes) {b : UInt8} (hb : b ≠ 0)
    (hp : p.length < maxBoundLength) :
    run [⟨.insertForLT, some (p ++ [b])⟩] = ⟨[0], p ++ [b - 1], true, true, false, false⟩ := by
  have hlen : ¬(1024 < p.length + 1) := by unfold maxBoundLength at hp; omega
  simp [run, step, insertForLT, StringValue.largestSmallerString_append_of_ne p hb, updateMax,
    create, materializeMaxValue, hlen, copyMaxToBuffer, materializeValues, materializeMinValue,
    copyMinToBuffer, minBoundString, maxBoundLength]

end StringMinMaxFilter

/-! ## The column types -/

def BoolMinMaxFilter.limits : Limits Bool := ⟨false, true, fun _ => false, fun _ => true⟩

def intLimits (lo hi : Int) : Limits Int := ⟨lo, hi, (· - 1), (· + 1)⟩

def TinyIntMinMaxFilter.limits : Limits Int := intLimits (-2^7) (2^7 - 1)
def SmallIntMinMaxFilter.limits : Limits Int := intLimits (-2^15) (2^15 - 1)
def IntMinMaxFilter.limits : Limits Int := intLimits (-2^31) (2^31 - 1)
def BigIntMinMaxFilter.limits : Limits Int := intLimits (-2^63) (2^63 - 1)

/-- Days since 1970-01-01 from `DateValue::MIN_DATE` (0001-01-01) to `MAX_DATE`
(9999-12-31); `SubtractDays(1)`/`AddDays(1)` step by a day. -/
def DateMinMaxFilter.limits : Limits Int := intLimits (-719162) 2932896

/-- Nanoseconds since the epoch from `TimestampValue::GetMinValue()` (1400-01-01)
to `GetMaxValue()` (9999-12-31 23:59:59.999999999); `Subtract`/`Add` of one
nanosecond step by one. -/
def TimestampMinMaxFilter.limits : Limits Int :=
  intLimits (-17987443200000000000) 253402300799999999999

/-- Unscaled `Decimal4Value`/`Decimal8Value`/`Decimal16Value` with the limits of
`int32_t`/`int64_t`/`__int128_t`, stepped by `value--`/`value++`. -/
def DecimalMinMaxFilter.limits4 : Limits Int := intLimits (-2^31) (2^31 - 1)
def DecimalMinMaxFilter.limits8 : Limits Int := intLimits (-2^63) (2^63 - 1)
def DecimalMinMaxFilter.limits16 : Limits Int := intLimits (-2^127) (2^127 - 1)

theorem intLimits_exact {lo hi : Int} (h : lo < hi) : (intLimits lo hi).Exact where
  lowest_lt_max := h
  le_subtractOne := by intro v t _ _ htv; simp only [intLimits]; omega
  addOne_le := by intro v t _ _ hvt; simp only [intLimits]; omega

theorem boolLimits_exact : BoolMinMaxFilter.limits.Exact where
  lowest_lt_max := Bool.false_lt_true
  le_subtractOne := by intro v t _ _ htv; cases t <;> cases v <;> simp_all [BoolMinMaxFilter.limits]
  addOne_le := by intro v t _ _ hvt; cases t <;> cases v <;> simp_all [BoolMinMaxFilter.limits]

/-- The soundness of a numeric filter type: every run of calls through one entry
point leaves a filter that is not always-false and overlaps every value of the
type that some call qualifies. -/
def NumericMinMaxFilter.Sound {α : Type} [LinearOrder α] (L : Limits α) : Prop :=
  ∀ (e : Entry) (calls : List (Call α)) (t : α), (∀ c ∈ calls, c.entry = e ∧ c.InRange L) →
    L.InRange t → (∃ c ∈ calls, c.Qualifies t) →
      NumericMinMaxFilter.alwaysFalse L (NumericMinMaxFilter.run L calls) = false ∧
      NumericMinMaxFilter.evalOverlap (NumericMinMaxFilter.run L calls) t t = true

def FlaggedMinMaxFilter.Sound {α : Type} [LinearOrder α] [Inhabited α] (L : Limits α) : Prop :=
  ∀ (e : Entry) (calls : List (Call α)) (t : α), (∀ c ∈ calls, c.entry = e ∧ c.InRange L) →
    L.InRange t → (∃ c ∈ calls, c.Qualifies t) →
      (FlaggedMinMaxFilter.run L calls).alwaysFalse = false ∧
      FlaggedMinMaxFilter.evalOverlap (FlaggedMinMaxFilter.run L calls) t t = true

theorem NumericMinMaxFilter.sound_of_exact {α : Type} [LinearOrder α] {L : Limits α}
    (hL : L.Exact) : NumericMinMaxFilter.Sound L := by
  intro e calls t _ ht h
  have hc := NumericMinMaxFilter.run_covers L hL calls t ht h
  exact ⟨NumericMinMaxFilter.alwaysFalse_false hL hc, NumericMinMaxFilter.evalOverlap_self hc⟩

theorem FlaggedMinMaxFilter.sound_of_exact {α : Type} [LinearOrder α] [Inhabited α]
    {L : Limits α} (hL : L.Exact) : FlaggedMinMaxFilter.Sound L := by
  intro e calls t hcalls ht h
  have hc := FlaggedMinMaxFilter.run_covers L hL e calls (fun c hc => (hcalls c hc).1) t ht h
  exact ⟨hc.1, FlaggedMinMaxFilter.evalOverlap_self hc⟩

theorem minMaxFilter_sound :
    NumericMinMaxFilter.Sound BoolMinMaxFilter.limits ∧
    NumericMinMaxFilter.Sound TinyIntMinMaxFilter.limits ∧
    NumericMinMaxFilter.Sound SmallIntMinMaxFilter.limits ∧
    NumericMinMaxFilter.Sound IntMinMaxFilter.limits ∧
    NumericMinMaxFilter.Sound BigIntMinMaxFilter.limits ∧
    FlaggedMinMaxFilter.Sound TimestampMinMaxFilter.limits ∧
    FlaggedMinMaxFilter.Sound DateMinMaxFilter.limits ∧
    FlaggedMinMaxFilter.Sound DecimalMinMaxFilter.limits4 ∧
    FlaggedMinMaxFilter.Sound DecimalMinMaxFilter.limits8 :=
  ⟨NumericMinMaxFilter.sound_of_exact boolLimits_exact,
    NumericMinMaxFilter.sound_of_exact (intLimits_exact (by decide)),
    NumericMinMaxFilter.sound_of_exact (intLimits_exact (by decide)),
    NumericMinMaxFilter.sound_of_exact (intLimits_exact (by decide)),
    NumericMinMaxFilter.sound_of_exact (intLimits_exact (by decide)),
    FlaggedMinMaxFilter.sound_of_exact (intLimits_exact (by decide)),
    FlaggedMinMaxFilter.sound_of_exact (intLimits_exact (by decide)),
    FlaggedMinMaxFilter.sound_of_exact (intLimits_exact (by decide)),
    FlaggedMinMaxFilter.sound_of_exact (intLimits_exact (by decide))⟩

end Impala.MinMaxFilter
