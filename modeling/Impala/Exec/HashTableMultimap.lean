import Impala.Exec.HashTableInvariant
import Impala.Lib.Run

/-!
The hash table of joins and aggregations as a multimap, over whole runs of the calls
that change it. What a caller observes of a table with the invariant is its list of
rows: `FindProbeRow` followed by `NextDuplicate` yields the rows of one key, `Begin`
followed by `Next` yields every row, and `num_filled_buckets_` counts the keys.

A run starts from an empty table of `Create` and applies `Insert`, the aggregation's
`FindBuildRowBucket` with `SetTuple`, `ResizeBuckets` and `CheckAndResize`. Beside the
table it keeps the abstract multimap: the rows the calls reported stored. The caller
keeps the preconditions the header documents (a free bucket for every insert, no
second row of a key in a table that does not store duplicates, a power of two above
the filled buckets for `ResizeBuckets`); the table then holds exactly the multimap.
-/

set_option autoImplicit false

namespace Impala.HashTable

open Impala.BucketArray Impala.Run

variable {K ρ : Type} [DecidableEq K] {cfg : HashTableConfig K ρ}

/-! ## Observing a table -/

section Observe

variable {t : HashTable ρ}

end Observe

/-! ## What the callers' checks provide -/

section Checks

variable {t : HashTable ρ}

omit [DecidableEq K] in
theorem create_inv {n : Nat} (hn : ∃ k, n = 2^k) : Inv cfg (create n : HashTable ρ) where
  array := ArrayInv.empty hn
  count := by simp [create, filled]

omit [DecidableEq K] in
theorem stored_create (n : Nat) : stored (create n : HashTable ρ) = [] :=
  collect_of_none _ fun _ _ _ => rfl

end Checks

/-! ## Runs -/

/-- The calls that change a table, with the allocator's answers they take. -/
inductive Op (ρ : Type) where
  | insert (row : ρ) (growNodeArray : Bool)
  | findOrSetTuple (row : ρ)
  | resizeBuckets (numBuckets : Nat) (allocated : Bool)
  | checkAndResize (bucketsToFill : Nat) (allocated : Bool)

variable (cfg)

def Op.apply (t : HashTable ρ) : Op ρ → HashTable ρ × Bool
  | .insert row g => HashTable.insert cfg t row g
  | .findOrSetTuple row => HashTable.findOrSetTuple cfg t row
  | .resizeBuckets n allocated => HashTable.resizeBuckets cfg t n allocated
  | .checkAndResize toFill allocated => HashTable.checkAndResize cfg t toFill allocated

def Op.storedRow : Op ρ → Option ρ
  | .insert row _ => some row
  | .findOrSetTuple row => some row
  | .resizeBuckets _ _ => none
  | .checkAndResize _ _ => none

def step (s : HashTable ρ × List ρ) (op : Op ρ) : HashTable ρ × List ρ :=
  let r := op.apply cfg s.1
  (r.1, if r.2 then op.storedRow.toList ++ s.2 else s.2)

/-- The preconditions of the calls: a free bucket for every insert, which
`CheckAndResize` or `NumInsertsBeforeResize` provides; no row of a stored key for
`Insert` into a table that does not store duplicates; and the `DCHECK`s of
`ResizeBuckets`, a power of two above the filled buckets. -/
def Pre (s : HashTable ρ × List ρ) : Op ρ → Prop
  | .insert row _ => s.1.numFilledBuckets < s.1.numBuckets ∧
      (cfg.storesDuplicates = true ∨ ∀ r ∈ s.2, cfg.key r ≠ cfg.key row)
  | .findOrSetTuple _ => s.1.numFilledBuckets < s.1.numBuckets
  | .resizeBuckets n _ => (∃ k, n = 2^k) ∧ s.1.numFilledBuckets < n
  | .checkAndResize _ _ => True

/-- The table has the invariant and holds exactly the multimap. -/
structure RunInv (s : HashTable ρ × List ρ) : Prop where
  inv : Inv cfg s.1
  perm : (stored s.1).Perm s.2

variable {cfg}

section Run

variable {s : HashTable ρ × List ρ}

omit [DecidableEq K] in
theorem RunInv.start {n : Nat} (hn : ∃ k, n = 2^k) : RunInv cfg ((create n : HashTable ρ), []) :=
  ⟨create_inv hn, by rw [stored_create]⟩

omit [DecidableEq K] in
theorem RunInv.of_store {t t' : HashTable ρ} {log : List ρ} {row : ρ} {b : Bool}
    (hperm : (stored t).Perm log) (hinv' : Inv cfg t')
    (h : (stored t').Perm (if b then row :: stored t else stored t)) :
    RunInv cfg (t', if b then [row] ++ log else log) := by
  refine ⟨hinv', h.trans ?_⟩
  cases b
  · simpa using hperm
  · simpa using hperm

omit [DecidableEq K] in
theorem RunInv.of_keep {t t' : HashTable ρ} {log : List ρ} {b : Bool}
    (hperm : (stored t).Perm log) (hinv' : Inv cfg t') (h : (stored t').Perm (stored t)) :
    RunInv cfg (t', if b then [] ++ log else log) := by
  refine ⟨hinv', h.trans ?_⟩
  simpa using hperm

theorem RunInv.keep {op : Op ρ} (h : RunInv cfg s) (hpre : Pre cfg s op) :
    RunInv cfg (step cfg s op) := by
  obtain ⟨hinv, hperm⟩ := h
  cases op with
  | insert row g =>
    obtain ⟨hfree, hdup⟩ := hpre
    have hdup' : cfg.storesDuplicates = true ∨ ∀ r ∈ stored s.1, cfg.key r ≠ cfg.key row :=
      hdup.imp_right fun habs r hr => habs r (hperm.subset hr)
    obtain ⟨hinv', hperm'⟩ := hinv.insert_spec hfree hdup' g
    exact RunInv.of_store hperm hinv' hperm'
  | findOrSetTuple row =>
    obtain ⟨hinv', hperm', -⟩ := hinv.findOrSetTuple_spec hpre row
    exact RunInv.of_store hperm hinv' hperm'
  | resizeBuckets n allocated =>
    obtain ⟨hn, hfit⟩ := hpre
    obtain ⟨hinv', hperm'⟩ := hinv.resizeBuckets_spec hn hfit allocated
    exact RunInv.of_keep hperm hinv' hperm'
  | checkAndResize toFill allocated =>
    obtain ⟨hinv', hperm'⟩ := hinv.checkAndResize_spec toFill allocated
    exact RunInv.of_keep hperm hinv' hperm'

theorem RunInv.run (h : RunInv cfg s) (ops : List (Op ρ))
    (hadm : Admissible (step cfg) (Pre cfg) s ops) : RunInv cfg (ops.foldl (step cfg) s) :=
  foldl_keeps_admissible (step cfg) (RunInv cfg) (Pre cfg) (fun _ _ hpre h => h.keep hpre)
    ops s hadm h

/-- Rows keyed by their last decimal digit, hashed by the key, in a table that
stores duplicates and probes quadratically. -/
def digitKeys : HashTableConfig Nat Nat :=
  { quadraticProbing := true, storesDuplicates := true, maxNumBuckets := none,
    key := fun r => r % 10, hash := fun k => k }

end Run

end Impala.HashTable
