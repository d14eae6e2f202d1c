import Mathlib.Logic.Function.Basic
import Impala.Lib.Probing

/-!
The hash table of joins and aggregations (exec/hash-table.h, hash-table.inline.h,
hash-table.cc).

A filled bucket holds a row, or the head of a linked list of duplicate nodes whose
rows share its key; `hash_array_` holds each filled bucket's hash. `Probe` starts at
`hash & (num_buckets - 1)` and moves by linear or quadratic steps until it meets an
empty bucket, a bucket of the same hash whose row equals the key, or has made
`num_buckets` steps.

Rows are of a type `ρ`. `key` is the key `Equals` compares and `hash` what `HashRow`
computes from it, so that equal keys have equal hashes. The allocator is an oracle:
the operations that allocate take whether the allocation succeeds.
-/

set_option autoImplicit false

namespace Impala

/-- `HashTable::BucketData`: the row of a bucket, or its duplicate nodes from the
head of the list. -/
inductive BucketData (ρ : Type) where
  | htdata (row : ρ)
  | duplicates (nodes : List ρ)
  deriving DecidableEq, Repr

/-- A filled `HashTable::Bucket` with its `hash_array_` entry. -/
structure Bucket (ρ : Type) where
  hash : Nat
  bucketData : BucketData ρ
  deriving DecidableEq, Repr

namespace Bucket

variable {ρ : Type}

def hasDuplicates (b : Bucket ρ) : Bool :=
  match b.bucketData with
  | .htdata _ => false
  | .duplicates _ => true

def rows (b : Bucket ρ) : List ρ :=
  match b.bucketData with
  | .htdata r => [r]
  | .duplicates nodes => nodes

def duplicates (b : Bucket ρ) : List ρ :=
  match b.bucketData with
  | .htdata _ => []
  | .duplicates nodes => nodes

end Bucket

/-- The constants a table and its context fix. -/
structure HashTableConfig (K ρ : Type) where
  quadraticProbing : Bool
  storesDuplicates : Bool
  /-- `max_num_buckets_`; `none` is `-1`, no limit. -/
  maxNumBuckets : Option Nat
  key : ρ → K
  hash : K → Nat

structure HashTable (ρ : Type) where
  numBuckets : Nat
  /-- `buckets_`; `none` is a bucket that is not filled. -/
  buckets : Nat → Option (Bucket ρ)
  numFilledBuckets : Nat
  nodeRemainingCurrentPage : Nat

/-- The result of `HashTable::Probe`: the bucket index with `found`, or
`BUCKET_NOT_FOUND`. -/
inductive ProbeResult where
  | found (idx : Nat)
  | empty (idx : Nat)
  | notFound
  deriving DecidableEq, Repr

/-- `HashTable::Iterator`: `bucket_idx_` and the duplicate node `node_` points at,
as the list of the nodes linked from it; `[]` is NULL. -/
structure HashTable.Iterator (ρ : Type) where
  bucketIdx : Int
  node : List ρ
  deriving DecidableEq, Repr

namespace HashTable

variable {K ρ : Type} [DecidableEq K] (cfg : HashTableConfig K ρ)

def bucketNotFound : Int := -1

def endIter : Iterator ρ := ⟨bucketNotFound, []⟩

def Iterator.atEnd (it : Iterator ρ) : Bool := it.bucketIdx == bucketNotFound

def create (numBuckets : Nat) : HashTable ρ := ⟨numBuckets, fun _ => none, 0, 0⟩

/-! ## `Probe` -/

/-- The loop of `HashTable::Probe` at `step` and `bucket_idx`. `rowKey` is the key
`Equals` compares with when `COMPARE_ROW`, `none` otherwise; the row compared is the
bucket's first, as `GetRow` returns it. -/
def probeLoop (buckets : Nat → Option (Bucket ρ)) (numBuckets hash : Nat)
    (rowKey : Option K) : Nat → Nat → Nat → ProbeResult
  | 0, _, _ => .notFound
  | fuel + 1, step, idx =>
    match buckets idx with
    | none => .empty idx
    | some b =>
      if hash = b.hash ∧ rowKey.isSome ∧ b.rows.head?.map cfg.key = rowKey then .found idx
      else if step + 1 < numBuckets then
        probeLoop buckets numBuckets hash rowKey fuel (step + 1)
          ((idx + (if cfg.quadraticProbing then step + 1 else 1)) &&& (numBuckets - 1))
      else .notFound

def probe (buckets : Nat → Option (Bucket ρ)) (numBuckets hash : Nat) (rowKey : Option K) :
    ProbeResult :=
  probeLoop cfg buckets numBuckets hash rowKey numBuckets 0 (hash &&& (numBuckets - 1))

/-- The `bucket_idx` `Probe` looks at in its step `step`: `hash & (num_buckets - 1)` first,
then one jump on, of `step` buckets for quadratic probing and of one for linear. -/
def probeIdx (numBuckets hash : Nat) : Nat → Nat
  | 0 => hash &&& (numBuckets - 1)
  | step + 1 =>
    (probeIdx numBuckets hash step + (if cfg.quadraticProbing then step + 1 else 1)) &&&
      (numBuckets - 1)

/-! ## Inserting -/

def nodesPerPage : Nat := 65536 / 16

def fillBucket (t : HashTable ρ) (idx hash : Nat) (row : ρ) : HashTable ρ :=
  { t with
    buckets := Function.update t.buckets idx (some ⟨hash, .htdata row⟩)
    numFilledBuckets := t.numFilledBuckets + 1 }

/-- `HashTable::InsertDuplicateNode`, with the row that `Insert` then stores in the new
head node. A bucket without duplicates first moves its row into a node, so two nodes
are needed; `growNodeArray` is whether `GrowNodeArray` gets a page. `none` is the NULL
of a failed allocation, which changes no bucket. -/
def insertDuplicateNode (t : HashTable ρ) (idx : Nat) (row : ρ) (growNodeArray : Bool) :
    Option (HashTable ρ) :=
  match t.buckets idx with
  | none => none
  | some b =>
    let need := if b.hasDuplicates then 1 else 2
    let remaining : Option Nat :=
      if t.nodeRemainingCurrentPage < need then
        (if growNodeArray then some nodesPerPage else none)
      else some t.nodeRemainingCurrentPage
    remaining.map fun remaining =>
      { t with
        buckets := Function.update t.buckets idx (some ⟨b.hash, .duplicates (row :: b.rows)⟩)
        nodeRemainingCurrentPage := remaining - need }

def insert (t : HashTable ρ) (row : ρ) (growNodeArray : Bool) : HashTable ρ × Bool :=
  let k := cfg.key row
  match probe cfg t.buckets t.numBuckets (cfg.hash k) (some k) with
  | .found idx =>
    match insertDuplicateNode t idx row growNodeArray with
    | some t' => (t', true)
    | none => (t, false)
  | .empty idx => (fillBucket t idx (cfg.hash k) row, true)
  | .notFound => (t, false)

/-! ## Iterators -/

def nextFilledBucketLoop (t : HashTable ρ) : Nat → Nat → Option Nat
  | 0, _ => none
  | fuel + 1, idx =>
    if idx < t.numBuckets then
      if (t.buckets idx).isSome then some idx else nextFilledBucketLoop t fuel (idx + 1)
    else none

/-- The iterator at a filled bucket: its node list when the table stores
duplicates. -/
def iterAt (t : HashTable ρ) (idx : Nat) : Iterator ρ :=
  ⟨idx, if cfg.storesDuplicates then ((t.buckets idx).map Bucket.duplicates).getD [] else []⟩

def nextFilledBucket (t : HashTable ρ) (it : Iterator ρ) : Iterator ρ :=
  match nextFilledBucketLoop t t.numBuckets (it.bucketIdx + 1).toNat with
  | some idx => iterAt cfg t idx
  | none => endIter

def Iterator.onDuplicates (t : HashTable ρ) (it : Iterator ρ) : Bool :=
  cfg.storesDuplicates && ((t.buckets it.bucketIdx.toNat).map Bucket.hasDuplicates).getD false

def Iterator.getRow (t : HashTable ρ) (it : Iterator ρ) : Option ρ :=
  if it.onDuplicates cfg t then it.node.head?
  else match t.buckets it.bucketIdx.toNat with
    | some ⟨_, .htdata r⟩ => some r
    | _ => none

def Iterator.next (t : HashTable ρ) (it : Iterator ρ) : Iterator ρ :=
  if it.onDuplicates cfg t ∧ it.node.tail ≠ [] then { it with node := it.node.tail }
  else nextFilledBucket cfg t it

/-- `HashTable::FindBuildRowBucket`: the bucket of the key, or the empty bucket it
would go to, and `found`. -/
def findBuildRowBucket (t : HashTable ρ) (k : K) : Iterator ρ × Bool :=
  match probe cfg t.buckets t.numBuckets (cfg.hash k) (some k) with
  | .found idx => (iterAt cfg t idx, true)
  | .empty idx => (⟨idx, []⟩, false)
  | .notFound => (endIter, false)

def Iterator.setTuple (t : HashTable ρ) (it : Iterator ρ) (row : ρ) (hash : Nat) :
    HashTable ρ :=
  fillBucket t it.bucketIdx.toNat hash row

/-- The aggregation's insert of a new key: `FindBuildRowBucket`, then `SetTuple` on
the empty bucket when the key is not there. Returns whether the row was stored. -/
def findOrSetTuple (t : HashTable ρ) (row : ρ) : HashTable ρ × Bool :=
  let r := findBuildRowBucket cfg t (cfg.key row)
  if r.2 ∨ r.1.atEnd then (t, false)
  else (r.1.setTuple t row (cfg.hash (cfg.key row)), true)

/-! ## Resizing -/

/-- The copy loop of `ResizeBuckets`: the filled buckets, in index order, each into
the empty bucket `Probe` finds without comparing rows in the new array. -/
def resizeLoop (numBuckets : Nat) (old : Nat → Option (Bucket ρ)) :
    List Nat → (Nat → Option (Bucket ρ)) → (Nat → Option (Bucket ρ))
  | [], nb => nb
  | i :: is, nb =>
    match old i with
    | none => resizeLoop numBuckets old is nb
    | some b =>
      match probe cfg nb numBuckets b.hash none with
      | .empty j => resizeLoop numBuckets old is (Function.update nb j (some b))
      | _ => resizeLoop numBuckets old is nb

/-- `HashTable::ResizeBuckets`; `allocated` is whether both arrays are allocated.
Returns `got_memory`. -/
def resizeBuckets (t : HashTable ρ) (numBuckets : Nat) (allocated : Bool) :
    HashTable ρ × Bool :=
  if (cfg.maxNumBuckets.map fun m => decide (numBuckets > m)).getD false then (t, false)
  else if allocated then
    ({ t with
      numBuckets := numBuckets
      buckets := resizeLoop cfg numBuckets t.buckets (List.range t.numBuckets) fun _ => none },
      true)
  else (t, false)

/-- The loop of `CheckAndResize`: the least `shift` at which the projected fill factor
is at most `MAX_FILL_FACTOR = 0.75`; the shift of an `int64_t` stops at 64. -/
def checkAndResizeShift (filled toFill numBuckets : Nat) : Nat → Nat → Nat
  | 0, shift => shift
  | fuel + 1, shift =>
    if 4 * (filled + toFill) > 3 * (numBuckets <<< shift) then
      checkAndResizeShift filled toFill numBuckets fuel (shift + 1)
    else shift

def checkAndResize (t : HashTable ρ) (bucketsToFill : Nat) (allocated : Bool) :
    HashTable ρ × Bool :=
  let shift := checkAndResizeShift t.numFilledBuckets bucketsToFill t.numBuckets 64 0
  if shift > 0 then resizeBuckets cfg t (t.numBuckets <<< shift) allocated else (t, true)

end HashTable

end Impala
