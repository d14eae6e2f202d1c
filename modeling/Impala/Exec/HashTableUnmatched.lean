import Impala.Exec.HashTableMultimap

/-!
The walk over the entries no probe row matched (exec/hash-table.inline.h): `FirstUnmatched`
and `Iterator::NextUnmatched`, with which right and full outer joins output the build rows
that found no match (exec/partitioned-hash-join-node.cc).

An entry is a bucket without duplicate nodes, or one duplicate node, and each has the matched
flag that `Iterator::SetMatched` sets. `FirstUnmatched` reads `buckets_[bucket_idx]` right
after `NextFilledBucket`, which leaves `BUCKET_NOT_FOUND` on a table with no filled bucket: on
such a table it reads `buckets_[-1]` (`firstUnmatched_reads_before_buckets`). On a table with a
filled bucket, `FirstUnmatched` and then `NextUnmatched` until `AtEnd` visit exactly the
entries whose flag is unset, in bucket and node order, each once, and read only buckets of the
table (`RunInv.visitUnmatched_firstUnmatched`).
-/

set_option autoImplicit false

namespace Impala.HashTable

open Impala.BucketArray

variable {K ρ : Type} [DecidableEq K] (cfg : HashTableConfig K ρ)

/-- The matched flags: `bucket i` is bucket `i`'s, and `node i n` that of the duplicate node
of bucket `i` from which `n` nodes are linked, itself included. A node is known by the nodes
linked from it, as an iterator's `node` is. -/
structure MatchFlags where
  bucket : Nat → Bool
  node : Nat → Nat → Bool

/-- The read of `buckets_[bucket_idx]` that `HasDuplicates` and `IsMatched` make: an error
naming the index where it lies outside `[0, num_buckets)`, where what it reads is undefined. -/
def readBucket (t : HashTable ρ) (idx : Int) : Except Int Unit :=
  if 0 ≤ idx ∧ idx < t.numBuckets then .ok () else .error idx

def Iterator.isMatched (t : HashTable ρ) (m : MatchFlags) (it : Iterator ρ) : Bool :=
  if it.onDuplicates cfg t then m.node it.bucketIdx.toNat it.node.length
  else m.bucket it.bucketIdx.toNat

def Iterator.setMatched (t : HashTable ρ) (m : MatchFlags) (it : Iterator ρ) : MatchFlags :=
  let i := it.bucketIdx.toNat
  if it.onDuplicates cfg t then
    { m with node := Function.update m.node i (Function.update (m.node i) it.node.length true) }
  else { m with bucket := Function.update m.bucket i true }

/-- The first loop of `NextUnmatched`, from `node_->Next()`: the first node whose flag is
unset, or none where the list ends first. -/
def firstUnmatchedNode (matched : Nat → Bool) : List ρ → Option (List ρ)
  | [] => none
  | node@(_ :: next) => if !matched node.length then some node else firstUnmatchedNode matched next

/-- The inner loop of `NextUnmatched` at a bucket with duplicates: from `node_`, move on while
the node is matched and has a next one. -/
def skipMatchedNodes (matched : Nat → Bool) : List ρ → List ρ
  | [] => []
  | node@(_ :: next) =>
    if matched node.length && !next.isEmpty then skipMatchedNodes matched next else node

omit [DecidableEq K] in
theorem nextFilledBucket_eq (t : HashTable ρ) (it : Iterator ρ) :
    (nextFilledBucket cfg t it = endIter ∧
      ∀ i, (it.bucketIdx + 1).toNat ≤ i → i < t.numBuckets → t.buckets i = none) ∨
      ∃ j b, (it.bucketIdx + 1).toNat ≤ j ∧ j < t.numBuckets ∧ t.buckets j = some b ∧
        (∀ i, (it.bucketIdx + 1).toNat ≤ i → i < j → t.buckets i = none) ∧
        nextFilledBucket cfg t it = iterAt cfg t j := by
  unfold nextFilledBucket
  cases hloop : nextFilledBucketLoop t t.numBuckets (it.bucketIdx + 1).toNat with
  | none => exact Or.inl ⟨rfl, nextFilledBucketLoop_eq_none (by omega) hloop⟩
  | some j =>
    obtain ⟨h1, h2, h3, h4⟩ := nextFilledBucketLoop_eq_some hloop
    obtain ⟨b, hb⟩ := Option.isSome_iff_exists.1 h3
    exact Or.inr ⟨j, b, h1, h2, hb, h4, rfl⟩

omit [DecidableEq K] in
theorem nextFilledBucket_measure_lt (t : HashTable ρ) {it it' : Iterator ρ}
    (hidx : it'.bucketIdx = it.bucketIdx) (h : ¬ it.atEnd = true) :
    (if (nextFilledBucket cfg t it').atEnd then 0
      else t.numBuckets - ((nextFilledBucket cfg t it').bucketIdx + 1).toNat + 1) <
      if it.atEnd then 0 else t.numBuckets - (it.bucketIdx + 1).toNat + 1 := by
  rw [if_neg h, ← hidx]
  rcases nextFilledBucket_eq cfg t it' with ⟨hnext, -⟩ | ⟨j, b, h1, h2, -, -, hnext⟩
  · simp [hnext, endIter, Iterator.atEnd]
  · have hidx' : (iterAt cfg t j).bucketIdx = (j : Int) := rfl
    have hat : (iterAt cfg t j).atEnd = false := by
      simp [iterAt, Iterator.atEnd, bucketNotFound]
    rw [hnext, hat, hidx', if_neg Bool.false_ne_true]
    omega

/-- The `while (bucket_idx_ != BUCKET_NOT_FOUND)` loop of `NextUnmatched`, at the bucket
`NextFilledBucket` moved to. -/
def nextUnmatchedLoop (t : HashTable ρ) (m : MatchFlags) (it : Iterator ρ) :
    Except Int (Iterator ρ) :=
  if it.atEnd then .ok it
  else
    match readBucket t it.bucketIdx with
    | .error idx => .error idx
    | .ok () =>
      if !it.onDuplicates cfg t then
        if !m.bucket it.bucketIdx.toNat then .ok it
        else nextUnmatchedLoop t m (nextFilledBucket cfg t it)
      else
        let it' : Iterator ρ :=
          { it with node := skipMatchedNodes (m.node it.bucketIdx.toNat) it.node }
        if !it'.isMatched cfg t m then .ok it'
        else nextUnmatchedLoop t m (nextFilledBucket cfg t it')
termination_by if it.atEnd then 0 else t.numBuckets - (it.bucketIdx + 1).toNat + 1
decreasing_by
  all_goals exact nextFilledBucket_measure_lt cfg t rfl ‹_›

def Iterator.nextUnmatched (t : HashTable ρ) (m : MatchFlags) (it : Iterator ρ) :
    Except Int (Iterator ρ) :=
  match readBucket t it.bucketIdx with
  | .error idx => .error idx
  | .ok () =>
    let node :=
      if it.onDuplicates cfg t then firstUnmatchedNode (m.node it.bucketIdx.toNat) it.node.tail
      else none
    match node with
    | some node => .ok { it with node }
    | none => nextUnmatchedLoop cfg t m (nextFilledBucket cfg t it)

def firstUnmatched (t : HashTable ρ) (m : MatchFlags) : Except Int (Iterator ρ) :=
  let it := nextFilledBucket cfg t endIter
  match readBucket t it.bucketIdx with
  | .error idx => .error idx
  | .ok () =>
    let hasDuplicates := it.onDuplicates cfg t
    if (!hasDuplicates && m.bucket it.bucketIdx.toNat) ||
        (hasDuplicates && m.node it.bucketIdx.toNat it.node.length) then
      it.nextUnmatched cfg t m
    else .ok it

/-- The entries an output loop visits from `it`: each iterator until `AtEnd`, with
`NextUnmatched` between them; `fuel` bounds the number of calls. -/
def visitUnmatched (t : HashTable ρ) (m : MatchFlags) :
    Nat → Iterator ρ → Except Int (List (Iterator ρ))
  | 0, _ => .ok []
  | fuel + 1, it =>
    if it.atEnd then .ok []
    else
      match it.nextUnmatched cfg t m with
      | .error idx => .error idx
      | .ok next => (visitUnmatched t m fuel next).map (it :: ·)

/-! ## The entries -/

def linkedNodes : List ρ → List (List ρ)
  | [] => []
  | node@(_ :: next) => node :: linkedNodes next

/-- The entries of bucket `i`, as the iterators at them: its duplicate nodes from the head, or
the bucket itself. -/
def entriesAt (t : HashTable ρ) (i : Nat) : List (Iterator ρ) :=
  match t.buckets i with
  | none => []
  | some _ =>
    if (iterAt cfg t i).onDuplicates cfg t then
      (linkedNodes (iterAt cfg t i).node).map fun node => ⟨i, node⟩
    else [iterAt cfg t i]

def entriesFrom (t : HashTable ρ) (s : Nat) : List (Iterator ρ) :=
  (List.range' s (t.numBuckets - s)).flatMap (entriesAt cfg t)

/-- The entries after an iterator's: the rest of its bucket's nodes, then the later
buckets'. -/
def entriesAfter (t : HashTable ρ) (it : Iterator ρ) : List (Iterator ρ) :=
  (if it.onDuplicates cfg t then (linkedNodes it.node.tail).map fun node => ⟨it.bucketIdx, node⟩
    else []) ++ entriesFrom cfg t (it.bucketIdx.toNat + 1)

def unmatchedOf (t : HashTable ρ) (m : MatchFlags) (es : List (Iterator ρ)) : List (Iterator ρ) :=
  es.filter fun it => !it.isMatched cfg t m

/-- `it` stands at the first of the entries `es`, and the others are the unmatched entries
after it; or there is none and `it` is at its end. -/
def AtFirst (t : HashTable ρ) (m : MatchFlags) (it : Iterator ρ) : List (Iterator ρ) → Prop
  | [] => it.atEnd = true
  | e :: es => it = e ∧ it.atEnd = false ∧ ItOK cfg t it ∧
      unmatchedOf cfg t m (entriesAfter cfg t it) = es

/-- Where the loop of `NextUnmatched` starts once `NextFilledBucket` has passed the buckets
before `s`: at the end with no entry from `s` on, or at a filled bucket with the same entries
from it on as from `s`. -/
def LoopStart (t : HashTable ρ) (it : Iterator ρ) (s : Nat) : Prop :=
  (it.atEnd = true ∧ entriesFrom cfg t s = []) ∨
    ∃ j b, it = iterAt cfg t j ∧ j < t.numBuckets ∧ t.buckets j = some b ∧
      entriesFrom cfg t s = entriesFrom cfg t j

variable {cfg}

/-! ## A table with no filled bucket -/

section Empty

variable {t : HashTable ρ}

omit [DecidableEq K] in
theorem Inv.buckets_eq_none (hinv : Inv cfg t) (hnil : stored t = []) :
    ∀ i < t.numBuckets, t.buckets i = none := by
  intro i hi
  cases hb : t.buckets i with
  | none => rfl
  | some b =>
    obtain ⟨r, rest, hr⟩ := List.exists_cons_of_ne_nil (hinv.rows_ne_nil hb)
    have hmem : r ∈ stored t := mem_stored.2 ⟨i, hi, b, hb, by simp [hr]⟩
    simp [hnil] at hmem

omit [DecidableEq K] in
/-- A table reachable by the calls that stores no row: `NextFilledBucket` leaves
`BUCKET_NOT_FOUND`, and `FirstUnmatched` reads `buckets_[-1]`. -/
theorem firstUnmatched_reads_before_buckets {s : HashTable ρ × List ρ} (h : RunInv cfg s)
    (hempty : s.2 = []) (m : MatchFlags) : firstUnmatched cfg s.1 m = .error (-1) := by
  have hnil : stored s.1 = [] := List.Perm.eq_nil (hempty ▸ h.perm)
  have hnone := h.inv.buckets_eq_none hnil
  rcases nextFilledBucket_eq cfg s.1 endIter with ⟨hend, -⟩ | ⟨j, b, -, hj, hb, -, -⟩
  · unfold firstUnmatched
    rw [hend]
    simp [readBucket, endIter, bucketNotFound]
  · simp [hnone j hj] at hb

theorem firstUnmatched_reads_before_buckets_create :
    RunInv digitKeys ((create 8 : HashTable Nat), []) ∧
      firstUnmatched digitKeys (create 8 : HashTable Nat) ⟨fun _ => false, fun _ _ => false⟩ =
        .error (-1) :=
  ⟨RunInv.start ⟨3, rfl⟩, firstUnmatched_reads_before_buckets (RunInv.start ⟨3, rfl⟩) rfl _⟩

end Empty

/-! ## The loops over duplicate nodes -/

section Nodes

variable {matched : Nat → Bool}

theorem length_le_of_mem_linkedNodes {l node : List ρ} (h : node ∈ linkedNodes l) :
    node.length ≤ l.length := by
  induction l with
  | nil => simp [linkedNodes] at h
  | cons x next ih =>
    rcases List.mem_cons.1 h with rfl | h
    · exact le_rfl
    · exact (ih h).trans (Nat.le_succ _)

theorem nodup_linkedNodes (l : List ρ) : (linkedNodes l).Nodup := by
  induction l with
  | nil => exact List.nodup_nil
  | cons x next ih =>
    refine List.nodup_cons.2 ⟨fun hmem => ?_, ih⟩
    have := length_le_of_mem_linkedNodes hmem
    simp at this

theorem map_head?_linkedNodes (l : List ρ) : (linkedNodes l).map List.head? = l.map some := by
  induction l with
  | nil => rfl
  | cons x next ih => simp [linkedNodes, ih]

theorem filter_linkedNodes_of_firstUnmatchedNode_some {nodes node : List ρ}
    (h : firstUnmatchedNode matched nodes = some node) :
    node ≠ [] ∧ (linkedNodes nodes).filter (fun l => !matched l.length) =
      node :: (linkedNodes node.tail).filter (fun l => !matched l.length) := by
  induction nodes with
  | nil => simp [firstUnmatchedNode] at h
  | cons x next ih =>
    cases hm : matched (x :: next).length
    · simp only [firstUnmatchedNode, hm, Bool.not_false, if_true, Option.some.injEq] at h
      subst h
      refine ⟨List.cons_ne_nil x next, ?_⟩
      simp only [linkedNodes, List.filter_cons, hm, Bool.not_false, if_true, List.tail_cons]
    · simp only [firstUnmatchedNode, hm, Bool.not_true, Bool.false_eq_true, if_false] at h
      simp only [linkedNodes, List.filter_cons, hm, Bool.not_true, Bool.false_eq_true, if_false]
      exact ih h

theorem filter_linkedNodes_of_firstUnmatchedNode_none {nodes : List ρ}
    (h : firstUnmatchedNode matched nodes = none) :
    (linkedNodes nodes).filter (fun l => !matched l.length) = [] := by
  induction nodes with
  | nil => rfl
  | cons x next ih =>
    cases hm : matched (x :: next).length
    · simp only [firstUnmatchedNode, hm, Bool.not_false, if_true, reduceCtorEq] at h
    · simp only [firstUnmatchedNode, hm, Bool.not_true, Bool.false_eq_true, if_false] at h
      simp only [linkedNodes, List.filter_cons, hm, Bool.not_true, Bool.false_eq_true, if_false]
      exact ih h

theorem skipMatchedNodes_ne_nil {nodes : List ρ} (h : nodes ≠ []) :
    skipMatchedNodes matched nodes ≠ [] := by
  induction nodes with
  | nil => exact absurd rfl h
  | cons x next ih =>
    rw [skipMatchedNodes]
    split
    · next hc => exact ih fun hn => by simp [hn] at hc
    · exact List.cons_ne_nil x next

theorem filter_linkedNodes_skipMatchedNodes {nodes : List ρ} (h : nodes ≠ []) :
    (linkedNodes nodes).filter (fun l => !matched l.length) =
      if matched (skipMatchedNodes matched nodes).length then []
      else skipMatchedNodes matched nodes ::
        (linkedNodes (skipMatchedNodes matched nodes).tail).filter (fun l => !matched l.length) := by
  induction nodes with
  | nil => exact absurd rfl h
  | cons x next ih =>
    cases hm : matched (x :: next).length
    · rw [skipMatchedNodes]
      simp only [hm, Bool.false_and, Bool.false_eq_true, if_false, linkedNodes, List.filter_cons,
        Bool.not_false, if_true, List.tail_cons]
    · cases next with
      | nil =>
        rw [skipMatchedNodes]
        simp only [hm, List.isEmpty_nil, Bool.not_true, Bool.and_false, Bool.false_eq_true,
          if_false, if_true, linkedNodes, List.filter_cons, List.filter_nil]
      | cons y rest =>
        rw [skipMatchedNodes]
        simp only [hm, List.isEmpty_cons, Bool.not_false, Bool.and_self, if_true]
        rw [← ih (List.cons_ne_nil y rest), linkedNodes, List.filter_cons]
        simp only [hm, Bool.not_true, Bool.false_eq_true, if_false]

end Nodes

/-! ## The walk -/

section Walk

variable {t : HashTable ρ} {m : MatchFlags}

omit [DecidableEq K] in
@[simp] theorem iterAt_bucketIdx (j : Nat) : (iterAt cfg t j).bucketIdx = j := rfl

omit [DecidableEq K] in
@[simp] theorem iterAt_atEnd (j : Nat) : (iterAt cfg t j).atEnd = false := by
  simp [iterAt, Iterator.atEnd, bucketNotFound]

omit [DecidableEq K] in
theorem readBucket_of_lt {idx : Int} {j : Nat} (hidx : idx = j) (hj : j < t.numBuckets) :
    readBucket t idx = .ok () := by
  simp [readBucket, hidx, hj]

omit [DecidableEq K] in
theorem entriesAt_of_none {i : Nat} (h : t.buckets i = none) : entriesAt cfg t i = [] := by
  simp [entriesAt, h]

omit [DecidableEq K] in
theorem entriesFrom_of_le {s : Nat} (h : t.numBuckets ≤ s) : entriesFrom cfg t s = [] := by
  simp [entriesFrom, Nat.sub_eq_zero_of_le h]

omit [DecidableEq K] in
theorem entriesFrom_succ {s : Nat} (hs : s < t.numBuckets) :
    entriesFrom cfg t s = entriesAt cfg t s ++ entriesFrom cfg t (s + 1) := by
  rw [entriesFrom, show t.numBuckets - s = (t.numBuckets - (s + 1)) + 1 by omega,
    List.range'_succ, List.flatMap_cons]
  rfl

omit [DecidableEq K] in
theorem entriesFrom_skip {s j : Nat} (hsj : s ≤ j) (h : ∀ i, s ≤ i → i < j → t.buckets i = none) :
    entriesFrom cfg t s = entriesFrom cfg t j := by
  induction j, hsj using Nat.le_induction with
  | base => rfl
  | succ j hsj ih =>
    rw [ih fun i h1 h2 => h i h1 (by omega)]
    by_cases hj : j < t.numBuckets
    · rw [entriesFrom_succ hj, entriesAt_of_none (h j hsj (by omega)), List.nil_append]
    · rw [entriesFrom_of_le (by omega), entriesFrom_of_le (by omega)]

omit [DecidableEq K] in
theorem entriesFrom_of_none {s : Nat} (h : ∀ i, s ≤ i → i < t.numBuckets → t.buckets i = none) :
    entriesFrom cfg t s = [] := by
  by_cases hs : s ≤ t.numBuckets
  · rw [entriesFrom_skip hs h, entriesFrom_of_le le_rfl]
  · exact entriesFrom_of_le (by omega)

omit [DecidableEq K] in
theorem Inv.iterAt_node_ne_nil (hinv : Inv cfg t) {j : Nat} {b : Bucket ρ} (hj : j < t.numBuckets)
    (hb : t.buckets j = some b) (hod : (iterAt cfg t j).onDuplicates cfg t = true) :
    (iterAt cfg t j).node ≠ [] := by
  rcases (hinv.iterAt_rest hj hb).2 with hend | ⟨i, b', -, -, -, hnode⟩
  · simp at hend
  · exact hnode hod

omit [DecidableEq K] in
theorem Inv.entriesFrom_iterAt (hinv : Inv cfg t) {j : Nat} {b : Bucket ρ} (hj : j < t.numBuckets)
    (hb : t.buckets j = some b) :
    entriesFrom cfg t j = iterAt cfg t j :: entriesAfter cfg t (iterAt cfg t j) := by
  rw [entriesFrom_succ hj, entriesAfter, iterAt_bucketIdx, Int.toNat_natCast]
  simp only [entriesAt, hb]
  by_cases hod : (iterAt cfg t j).onDuplicates cfg t = true
  · obtain ⟨x, rest, hnode⟩ := List.exists_cons_of_ne_nil (hinv.iterAt_node_ne_nil hj hb hod)
    have hit : iterAt cfg t j = ⟨j, x :: rest⟩ := by rw [← hnode]; rfl
    rw [if_pos hod, if_pos hod, hnode]
    simp only [linkedNodes, List.map_cons, List.tail_cons, List.cons_append]
    rw [hit]
  · rw [if_neg hod, if_neg hod]
    rfl

omit [DecidableEq K] in
theorem unmatchedOf_map_nodes {j : Nat} (hod : (iterAt cfg t j).onDuplicates cfg t = true)
    (ls : List (List ρ)) :
    unmatchedOf cfg t m (ls.map fun node => ⟨j, node⟩) =
      (ls.filter fun l => !m.node j l.length).map fun node => ⟨j, node⟩ := by
  have hod' : ∀ l : List ρ, (⟨j, l⟩ : Iterator ρ).onDuplicates cfg t = true := fun _ => hod
  rw [unmatchedOf, List.filter_map]
  congr 2
  funext l
  simp [Iterator.isMatched, hod' l]

omit [DecidableEq K] in
theorem loopStart_nextFilledBucket (it : Iterator ρ) {s : Nat} (hs : (it.bucketIdx + 1).toNat = s) :
    LoopStart cfg t (nextFilledBucket cfg t it) s := by
  rcases nextFilledBucket_eq cfg t it with ⟨hend, hnone⟩ | ⟨j, b, hsj, hj, hb, hgap, hnext⟩
  · left
    rw [hend]
    exact ⟨rfl, entriesFrom_of_none (hs ▸ hnone)⟩
  · exact Or.inr ⟨j, b, hnext, hj, hb, entriesFrom_skip (hs ▸ hsj) (hs ▸ hgap)⟩

omit [DecidableEq K] in
theorem unmatchedOf_append (es es' : List (Iterator ρ)) :
    unmatchedOf cfg t m (es ++ es') = unmatchedOf cfg t m es ++ unmatchedOf cfg t m es' :=
  List.filter_append es es'

omit [DecidableEq K] in
theorem entriesAfter_node {j : Nat} {node : List ρ}
    (hod : (iterAt cfg t j).onDuplicates cfg t = true) :
    entriesAfter cfg t ⟨j, node⟩ =
      (linkedNodes node.tail).map (fun l => ⟨j, l⟩) ++ entriesFrom cfg t (j + 1) := by
  have hod' : (⟨j, node⟩ : Iterator ρ).onDuplicates cfg t = true := hod
  rw [entriesAfter, if_pos hod', Int.toNat_natCast]

omit [DecidableEq K] in
theorem Inv.unmatchedOf_entriesFrom_of_matched (hinv : Inv cfg t) {j : Nat} {b : Bucket ρ}
    (hj : j < t.numBuckets) (hb : t.buckets j = some b)
    (hmatched : (iterAt cfg t j).isMatched cfg t m = true) :
    unmatchedOf cfg t m (entriesFrom cfg t j) =
      unmatchedOf cfg t m (entriesAfter cfg t (iterAt cfg t j)) := by
  rw [hinv.entriesFrom_iterAt hj hb, unmatchedOf, List.filter_cons_of_neg (by simp [hmatched])]
  rfl

omit [DecidableEq K] in
theorem Inv.atFirst_iterAt (hinv : Inv cfg t) {j : Nat} {b : Bucket ρ} (hj : j < t.numBuckets)
    (hb : t.buckets j = some b) (hunmatched : (iterAt cfg t j).isMatched cfg t m = false) :
    AtFirst cfg t m (iterAt cfg t j) (unmatchedOf cfg t m (entriesFrom cfg t j)) := by
  rw [hinv.entriesFrom_iterAt hj hb, unmatchedOf, List.filter_cons_of_pos (by simp [hunmatched])]
  exact ⟨rfl, iterAt_atEnd j, (hinv.iterAt_rest hj hb).2, rfl⟩

omit [DecidableEq K] in
theorem Inv.unmatchedOf_entriesFrom_skip (hinv : Inv cfg t) {j : Nat} {b : Bucket ρ}
    (hj : j < t.numBuckets) (hb : t.buckets j = some b)
    (hod : (iterAt cfg t j).onDuplicates cfg t = true) :
    unmatchedOf cfg t m (entriesFrom cfg t j) =
      if m.node j (skipMatchedNodes (m.node j) (iterAt cfg t j).node).length then
        unmatchedOf cfg t m (entriesFrom cfg t (j + 1))
      else ⟨j, skipMatchedNodes (m.node j) (iterAt cfg t j).node⟩ ::
        unmatchedOf cfg t m (entriesAfter cfg t ⟨j, skipMatchedNodes (m.node j) (iterAt cfg t j).node⟩) := by
  have hentries : entriesAt cfg t j =
      (linkedNodes (iterAt cfg t j).node).map fun node => ⟨j, node⟩ := by
    simp only [entriesAt, hb, if_pos hod]
  rw [entriesFrom_succ hj, unmatchedOf_append, hentries, unmatchedOf_map_nodes hod,
    filter_linkedNodes_skipMatchedNodes (hinv.iterAt_node_ne_nil hj hb hod), entriesAfter_node hod]
  by_cases hm : m.node j (skipMatchedNodes (m.node j) (iterAt cfg t j).node).length = true
  · simp only [hm, if_true, List.map_nil, List.nil_append]
  · simp only [hm, Bool.false_eq_true, if_false, List.map_cons, List.cons_append,
      unmatchedOf_append, unmatchedOf_map_nodes hod]

omit [DecidableEq K] in
@[simp] theorem atEnd_mk (j : Nat) (l : List ρ) : (⟨j, l⟩ : Iterator ρ).atEnd = false := by
  simp [Iterator.atEnd, bucketNotFound]

omit [DecidableEq K] in
theorem isMatched_node {j : Nat} (hod : (iterAt cfg t j).onDuplicates cfg t = true) (l : List ρ) :
    (⟨j, l⟩ : Iterator ρ).isMatched cfg t m = m.node j l.length := by
  have hod' : (⟨j, l⟩ : Iterator ρ).onDuplicates cfg t = true := hod
  simp [Iterator.isMatched, hod']

omit [DecidableEq K] in
theorem entriesAfter_of_not_onDuplicates {it : Iterator ρ} (hod : it.onDuplicates cfg t = false) :
    entriesAfter cfg t it = entriesFrom cfg t (it.bucketIdx.toNat + 1) := by
  simp [entriesAfter, hod]

omit [DecidableEq K] in
theorem LoopStart.iterAt {it : Iterator ρ} {s : Nat} (hstart : LoopStart cfg t it s)
    (hend : ¬ it.atEnd = true) :
    ∃ j b, it = iterAt cfg t j ∧ j < t.numBuckets ∧ t.buckets j = some b ∧
      entriesFrom cfg t s = entriesFrom cfg t j := by
  rcases hstart with ⟨hend', -⟩ | h
  · exact absurd hend' hend
  · exact h

omit [DecidableEq K] in
theorem Inv.nextUnmatchedLoop_spec (hinv : Inv cfg t) (m : MatchFlags) (it : Iterator ρ)
    {s : Nat} (hstart : LoopStart cfg t it s) :
    ∃ it', nextUnmatchedLoop cfg t m it = .ok it' ∧
      AtFirst cfg t m it' (unmatchedOf cfg t m (entriesFrom cfg t s)) := by
  fun_induction nextUnmatchedLoop cfg t m it generalizing s with
  | case1 it hend =>
    rcases hstart with ⟨-, hnil⟩ | ⟨j, b, rfl, -, -, -⟩
    · exact ⟨it, rfl, by rw [hnil]; exact hend⟩
    · simp at hend
  | case2 it hend idx hread =>
    obtain ⟨j, b, rfl, hj, -, -⟩ := hstart.iterAt hend
    rw [readBucket_of_lt (iterAt_bucketIdx j) hj] at hread
    cases hread
  | case3 it hend _ hod hbucket =>
    obtain ⟨j, b, rfl, hj, hb, hs⟩ := hstart.iterAt hend
    have hunmatched : (iterAt cfg t j).isMatched cfg t m = false := by
      simp_all [Iterator.isMatched]
    exact ⟨_, rfl, hs ▸ hinv.atFirst_iterAt hj hb hunmatched⟩
  | case4 it hend _ hod hbucket ih =>
    obtain ⟨j, b, rfl, hj, hb, hs⟩ := hstart.iterAt hend
    have hod' : (iterAt cfg t j).onDuplicates cfg t = false := by simpa using hod
    have hmatched : (iterAt cfg t j).isMatched cfg t m = true := by
      simp_all [Iterator.isMatched]
    rw [hs, hinv.unmatchedOf_entriesFrom_of_matched hj hb hmatched,
      entriesAfter_of_not_onDuplicates hod', iterAt_bucketIdx, Int.toNat_natCast]
    exact ih (loopStart_nextFilledBucket _ (by simp))
  | case5 it hend _ hod it' =>
    rename_i hunmatched
    obtain ⟨j, b, rfl, hj, hb, hs⟩ := hstart.iterAt hend
    have hod' : (iterAt cfg t j).onDuplicates cfg t = true := by simpa using hod
    have hnode : m.node j (skipMatchedNodes (m.node j) (iterAt cfg t j).node).length = false := by
      have h : (!(⟨j, skipMatchedNodes (m.node j) (iterAt cfg t j).node⟩ : Iterator ρ).isMatched
          cfg t m) = true := hunmatched
      rw [← isMatched_node hod']
      simpa using h
    refine ⟨_, rfl, ?_⟩
    rw [hs, hinv.unmatchedOf_entriesFrom_skip hj hb hod', hnode, if_neg Bool.false_ne_true]
    exact ⟨rfl, atEnd_mk _ _,
      Or.inr ⟨j, b, rfl, hj, hb, fun _ => skipMatchedNodes_ne_nil (hinv.iterAt_node_ne_nil hj hb hod')⟩,
      rfl⟩
  | case6 it hend _ hod it' hmatched =>
    rename_i ih
    obtain ⟨j, b, rfl, hj, hb, hs⟩ := hstart.iterAt hend
    have hod' : (iterAt cfg t j).onDuplicates cfg t = true := by simpa using hod
    have hnode : m.node j (skipMatchedNodes (m.node j) (iterAt cfg t j).node).length = true := by
      have h : ¬ (!(⟨j, skipMatchedNodes (m.node j) (iterAt cfg t j).node⟩ : Iterator ρ).isMatched
          cfg t m) = true := hmatched
      rw [← isMatched_node hod']
      simpa using h
    rw [hs, hinv.unmatchedOf_entriesFrom_skip hj hb hod', if_pos hnode]
    exact ih (loopStart_nextFilledBucket _ (by show ((j : Int) + 1).toNat = j + 1; omega))

omit [DecidableEq K] in
theorem Inv.nextUnmatched_spec (hinv : Inv cfg t) (m : MatchFlags) {it : Iterator ρ}
    (hok : ItOK cfg t it) (hend : it.atEnd = false) :
    ∃ it', it.nextUnmatched cfg t m = .ok it' ∧
      AtFirst cfg t m it' (unmatchedOf cfg t m (entriesAfter cfg t it)) := by
  rcases hok with hend' | ⟨i, b, hi, hin, hb, hnode⟩
  · rw [hend'] at hend
    cases hend
  obtain ⟨idx, l⟩ := it
  simp only at hi hnode
  subst hi
  have hstart : LoopStart cfg t (nextFilledBucket cfg t ⟨i, l⟩) (i + 1) :=
    loopStart_nextFilledBucket _ (by simp only; omega)
  unfold Iterator.nextUnmatched
  rw [readBucket_of_lt rfl hin]
  cases hod : (⟨i, l⟩ : Iterator ρ).onDuplicates cfg t
  · simp only [Bool.false_eq_true, if_false]
    rw [entriesAfter_of_not_onDuplicates hod, Int.toNat_natCast]
    exact hinv.nextUnmatchedLoop_spec m _ hstart
  · have hod' : (iterAt cfg t i).onDuplicates cfg t = true := hod
    rw [entriesAfter_node hod', unmatchedOf_append, unmatchedOf_map_nodes hod']
    simp only [if_true, Int.toNat_natCast]
    cases hfirst : firstUnmatchedNode (m.node i) l.tail with
    | none =>
      rw [filter_linkedNodes_of_firstUnmatchedNode_none hfirst, List.map_nil, List.nil_append]
      exact hinv.nextUnmatchedLoop_spec m _ hstart
    | some node =>
      obtain ⟨hne, hfilter⟩ := filter_linkedNodes_of_firstUnmatchedNode_some hfirst
      refine ⟨⟨i, node⟩, rfl, ?_⟩
      rw [hfilter, List.map_cons, List.cons_append]
      refine ⟨rfl, atEnd_mk _ _, Or.inr ⟨i, b, rfl, hin, hb, fun _ => hne⟩, ?_⟩
      rw [entriesAfter_node hod', unmatchedOf_append, unmatchedOf_map_nodes hod']

omit [DecidableEq K] in
theorem Inv.visitUnmatched_of_atFirst (hinv : Inv cfg t) (m : MatchFlags) :
    ∀ (fuel : Nat) (it : Iterator ρ) (es : List (Iterator ρ)), AtFirst cfg t m it es →
      es.length < fuel → visitUnmatched cfg t m fuel it = .ok es := by
  intro fuel
  induction fuel with
  | zero => intro _ _ _ h; omega
  | succ fuel ih =>
    intro it es hat hlen
    cases es with
    | nil =>
      have hend : it.atEnd = true := hat
      simp [visitUnmatched, hend]
    | cons e es =>
      obtain ⟨rfl, hend, hok, hrest⟩ := hat
      obtain ⟨it', hnext, hat'⟩ := hinv.nextUnmatched_spec m hok hend
      rw [hrest] at hat'
      rw [visitUnmatched, hend, if_neg Bool.false_ne_true, hnext]
      simp only
      rw [ih it' es hat' (by simp at hlen; omega)]
      rfl

omit [DecidableEq K] in
theorem Inv.firstUnmatched_spec (hinv : Inv cfg t) (m : MatchFlags) {i : Nat} {b : Bucket ρ}
    (hb : t.buckets i = some b) :
    ∃ it, firstUnmatched cfg t m = .ok it ∧
      AtFirst cfg t m it (unmatchedOf cfg t m (entriesFrom cfg t 0)) := by
  have hin := hinv.array.lt_of_some hb
  have hstart : ((endIter : Iterator ρ).bucketIdx + 1).toNat = 0 := by
    simp [endIter, bucketNotFound]
  rcases nextFilledBucket_eq cfg t (endIter : Iterator ρ) with ⟨-, hnone⟩ | ⟨j, b', -, hj, hb', hgap, hnext⟩
  · simp [hnone i (by omega) hin] at hb
  have hs : entriesFrom cfg t 0 = entriesFrom cfg t j :=
    entriesFrom_skip (Nat.zero_le j) fun i h1 h2 => hgap i (by omega) h2
  have hcond : ((!(iterAt cfg t j).onDuplicates cfg t && m.bucket (iterAt cfg t j).bucketIdx.toNat) ||
      ((iterAt cfg t j).onDuplicates cfg t &&
        m.node (iterAt cfg t j).bucketIdx.toNat (iterAt cfg t j).node.length)) =
      (iterAt cfg t j).isMatched cfg t m := by
    cases hod : (iterAt cfg t j).onDuplicates cfg t <;> simp [Iterator.isMatched, hod]
  unfold firstUnmatched
  simp only [hnext, readBucket_of_lt (iterAt_bucketIdx j) hj]
  rw [hcond, hs]
  cases hm : (iterAt cfg t j).isMatched cfg t m
  · exact ⟨_, rfl, hinv.atFirst_iterAt hj hb' hm⟩
  · rw [hinv.unmatchedOf_entriesFrom_of_matched hj hb' hm]
    exact hinv.nextUnmatched_spec m (hinv.iterAt_rest hj hb').2 (iterAt_atEnd j)

end Walk

/-! ## The entries are the rows -/

section Rows

variable {t : HashTable ρ}

omit [DecidableEq K] in
theorem bucketIdx_of_mem_entriesAt {i : Nat} {e : Iterator ρ} (h : e ∈ entriesAt cfg t i) :
    e.bucketIdx = i := by
  unfold entriesAt at h
  split at h
  · simp at h
  · split at h
    · obtain ⟨node, -, rfl⟩ := List.mem_map.1 h
      rfl
    · rw [List.mem_singleton.1 h]
      rfl

omit [DecidableEq K] in
theorem nodup_entriesAt (i : Nat) : (entriesAt cfg t i).Nodup := by
  unfold entriesAt
  split
  · exact List.nodup_nil
  · split
    · refine (nodup_linkedNodes _).map fun a a' h => ?_
      simpa using h
    · exact List.nodup_singleton _

omit [DecidableEq K] in
theorem nodup_entriesFrom (s : Nat) : (entriesFrom cfg t s).Nodup := by
  rw [entriesFrom, List.nodup_flatMap]
  refine ⟨fun i _ => nodup_entriesAt i, (List.pairwise_lt_range' 1).imp fun hlt => ?_⟩
  intro e he he'
  have := (bucketIdx_of_mem_entriesAt he).symm.trans (bucketIdx_of_mem_entriesAt he')
  omega

omit [DecidableEq K] in
theorem Inv.map_getRow_entriesAt (hinv : Inv cfg t) (i : Nat) :
    (entriesAt cfg t i).map (·.getRow cfg t) = (held Bucket.rows t.buckets i).map some := by
  cases hb : t.buckets i with
  | none => simp [entriesAt, hb]
  | some b =>
    have hin := hinv.array.lt_of_some hb
    have hcur := (hinv.iterAt_rest hin hb).1
    simp only [entriesAt, hb]
    by_cases hod : (iterAt cfg t i).onDuplicates cfg t = true
    · have hget : ∀ l : List ρ, (⟨i, l⟩ : Iterator ρ).getRow cfg t = l.head? := fun l => by
        have hod' : (⟨i, l⟩ : Iterator ρ).onDuplicates cfg t = true := hod
        simp [Iterator.getRow, hod']
      rw [if_pos hod] at hcur ⊢
      rw [List.map_map, ← hcur, ← map_head?_linkedNodes]
      exact List.map_congr_left fun l _ => hget l
    · obtain ⟨r, rest, hrest, hget, hsingle⟩ :=
        hinv.current (iterAt_bucketIdx i) hb (fun h => absurd h hod)
      rw [if_neg hod, hsingle (by simpa using hod)] at hrest
      rw [if_neg hod, List.map_singleton, hget, hrest, List.map_singleton]

omit [DecidableEq K] in
theorem Inv.map_getRow_entriesFrom (hinv : Inv cfg t) :
    (entriesFrom cfg t 0).map (·.getRow cfg t) = (stored t).map some := by
  rw [entriesFrom, stored, collect, List.map_flatMap, List.map_flatMap, Nat.sub_zero]
  exact List.flatMap_congr fun i _ => hinv.map_getRow_entriesAt i

end Rows

/-! ## Runs -/

omit [DecidableEq K] in
theorem RunInv.visitUnmatched_firstUnmatched {s : HashTable ρ × List ρ} (h : RunInv cfg s)
    (hrows : s.2 ≠ []) (m : MatchFlags) {fuel : Nat} (hfuel : s.2.length < fuel) :
    ((entriesFrom cfg s.1 0).map (·.getRow cfg s.1)).Perm (s.2.map some) ∧
      (entriesFrom cfg s.1 0).Nodup ∧
      ∃ it, firstUnmatched cfg s.1 m = .ok it ∧
        visitUnmatched cfg s.1 m fuel it = .ok (unmatchedOf cfg s.1 m (entriesFrom cfg s.1 0)) := by
  have hrowsEq := h.inv.map_getRow_entriesFrom
  obtain ⟨r, hr⟩ := List.exists_mem_of_ne_nil _ (fun hnil => hrows (List.Perm.eq_nil (hnil ▸ h.perm.symm)))
  obtain ⟨i, -, b, hb, -⟩ := mem_stored.1 hr
  obtain ⟨it, hfirst, hat⟩ := h.inv.firstUnmatched_spec m hb
  have hlen : (unmatchedOf cfg s.1 m (entriesFrom cfg s.1 0)).length < fuel := by
    have hentries : (entriesFrom cfg s.1 0).length = s.2.length := by
      rw [← List.length_map (·.getRow cfg s.1), hrowsEq, List.length_map, h.perm.length_eq]
    exact (List.length_filter_le _ _).trans_lt (hentries ▸ hfuel)
  exact ⟨hrowsEq ▸ h.perm.map some, nodup_entriesFrom 0,
    it, hfirst, h.inv.visitUnmatched_of_atFirst m fuel it _ hat hlen⟩

end Impala.HashTable
