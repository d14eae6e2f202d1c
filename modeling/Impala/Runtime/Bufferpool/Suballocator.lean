import Mathlib
import Impala.Lib.Morton
import Impala.Exprs.StringFunctionsSearch

/-!
The buddy allocator that subdivides buffer-pool buffers (runtime/bufferpool/suballocator.cc,
suballocator.h).

Every buffer the pool returns is the root of a binary tree of `Suballocation`s: a node is
unsplit, or split into two buddies of half its length. A `Suballocation` is named here by its
place in that tree (`Ref`): the buffer and the way down from the root, last step first. Its
`buddy_` and `parent_` are then the places beside and above it, and its `data_` and `len_`
follow from the place as `SplitToSize` sets them. `nodes` holds the objects that exist with
their `in_use_`; `new` and the destruction of a `unique_ptr` set and clear an entry. Each
doubly-linked free list is the list of its nodes, head first.

The calls `Allocate` makes outside the suballocator (the reservation, `new (nothrow)` and the
pool) are answers the model is given (`Env`); the pool hands out a fresh buffer each time.
-/

set_option autoImplicit false

namespace Impala.BufferPool

open StringFunctions (roundUpToPowerOfTwo)

def logMaxAllocationBytes : ℕ := 48

def maxAllocationBytes : ℤ := 2 ^ logMaxAllocationBytes

def logMinAllocationBytes : ℕ := 12

def minAllocationBytes : ℤ := 2 ^ logMinAllocationBytes

def numFreeLists : ℕ := logMaxAllocationBytes - logMinAllocationBytes + 1

def log2CeilingNonZero64 (n : ℕ) : ℕ := if n &&& (n - 1) = 0 then n.log2 else n.log2 + 1

def computeListIndex (bytes : ℕ) : ℕ := log2CeilingNonZero64 bytes - logMinAllocationBytes

/-! ### `BitUtil` on the lengths the suballocator sees -/

/-- Bit `i` of `y` is set iff one of the bits `i, ..., i + w - 1` of `x` is: what the shifts
and ors of `RoundUpToPowerOfTwo` build up. -/
def Smears (x y w : ℕ) : Prop := ∀ i, y.testBit i = true ↔ ∃ j < w, x.testBit (i + j) = true

theorem smears_self (x : ℕ) : Smears x x 1 := by
  intro i
  constructor
  · intro h
    exact ⟨0, Nat.one_pos, h⟩
  · rintro ⟨j, hj, h⟩
    obtain rfl : j = 0 := by omega
    exact h

theorem Smears.or_shiftRight {x y w : ℕ} (h : Smears x y w) : Smears x (y ||| y >>> w) (2 * w) := by
  intro i
  rw [Nat.testBit_or, Nat.testBit_shiftRight, Bool.or_eq_true, h i, h (w + i)]
  constructor
  · rintro (⟨j, hj, hx⟩ | ⟨j, hj, hx⟩)
    · exact ⟨j, by omega, hx⟩
    · exact ⟨w + j, by omega, by rwa [show i + (w + j) = w + i + j by omega]⟩
  · rintro ⟨j, hj, hx⟩
    by_cases hjw : j < w
    · exact .inl ⟨j, hjw, hx⟩
    · exact .inr ⟨j - w, by omega, by rwa [show w + i + (j - w) = i + j by omega]⟩

theorem Smears.eq_two_pow_size_sub_one {x y : ℕ} (h : Smears x y 64) (hx : x < 2 ^ 64) :
    y = 2 ^ x.size - 1 := by
  apply Nat.eq_of_testBit_eq
  intro i
  rw [Nat.testBit_two_pow_sub_one]
  have hsize : x.size ≤ 64 := Nat.size_le.2 hx
  by_cases hi : i < x.size
  · have hx0 : x ≠ 0 := by
      rintro rfl
      simp at hi
    rw [decide_eq_true hi, h i]
    refine ⟨x.size - 1 - i, by omega, ?_⟩
    rw [show i + (x.size - 1 - i) = x.size - 1 by omega]
    exact Morton.testBit_size_pred hx0
  · rw [decide_eq_false hi, Bool.eq_false_iff]
    rintro hy
    obtain ⟨j, -, hj⟩ := (h i).1 hy
    rw [Morton.testBit_of_size_le (by omega)] at hj
    cases hj

theorem roundUpToPowerOfTwo_eq_two_pow_size {v : ℕ} (hv : v ≤ 2 ^ 64) :
    roundUpToPowerOfTwo v = 2 ^ (v - 1).size := by
  unfold roundUpToPowerOfTwo
  dsimp only
  have h1 : Smears (v - 1) _ 2 := (smears_self (v - 1)).or_shiftRight
  have h2 : Smears (v - 1) _ 4 := h1.or_shiftRight
  have h3 : Smears (v - 1) _ 8 := h2.or_shiftRight
  have h4 : Smears (v - 1) _ 16 := h3.or_shiftRight
  have h5 : Smears (v - 1) _ 32 := h4.or_shiftRight
  have h6 : Smears (v - 1) _ 64 := h5.or_shiftRight
  rw [h6.eq_two_pow_size_sub_one (by omega)]
  have := Nat.one_le_two_pow (n := (v - 1).size)
  omega

theorem log2CeilingNonZero64_spec {v : ℕ} (hv : 0 < v) :
    v ≤ 2 ^ log2CeilingNonZero64 v ∧ 2 ^ log2CeilingNonZero64 v < 2 * v := by
  have hlo := Nat.log2_self_le (Nat.pos_iff_ne_zero.1 hv)
  have hhi := Nat.lt_log2_self (n := v)
  rw [pow_succ] at hhi
  unfold log2CeilingNonZero64
  rcases eq_or_lt_of_le hlo with heq | hlt
  · have hand : v &&& (v - 1) = 0 := by
      rw [← heq, Nat.and_two_pow_sub_one_eq_mod, Nat.mod_self]
    rw [if_pos hand]
    omega
  · have hbit : ∀ r, r < 2 ^ v.log2 → (2 ^ v.log2 + r).testBit v.log2 = true := fun r hr => by
      rw [Nat.testBit_two_pow_add_eq, Nat.testBit_lt_two_pow hr]
      rfl
    have hv₁ : v.testBit v.log2 = true := by
      have := hbit (v - 2 ^ v.log2) (by omega)
      rwa [Nat.add_sub_cancel' hlo] at this
    have hv₂ : (v - 1).testBit v.log2 = true := by
      have := hbit (v - 2 ^ v.log2 - 1) (by omega)
      rwa [show 2 ^ v.log2 + (v - 2 ^ v.log2 - 1) = v - 1 by omega] at this
    have hand : v &&& (v - 1) ≠ 0 := by
      intro h0
      have h := congrArg (fun n => n.testBit v.log2) h0
      simp only [Nat.testBit_and, Nat.zero_testBit, hv₁, hv₂] at h
      cases h
    rw [if_neg hand, pow_succ]
    omega

theorem size_pred_eq_log2CeilingNonZero64 {v : ℕ} (hv : 0 < v) :
    (v - 1).size = log2CeilingNonZero64 v := by
  obtain ⟨h1, h2⟩ := log2CeilingNonZero64_spec hv
  apply le_antisymm
  · exact Nat.size_le.2 (by omega)
  · rcases Nat.eq_zero_or_pos (log2CeilingNonZero64 v) with h0 | h0
    · omega
    · have : 2 ^ (log2CeilingNonZero64 v - 1) ≤ v - 1 := by
        rw [← Nat.two_pow_pred_mul_two h0] at h2
        omega
      have := Nat.lt_size.2 this
      omega

theorem roundUpToPowerOfTwo_eq {v : ℕ} (hv : 0 < v) (hv' : v ≤ 2 ^ 64) :
    roundUpToPowerOfTwo v = 2 ^ log2CeilingNonZero64 v := by
  rw [roundUpToPowerOfTwo_eq_two_pow_size hv', size_pred_eq_log2CeilingNonZero64 hv]

@[simp] theorem log2CeilingNonZero64_two_pow (n : ℕ) : log2CeilingNonZero64 (2 ^ n) = n := by
  rw [log2CeilingNonZero64, Nat.and_two_pow_sub_one_eq_mod, Nat.mod_self, if_pos rfl,
    Nat.log2_two_pow]

@[simp] theorem computeListIndex_two_pow (k : ℕ) :
    computeListIndex (2 ^ (k + logMinAllocationBytes)) = k := by
  simp [computeListIndex]

theorem computeListIndex_of_mem {bytes : ℕ} (h₁ : 2 ^ logMinAllocationBytes ≤ bytes)
    (h₂ : bytes ≤ 2 ^ logMaxAllocationBytes) :
    computeListIndex bytes < numFreeLists ∧
      log2CeilingNonZero64 bytes = computeListIndex bytes + logMinAllocationBytes ∧
      bytes ≤ 2 ^ (computeListIndex bytes + logMinAllocationBytes) := by
  unfold logMinAllocationBytes logMaxAllocationBytes at *
  obtain ⟨hle, hlt⟩ := log2CeilingNonZero64_spec (v := bytes) (by omega)
  have hc₁ : 12 ≤ log2CeilingNonZero64 bytes :=
    (Nat.pow_le_pow_iff_right (by norm_num)).1 (h₁.trans hle)
  have hc₂ : log2CeilingNonZero64 bytes < 49 := by
    have h49 : (2 : ℕ) ^ 49 = 2 * 2 ^ 48 := by norm_num
    have : 2 ^ log2CeilingNonZero64 bytes < 2 ^ 49 := by omega
    exact (Nat.pow_lt_pow_iff_right (by norm_num)).1 this
  unfold computeListIndex numFreeLists logMinAllocationBytes logMaxAllocationBytes
  refine ⟨by omega, by omega, ?_⟩
  rwa [Nat.sub_add_cancel hc₁]

/-- The `Status` the suballocator returns. -/
inductive Status where
  | ok
  | error (msg : String)
  /-- `Status(TErrorCode::MEM_ALLOC_FAILED, sizeof(Suballocation))`. -/
  | memAllocFailed
  deriving DecidableEq, Repr

def allocationTooLarge (bytes : ℤ) : String :=
  "Requested memory allocation of " ++ toString bytes ++
    " bytes, larger than max supported of " ++ toString maxAllocationBytes ++ " bytes"

/-- The answers one `Allocate` call gets from outside the suballocator. -/
structure Env where
  /-- `client_->IncreaseReservationToFit(buffer_len)`. -/
  increaseReservationToFit : Bool
  /-- `Suballocation::Create` in `AllocateBuffer`. -/
  createBufferNode : Bool
  /-- `pool_->AllocateBuffer(client_, buffer_len, ...)`. -/
  allocateBuffer : Status
  /-- The `Suballocation::Create` calls that `SplitToSize` makes before splitting. -/
  createSplitNodes : Bool
  deriving DecidableEq, Repr

/-- A `Suballocation`: its buffer and the way down to it from the root, last step first
(`true` for a right child). -/
structure Ref where
  buffer : ℕ
  path : List Bool
  deriving DecidableEq, Repr

namespace Ref

def root (buffer : ℕ) : Ref := ⟨buffer, []⟩

def child (r : Ref) (d : Bool) : Ref := ⟨r.buffer, d :: r.path⟩

@[simp] theorem child_buffer (r : Ref) (d : Bool) : (r.child d).buffer = r.buffer := rfl

@[simp] theorem child_path (r : Ref) (d : Bool) : (r.child d).path = d :: r.path := rfl

theorem child_injective {r r' : Ref} {d d' : Bool} (h : r.child d = r'.child d') :
    r = r' ∧ d = d' := by
  obtain ⟨b, p⟩ := r
  obtain ⟨b', p'⟩ := r'
  simp only [child, Ref.mk.injEq, List.cons.injEq] at h
  obtain ⟨rfl, rfl, rfl⟩ := h
  exact ⟨rfl, rfl⟩

@[simp] theorem child_inj {r r' : Ref} {d d' : Bool} :
    r.child d = r'.child d' ↔ r = r' ∧ d = d' :=
  ⟨child_injective, fun ⟨h₁, h₂⟩ => h₁ ▸ h₂ ▸ rfl⟩

@[simp] theorem child_ne_root (r : Ref) (d : Bool) (b : ℕ) : r.child d ≠ root b := by
  simp [child, root]

@[simp] theorem child_ne_self (r : Ref) (d : Bool) : r.child d ≠ r := by
  intro h
  have := congrArg (fun r : Ref => r.path.length) h
  simp at this

@[simp] theorem self_ne_child (r : Ref) (d : Bool) : r ≠ r.child d := (child_ne_self r d).symm

@[simp] theorem child_child_ne (r : Ref) (e d : Bool) : (r.child e).child d ≠ r := by
  intro h
  have := congrArg (fun r : Ref => r.path.length) h
  simp at this
  omega

theorem eq_or_child_or_ne (x c : Ref) :
    x = c ∨ (∃ d, x = c.child d) ∨ (x ≠ c ∧ ∀ d, x ≠ c.child d) := by
  by_cases h₁ : x = c
  · exact .inl h₁
  by_cases h₂ : ∃ d, x = c.child d
  · exact .inr (.inl h₂)
  · exact .inr (.inr ⟨h₁, fun d hd => h₂ ⟨d, hd⟩⟩)

end Ref

/-- `len_` of the node at `path` in a buffer of `bufferLen` bytes: `child_len` is half the
length of the node split. -/
def nodeLen (bufferLen : ℕ) : List Bool → ℕ
  | [] => bufferLen
  | _ :: path => nodeLen bufferLen path / 2

/-- `data_` of the node at `path`, from the start of its buffer: a left child starts where
its parent does, a right child `child_len` later. -/
def nodeOffset (bufferLen : ℕ) : List Bool → ℕ
  | [] => 0
  | d :: path => nodeOffset bufferLen path + if d then nodeLen bufferLen path / 2 else 0

section Geometry

variable (L : ℕ)

theorem nodeLen_eq (p : List Bool) : nodeLen L p = L / 2 ^ p.length := by
  induction p with
  | nil => simp [nodeLen]
  | cons d p ih => rw [nodeLen, ih, Nat.div_div_eq_div_mul, List.length_cons, pow_succ]

theorem nodeLen_two_pow {m : ℕ} {p : List Bool} (h : p.length ≤ m) :
    nodeLen (2 ^ m) p = 2 ^ (m - p.length) := by
  rw [nodeLen_eq, Nat.pow_div h (by norm_num)]

theorem nodeLen_dvd_nodeOffset {m : ℕ} {p : List Bool} (h : p.length ≤ m) :
    nodeLen (2 ^ m) p ∣ nodeOffset (2 ^ m) p := by
  induction p with
  | nil => simp [nodeOffset]
  | cons d p ih =>
    simp only [List.length_cons] at h
    have ih := ih (by omega)
    rw [nodeLen_two_pow (by omega)] at ih
    have hhalf : 2 ^ (m - p.length) / 2 = 2 ^ (m - (p.length + 1)) := by
      rw [show m - p.length = m - (p.length + 1) + 1 by omega, pow_succ,
        Nat.mul_div_cancel _ (by norm_num)]
    have hdvd : 2 ^ (m - (p.length + 1)) ∣ nodeOffset (2 ^ m) p :=
      (Nat.pow_dvd_pow 2 (by omega)).trans ih
    rw [nodeOffset, nodeLen_two_pow (p := d :: p) (by simpa using h), nodeLen_two_pow (by omega),
      hhalf, List.length_cons]
    cases d
    · simpa using hdvd
    · simpa using Nat.dvd_add hdvd (dvd_refl _)

/-- Two nodes' byte ranges do not overlap. -/
def Apart (p q : List Bool) : Prop :=
  nodeOffset L p + nodeLen L p ≤ nodeOffset L q ∨ nodeOffset L q + nodeLen L q ≤ nodeOffset L p

theorem Apart.symm {p q : List Bool} (h : Apart L p q) : Apart L q p := Or.symm h

theorem nodeOffset_append (x y : List Bool) :
    nodeOffset L y ≤ nodeOffset L (x ++ y) ∧
      nodeOffset L (x ++ y) + nodeLen L (x ++ y) ≤ nodeOffset L y + nodeLen L y := by
  induction x with
  | nil => simp
  | cons d x ih =>
    simp only [List.cons_append, nodeOffset, nodeLen]
    cases d <;> simp only [Bool.false_eq_true, if_false, if_true] <;> omega

theorem nodeOffset_add_nodeLen_le (p : List Bool) : nodeOffset L p + nodeLen L p ≤ L := by
  simpa [nodeOffset, nodeLen] using (nodeOffset_append L p []).2

theorem apart_buddies (p : List Bool) : Apart L (false :: p) (true :: p) := by
  left
  simp [nodeOffset, nodeLen]

theorem Apart.of_append {p q : List Bool} (x : List Bool) (h : Apart L p q) :
    Apart L (x ++ p) q := by
  have := nodeOffset_append L x p
  unfold Apart at *
  omega

theorem apart_of_not_suffix : ∀ n (p q : List Bool), p.length + q.length ≤ n →
    ¬ p <:+ q → ¬ q <:+ p → Apart L p q := by
  intro n
  induction n with
  | zero =>
    intro p q hn hpq
    exact absurd (by simp_all) hpq
  | succ n ih =>
    intro p q hn hpq hqp
    wlog hlen : q.length ≤ p.length generalizing p q
    · exact (this q p (by omega) hqp hpq (by omega)).symm
    cases p with
    | nil => exact absurd List.nil_suffix hpq
    | cons d p' =>
      have hq : ¬ q <:+ p' := fun h => hqp (h.trans (List.suffix_cons d p'))
      by_cases hp' : p' <:+ q
      · obtain ⟨t, rfl⟩ := hp'
        simp only [List.length_append, List.length_cons] at hlen
        rcases t with _ | ⟨e, _ | ⟨e', t⟩⟩
        · simp at hq
        · by_cases hed : e = d
          · exact absurd (by simp [hed]) hpq
          · obtain rfl : e = !d := by cases e <;> cases d <;> simp_all
            cases d
            · exact apart_buddies L p'
            · exact (apart_buddies L p').symm
        · simp at hlen
          omega
      · have h := ih p' q (by simp at hn; omega) hp' hq
        simpa using h.of_append L [d]

end Geometry

/-- The state of a `Suballocator`, with the buffers its pool has handed out. -/
@[ext]
structure Suballocator where
  minBufferLen : ℕ
  /-- `allocated_`. -/
  allocated : ℤ
  /-- `free_lists_`. -/
  freeLists : ℕ → List Ref
  /-- The `Suballocation` objects that exist, with their `in_use_`. -/
  nodes : Ref → Option Bool
  /-- The length of every buffer the pool has handed out. -/
  bufferLen : ℕ → ℕ
  /-- The buffer the pool hands out next. -/
  nextBuffer : ℕ

namespace Suballocator

def init (minBufferLen : ℕ) : Suballocator :=
  ⟨minBufferLen, 0, fun _ => [], fun _ => none, fun _ => 0, 0⟩

section Fields

variable (s : Suballocator)

def len (r : Ref) : ℕ := nodeLen (s.bufferLen r.buffer) r.path

def offset (r : Ref) : ℕ := nodeOffset (s.bufferLen r.buffer) r.path

def inUse (r : Ref) : Bool := s.nodes r == some true

@[simps]
def setNode (r : Ref) (v : Option Bool) : Suballocator :=
  { s with nodes := Function.update s.nodes r v }

@[simps]
def setFreeList (i : ℕ) (l : List Ref) : Suballocator :=
  { s with freeLists := Function.update s.freeLists i l }

/-- The buffer `pool_->AllocateBuffer` hands out, `bufferLen` bytes, with a free root
`Suballocation` over it. -/
@[simps]
def addBuffer (bufferLen : ℕ) : Suballocator :=
  { s with
    nodes := Function.update s.nodes (Ref.root s.nextBuffer) (some false)
    bufferLen := Function.update s.bufferLen s.nextBuffer bufferLen
    nextBuffer := s.nextBuffer + 1 }

def addToFreeList (node : Ref) : Suballocator :=
  let listIdx := computeListIndex (s.len node)
  s.setFreeList listIdx (node :: s.freeLists listIdx)

def removeFromFreeList (node : Ref) : Suballocator :=
  let listIdx := computeListIndex (s.len node)
  s.setFreeList listIdx ((s.freeLists listIdx).erase node)

def popFreeListHead (listIdx : ℕ) : Option Ref × Suballocator :=
  match s.freeLists listIdx with
  | [] => (none, s)
  | node :: rest => (some node, s.setFreeList listIdx rest)

/-- `CoalesceBuddies(b1, b2)` for the buddies below `parent`: both are destroyed and the
parent is no longer in use. -/
def coalesceBuddies (parent : Ref) : Suballocator :=
  ((s.setNode (parent.child false) none).setNode (parent.child true) none).setNode parent
    (some false)

/-- One pass of the loop of `SplitToSize`: `free_node` is marked in use and becomes the parent
of two new buddies, and the right one goes to its free list. -/
def splitNode (node : Ref) : Suballocator :=
  (((s.setNode node (some true)).setNode (node.child false) (some false)).setNode
    (node.child true) (some false)).addToFreeList (node.child true)

@[simps!]
def markAllocated (node : Ref) : Suballocator :=
  { s.setNode node (some true) with allocated := s.allocated + s.len node }

@[simps!]
def markFreed (node : Ref) : Suballocator :=
  { s.setNode node (some false) with allocated := s.allocated - s.len node }

@[simp] theorem inUse_iff (r : Ref) : s.inUse r = true ↔ s.nodes r = some true := by
  simp [inUse]

@[simp] theorem len_setNode (r : Ref) (v : Option Bool) : (s.setNode r v).len = s.len := rfl

@[simp] theorem len_setFreeList (i : ℕ) (l : List Ref) : (s.setFreeList i l).len = s.len := rfl

@[simp] theorem len_markAllocated (r : Ref) : (s.markAllocated r).len = s.len := rfl

@[simp] theorem len_markFreed (r : Ref) : (s.markFreed r).len = s.len := rfl

@[simp] theorem len_child (r : Ref) (d : Bool) : s.len (r.child d) = s.len r / 2 := rfl

@[simp] theorem nodes_addToFreeList (node : Ref) : (s.addToFreeList node).nodes = s.nodes := rfl

@[simp] theorem len_addToFreeList (node : Ref) : (s.addToFreeList node).len = s.len := rfl

@[simp] theorem allocated_addToFreeList (node : Ref) :
    (s.addToFreeList node).allocated = s.allocated := rfl

@[simp] theorem nextBuffer_addToFreeList (node : Ref) :
    (s.addToFreeList node).nextBuffer = s.nextBuffer := rfl

@[simp] theorem minBufferLen_addToFreeList (node : Ref) :
    (s.addToFreeList node).minBufferLen = s.minBufferLen := rfl

@[simp] theorem bufferLen_addToFreeList (node : Ref) :
    (s.addToFreeList node).bufferLen = s.bufferLen := rfl

@[simp] theorem nodes_removeFromFreeList (node : Ref) :
    (s.removeFromFreeList node).nodes = s.nodes := rfl

@[simp] theorem len_removeFromFreeList (node : Ref) : (s.removeFromFreeList node).len = s.len :=
  rfl

@[simp] theorem nextBuffer_removeFromFreeList (node : Ref) :
    (s.removeFromFreeList node).nextBuffer = s.nextBuffer := rfl

@[simp] theorem minBufferLen_removeFromFreeList (node : Ref) :
    (s.removeFromFreeList node).minBufferLen = s.minBufferLen := rfl

@[simp] theorem bufferLen_removeFromFreeList (node : Ref) :
    (s.removeFromFreeList node).bufferLen = s.bufferLen := rfl

@[simp] theorem allocated_removeFromFreeList (node : Ref) :
    (s.removeFromFreeList node).allocated = s.allocated := rfl

theorem splitNode_nodes_self (c : Ref) : (s.splitNode c).nodes c = some true := by
  simp [splitNode]

theorem splitNode_nodes_child (c : Ref) (d : Bool) : (s.splitNode c).nodes (c.child d) = some false := by
  cases d <;> simp [splitNode]

theorem splitNode_nodes_of_ne {c x : Ref} (h₁ : x ≠ c) (h₂ : ∀ d, x ≠ c.child d) :
    (s.splitNode c).nodes x = s.nodes x := by
  simp [splitNode, h₁, h₂]

@[simp] theorem len_splitNode (c : Ref) : (s.splitNode c).len = s.len := rfl

@[simp] theorem nextBuffer_splitNode (c : Ref) : (s.splitNode c).nextBuffer = s.nextBuffer := rfl

@[simp] theorem allocated_splitNode (c : Ref) : (s.splitNode c).allocated = s.allocated := rfl

@[simp] theorem minBufferLen_splitNode (c : Ref) :
    (s.splitNode c).minBufferLen = s.minBufferLen := rfl

@[simp] theorem bufferLen_splitNode (c : Ref) : (s.splitNode c).bufferLen = s.bufferLen := rfl

theorem coalesceBuddies_nodes_self (p : Ref) : (s.coalesceBuddies p).nodes p = some false := by
  simp [coalesceBuddies]

theorem coalesceBuddies_nodes_child (p : Ref) (d : Bool) :
    (s.coalesceBuddies p).nodes (p.child d) = none := by
  cases d <;> simp [coalesceBuddies]

theorem coalesceBuddies_nodes_of_ne {p x : Ref} (h₁ : x ≠ p) (h₂ : ∀ d, x ≠ p.child d) :
    (s.coalesceBuddies p).nodes x = s.nodes x := by
  simp [coalesceBuddies, h₁, h₂]

@[simp] theorem coalesceBuddies_freeLists (p : Ref) : (s.coalesceBuddies p).freeLists = s.freeLists :=
  rfl

@[simp] theorem len_coalesceBuddies (p : Ref) : (s.coalesceBuddies p).len = s.len := rfl

@[simp] theorem nextBuffer_coalesceBuddies (p : Ref) :
    (s.coalesceBuddies p).nextBuffer = s.nextBuffer := rfl

@[simp] theorem minBufferLen_coalesceBuddies (p : Ref) :
    (s.coalesceBuddies p).minBufferLen = s.minBufferLen := rfl

@[simp] theorem bufferLen_coalesceBuddies (p : Ref) :
    (s.coalesceBuddies p).bufferLen = s.bufferLen := rfl

@[simp] theorem allocated_coalesceBuddies (p : Ref) :
    (s.coalesceBuddies p).allocated = s.allocated := rfl

theorem mem_addToFreeList {node r : Ref} {k : ℕ} :
    r ∈ (s.addToFreeList node).freeLists k ↔
      r = node ∧ k = computeListIndex (s.len node) ∨ r ∈ s.freeLists k := by
  simp only [addToFreeList, setFreeList_freeLists, Function.update_apply]
  split_ifs with hk
  · subst hk
    simp
  · simp [hk]

theorem mem_removeFromFreeList {node r : Ref} {k : ℕ} (hnd : (s.freeLists k).Nodup) :
    r ∈ (s.removeFromFreeList node).freeLists k ↔
      r ∈ s.freeLists k ∧ (k = computeListIndex (s.len node) → r ≠ node) := by
  simp only [removeFromFreeList, setFreeList_freeLists, Function.update_apply]
  split_ifs with hk
  · subst hk
    simp [hnd.mem_erase_iff, and_comm]
  · simp [hk]

theorem popFreeListHead_eq_some {i : ℕ} {c : Ref} {s' : Suballocator}
    (h : s.popFreeListHead i = (some c, s')) :
    ∃ rest, s.freeLists i = c :: rest ∧ s' = s.setFreeList i rest := by
  unfold popFreeListHead at h
  split at h
  · cases h
  · cases h
    exact ⟨_, ‹_›, rfl⟩

theorem popFreeListHead_eq_none {i : ℕ} {s' : Suballocator}
    (h : s.popFreeListHead i = (none, s')) : s.freeLists i = [] ∧ s' = s := by
  unfold popFreeListHead at h
  split at h
  · cases h
    exact ⟨‹_›, rfl⟩
  · cases h

theorem splitNode_freeLists (c : Ref) :
    (s.splitNode c).freeLists = Function.update s.freeLists (computeListIndex (s.len c / 2))
      (c.child true :: s.freeLists (computeListIndex (s.len c / 2))) := by
  funext k
  simp only [splitNode, addToFreeList, setFreeList_freeLists, len_setNode, len_child]
  rfl

theorem mem_splitNode_freeLists {c r : Ref} {k : ℕ} :
    r ∈ (s.splitNode c).freeLists k ↔
      r = c.child true ∧ k = computeListIndex (s.len c / 2) ∨ r ∈ s.freeLists k := by
  rw [splitNode, mem_addToFreeList]
  simp

end Fields

def popFreeListFrom (s : Suballocator) (i : ℕ) : Option Ref × Suballocator :=
  if i < numFreeLists then
    match s.popFreeListHead i with
    | (some node, s) => (some node, s)
    | (none, s) => popFreeListFrom s (i + 1)
  else (none, s)
termination_by numFreeLists - i

theorem popFreeListFrom_eq_some {s : Suballocator} {i : ℕ} {c : Ref} {s' : Suballocator}
    (h : s.popFreeListFrom i = (some c, s')) :
    ∃ j rest, i ≤ j ∧ j < numFreeLists ∧ s.freeLists j = c :: rest ∧ s' = s.setFreeList j rest := by
  fun_induction popFreeListFrom s i with
  | case1 s i hi node s'' hhead =>
    cases h
    obtain ⟨rest, hrest, rfl⟩ := popFreeListHead_eq_some _ hhead
    exact ⟨i, rest, le_refl i, hi, hrest, rfl⟩
  | case2 s i hi s'' hhead ih =>
    obtain ⟨-, rfl⟩ := popFreeListHead_eq_none _ hhead
    obtain ⟨j, rest, hij, hj, hrest, rfl⟩ := ih h
    exact ⟨j, rest, by omega, hj, hrest, rfl⟩
  | case3 s i hi => cases h

theorem popFreeListFrom_eq_none {s : Suballocator} {i : ℕ} {s' : Suballocator}
    (h : s.popFreeListFrom i = (none, s')) : s' = s := by
  fun_induction popFreeListFrom s i with
  | case1 s i hi node s'' hhead => cases h
  | case2 s i hi s'' hhead ih =>
    obtain ⟨-, rfl⟩ := popFreeListHead_eq_none _ hhead
    exact ih h
  | case3 s i hi =>
    cases h
    rfl

/-- The loop of `SplitToSize`, from `i = free_list_idx` down to `target_list_idx`: the node
left of each split is split again. -/
def splitLoop (s : Suballocator) (targetListIdx : ℕ) (freeNode : Ref) (i : ℕ) :
    Suballocator × Ref :=
  if targetListIdx < i then splitLoop (s.splitNode freeNode) targetListIdx (freeNode.child false) (i - 1)
  else (s, freeNode)
termination_by i

/-- `SplitToSize(free_node, target_bytes)`. The nodes are created before the first split; if
that fails, the free node goes back to its free list. -/
def splitToSize (s : Suballocator) (createSplitNodes : Bool) (freeNode : Ref)
    (targetBytes : ℕ) : (Status × Option Ref) × Suballocator :=
  let freeListIdx := computeListIndex (s.len freeNode)
  let targetListIdx := computeListIndex targetBytes
  let numNodes := (freeListIdx - targetListIdx) * 2
  if numNodes ≠ 0 ∧ createSplitNodes = false then
    ((.error "Failed to allocate list node in Suballocator", none), s.addToFreeList freeNode)
  else
    let (s, node) := s.splitLoop targetListIdx freeNode freeListIdx
    ((.ok, some node), s)

theorem splitToSize_eq_some {s : Suballocator} {create : Bool} {c : Ref} {bytes : ℕ} {st : Status}
    {r : Ref} {s' : Suballocator} (h : s.splitToSize create c bytes = ((st, some r), s')) :
    st = .ok ∧ (s', r) = s.splitLoop (computeListIndex bytes) c (computeListIndex (s.len c)) := by
  unfold splitToSize at h
  dsimp only at h
  split_ifs at h
  · simp at h
  · simp only [Prod.mk.injEq, Option.some.injEq] at h
    exact ⟨h.1.1.symm, by rw [← h.1.2, ← h.2]⟩

/-- `AllocateBuffer(bytes)`: a new buffer of `max(min_buffer_len_, RoundUpToPowerOfTwo(bytes))`
bytes whose root is a free node, or no node if the reservation cannot grow. -/
def allocateBuffer (s : Suballocator) (env : Env) (bytes : ℕ) :
    (Status × Option Ref) × Suballocator :=
  let bufferLen := max s.minBufferLen (roundUpToPowerOfTwo bytes)
  if env.increaseReservationToFit = false then ((.ok, none), s)
  else if env.createBufferNode = false then ((.memAllocFailed, none), s)
  else
    match env.allocateBuffer with
    | .ok => ((.ok, some (Ref.root s.nextBuffer)), s.addBuffer bufferLen)
    | err => ((err, none), s)

theorem allocateBuffer_eq_some {s : Suballocator} {env : Env} {bytes : ℕ} {st : Status} {c : Ref}
    {s' : Suballocator} (h : s.allocateBuffer env bytes = ((st, some c), s')) :
    st = .ok ∧ c = Ref.root s.nextBuffer ∧
      s' = s.addBuffer (max s.minBufferLen (roundUpToPowerOfTwo bytes)) := by
  unfold allocateBuffer at h
  dsimp only at h
  split_ifs at h
  · simp at h
  · simp at h
  · split at h
    · simp only [Prod.mk.injEq, Option.some.injEq] at h
      exact ⟨h.1.1.symm, h.1.2.symm, h.2.symm⟩
    · simp at h

theorem allocateBuffer_eq_none {s : Suballocator} {env : Env} {bytes : ℕ} {st : Status}
    {s' : Suballocator} (h : s.allocateBuffer env bytes = ((st, none), s')) : s' = s := by
  unfold allocateBuffer at h
  dsimp only at h
  split_ifs at h
  · simp only [Prod.mk.injEq] at h
    exact h.2.symm
  · simp only [Prod.mk.injEq] at h
    exact h.2.symm
  · split at h
    · simp at h
    · simp only [Prod.mk.injEq] at h
      exact h.2.symm

/-- The end of `Allocate` once it holds a free node: split it if it is larger than required,
then mark it in use and count it in `allocated_`. -/
def allocateFrom (s : Suballocator) (env : Env) (targetListIdx bytes : ℕ) (freeNode : Ref) :
    (Status × Option Ref) × Suballocator :=
  let split :=
    if computeListIndex (s.len freeNode) ≠ targetListIdx then
      s.splitToSize env.createSplitNodes freeNode bytes
    else ((.ok, some freeNode), s)
  match split with
  | ((.ok, some node), s) => ((.ok, some node), s.markAllocated node)
  | r => r

theorem allocateFrom_eq_some {s : Suballocator} {env : Env} {t bytes : ℕ} {c : Ref} {st : Status}
    {r : Ref} {s' : Suballocator} (h : s.allocateFrom env t bytes c = ((st, some r), s')) :
    st = .ok ∧ ∃ s₁, s' = s₁.markAllocated r ∧
      (computeListIndex (s.len c) = t ∧ s₁ = s ∧ r = c ∨ computeListIndex (s.len c) ≠ t ∧
        (s₁, r) = s.splitLoop (computeListIndex bytes) c (computeListIndex (s.len c))) := by
  unfold allocateFrom at h
  dsimp only at h
  generalize hsp : (if computeListIndex (s.len c) ≠ t then
    s.splitToSize env.createSplitNodes c bytes else ((.ok, some c), s)) = sp at h
  obtain ⟨⟨st₀, res₀⟩, s₀⟩ := sp
  split at h
  next node s₁ heq =>
    obtain ⟨⟨rfl, rfl⟩, rfl⟩ : (st₀ = .ok ∧ res₀ = some node) ∧ s₀ = s₁ := by simpa using heq
    simp only [Prod.mk.injEq, Option.some.injEq] at h
    obtain ⟨⟨rfl, rfl⟩, rfl⟩ := h
    refine ⟨rfl, s₀, rfl, ?_⟩
    split_ifs at hsp with hne
    · exact .inr ⟨hne, (splitToSize_eq_some hsp).2⟩
    · simp only [Prod.mk.injEq, Option.some.injEq] at hsp
      exact .inl ⟨by simpa using hne, hsp.2.symm, hsp.1.2.symm⟩
  next r' hne =>
    simp only [Prod.mk.injEq] at h
    obtain ⟨⟨rfl, rfl⟩, rfl⟩ := h
    split_ifs at hsp
    · exact (hne r s₀ (by rw [(splitToSize_eq_some hsp).1])).elim
    · simp only [Prod.mk.injEq] at hsp
      exact (hne c s (by rw [← hsp.1.1, ← hsp.1.2, ← hsp.2])).elim

def allocate (s : Suballocator) (env : Env) (bytes : ℤ) : (Status × Option Ref) × Suballocator :=
  if maxAllocationBytes < bytes then ((.error (allocationTooLarge bytes), none), s)
  else
    let bytes := (max bytes minAllocationBytes).toNat
    let targetListIdx := computeListIndex bytes
    match s.popFreeListFrom targetListIdx with
    | (some freeNode, s) => s.allocateFrom env targetListIdx bytes freeNode
    | (none, s) =>
      match s.allocateBuffer env bytes with
      | ((.ok, some freeNode), s) => s.allocateFrom env targetListIdx bytes freeNode
      | r => r

theorem allocate_eq_some {s : Suballocator} {env : Env} {bytes : ℤ} {st : Status} {r : Ref}
    {s' : Suballocator} (h : s.allocate env bytes = ((st, some r), s')) :
    bytes ≤ maxAllocationBytes ∧ ∃ c s₁,
      s₁.allocateFrom env (computeListIndex (max bytes minAllocationBytes).toNat)
        (max bytes minAllocationBytes).toNat c = ((st, some r), s') ∧
      (s.popFreeListFrom (computeListIndex (max bytes minAllocationBytes).toNat) = (some c, s₁) ∨
        s.popFreeListFrom (computeListIndex (max bytes minAllocationBytes).toNat) = (none, s) ∧
          s.allocateBuffer env (max bytes minAllocationBytes).toNat = ((.ok, some c), s₁)) := by
  unfold allocate at h
  split_ifs at h with hmax
  · simp at h
  refine ⟨not_lt.1 hmax, ?_⟩
  dsimp only at h
  rcases hpop : s.popFreeListFrom (computeListIndex (max bytes minAllocationBytes).toNat) with
    ⟨_ | c, s₁⟩
  · obtain rfl := popFreeListFrom_eq_none hpop
    rw [hpop] at h
    dsimp only at h
    generalize hbuf : s₁.allocateBuffer env _ = sb at h
    obtain ⟨⟨st₀, res₀⟩, s₂⟩ := sb
    split at h
    next c s₃ heq =>
      obtain ⟨⟨rfl, rfl⟩, rfl⟩ : (st₀ = .ok ∧ res₀ = some c) ∧ s₂ = s₃ := by simpa using heq
      exact ⟨c, s₂, h, .inr ⟨rfl, rfl⟩⟩
    next r' hne =>
      simp only [Prod.mk.injEq] at h
      obtain ⟨⟨rfl, rfl⟩, rfl⟩ := h
      obtain ⟨rfl, -⟩ := allocateBuffer_eq_some hbuf
      exact (hne r _ rfl).elim
  · rw [hpop] at h
    exact ⟨c, s₁, h, .inl rfl⟩

/-- The loop of `Free` from the node `curr` of `buffer`, which is free and in no list: while
its buddy is free too the two are coalesced into their parent; at the root the whole buffer
goes back to the pool. -/
def freeLoop (s : Suballocator) (buffer : ℕ) : List Bool → Suballocator
  | [] => s.setNode (Ref.root buffer) none
  | d :: path =>
    let parent : Ref := ⟨buffer, path⟩
    if s.inUse (parent.child !d) then s.addToFreeList (parent.child d)
    else freeLoop ((s.removeFromFreeList (parent.child !d)).coalesceBuddies parent) buffer path

def free (s : Suballocator) : Option Ref → Suballocator
  | none => s
  | some allocation => (s.markFreed allocation).freeLoop allocation.buffer allocation.path

/-! ### Splitting and coalescing undo each other -/

theorem addToFreeList_setFreeList {s : Suballocator} {j : ℕ} {c : Ref} {rest : List Ref}
    (hj : s.freeLists j = c :: rest) (hidx : computeListIndex (s.len c) = j) :
    (s.setFreeList j rest).addToFreeList c = s := by
  ext1
  · rfl
  · rfl
  · show Function.update (Function.update s.freeLists j rest) (computeListIndex (s.len c))
      (c :: Function.update s.freeLists j rest (computeListIndex (s.len c))) = s.freeLists
    rw [hidx, Function.update_self, Function.update_idem, ← hj, Function.update_eq_self]
  · rfl
  · rfl
  · rfl

theorem markFreed_markAllocated {s : Suballocator} {r : Ref} (h : s.nodes r = some false) :
    (s.markAllocated r).markFreed r = s := by
  ext1
  · simp
  · simp
  · funext k
    simp
  · funext x
    by_cases hx : x = r
    · subst hx
      simp [h]
    · simp [Function.update_of_ne hx]
  · funext b
    simp
  · simp

theorem coalesceBuddies_splitNode {s : Suballocator} {c : Ref} (hc : s.nodes c = some false)
    (hchild : ∀ d, s.nodes (c.child d) = none) :
    ((s.splitNode c).removeFromFreeList (c.child true)).coalesceBuddies c = s := by
  ext1
  · simp
  · simp
  · show Function.update (s.splitNode c).freeLists (computeListIndex (s.len c / 2))
      (((s.splitNode c).freeLists (computeListIndex (s.len c / 2))).erase (c.child true)) =
        s.freeLists
    rw [splitNode_freeLists, Function.update_self, List.erase_cons_head, Function.update_idem,
      Function.update_eq_self]
  · funext x
    rcases Ref.eq_or_child_or_ne x c with rfl | ⟨d, rfl⟩ | ⟨h₁, h₂⟩
    · rw [coalesceBuddies_nodes_self, hc]
    · rw [coalesceBuddies_nodes_child, hchild]
    · rw [coalesceBuddies_nodes_of_ne _ h₁ h₂, nodes_removeFromFreeList,
        splitNode_nodes_of_ne _ h₁ h₂]
  · simp
  · simp

theorem freeLoop_splitNode {s : Suballocator} {c : Ref} (hc : s.nodes c = some false)
    (hchild : ∀ d, s.nodes (c.child d) = none) :
    (s.splitNode c).freeLoop c.buffer (false :: c.path) = s.freeLoop c.buffer c.path := by
  have hc' : (⟨c.buffer, c.path⟩ : Ref) = c := rfl
  have hin : (s.splitNode c).inUse (c.child true) = false := by
    simp [inUse, splitNode_nodes_child]
  rw [freeLoop]
  simp only [hc', Bool.not_false, hin, Bool.false_eq_true, if_false]
  rw [coalesceBuddies_splitNode hc hchild]

end Suballocator

end Impala.BufferPool
