import Mathlib
import Impala.Runtime.Bufferpool.Suballocator

/-!
The invariant of the suballocator over every run of `Allocate` and `Free` calls, and what a
client of it relies on: the free lists hold exactly the free nodes of their size, the live
allocations are disjoint pieces of their buffers counted in `allocated_`, `Allocate` rounds a
request up to a power of two, and `Free` undoes the `Allocate` before it.
-/

set_option autoImplicit false

namespace Impala.BufferPool.Suballocator

open StringFunctions (roundUpToPowerOfTwo)

def ParentsInUse (nodes : Ref → Option Bool) : Prop :=
  ∀ (r : Ref) (d : Bool) v, nodes (r.child d) = some v → nodes r = some true

def BuddiesExist (nodes : Ref → Option Bool) : Prop :=
  ∀ (r : Ref) (d : Bool) v, nodes (r.child d) = some v → nodes (r.child !d) ≠ none

def Coalesced (nodes : Ref → Option Bool) (hole : Option Ref) : Prop :=
  ∀ (r : Ref) (d : Bool), nodes (r.child d) = some false → nodes (r.child !d) = some false →
    hole = some (r.child d) ∨ hole = some (r.child !d)

/-- What holds between calls (`hole = none`), and inside `Allocate` and `Free` while they hold
the free node `hole` outside every free list. `live` are the allocations the client holds. -/
structure Inv (s : Suballocator) (live : List Ref) (hole : Option Ref) : Prop where
  minBufferLen : ∃ m ≤ logMaxAllocationBytes, s.minBufferLen = 2 ^ m
  bufferLen : ∀ r v, s.nodes r = some v → ∃ k < numFreeLists,
    s.bufferLen r.buffer = 2 ^ (k + logMinAllocationBytes) ∧ r.path.length ≤ k
  fresh : ∀ r, s.nextBuffer ≤ r.buffer → s.nodes r = none
  parents : ParentsInUse s.nodes
  buddies : BuddiesExist s.nodes
  coalesced : Coalesced s.nodes hole
  hole_free : ∀ c, hole = some c → s.nodes c = some false
  mem_freeLists : ∀ k r, r ∈ s.freeLists k ↔
    s.nodes r = some false ∧ hole ≠ some r ∧ computeListIndex (s.len r) = k
  nodup_freeLists : ∀ k, (s.freeLists k).Nodup
  nodup_live : live.Nodup
  mem_live : ∀ r, r ∈ live ↔ s.nodes r = some true ∧ s.nodes (r.child false) = none
  allocated : s.allocated = ((live.map s.len).sum : ℕ)

variable {s : Suballocator} {live : List Ref} {hole : Option Ref} {c : Ref}

namespace Inv

theorem children_none (h : Inv s live hole) {c : Ref} (hc : s.nodes c ≠ some true) (d : Bool) :
    s.nodes (c.child d) = none := by
  by_contra hne
  obtain ⟨v, hv⟩ := Option.ne_none_iff_exists'.1 hne
  exact hc (h.parents c d v hv)

theorem children_none_of_live (h : Inv s live hole) {c : Ref} (hc : c ∈ live) (d : Bool) :
    s.nodes (c.child d) = none := by
  have hleft := ((h.mem_live c).1 hc).2
  cases d
  · exact hleft
  · by_contra hne
    obtain ⟨v, hv⟩ := Option.ne_none_iff_exists'.1 hne
    exact h.buddies c true v hv hleft

theorem len_eq (h : Inv s live hole) {r : Ref} {v : Bool} (hr : s.nodes r = some v) :
    ∃ j < numFreeLists, s.len r = 2 ^ (j + logMinAllocationBytes) := by
  obtain ⟨k, hk, hL, hp⟩ := h.bufferLen r v hr
  refine ⟨k - r.path.length, by omega, ?_⟩
  rw [len, hL, nodeLen_two_pow (by omega)]
  congr 1
  omega

end Inv

open Function

section Nodes

variable {nodes : Ref → Option Bool}

/-- `c` is a root, or its buddy is not free. -/
def BuddyNotFree (nodes : Ref → Option Bool) (c : Ref) : Prop :=
  ∀ (r : Ref) (d : Bool), c = r.child d → nodes (r.child !d) ≠ some false

theorem update_ne_none_iff {c x : Ref} (hc : nodes c ≠ none) (v : Bool) :
    update nodes c (some v) x ≠ none ↔ nodes x ≠ none := by
  by_cases hx : x = c
  · subst hx
    simp [hc]
  · rw [update_of_ne hx]

theorem BuddiesExist.update_some (h : BuddiesExist nodes) {c : Ref} (hc : nodes c ≠ none)
    (v : Bool) : BuddiesExist (update nodes c (some v)) := by
  intro r d w hr
  rw [update_ne_none_iff hc]
  have : nodes (r.child d) ≠ none := (update_ne_none_iff hc v).1 (by simp [hr])
  obtain ⟨w', hw'⟩ := Option.ne_none_iff_exists'.1 this
  exact h r d w' hw'

theorem ParentsInUse.update_leaf (h : ParentsInUse nodes) {c : Ref} (hc : nodes c ≠ none)
    (hleaf : ∀ d, nodes (c.child d) = none) (v : Bool) :
    ParentsInUse (update nodes c (some v)) := by
  intro r d w hr
  have hrc : r ≠ c := by
    rintro rfl
    rw [update_of_ne (Ref.child_ne_self r d), hleaf d] at hr
    cases hr
  rw [update_of_ne hrc]
  by_cases hcd : r.child d = c
  · obtain ⟨w', hw'⟩ := Option.ne_none_iff_exists'.1 hc
    exact h r d w' (hcd ▸ hw')
  · rw [update_of_ne hcd] at hr
    exact h r d w hr

end Nodes

/-! ### One lemma per step

`markFreed` is how `Free` starts and `markAllocated` how `Allocate` ends; `takeHead` is
`PopFreeListHead`, `putBack` the `AddToFreeList` of the node held, `splitNode` one pass of the
loop of `SplitToSize`, `coalesce` one pass of the loop of `Free` and `releaseRoot` its end at a
root; `addBuffer` is the new buffer of `AllocateBuffer`. -/

namespace Inv

theorem exists_of_mem_live (h : Inv s live hole) {a : Ref} (ha : a ∈ live) : s.nodes a = some true :=
  ((h.mem_live a).1 ha).1

theorem buffer_lt (h : Inv s live hole) {r : Ref} (hr : s.nodes r ≠ none) : r.buffer < s.nextBuffer := by
  by_contra hlt
  exact hr (h.fresh r (by omega))

theorem markFreed (h : Inv s live none) {a : Ref} (ha : a ∈ live) :
    Inv (s.markFreed a) (live.erase a) (some a) where
  minBufferLen := h.minBufferLen
  bufferLen r v hr := by
    by_cases hra : r = a
    · subst hra
      exact h.bufferLen r true (h.exists_of_mem_live ha)
    · simp only [markFreed_nodes, update_of_ne hra] at hr
      exact h.bufferLen r v hr
  fresh r hr := by
    have := h.buffer_lt (r := a) (by simp [h.exists_of_mem_live ha])
    simp only [markFreed_nodes, update_of_ne (show r ≠ a by rintro rfl; simp at hr; omega)]
    exact h.fresh r hr
  parents := h.parents.update_leaf (by simp [h.exists_of_mem_live ha])
    (h.children_none_of_live ha) false
  buddies := h.buddies.update_some (by simp [h.exists_of_mem_live ha]) false
  coalesced r d h₁ h₂ := by
    by_cases h₃ : r.child d = a
    · exact .inl (by rw [h₃])
    by_cases h₄ : r.child (!d) = a
    · exact .inr (by rw [h₄])
    rw [markFreed_nodes, update_of_ne h₃] at h₁
    rw [markFreed_nodes, update_of_ne h₄] at h₂
    simpa using h.coalesced r d h₁ h₂
  hole_free c hc := by
    cases hc
    simp
  mem_freeLists k r := by
    by_cases hra : r = a
    · subst hra
      simp [h.mem_freeLists, h.exists_of_mem_live ha]
    · simpa [update_of_ne hra, Ne.symm hra] using h.mem_freeLists k r
  nodup_freeLists := h.nodup_freeLists
  nodup_live := h.nodup_live.erase a
  mem_live r := by
    rw [h.nodup_live.mem_erase_iff]
    by_cases hra : r = a
    · subst hra
      simp
    · by_cases hca : r.child false = a
      · subst hca
        simp only [markFreed_nodes, update_of_ne hra, update_self, reduceCtorEq, and_false,
          iff_false, not_and]
        intro _ hr
        exact absurd ((h.mem_live _).1 hr).2 (by simp [h.exists_of_mem_live ha])
      · simp [update_of_ne hca, hra, h.mem_live r]
  allocated := by
    have := List.sum_map_erase s.len ha
    rw [markFreed_allocated, len_markFreed, h.allocated, ← this]
    push_cast
    ring

theorem hole_ne_true (h : Inv s live (some c)) : s.nodes c ≠ some true := by
  simp [h.hole_free c rfl]

theorem markAllocated (h : Inv s live (some c)) : Inv (s.markAllocated c) (c :: live) none where
  minBufferLen := h.minBufferLen
  bufferLen r v hr := by
    by_cases hrc : r = c
    · subst hrc
      exact h.bufferLen r false (h.hole_free r rfl)
    · simp only [markAllocated_nodes, update_of_ne hrc] at hr
      exact h.bufferLen r v hr
  fresh r hr := by
    have := h.buffer_lt (r := c) (by simp [h.hole_free c rfl])
    simp only [markAllocated_nodes, update_of_ne (show r ≠ c by rintro rfl; simp at hr; omega)]
    exact h.fresh r hr
  parents := h.parents.update_leaf (by simp [h.hole_free c rfl])
    (h.children_none h.hole_ne_true) true
  buddies := h.buddies.update_some (by simp [h.hole_free c rfl]) true
  coalesced r d h₁ h₂ := by
    have h₃ : r.child d ≠ c := by rintro rfl; simp at h₁
    have h₄ : r.child (!d) ≠ c := by intro h; rw [h] at h₂; simp at h₂
    rw [markAllocated_nodes, update_of_ne h₃] at h₁
    rw [markAllocated_nodes, update_of_ne h₄] at h₂
    rcases h.coalesced r d h₁ h₂ with h | h <;> simp_all
  hole_free c' hc := by cases hc
  mem_freeLists k r := by
    by_cases hrc : r = c
    · subst hrc
      simp [h.mem_freeLists]
    · simpa [update_of_ne hrc, Ne.symm hrc] using h.mem_freeLists k r
  nodup_freeLists := h.nodup_freeLists
  nodup_live := by
    refine List.nodup_cons.2 ⟨fun hc => ?_, h.nodup_live⟩
    exact h.hole_ne_true (h.exists_of_mem_live hc)
  mem_live r := by
    by_cases hrc : r = c
    · subst hrc
      simp [h.children_none h.hole_ne_true]
    · by_cases hcc : r.child false = c
      · subst hcc
        simp only [List.mem_cons, hrc, false_or, markAllocated_nodes, update_of_ne hrc,
          update_self, reduceCtorEq, and_false, iff_false]
        intro hr
        exact absurd ((h.mem_live _).1 hr).2 (by simp [h.hole_free _ rfl])
      · simp [update_of_ne hcc, hrc, h.mem_live r]
  allocated := by
    rw [markAllocated_allocated, len_markAllocated, h.allocated]
    simp [add_comm]

theorem takeHead (h : Inv s live none) {i : ℕ} {rest : List Ref} (hi : s.freeLists i = c :: rest) :
    Inv (s.setFreeList i rest) live (some c) where
  minBufferLen := h.minBufferLen
  bufferLen := h.bufferLen
  fresh := h.fresh
  parents := h.parents
  buddies := h.buddies
  coalesced r d h₁ h₂ := by simpa using h.coalesced r d h₁ h₂
  hole_free c' hc := by
    cases hc
    exact ((h.mem_freeLists i c).1 (by simp [hi])).1
  mem_freeLists k r := by
    have hc := (h.mem_freeLists i c).1 (by simp [hi])
    have hnd := h.nodup_freeLists i
    rw [hi] at hnd
    simp only [setFreeList_freeLists, update_apply, setFreeList_nodes, len_setFreeList]
    split_ifs with hk
    · subst hk
      have := h.mem_freeLists k r
      rw [hi, List.mem_cons] at this
      by_cases hrc : r = c
      · subst hrc
        simp [(List.nodup_cons.1 hnd).1]
      · simpa [hrc, Ne.symm hrc] using this
    · rw [h.mem_freeLists k r]
      by_cases hrc : r = c
      · subst hrc
        simp only [ne_eq, not_true_eq_false, false_and, and_false, iff_false, not_and]
        intro _ _ hk'
        exact hk (hk' ▸ hc.2.2.symm ▸ rfl)
      · simp [Ne.symm hrc]
  nodup_freeLists k := by
    simp only [setFreeList_freeLists, update_apply]
    split_ifs with hk
    · have hnd := h.nodup_freeLists i
      rw [hi] at hnd
      exact (List.nodup_cons.1 hnd).2
    · exact h.nodup_freeLists k
  nodup_live := h.nodup_live
  mem_live := h.mem_live
  allocated := h.allocated

theorem putBack (h : Inv s live (some c)) (hb : BuddyNotFree s.nodes c) :
    Inv (s.addToFreeList c) live none where
  minBufferLen := h.minBufferLen
  bufferLen := h.bufferLen
  fresh := h.fresh
  parents := h.parents
  buddies := h.buddies
  coalesced r d h₁ h₂ := by
    rcases h.coalesced r d h₁ h₂ with hc | hc <;> cases hc
    · exact absurd h₂ (hb r d rfl)
    · exact absurd h₁ (by simpa using hb r (!d) rfl)
  hole_free c' hc := by cases hc
  mem_freeLists k r := by
    rw [mem_addToFreeList, h.mem_freeLists k r, nodes_addToFreeList, len_addToFreeList]
    by_cases hrc : r = c
    · subst hrc
      simp [h.hole_free r rfl, eq_comm]
    · simp [hrc, Ne.symm hrc]
  nodup_freeLists k := by
    simp only [addToFreeList, setFreeList_freeLists, update_apply]
    split_ifs with hk
    · refine List.nodup_cons.2 ⟨fun hc => ?_, h.nodup_freeLists _⟩
      simpa using ((h.mem_freeLists _ c).1 hc).2.1
    · exact h.nodup_freeLists k
  nodup_live := h.nodup_live
  mem_live := h.mem_live
  allocated := h.allocated

theorem splitNode (h : Inv s live (some c)) (hk : 0 < computeListIndex (s.len c)) :
    Inv (s.splitNode c) live (some (c.child false)) := by
  have hc := h.hole_free c rfl
  have hchild := h.children_none h.hole_ne_true
  obtain ⟨k, hkl, hL, hp⟩ := h.bufferLen c false hc
  have hplen : c.path.length < k := by
    have : s.len c = 2 ^ (k - c.path.length + logMinAllocationBytes) := by
      rw [len, hL, nodeLen_two_pow (by omega)]
      congr 1
      omega
    rw [this, computeListIndex_two_pow] at hk
    omega
  have hbuf := h.buffer_lt (r := c) (by simp [hc])
  exact {
  minBufferLen := h.minBufferLen
  bufferLen := fun r v hr => by
    rcases Ref.eq_or_child_or_ne r c with rfl | ⟨d, rfl⟩ | ⟨h₁, h₂⟩
    · exact ⟨k, hkl, hL, hp⟩
    · exact ⟨k, hkl, hL, by simp; omega⟩
    · rw [splitNode_nodes_of_ne _ h₁ h₂] at hr
      exact h.bufferLen r v hr
  fresh := fun r hr => by
    rcases Ref.eq_or_child_or_ne r c with rfl | ⟨d, rfl⟩ | ⟨h₁, h₂⟩
    · simp at hr; omega
    · simp at hr; omega
    · rw [splitNode_nodes_of_ne _ h₁ h₂]
      exact h.fresh r hr
  parents := fun r d v hr => by
    rcases Ref.eq_or_child_or_ne r c with rfl | ⟨e, rfl⟩ | ⟨h₁, h₂⟩
    · exact splitNode_nodes_self s r
    · rw [splitNode_nodes_of_ne _ (Ref.child_child_ne c e d) (by simp), h.children_none
        (by simp [hchild e]) d] at hr
      cases hr
    · rw [splitNode_nodes_of_ne _ h₁ h₂]
      by_cases h₃ : r.child d = c
      · rw [← h₃] at hc
        exact h.parents r d false hc
      · rw [splitNode_nodes_of_ne _ h₃ (by simp [h₁])] at hr
        exact h.parents r d v hr
  buddies := fun r d v hr => by
    rcases Ref.eq_or_child_or_ne r c with rfl | ⟨e, rfl⟩ | ⟨h₁, h₂⟩
    · simp [splitNode_nodes_child]
    · rw [splitNode_nodes_of_ne _ (Ref.child_child_ne c e d) (by simp), h.children_none
        (by simp [hchild e]) d] at hr
      cases hr
    · by_cases h₃ : r.child d = c
      · have h₄ : r.child (!d) ≠ c := by rw [← h₃]; simp
        rw [splitNode_nodes_of_ne _ h₄ (by simp [h₁])]
        exact h.buddies r d false (h₃ ▸ hc)
      · rw [splitNode_nodes_of_ne _ h₃ (by simp [h₁])] at hr
        by_cases h₄ : r.child (!d) = c
        · rw [h₄, splitNode_nodes_self]
          simp
        · rw [splitNode_nodes_of_ne _ h₄ (by simp [h₁])]
          exact h.buddies r d v hr
  coalesced := fun r d h₁ h₂ => by
    by_cases hrc : r = c
    · subst hrc
      cases d
      · exact .inl rfl
      · exact .inr rfl
    have h₃ : r.child d ≠ c := by rintro h; rw [h, splitNode_nodes_self] at h₁; cases h₁
    have h₄ : r.child (!d) ≠ c := by rintro h; rw [h, splitNode_nodes_self] at h₂; cases h₂
    rw [splitNode_nodes_of_ne _ h₃ (by simp [hrc])] at h₁
    rw [splitNode_nodes_of_ne _ h₄ (by simp [hrc])] at h₂
    rcases h.coalesced r d h₁ h₂ with h | h <;> simp_all
  hole_free := fun c' hc' => by
    cases hc'
    exact splitNode_nodes_child s c false
  mem_freeLists := fun j r => by
    rw [mem_splitNode_freeLists, len_splitNode]
    rcases Ref.eq_or_child_or_ne r c with rfl | ⟨e, rfl⟩ | ⟨h₁, h₂⟩
    · simp [splitNode_nodes_self, h.mem_freeLists]
    · cases e
      · simp [splitNode_nodes_child, h.mem_freeLists, hchild]
      · simp [splitNode_nodes_child, h.mem_freeLists, hchild, eq_comm]
    · rw [splitNode_nodes_of_ne _ h₁ h₂, h.mem_freeLists]
      simp [h₂ true, Ne.symm h₁, Ne.symm (h₂ false)]
  nodup_freeLists := fun j => by
    rw [splitNode_freeLists, update_apply]
    split_ifs with hj
    · refine List.nodup_cons.2 ⟨fun hm => ?_, h.nodup_freeLists _⟩
      have := ((h.mem_freeLists _ _).1 hm).1
      simp [hchild] at this
    · exact h.nodup_freeLists j
  nodup_live := h.nodup_live
  mem_live := fun r => by
    rw [h.mem_live r]
    rcases Ref.eq_or_child_or_ne r c with rfl | ⟨e, rfl⟩ | ⟨h₁, h₂⟩
    · simp [hc, splitNode_nodes_self, splitNode_nodes_child]
    · simp [hchild, splitNode_nodes_child]
    · rw [splitNode_nodes_of_ne _ h₁ h₂]
      by_cases h₃ : r.child false = c
      · rw [h₃, splitNode_nodes_self, hc]
        simp
      · rw [splitNode_nodes_of_ne _ h₃ (by simp [h₁])]
  allocated := h.allocated }

theorem coalesce {p : Ref} {d : Bool} (h : Inv s live (some (p.child d)))
    (hb : s.nodes (p.child !d) = some false) :
    Inv ((s.removeFromFreeList (p.child !d)).coalesceBuddies p) live (some p) := by
  have hc := h.hole_free _ rfl
  have hp : s.nodes p = some true := h.parents p d false hc
  have hgrand : ∀ e f, s.nodes ((p.child e).child f) = none := fun e f =>
    h.children_none (by cases e <;> cases d <;> simp_all) f
  have hpbuf := h.buffer_lt (r := p) (by simp [hp])
  have hnd := h.nodup_freeLists
  have hcn : ∀ x, x ≠ p → (∀ f, x ≠ p.child f) →
      ((s.removeFromFreeList (p.child !d)).coalesceBuddies p).nodes x = s.nodes x :=
    fun x h₁ h₂ => coalesceBuddies_nodes_of_ne _ h₁ h₂
  exact {
  minBufferLen := h.minBufferLen
  bufferLen := fun r v hr => by
    rcases Ref.eq_or_child_or_ne r p with rfl | ⟨e, rfl⟩ | ⟨h₁, h₂⟩
    · exact h.bufferLen r true hp
    · simp [coalesceBuddies_nodes_child] at hr
    · rw [hcn _ h₁ h₂] at hr
      exact h.bufferLen r v hr
  fresh := fun r hr => by
    rcases Ref.eq_or_child_or_ne r p with rfl | ⟨e, rfl⟩ | ⟨h₁, h₂⟩
    · simp at hr; omega
    · exact coalesceBuddies_nodes_child _ p e
    · rw [hcn _ h₁ h₂]
      exact h.fresh r (by simpa using hr)
  parents := fun r e v hr => by
    rcases Ref.eq_or_child_or_ne (r.child e) p with h₃ | ⟨f, h₃⟩ | ⟨h₃, h₄⟩
    · have h₅ : r ≠ p := by rw [← h₃]; simp
      have h₆ : ∀ f, r ≠ p.child f := by rintro f rfl; simp at h₃
      rw [hcn _ h₅ h₆]
      exact h.parents r e true (h₃ ▸ hp)
    · rw [h₃, coalesceBuddies_nodes_child] at hr
      cases hr
    · rw [hcn _ h₃ h₄] at hr
      have hr' := h.parents r e v hr
      have h₅ : r ≠ p := by rintro rfl; exact h₄ e rfl
      have h₆ : ∀ f, r ≠ p.child f := by rintro f rfl; cases f <;> cases d <;> simp_all
      rw [hcn _ h₅ h₆, hr']
  buddies := fun r e v hr => by
    have h₅ : r ≠ p := by rintro rfl; simp [coalesceBuddies_nodes_child] at hr
    by_cases h₆ : r.child (!e) = p
    · rw [h₆, coalesceBuddies_nodes_self]
      simp
    rw [hcn _ h₆ (by simp [h₅])]
    by_cases h₃ : r.child e = p
    · exact h.buddies r e true (h₃ ▸ hp)
    · rw [hcn _ h₃ (by simp [h₅])] at hr
      exact h.buddies r e v hr
  coalesced := fun r e h₁ h₂ => by
    by_cases h₃ : r.child e = p
    · exact .inl (by rw [h₃])
    by_cases h₄ : r.child (!e) = p
    · exact .inr (by rw [h₄])
    have h₅ : r ≠ p := by rintro rfl; simp [coalesceBuddies_nodes_child] at h₁
    rw [hcn _ h₃ (by simp [h₅])] at h₁
    rw [hcn _ h₄ (by simp [h₅])] at h₂
    rcases h.coalesced r e h₁ h₂ with h | h <;> simp_all
  hole_free := fun c' hc' => by
    cases hc'
    exact coalesceBuddies_nodes_self _ p
  mem_freeLists := fun k r => by
    rw [coalesceBuddies_freeLists, mem_removeFromFreeList _ (hnd k), len_coalesceBuddies,
      len_removeFromFreeList]
    rcases Ref.eq_or_child_or_ne r p with rfl | ⟨e, rfl⟩ | ⟨h₁, h₂⟩
    · simp [coalesceBuddies_nodes_self, h.mem_freeLists, hp]
    · simp only [coalesceBuddies_nodes_child, reduceCtorEq, false_and, iff_false, not_and,
        h.mem_freeLists]
      rintro ⟨_, hne, rfl⟩
      cases e <;> cases d <;> simp_all
    · rw [hcn _ h₁ h₂, h.mem_freeLists]
      simp [h₂, Ne.symm h₁, Ne.symm (h₂ d)]
  nodup_freeLists := fun k => by
    simp only [coalesceBuddies_freeLists, removeFromFreeList, setFreeList_freeLists,
      update_apply]
    split_ifs
    · exact (hnd _).erase _
    · exact hnd k
  nodup_live := h.nodup_live
  mem_live := fun r => by
    rw [h.mem_live r]
    rcases Ref.eq_or_child_or_ne r p with rfl | ⟨e, rfl⟩ | ⟨h₁, h₂⟩
    · simp [coalesceBuddies_nodes_self, hp]
      cases d <;> simp_all
    · simp only [coalesceBuddies_nodes_child, reduceCtorEq, false_and, iff_false, not_and]
      intro h'
      cases e <;> cases d <;> simp_all
    · rw [hcn _ h₁ h₂]
      by_cases h₃ : r.child false = p
      · rw [h₃, coalesceBuddies_nodes_self, hp]
        simp
      · rw [hcn _ h₃ (by simp [h₁])]
  allocated := h.allocated }

theorem releaseRoot {b : ℕ} (h : Inv s live (some (Ref.root b))) :
    Inv (s.setNode (Ref.root b) none) live none where
  minBufferLen := h.minBufferLen
  bufferLen r v hr := by
    by_cases hrb : r = Ref.root b
    · subst hrb
      simp at hr
    · rw [setNode_nodes, update_of_ne hrb] at hr
      exact h.bufferLen r v hr
  fresh r hr := by
    by_cases hrb : r = Ref.root b
    · subst hrb
      simp
    · rw [setNode_nodes, update_of_ne hrb]
      exact h.fresh r hr
  parents r e v hr := by
    rw [setNode_nodes, update_of_ne (Ref.child_ne_root r e b)] at hr
    have hr' := h.parents r e v hr
    have hrb : r ≠ Ref.root b := by rintro rfl; simp [h.hole_free _ rfl] at hr'
    rw [setNode_nodes, update_of_ne hrb, hr']
  buddies r e v hr := by
    rw [setNode_nodes, update_of_ne (Ref.child_ne_root r e b)] at hr
    rw [setNode_nodes, update_of_ne (Ref.child_ne_root r (!e) b)]
    exact h.buddies r e v hr
  coalesced r e h₁ h₂ := by
    rw [setNode_nodes, update_of_ne (Ref.child_ne_root r e b)] at h₁
    rw [setNode_nodes, update_of_ne (Ref.child_ne_root r (!e) b)] at h₂
    rcases h.coalesced r e h₁ h₂ with h | h <;> simp [Ref.root, Ref.child] at h
  hole_free c' hc' := by cases hc'
  mem_freeLists k r := by
    rw [setNode_freeLists, h.mem_freeLists, len_setNode]
    by_cases hrb : r = Ref.root b
    · subst hrb
      simp
    · simp [update_of_ne hrb, Ne.symm hrb]
  nodup_freeLists := h.nodup_freeLists
  nodup_live := h.nodup_live
  mem_live r := by
    rw [h.mem_live r]
    by_cases hrb : r = Ref.root b
    · subst hrb
      simp [h.hole_free _ rfl]
    · simp [update_of_ne hrb]
  allocated := h.allocated

theorem addBuffer (h : Inv s live none) {L : ℕ}
    (hL : ∃ k < numFreeLists, L = 2 ^ (k + logMinAllocationBytes)) :
    Inv (s.addBuffer L) live (some (Ref.root s.nextBuffer)) := by
  have hlen : ∀ r, s.nodes r ≠ none → (s.addBuffer L).len r = s.len r := fun r hr => by
    simp [len, update_of_ne (h.buffer_lt hr).ne]
  have hnew : ∀ r, r ≠ Ref.root s.nextBuffer → (s.addBuffer L).nodes r = s.nodes r :=
    fun r hr => by simp [update_of_ne hr]
  exact {
  minBufferLen := h.minBufferLen
  bufferLen := fun r v hr => by
    by_cases hrb : r = Ref.root s.nextBuffer
    · subst hrb
      obtain ⟨k, hk, rfl⟩ := hL
      exact ⟨k, hk, by simp [Ref.root], by simp [Ref.root]⟩
    · rw [hnew r hrb] at hr
      obtain ⟨k, hk, hL', hp⟩ := h.bufferLen r v hr
      refine ⟨k, hk, ?_, hp⟩
      simpa [update_of_ne (h.buffer_lt (r := r) (by simp [hr])).ne] using hL'
  fresh := fun r hr => by
    simp only [addBuffer_nextBuffer] at hr
    rw [hnew r (by rintro rfl; simp [Ref.root] at hr)]
    exact h.fresh r (by omega)
  parents := fun r e v hr => by
    rw [hnew _ (Ref.child_ne_root r e _)] at hr
    have hr' := h.parents r e v hr
    rw [hnew r (by rintro rfl; simp [h.fresh (Ref.root s.nextBuffer) (le_refl _)] at hr'), hr']
  buddies := fun r e v hr => by
    rw [hnew _ (Ref.child_ne_root r e _)] at hr
    rw [hnew _ (Ref.child_ne_root r (!e) _)]
    exact h.buddies r e v hr
  coalesced := fun r e h₁ h₂ => by
    rw [hnew _ (Ref.child_ne_root r e _)] at h₁
    rw [hnew _ (Ref.child_ne_root r (!e) _)] at h₂
    simpa using h.coalesced r e h₁ h₂
  hole_free := fun c' hc' => by
    cases hc'
    simp
  mem_freeLists := fun k r => by
    rw [addBuffer_freeLists, h.mem_freeLists]
    by_cases hrb : r = Ref.root s.nextBuffer
    · subst hrb
      simp [h.fresh (Ref.root s.nextBuffer) (le_refl _)]
    · rw [hnew r hrb]
      by_cases hr : s.nodes r = some false
      · simp [hr, hlen r (by simp [hr]), Ne.symm hrb]
      · simp [hr]
  nodup_freeLists := h.nodup_freeLists
  nodup_live := h.nodup_live
  mem_live := fun r => by
    rw [h.mem_live r]
    by_cases hrb : r = Ref.root s.nextBuffer
    · subst hrb
      simp [h.fresh (Ref.root s.nextBuffer) (le_refl _)]
    · rw [hnew r hrb, hnew _ (Ref.child_ne_root r false _)]
  allocated := by
    rw [addBuffer_allocated, h.allocated]
    congr 2
    refine List.map_congr_left fun r hr => ?_
    exact (hlen r (by simp [h.exists_of_mem_live hr])).symm }

theorem len_eq_two_pow (h : Inv s live hole) {r : Ref} {v : Bool} (hr : s.nodes r = some v) :
    s.len r = 2 ^ (computeListIndex (s.len r) + logMinAllocationBytes) ∧
      computeListIndex (s.len r) < numFreeLists := by
  obtain ⟨j, hj, hlen⟩ := h.len_eq hr
  rw [hlen, computeListIndex_two_pow]
  exact ⟨rfl, hj⟩

theorem buddyNotFree_of_mem (h : Inv s live none) {c : Ref} {k : ℕ} (hc : c ∈ s.freeLists k) :
    BuddyNotFree s.nodes c := by
  rintro r d rfl hb
  have := h.coalesced r d ((h.mem_freeLists k _).1 hc).1 hb
  simp at this

end Inv

/-! ### The operations keep the invariant -/

theorem popFreeListFrom_spec (h : Inv s live none) {i : ℕ} {s' : Suballocator}
    (hpop : s.popFreeListFrom i = (some c, s')) :
    Inv s' live (some c) ∧ BuddyNotFree s'.nodes c ∧ i ≤ computeListIndex (s'.len c) ∧
      s'.len = s.len ∧ s'.allocated = s.allocated := by
  obtain ⟨j, rest, hij, -, hrest, rfl⟩ := popFreeListFrom_eq_some hpop
  have hmem : c ∈ s.freeLists j := by simp [hrest]
  refine ⟨h.takeHead hrest, h.buddyNotFree_of_mem hmem, ?_, rfl, rfl⟩
  rw [len_setFreeList, ((h.mem_freeLists j c).1 hmem).2.2]
  exact hij

theorem Inv.computeListIndex_splitNode_child (h : Inv s live (some c)) {i : ℕ}
    (hi : computeListIndex (s.len c) = i) (hpos : 0 < i) :
    computeListIndex ((s.splitNode c).len (c.child false)) = i - 1 := by
  have hlen := (h.len_eq_two_pow (h.hole_free c rfl)).1
  rw [len_splitNode, Suballocator.len_child, hlen, hi,
    show i + logMinAllocationBytes = i - 1 + logMinAllocationBytes + 1 by omega, pow_succ,
    Nat.mul_div_cancel _ (by norm_num), computeListIndex_two_pow]

theorem splitLoop_spec {t i : ℕ} (h : Inv s live (some c))
    (hi : computeListIndex (s.len c) = i) (ht : t ≤ i) :
    Inv (s.splitLoop t c i).1 live (some (s.splitLoop t c i).2) ∧
      computeListIndex ((s.splitLoop t c i).1.len (s.splitLoop t c i).2) = t ∧
      (s.splitLoop t c i).1.len = s.len ∧ (s.splitLoop t c i).1.allocated = s.allocated := by
  fun_induction splitLoop s t c i with
  | case1 s c i hti ih =>
    obtain ⟨h₁, h₂, h₃, h₄⟩ :=
      ih (h.splitNode (by omega)) (h.computeListIndex_splitNode_child hi (by omega)) (by omega)
    exact ⟨h₁, h₂, by rw [h₃, len_splitNode], by rw [h₄, allocated_splitNode]⟩
  | case2 s c i hti =>
    exact ⟨h, by simp only; omega, rfl, rfl⟩

theorem freeLoop_splitLoop {t i : ℕ} (h : Inv s live (some c))
    (hi : computeListIndex (s.len c) = i) (ht : t ≤ i) :
    (s.splitLoop t c i).1.freeLoop (s.splitLoop t c i).2.buffer (s.splitLoop t c i).2.path =
      s.freeLoop c.buffer c.path := by
  fun_induction splitLoop s t c i with
  | case1 s c i hti ih =>
    rw [ih (h.splitNode (by omega)) (h.computeListIndex_splitNode_child hi (by omega)) (by omega)]
    exact freeLoop_splitNode (h.hole_free c rfl) (h.children_none h.hole_ne_true)
  | case2 s c i hti => rfl

theorem splitToSize_spec (h : Inv s live (some c)) (hb : BuddyNotFree s.nodes c)
    {create : Bool} {bytes : ℕ} (ht : computeListIndex bytes ≤ computeListIndex (s.len c))
    {st : Status} {res : Option Ref} {s' : Suballocator}
    (hs : s.splitToSize create c bytes = ((st, res), s')) :
    s'.len = s.len ∧ s'.allocated = s.allocated ∧ (res = none → Inv s' live none) ∧
      ∀ c', res = some c' → st = .ok ∧ Inv s' live (some c') ∧
        computeListIndex (s'.len c') = computeListIndex bytes := by
  unfold splitToSize at hs
  dsimp only at hs
  split_ifs at hs
  · cases hs
    exact ⟨rfl, rfl, fun _ => h.putBack hb, by simp⟩
  · obtain ⟨h₁, h₂, h₃, h₄⟩ := splitLoop_spec h rfl ht
    cases hs
    exact ⟨h₃, h₄, by simp, fun c' hc' => by cases hc'; exact ⟨rfl, h₁, h₂⟩⟩

theorem allocateFrom_spec (h : Inv s live (some c)) (hb : BuddyNotFree s.nodes c) {env : Env}
    {t bytes : ℕ} (htb : computeListIndex bytes = t) (ht : t ≤ computeListIndex (s.len c))
    {st : Status} {res : Option Ref} {s' : Suballocator}
    (hs : s.allocateFrom env t bytes c = ((st, res), s')) :
    Inv s' (res.toList ++ live) none ∧
      ∀ r, res = some r → st = .ok ∧ computeListIndex (s'.len r) = t ∧
        s'.allocated = s.allocated + s'.len r := by
  unfold allocateFrom at hs
  dsimp only at hs
  have hsplit : ∀ {st₀ res₀ s₀}, (if computeListIndex (s.len c) ≠ t then
      s.splitToSize env.createSplitNodes c bytes else ((.ok, some c), s)) = ((st₀, res₀), s₀) →
      s₀.allocated = s.allocated ∧ (res₀ = none → Inv s₀ live none) ∧
        ∀ c', res₀ = some c' → st₀ = .ok ∧ Inv s₀ live (some c') ∧
          computeListIndex (s₀.len c') = t := by
    intro st₀ res₀ s₀ hsp
    split_ifs at hsp with hne
    · obtain ⟨-, h₁, h₂, h₃⟩ := splitToSize_spec h hb (by omega) hsp
      refine ⟨h₁, h₂, fun c' hc' => ?_⟩
      obtain ⟨h₄, h₅, h₆⟩ := h₃ c' hc'
      exact ⟨h₄, h₅, by rw [h₆, htb]⟩
    · cases hsp
      exact ⟨rfl, by simp, fun c' hc' => by cases hc'; exact ⟨rfl, h, by simpa using hne⟩⟩
  generalize hsp : (if computeListIndex (s.len c) ≠ t then
      s.splitToSize env.createSplitNodes c bytes else ((.ok, some c), s)) = sp at hs
  obtain ⟨⟨st₀, res₀⟩, s₀⟩ := sp
  obtain ⟨halloc, hnone, hsome⟩ := hsplit hsp
  split at hs
  · rename_i node s₁ heq
    obtain ⟨⟨rfl, rfl⟩, rfl⟩ : (st₀ = .ok ∧ res₀ = some node) ∧ s₀ = s₁ := by simpa using heq
    cases hs
    obtain ⟨-, hinv, hidx⟩ := hsome node rfl
    refine ⟨by simpa using hinv.markAllocated, fun r hr => ?_⟩
    cases hr
    exact ⟨rfl, by rw [len_markAllocated, hidx], by
      rw [markAllocated_allocated, len_markAllocated, halloc]⟩
  · rename_i r hne
    cases hs
    cases res with
    | none => exact ⟨hnone rfl, by simp⟩
    | some c' =>
      obtain ⟨rfl, -⟩ := hsome c' rfl
      exact absurd rfl (hne c' s')

theorem free_allocateFrom (h : Inv s live (some c)) {env : Env} {t bytes : ℕ}
    (ht : computeListIndex bytes ≤ computeListIndex (s.len c)) {st : Status} {r : Ref}
    {s' : Suballocator} (hs : s.allocateFrom env t bytes c = ((st, some r), s')) :
    s'.free (some r) = s.freeLoop c.buffer c.path := by
  obtain ⟨-, s₁, rfl, ⟨-, rfl, rfl⟩ | ⟨-, hsplit⟩⟩ := allocateFrom_eq_some hs
  · rw [free, markFreed_markAllocated (h.hole_free _ rfl)]
  · obtain ⟨rfl, rfl⟩ := Prod.ext_iff.1 hsplit
    rw [free, markFreed_markAllocated ((splitLoop_spec h rfl ht).1.hole_free _ rfl)]
    exact freeLoop_splitLoop h rfl ht

theorem allocateBuffer_spec (h : Inv s live none) {env : Env} {bytes : ℕ}
    (h₁ : 2 ^ logMinAllocationBytes ≤ bytes) (h₂ : bytes ≤ 2 ^ logMaxAllocationBytes)
    {st : Status} {s' : Suballocator} (hs : s.allocateBuffer env bytes = ((st, some c), s')) :
    st = .ok ∧ Inv s' live (some c) ∧ BuddyNotFree s'.nodes c ∧
      computeListIndex bytes ≤ computeListIndex (s'.len c) ∧ s'.allocated = s.allocated := by
  obtain ⟨rfl, rfl, rfl⟩ := allocateBuffer_eq_some hs
  obtain ⟨hidx, hlog, -⟩ := computeListIndex_of_mem h₁ h₂
  obtain ⟨m, hm, hmin⟩ := h.minBufferLen
  obtain ⟨k, hk, hle, hpow⟩ : ∃ k < numFreeLists, computeListIndex bytes ≤ k ∧
      max s.minBufferLen (roundUpToPowerOfTwo bytes) = 2 ^ (k + logMinAllocationBytes) := by
    rw [hmin, roundUpToPowerOfTwo_eq (by unfold logMinAllocationBytes at h₁; omega)
      (le_trans h₂ (by unfold logMaxAllocationBytes; norm_num)), hlog]
    rcases le_total m (computeListIndex bytes + logMinAllocationBytes) with hle | hle
    · exact ⟨computeListIndex bytes, hidx, le_refl _,
        max_eq_right (Nat.pow_le_pow_right (by norm_num) hle)⟩
    · refine ⟨m - logMinAllocationBytes, ?_, by omega, ?_⟩
      · unfold numFreeLists logMaxAllocationBytes logMinAllocationBytes at *
        omega
      · rw [max_eq_left (Nat.pow_le_pow_right (by norm_num) hle)]
        congr 1
        omega
  refine ⟨rfl, h.addBuffer ⟨k, hk, hpow⟩, ?_, ?_, rfl⟩
  · rintro r d hrd
    exact absurd hrd.symm (Ref.child_ne_root r d _)
  · simp only [len, Ref.root, nodeLen, addBuffer_bufferLen, update_self]
    rw [hpow, computeListIndex_two_pow]
    exact hle

theorem max_minAllocationBytes_bounds {bytes : ℤ} (h : bytes ≤ maxAllocationBytes) :
    2 ^ logMinAllocationBytes ≤ (max bytes minAllocationBytes).toNat ∧
      (max bytes minAllocationBytes).toNat ≤ 2 ^ logMaxAllocationBytes := by
  unfold maxAllocationBytes logMaxAllocationBytes minAllocationBytes logMinAllocationBytes at *
  omega

theorem allocate_spec (h : Inv s live none) {env : Env} {bytes : ℤ} {st : Status}
    {res : Option Ref} {s' : Suballocator} (hs : s.allocate env bytes = ((st, res), s')) :
    Inv s' (res.toList ++ live) none ∧ ∀ r, res = some r → st = .ok ∧
      s'.len r = roundUpToPowerOfTwo (max bytes minAllocationBytes).toNat ∧
      s'.allocated = s.allocated + s'.len r := by
  unfold allocate at hs
  split_ifs at hs with hmax
  · cases hs
    exact ⟨by simpa using h, by simp⟩
  dsimp only at hs
  obtain ⟨hb₁, hb₂⟩ := max_minAllocationBytes_bounds (not_lt.1 hmax)
  obtain ⟨-, hlog, -⟩ := computeListIndex_of_mem hb₁ hb₂
  generalize (max bytes minAllocationBytes).toNat = b at hs hb₁ hb₂ hlog ⊢
  suffices hsuff : Inv s' (res.toList ++ live) none ∧ ∀ r, res = some r → st = .ok ∧
      computeListIndex (s'.len r) = computeListIndex b ∧ s'.allocated = s.allocated + s'.len r by
    refine ⟨hsuff.1, fun r hr => ?_⟩
    obtain ⟨h₁, h₂, h₃⟩ := hsuff.2 r hr
    have hlive : s'.nodes r = some true := hsuff.1.exists_of_mem_live (by simp [hr])
    refine ⟨h₁, ?_, h₃⟩
    rw [(hsuff.1.len_eq_two_pow hlive).1, h₂, roundUpToPowerOfTwo_eq
      (lt_of_lt_of_le (by positivity) hb₁)
      (le_trans hb₂ (by unfold logMaxAllocationBytes; norm_num)), hlog]
  rcases hpop : s.popFreeListFrom (computeListIndex b) with ⟨_ | c, s₁⟩
  · obtain rfl := popFreeListFrom_eq_none hpop
    rw [hpop] at hs
    dsimp only at hs
    generalize hbuf : s₁.allocateBuffer env b = sb at hs
    obtain ⟨⟨st₀, res₀⟩, s₂⟩ := sb
    split at hs
    next c s₃ heq =>
      obtain ⟨⟨rfl, rfl⟩, rfl⟩ : (st₀ = .ok ∧ res₀ = some c) ∧ s₂ = s₃ := by simpa using heq
      obtain ⟨-, h₁, h₂, h₃, h₄⟩ := allocateBuffer_spec h hb₁ hb₂ hbuf
      obtain ⟨h₅, h₆⟩ := allocateFrom_spec h₁ h₂ rfl h₃ hs
      exact ⟨h₅, fun r hr => by obtain ⟨h₇, h₈, h₉⟩ := h₆ r hr; exact ⟨h₇, h₈, by rw [h₉, h₄]⟩⟩
    next r hne =>
      cases hs
      cases res with
      | none => exact ⟨by simpa [allocateBuffer_eq_none hbuf] using h, by simp⟩
      | some c =>
        obtain ⟨rfl, -⟩ := allocateBuffer_spec h hb₁ hb₂ hbuf
        exact absurd rfl (hne c s')
  · obtain ⟨h₁, h₂, h₃, -, h₄⟩ := popFreeListFrom_spec h hpop
    rw [hpop] at hs
    obtain ⟨h₅, h₆⟩ := allocateFrom_spec h₁ h₂ rfl h₃ hs
    exact ⟨h₅, fun r hr => by obtain ⟨h₇, h₈, h₉⟩ := h₆ r hr; exact ⟨h₇, h₈, by rw [h₉, h₄]⟩⟩

theorem freeLoop_spec {b : ℕ} {path : List Bool} (h : Inv s live (some ⟨b, path⟩)) :
    Inv (s.freeLoop b path) live none := by
  induction path generalizing s with
  | nil => exact h.releaseRoot
  | cons d p ih =>
    have h' : Inv s live (some ((⟨b, p⟩ : Ref).child d)) := h
    have hc := h'.hole_free _ rfl
    rw [freeLoop]
    split_ifs with hin
    · refine h'.putBack fun r e hre hb => ?_
      obtain ⟨rfl, rfl⟩ := Ref.child_injective hre.symm
      rw [(inUse_iff _ _).1 hin] at hb
      cases hb
    · have hex := h'.buddies _ d false hc
      have hfree : s.nodes ((⟨b, p⟩ : Ref).child !d) = some false := by
        rw [inUse_iff] at hin
        cases hv : s.nodes ((⟨b, p⟩ : Ref).child !d) with
        | none => exact absurd hv hex
        | some v => cases v <;> simp_all
      exact ih (h'.coalesce hfree)

theorem free_spec (h : Inv s live none) {a : Ref} (ha : a ∈ live) :
    Inv (s.free (some a)) (live.erase a) none :=
  freeLoop_spec (h.markFreed ha)

theorem init_inv {m : ℕ} (hm : ∃ k ≤ logMaxAllocationBytes, m = 2 ^ k) : Inv (init m) [] none where
  minBufferLen := hm
  bufferLen r v hr := by simp [init] at hr
  fresh r _ := rfl
  parents r d v hr := by simp [init] at hr
  buddies r d v hr := by simp [init] at hr
  coalesced r d h₁ := by simp [init] at h₁
  hole_free c hc := by cases hc
  mem_freeLists k r := by simp [init]
  nodup_freeLists k := List.nodup_nil
  nodup_live := List.nodup_nil
  mem_live r := by simp [init]
  allocated := rfl

namespace Inv

theorem child_exists_of_below (h : Inv s live hole) {b : ℕ} {p : List Bool} :
    ∀ {t : List Bool} {v : Bool}, t ≠ [] → s.nodes ⟨b, t ++ p⟩ = some v →
      ∃ x, s.nodes ((⟨b, p⟩ : Ref).child x) ≠ none
  | [x], v, _, hv => ⟨x, by change s.nodes ⟨b, [x] ++ p⟩ ≠ none; rw [hv]; simp⟩
  | x :: y :: t, v, _, hv =>
    child_exists_of_below h (t := y :: t) (by simp) (h.parents ⟨b, (y :: t) ++ p⟩ x v hv)

theorem not_suffix_of_live (h : Inv s live hole) {a a' : Ref} (ha : a ∈ live)
    (ha' : s.nodes a' ≠ none) (hne : a ≠ a') (hb : a.buffer = a'.buffer) :
    ¬ a.path <:+ a'.path := by
  rintro ⟨t, ht⟩
  obtain ⟨v, hv⟩ := Option.ne_none_iff_exists'.1 ha'
  rcases t with _ | ⟨x, t⟩
  · exact hne (by cases a; cases a'; simp_all)
  · have hv' : s.nodes ⟨a.buffer, (x :: t) ++ a.path⟩ = some v := by
      rw [ht, hb]
      exact hv
    obtain ⟨y, hy⟩ := h.child_exists_of_below (by simp) hv'
    exact hy (h.children_none_of_live ha y)

theorem apart_of_live (h : Inv s live hole) {a a' : Ref} (ha : a ∈ live) (ha' : a' ∈ live)
    (hne : a ≠ a') (hb : a.buffer = a'.buffer) :
    Apart (s.bufferLen a.buffer) a.path a'.path :=
  apart_of_not_suffix _ _ _ _ le_rfl
    (h.not_suffix_of_live ha (by simp [h.exists_of_mem_live ha']) hne hb)
    (h.not_suffix_of_live ha' (by simp [h.exists_of_mem_live ha]) (Ne.symm hne) hb.symm)

theorem live_ne_nil (h : Inv s live none) :
    ∀ n (r : Ref) (k : ℕ), s.bufferLen r.buffer = 2 ^ (k + logMinAllocationBytes) →
      k - r.path.length ≤ n → s.nodes r = some true → live ≠ [] := by
  intro n
  induction n with
  | zero =>
    intro r k hL hn hr
    have hleft : s.nodes (r.child false) = none := by
      by_contra hne
      obtain ⟨v, hv⟩ := Option.ne_none_iff_exists'.1 hne
      obtain ⟨k', -, hL', hp⟩ := h.bufferLen _ v hv
      have : k' = k := by
        rw [Ref.child_buffer, hL] at hL'
        exact (Nat.add_right_cancel (Nat.pow_right_injective (le_refl 2) hL'.symm))
      simp at hp
      omega
    exact List.ne_nil_of_mem ((h.mem_live r).2 ⟨hr, hleft⟩)
  | succ n ih =>
    intro r k hL hn hr
    have hdown : ∀ d, s.nodes (r.child d) = some true → live ≠ [] := fun d hd =>
      ih (r.child d) k hL (by simp; omega) hd
    cases hl : s.nodes (r.child false) with
    | none => exact List.ne_nil_of_mem ((h.mem_live r).2 ⟨hr, hl⟩)
    | some v =>
      cases v
      · cases hr' : s.nodes (r.child true) with
        | none => exact absurd hr' (h.buddies r false false hl)
        | some w =>
          cases w
          · simpa using h.coalesced r false hl hr'
          · exact hdown true hr'
      · exact hdown false hl

theorem idle (h : Inv s [] none) :
    s.allocated = 0 ∧ ∀ r v, s.nodes r = some v →
      v = false ∧ r.path = [] ∧ r ∈ s.freeLists (computeListIndex (s.len r)) := by
  refine ⟨by simpa using h.allocated, fun r v hv => ?_⟩
  have hnot : ∀ r, s.nodes r ≠ some true := fun r hr' => by
    obtain ⟨k, -, hL, -⟩ := h.bufferLen r true hr'
    exact h.live_ne_nil _ r k hL le_rfl hr' rfl
  have hv' : v = false := by
    cases v
    · rfl
    · exact absurd hv (hnot r)
  subst hv'
  refine ⟨rfl, ?_, (h.mem_freeLists _ r).2 ⟨hv, by simp, rfl⟩⟩
  cases hp : r.path with
  | nil => rfl
  | cons d p =>
    have : s.nodes ((⟨r.buffer, p⟩ : Ref).child d) = some false := by
      rw [← hv]
      congr
      cases r
      simp_all [Ref.child]
    exact absurd (h.parents _ d false this) (hnot _)

end Inv

/-! ### Whole free buffers

A whole buffer is free only while `Allocate` or `Free` holds its root, unless `SplitToSize`
could not create its nodes for a new buffer: then the buffer's root goes to a free list. -/

def NoFreeRoot (s : Suballocator) (hole : Option Ref) : Prop :=
  ∀ b, s.nodes (Ref.root b) = some false → hole = some (Ref.root b)

namespace NoFreeRoot

theorem markFreed (h : NoFreeRoot s none) (a : Ref) : NoFreeRoot (s.markFreed a) (some a) := by
  intro b hb
  by_cases hab : Ref.root b = a
  · rw [hab]
  · rw [markFreed_nodes, update_of_ne hab] at hb
    simpa using h b hb

theorem markAllocated (h : NoFreeRoot s (some c)) : NoFreeRoot (s.markAllocated c) none := by
  intro b hb
  have hbc : Ref.root b ≠ c := by rintro rfl; simp at hb
  rw [markAllocated_nodes, update_of_ne hbc] at hb
  exact absurd (Option.some_injective _ (h b hb)) (Ne.symm hbc)

theorem takeHead (h : NoFreeRoot s none) (i : ℕ) (rest : List Ref) :
    NoFreeRoot (s.setFreeList i rest) (some c) := fun b hb => by
  simpa using h b hb

theorem putBack (h : NoFreeRoot s (some c)) (hc : c.path ≠ []) :
    NoFreeRoot (s.addToFreeList c) none := fun b hb => by
  obtain rfl := Option.some_injective _ (h b hb)
  exact absurd rfl hc

theorem splitNode (h : NoFreeRoot s (some c)) :
    NoFreeRoot (s.splitNode c) (some (c.child false)) := by
  intro b hb
  by_cases hbc : Ref.root b = c
  · rw [hbc, splitNode_nodes_self] at hb
    cases hb
  · rw [splitNode_nodes_of_ne _ hbc (fun d h => Ref.child_ne_root c d b h.symm)] at hb
    exact absurd (Option.some_injective _ (h b hb)) (Ne.symm hbc)

theorem coalesce {p : Ref} {d : Bool} (h : NoFreeRoot s (some (p.child d))) :
    NoFreeRoot ((s.removeFromFreeList (p.child !d)).coalesceBuddies p) (some p) := by
  intro b hb
  by_cases hbp : Ref.root b = p
  · rw [hbp]
  · rw [coalesceBuddies_nodes_of_ne _ hbp (fun e h => Ref.child_ne_root p e b h.symm),
      nodes_removeFromFreeList] at hb
    exact absurd (Option.some_injective _ (h b hb)) (Ref.child_ne_root p d b)

theorem releaseRoot {b₀ : ℕ} (h : NoFreeRoot s (some (Ref.root b₀))) :
    NoFreeRoot (s.setNode (Ref.root b₀) none) none := by
  intro b hb
  by_cases hbb : Ref.root b = Ref.root b₀
  · rw [hbb, setNode_nodes, update_self] at hb
    cases hb
  · rw [setNode_nodes, update_of_ne hbb] at hb
    exact absurd (Option.some_injective _ (h b hb)) (Ne.symm hbb)

theorem addBuffer (h : NoFreeRoot s none) (L : ℕ) :
    NoFreeRoot (s.addBuffer L) (some (Ref.root s.nextBuffer)) := by
  intro b hb
  by_cases hbb : Ref.root b = Ref.root s.nextBuffer
  · rw [hbb]
  · rw [addBuffer_nodes, update_of_ne hbb] at hb
    simpa using h b hb

end NoFreeRoot

theorem freeLoop_setFreeList (h : Inv s live none) (hroot : NoFreeRoot s none) {j : ℕ}
    {rest : List Ref} (hj : s.freeLists j = c :: rest) :
    (s.setFreeList j rest).freeLoop c.buffer c.path = s := by
  have hmem : c ∈ s.freeLists j := by simp [hj]
  obtain ⟨hfree, -, hidx⟩ := (h.mem_freeLists j c).1 hmem
  have hb := h.buddyNotFree_of_mem hmem
  obtain ⟨b, _ | ⟨d, p⟩⟩ := c
  · cases hroot b hfree
  · have hbuddy : s.nodes ((⟨b, p⟩ : Ref).child !d) = some true := by
      have hex := h.buddies ⟨b, p⟩ d false hfree
      cases hv : s.nodes ((⟨b, p⟩ : Ref).child !d) with
      | none => exact absurd hv hex
      | some v =>
        cases v
        · exact absurd hv (hb _ d rfl)
        · rfl
    show (s.setFreeList j rest).freeLoop b (d :: p) = s
    rw [freeLoop, if_pos (by simpa using hbuddy)]
    exact addToFreeList_setFreeList hj hidx

theorem NoFreeRoot.splitLoop {t i : ℕ} (h : NoFreeRoot s (some c)) :
    NoFreeRoot (s.splitLoop t c i).1 (some (s.splitLoop t c i).2) := by
  fun_induction Suballocator.splitLoop s t c i with
  | case1 s c i hti ih => exact ih h.splitNode
  | case2 s c i hti => exact h

theorem NoFreeRoot.allocate (h : NoFreeRoot s none) {env : Env} (henv : env.createSplitNodes = true)
    {bytes : ℤ} : NoFreeRoot (s.allocate env bytes).2 none := by
  have hfrom : ∀ {s₁ : Suballocator} {c : Ref} {t b : ℕ}, NoFreeRoot s₁ (some c) →
      NoFreeRoot (s₁.allocateFrom env t b c).2 none := by
    intro s₁ c t b hc
    unfold allocateFrom splitToSize
    simp only [henv, Bool.true_eq_false, and_false, if_false]
    split_ifs
    · exact hc.splitLoop.markAllocated
    · exact hc.markAllocated
  unfold Suballocator.allocate
  split_ifs
  · exact h
  dsimp only
  rcases hpop : s.popFreeListFrom (computeListIndex (max bytes minAllocationBytes).toNat) with
    ⟨_ | c, s₁⟩
  · obtain rfl := popFreeListFrom_eq_none hpop
    dsimp only
    generalize hbuf : s₁.allocateBuffer env _ = sb
    obtain ⟨⟨st₀, res₀⟩, s₂⟩ := sb
    split
    next c s₃ heq =>
      obtain ⟨⟨rfl, rfl⟩, rfl⟩ : (st₀ = .ok ∧ res₀ = some c) ∧ s₂ = s₃ := by simpa using heq
      obtain ⟨-, rfl, rfl⟩ := allocateBuffer_eq_some hbuf
      exact hfrom (h.addBuffer _)
    next r hne =>
      rcases res₀ with _ | c
      · rw [allocateBuffer_eq_none hbuf]
        exact h
      · obtain ⟨rfl, -⟩ := allocateBuffer_eq_some hbuf
        exact absurd rfl (hne _ _)
  · obtain ⟨j, rest, -, -, -, rfl⟩ := popFreeListFrom_eq_some hpop
    dsimp only
    exact hfrom (h.takeHead j rest)

theorem NoFreeRoot.freeLoop {b : ℕ} {path : List Bool} (h : NoFreeRoot s (some ⟨b, path⟩)) :
    NoFreeRoot (s.freeLoop b path) none := by
  induction path generalizing s with
  | nil => exact h.releaseRoot
  | cons d p ih =>
    have h' : NoFreeRoot s (some ((⟨b, p⟩ : Ref).child d)) := h
    rw [Suballocator.freeLoop]
    split_ifs
    · exact h'.putBack (by simp)
    · exact ih h'.coalesce

/-! ### Runs -/

/-- The states a client reaches from the constructor by `Allocate` calls whose answers from
outside satisfy `P`, and by `Free` calls on the allocations it holds, `live`. -/
inductive Reachable (minBufferLen : ℕ) (P : Env → Prop) : Suballocator → List Ref → Prop
  | init : Reachable minBufferLen P (init minBufferLen) []
  | allocate {s : Suballocator} {live : List Ref} (env : Env) (bytes : ℤ) :
      Reachable minBufferLen P s live → P env →
      Reachable minBufferLen P (s.allocate env bytes).2 ((s.allocate env bytes).1.2.toList ++ live)
  | free {s : Suballocator} {live : List Ref} {a : Ref} :
      Reachable minBufferLen P s live → a ∈ live →
      Reachable minBufferLen P (s.free (some a)) (live.erase a)

def threeAllocationsFirstFreed : Suballocator :=
  ((((init 65536).allocate ⟨true, true, .ok, true⟩ 5000).2.allocate ⟨true, true, .ok, true⟩
    5000).2.allocate ⟨true, true, .ok, true⟩ 5000).2.free (some ⟨0, [false, false, false]⟩)

theorem reachable_threeAllocationsFirstFreed :
    Reachable 65536 (fun env => env.createSplitNodes = true) threeAllocationsFirstFreed
      [⟨0, [false, true, false]⟩, ⟨0, [true, false, false]⟩] := by
  have h₀ : Reachable 65536 (fun env => env.createSplitNodes = true) (init 65536) [] :=
    Reachable.init
  have h := ((h₀.allocate ⟨true, true, .ok, true⟩ 5000 rfl).allocate
    ⟨true, true, .ok, true⟩ 5000 rfl).allocate ⟨true, true, .ok, true⟩ 5000 rfl
  unfold threeAllocationsFirstFreed
  convert h.free (a := ⟨0, [false, false, false]⟩) (by decide +kernel) using 1
  decide +kernel

/-- `Allocate(5000)` and its `Free` on 64 KiB buffers, then an `Allocate(5000)` whose
`SplitToSize` cannot create its nodes. -/
def allocateFreeFailedSplit : Suballocator :=
  (((init 65536).allocate ⟨true, true, .ok, true⟩ 5000).2.free
    (some ⟨0, [false, false, false]⟩)).allocate ⟨true, true, .ok, false⟩ 5000 |>.2

theorem reachable_allocateFreeFailedSplit :
    Reachable 65536 (fun _ => True) allocateFreeFailedSplit [] := by
  have h₀ : Reachable 65536 (fun _ => True) (init 65536) [] := Reachable.init
  have h := (h₀.allocate ⟨true, true, .ok, true⟩ 5000 trivial).free
    (a := ⟨0, [false, false, false]⟩) (by decide +kernel)
  unfold allocateFreeFailedSplit
  convert h.allocate ⟨true, true, .ok, false⟩ 5000 trivial using 1
  decide +kernel

/-- A failed `Suballocation::Create` inside `SplitToSize` leaves a whole buffer behind. After
`Allocate(5000)` and its `Free` on 64 KiB buffers, the first buffer is back in the pool; the next
`Allocate(5000)` takes a fresh buffer, cannot create the split nodes, and returns its error with
that buffer put in free list 4. The client holds no allocation and `allocated_` is 0, yet a free
list is not empty and a `Suballocation` still holds the buffer, which the pool never gets back:
the destructor's `DCHECK(free_lists_[i] == nullptr)` fails. -/
theorem failed_split_keeps_idle_buffer :
    Reachable 65536 (fun _ => True) allocateFreeFailedSplit [] ∧
      ((((init 65536).allocate ⟨true, true, .ok, true⟩ 5000).2.free
        (some ⟨0, [false, false, false]⟩)).allocate ⟨true, true, .ok, false⟩ 5000).1 =
        (.error "Failed to allocate list node in Suballocator", none) ∧
      allocateFreeFailedSplit.allocated = 0 ∧ allocateFreeFailedSplit.freeLists 4 = [⟨1, []⟩] ∧
      allocateFreeFailedSplit.nodes ⟨1, []⟩ = some false :=
  ⟨reachable_allocateFreeFailedSplit, by decide +kernel, by decide +kernel⟩

/-- 64 KiB, the buffer length of the runs below, is a power of two the allocator accepts. -/
theorem sixtyFourKiB_pow_two : ∃ k ≤ logMaxAllocationBytes, (65536 : ℕ) = 2 ^ k :=
  ⟨16, by decide, by norm_num⟩

section Runs

variable {m : ℕ} {P : Env → Prop} (hm : ∃ k ≤ logMaxAllocationBytes, m = 2 ^ k)
include hm

theorem Reachable.inv (h : Reachable m P s live) : Inv s live none := by
  induction h with
  | init => exact init_inv hm
  | allocate env bytes _ _ ih => exact (allocate_spec ih rfl).1
  | free _ ha ih => exact free_spec ih ha

/-- Every entry of free list `k` is a free node without children, of `2 ^ (k + 12)` bytes for
a `k` below `NUM_FREE_LISTS`, whose buddy is not free; no list holds a node twice. -/
theorem freeLists_wellFormed (hr : Reachable m P s live) (k : ℕ) :
    (s.freeLists k).Nodup ∧ ∀ r ∈ s.freeLists k, k < numFreeLists ∧
      s.len r = 2 ^ (k + logMinAllocationBytes) ∧ s.nodes r = some false ∧
      (∀ d, s.nodes (r.child d) = none) ∧
      ∀ (p : Ref) (d : Bool), r = p.child d → s.nodes (p.child !d) ≠ some false := by
  have h := hr.inv hm
  refine ⟨h.nodup_freeLists k, fun r hmem => ?_⟩
  obtain ⟨hfree, -, hidx⟩ := (h.mem_freeLists k r).1 hmem
  obtain ⟨hlen, hlt⟩ := h.len_eq_two_pow hfree
  rw [hidx] at hlen hlt
  exact ⟨hlt, hlen, hfree, h.children_none (by simp [hfree]), h.buddyNotFree_of_mem hmem⟩

omit hm in
theorem freeLists_wellFormed_after_free : (threeAllocationsFirstFreed.freeLists 1).Nodup ∧
    ∀ r ∈ threeAllocationsFirstFreed.freeLists 1, 1 < numFreeLists ∧
      threeAllocationsFirstFreed.len r = 2 ^ (1 + logMinAllocationBytes) ∧
      threeAllocationsFirstFreed.nodes r = some false ∧
      (∀ d, threeAllocationsFirstFreed.nodes (r.child d) = none) ∧
      ∀ (p : Ref) (d : Bool), r = p.child d → threeAllocationsFirstFreed.nodes (p.child !d) ≠ some false :=
  freeLists_wellFormed sixtyFourKiB_pow_two reachable_threeAllocationsFirstFreed 1

/-- The allocations the client holds are counted in `allocated_`, each lies in its buffer at
a multiple of its length, and no two of them overlap. -/
theorem live_allocations_disjoint (hr : Reachable m P s live) :
    live.Nodup ∧ s.allocated = ((live.map s.len).sum : ℕ) ∧
      (∀ a ∈ live, s.len a ∣ s.offset a ∧ s.offset a + s.len a ≤ s.bufferLen a.buffer) ∧
      ∀ a ∈ live, ∀ a' ∈ live, a ≠ a' → a.buffer = a'.buffer →
        s.offset a + s.len a ≤ s.offset a' ∨ s.offset a' + s.len a' ≤ s.offset a := by
  have h := hr.inv hm
  refine ⟨h.nodup_live, h.allocated, fun a ha => ⟨?_, nodeOffset_add_nodeLen_le _ _⟩,
    fun a ha a' ha' hne hb => ?_⟩
  · obtain ⟨k, -, hL, hp⟩ := h.bufferLen a true (h.exists_of_mem_live ha)
    rw [len, offset, hL]
    exact nodeLen_dvd_nodeOffset (by omega)
  · have := h.apart_of_live ha ha' hne hb
    unfold Apart at this
    rw [len, len, offset, offset, ← hb]
    exact this

omit hm in
theorem live_allocations_disjoint_after_free : ([⟨0, [false, true, false]⟩, ⟨0, [true, false, false]⟩] : List Ref).Nodup ∧
    threeAllocationsFirstFreed.allocated = (([⟨0, [false, true, false]⟩, ⟨0, [true, false, false]⟩] : List Ref).map threeAllocationsFirstFreed.len).sum ∧
    (∀ a ∈ ([⟨0, [false, true, false]⟩, ⟨0, [true, false, false]⟩] : List Ref), threeAllocationsFirstFreed.len a ∣ threeAllocationsFirstFreed.offset a ∧
      threeAllocationsFirstFreed.offset a + threeAllocationsFirstFreed.len a ≤
        threeAllocationsFirstFreed.bufferLen a.buffer) ∧
    ∀ a ∈ ([⟨0, [false, true, false]⟩, ⟨0, [true, false, false]⟩] : List Ref), ∀ a' ∈ ([⟨0, [false, true, false]⟩, ⟨0, [true, false, false]⟩] : List Ref), a ≠ a' → a.buffer = a'.buffer →
      threeAllocationsFirstFreed.offset a + threeAllocationsFirstFreed.len a ≤
          threeAllocationsFirstFreed.offset a' ∨
        threeAllocationsFirstFreed.offset a' + threeAllocationsFirstFreed.len a' ≤
          threeAllocationsFirstFreed.offset a :=
  live_allocations_disjoint sixtyFourKiB_pow_two reachable_threeAllocationsFirstFreed

/-- An allocation `Allocate(bytes)` returns is `RoundUpToPowerOfTwo(max(bytes, 4096))` bytes,
at least `bytes`; it is new to the client, and `allocated_` grows by its length. -/
theorem allocate_rounds_up (hr : Reachable m P s live) (env : Env) (bytes : ℤ) :
    ∀ r ∈ (s.allocate env bytes).1.2, (s.allocate env bytes).1.1 = .ok ∧
      (s.allocate env bytes).2.len r = roundUpToPowerOfTwo (max bytes minAllocationBytes).toNat ∧
      bytes ≤ (s.allocate env bytes).2.len r ∧ r ∉ live ∧
      (s.allocate env bytes).2.allocated = s.allocated + (s.allocate env bytes).2.len r := by
  intro r hr'
  rcases hs : s.allocate env bytes with ⟨⟨st, res⟩, s'⟩
  rw [hs, Option.mem_def] at hr'
  subst hr'
  have h := hr.inv hm
  obtain ⟨hinv, hres⟩ := allocate_spec h hs
  obtain ⟨hok, hlen, halloc⟩ := hres r rfl
  obtain ⟨hb₁, hb₂⟩ := max_minAllocationBytes_bounds (allocate_eq_some hs).1
  obtain ⟨-, hlog, hle⟩ := computeListIndex_of_mem hb₁ hb₂
  have hround := roundUpToPowerOfTwo_eq (lt_of_lt_of_le (by positivity) hb₁)
    (le_trans hb₂ (by unfold logMaxAllocationBytes; norm_num))
  refine ⟨hok, hlen, ?_, (List.nodup_cons.1 (by simpa using hinv.nodup_live)).1, halloc⟩
  rw [hlen, hround, hlog]
  omega

omit hm in
theorem allocate_rounds_up_init :
    ((init 65536).allocate ⟨true, true, .ok, true⟩ 5000).1.1 = .ok ∧
      ((init 65536).allocate ⟨true, true, .ok, true⟩ 5000).2.len ⟨0, [false, false, false]⟩ =
        roundUpToPowerOfTwo (max 5000 minAllocationBytes).toNat ∧
      (5000 : ℤ) ≤ ((init 65536).allocate ⟨true, true, .ok, true⟩ 5000).2.len ⟨0, [false, false, false]⟩ ∧ (⟨0, [false, false, false]⟩ : Ref) ∉ [] ∧
      ((init 65536).allocate ⟨true, true, .ok, true⟩ 5000).2.allocated =
        (init 65536).allocated + ((init 65536).allocate ⟨true, true, .ok, true⟩ 5000).2.len ⟨0, [false, false, false]⟩ :=
  allocate_rounds_up sixtyFourKiB_pow_two
    (Reachable.init (P := fun _ => True)) _ _ ⟨0, [false, false, false]⟩ (Option.mem_def.2 (by decide +kernel))

/-- With no allocation live, `allocated_` is zero and every node left is a whole buffer, free
and in its free list. -/
theorem idle_holds_whole_buffers (hr : Reachable m P s []) :
    s.allocated = 0 ∧ ∀ r v, s.nodes r = some v →
      v = false ∧ r.path = [] ∧ r ∈ s.freeLists (computeListIndex (s.len r)) :=
  (hr.inv hm).idle

omit hm in
theorem idle_holds_whole_buffers_after_free : allocateFreeFailedSplit.allocated = 0 ∧
    ∀ r v, allocateFreeFailedSplit.nodes r = some v → v = false ∧ r.path = [] ∧
      r ∈ allocateFreeFailedSplit.freeLists (computeListIndex (allocateFreeFailedSplit.len r)) :=
  idle_holds_whole_buffers sixtyFourKiB_pow_two reachable_allocateFreeFailedSplit

omit hm in
theorem Reachable.noFreeRoot (hr : Reachable m (fun env => env.createSplitNodes = true) s live) :
    NoFreeRoot s none := by
  induction hr with
  | init =>
    intro b hb
    cases hb
  | allocate env bytes _ henv ih => exact ih.allocate henv
  | free _ _ ih => exact NoFreeRoot.freeLoop (ih.markFreed _)

/-- `Free` of what `Allocate` just returned gives back the nodes, free lists and `allocated_`
from before, unless `Allocate` took a whole free buffer, which `Free` returns to the pool. -/
theorem free_after_allocate (hr : Reachable m P s live)
    (hroot : ∀ b, s.nodes (Ref.root b) ≠ some false) (env : Env) (bytes : ℤ) :
    ∀ r ∈ (s.allocate env bytes).1.2,
      ((s.allocate env bytes).2.free (some r)).nodes = s.nodes ∧
      ((s.allocate env bytes).2.free (some r)).freeLists = s.freeLists ∧
      ((s.allocate env bytes).2.free (some r)).allocated = s.allocated := by
  intro r hr'
  rcases hs : s.allocate env bytes with ⟨⟨st, res⟩, s'⟩
  rw [hs, Option.mem_def] at hr'
  subst hr'
  have h := hr.inv hm
  obtain ⟨hmax, c, s₁, hfrom, hpop | ⟨-, hbuf⟩⟩ := allocate_eq_some hs
  · obtain ⟨h₁, -, h₃, -⟩ := popFreeListFrom_spec h hpop
    obtain ⟨j, rest, -, -, hj, rfl⟩ := popFreeListFrom_eq_some hpop
    rw [free_allocateFrom h₁ h₃ hfrom, freeLoop_setFreeList h (fun b hb => absurd hb (hroot b)) hj]
    exact ⟨rfl, rfl, rfl⟩
  · obtain ⟨hb₁, hb₂⟩ := max_minAllocationBytes_bounds hmax
    obtain ⟨-, h₁, -, h₃, -⟩ := allocateBuffer_spec h hb₁ hb₂ hbuf
    rw [free_allocateFrom h₁ h₃ hfrom]
    obtain ⟨-, rfl, rfl⟩ := allocateBuffer_eq_some hbuf
    refine ⟨?_, rfl, rfl⟩
    show update (update s.nodes (Ref.root s.nextBuffer) (some false)) (Ref.root s.nextBuffer)
      none = s.nodes
    rw [update_idem, update_eq_self_iff.2 (h.fresh _ (le_refl _)).symm]

omit hm in
theorem free_after_allocate_init :
    (((init 65536).allocate ⟨true, true, .ok, true⟩ 5000).2.free (some ⟨0, [false, false, false]⟩)).nodes = (init 65536).nodes ∧
      (((init 65536).allocate ⟨true, true, .ok, true⟩ 5000).2.free (some ⟨0, [false, false, false]⟩)).freeLists = (init 65536).freeLists ∧
      (((init 65536).allocate ⟨true, true, .ok, true⟩ 5000).2.free (some ⟨0, [false, false, false]⟩)).allocated = (init 65536).allocated :=
  free_after_allocate sixtyFourKiB_pow_two
    (Reachable.init (P := fun _ => True)) (fun _ hb => nomatch hb) _ _ ⟨0, [false, false, false]⟩
    (Option.mem_def.2 (by decide +kernel))

/-- While `Allocate` can create the nodes of every split, a client that has freed every
allocation leaves the suballocator with no memory: every buffer went back to the pool. -/
theorem idle_returns_every_buffer
    (hr : Reachable m (fun env => env.createSplitNodes = true) s []) :
    s.allocated = 0 ∧ (∀ r, s.nodes r = none) ∧ ∀ k, s.freeLists k = [] := by
  obtain ⟨halloc, hidle⟩ := (hr.inv hm).idle
  have hroot := hr.noFreeRoot
  have hnone : ∀ r, s.nodes r = none := by
    intro r
    cases hv : s.nodes r with
    | none => rfl
    | some v =>
      obtain ⟨rfl, hpath, -⟩ := hidle r v hv
      obtain ⟨b, p⟩ := r
      cases hpath
      cases hroot b hv
  refine ⟨halloc, hnone, fun k => List.eq_nil_iff_forall_not_mem.2 fun r hr' => ?_⟩
  have := (((hr.inv hm).mem_freeLists k r).1 hr').1
  rw [hnone r] at this
  cases this

omit hm in
theorem idle_returns_every_buffer_after_free :
    ((threeAllocationsFirstFreed.free (some ⟨0, [false, true, false]⟩)).free
      (some ⟨0, [true, false, false]⟩)).allocated = 0 ∧
      (∀ r, ((threeAllocationsFirstFreed.free (some ⟨0, [false, true, false]⟩)).free
      (some ⟨0, [true, false, false]⟩)).nodes r = none) ∧
      ∀ k, ((threeAllocationsFirstFreed.free (some ⟨0, [false, true, false]⟩)).free
      (some ⟨0, [true, false, false]⟩)).freeLists k = [] := by
  have h := (reachable_threeAllocationsFirstFreed.free (a := ⟨0, [false, true, false]⟩)
    (by decide)).free (a := ⟨0, [true, false, false]⟩) (by decide)
  exact idle_returns_every_buffer sixtyFourKiB_pow_two h

end Runs

end Impala.BufferPool.Suballocator
