import Mathlib.Data.List.Basic
import Impala.Lib.Run

/-!
The consistent hash ring of the scheduler (scheduling/hash-ring.h, hash-ring.cc).
Each node is placed at `num_replicas_` hash values, the outputs of a generator
seeded with the node's hash, here an arbitrary function of the node and the replica
index. `hash_to_node_` maps a hash value to a node; on a collision `AddNode` keeps
the smaller node. `GetNode(h)` is the node at the first hash value at or after `h`,
wrapping around.

A removal erases the entries of the removed node and does not put back a node that
lost a collision to it, so the ring after a sequence of calls depends on their
order, not only on the nodes left (`getNode_history_dependent`).
-/

set_option autoImplicit false

namespace Impala

/-- The fields of a `HashRing`: `nodes_`, `hash_to_node_` as its entries in key
order, and `num_replicas_`. -/
structure HashRing (α : Type) where
  nodes : List α
  hashToNode : List (UInt32 × α)
  numReplicas : Nat

namespace HashRing

variable {α : Type}

/-- `std::map<uint32_t, NodeIterator>`, as its entries in key order. -/
abbrev NodeMap (α : Type) := List (UInt32 × α)

def find (m : NodeMap α) (key : UInt32) : Option α :=
  (m.find? (·.1 == key)).map (·.2)

def assign (key : UInt32) (node : α) : NodeMap α → NodeMap α
  | [] => [(key, node)]
  | (k, v) :: rest =>
    if key = k then (key, node) :: rest
    else if key < k then (key, node) :: (k, v) :: rest
    else (k, v) :: assign key node rest

def empty (numReplicas : Nat) : HashRing α := ⟨[], [], numReplicas⟩

/-- `AddNode(node)`, with `replicaHash node i` the `i`-th output of the generator
seeded with the node's hash. -/
def addNode [DecidableEq α] [LT α] [DecidableLT α] (replicaHash : α → Nat → UInt32) (node : α)
    (r : HashRing α) : HashRing α :=
  let hashToNode := (List.range r.numReplicas).foldl (fun m i =>
    let hashVal := replicaHash node i
    match find m hashVal with
    | none => assign hashVal node m
    | some cur => if node < cur then assign hashVal node m else m) r.hashToNode
  ⟨r.nodes.insert node, hashToNode, r.numReplicas⟩

def removeNode [DecidableEq α] (node : α) (r : HashRing α) : HashRing α :=
  ⟨r.nodes.erase node, r.hashToNode.filter (·.2 != node), r.numReplicas⟩

/-- `GetNode(hash_value)`: the node at `lower_bound(hash_value)`, or at `begin()` past
the largest hash value; `none` on an empty ring. -/
def getNode (r : HashRing α) (hashValue : UInt32) : Option α :=
  match r.hashToNode.find? (hashValue ≤ ·.1) with
  | some e => some e.2
  | none => r.hashToNode.head?.map (·.2)

/-- The calls that change the ring. -/
inductive Op (α : Type)
  | addNode (node : α)
  | removeNode (node : α)

def step [DecidableEq α] [LT α] [DecidableLT α] (replicaHash : α → Nat → UInt32) (r : HashRing α) :
    Op α → HashRing α
  | .addNode node => addNode replicaHash node r
  | .removeNode node => removeNode node r

def Pre [DecidableEq α] (r : HashRing α) : Op α → Prop
  | .addNode node => node ∉ r.nodes
  | .removeNode node => node ∈ r.nodes

instance [DecidableEq α] (r : HashRing α) : (op : Op α) → Decidable (Pre r op)
  | .addNode node => inferInstanceAs (Decidable (node ∉ r.nodes))
  | .removeNode node => inferInstanceAs (Decidable (node ∈ r.nodes))

/-! ### Every node the ring returns is in it -/

/-- The nodes are distinct and every entry points to one of them. -/
structure Inv (r : HashRing α) : Prop where
  nodup : r.nodes.Nodup
  entries : ∀ e ∈ r.hashToNode, e.2 ∈ r.nodes

theorem mem_assign {key : UInt32} {node : α} :
    ∀ {m : NodeMap α} {e : UInt32 × α}, e ∈ assign key node m → e = (key, node) ∨ e ∈ m
  | [], _, h => by simpa [assign] using h
  | (k, v) :: rest, e, h => by
    simp only [assign] at h
    split_ifs at h
    · rcases List.mem_cons.1 h with h | h
      · exact .inl h
      · exact .inr (List.mem_cons_of_mem _ h)
    · rcases List.mem_cons.1 h with h | h
      · exact .inl h
      · exact .inr h
    · rcases List.mem_cons.1 h with h | h
      · exact .inr (h ▸ List.mem_cons_self)
      · rcases mem_assign h with h | h
        · exact .inl h
        · exact .inr (List.mem_cons_of_mem _ h)

theorem mem_addNode_loop [LT α] [DecidableLT α] (replicaHash : α → Nat → UInt32) (node : α)
    (k : Nat) :
    ∀ (m : NodeMap α) (e : UInt32 × α),
      e ∈ (List.range k).foldl (fun m i =>
        match find m (replicaHash node i) with
        | none => assign (replicaHash node i) node m
        | some cur => if node < cur then assign (replicaHash node i) node m else m) m →
      e.2 = node ∨ e ∈ m := by
  induction k with
  | zero => intro m e h; exact .inr h
  | succ k ih =>
    intro m e h
    rw [List.range_succ, List.foldl_append, List.foldl_cons, List.foldl_nil] at h
    set m' := (List.range k).foldl _ m with hm'
    have hstep : e.2 = node ∨ e ∈ m' := by
      split at h
      · rcases mem_assign h with rfl | h
        · exact .inl rfl
        · exact .inr h
      · split_ifs at h
        · rcases mem_assign h with rfl | h
          · exact .inl rfl
          · exact .inr h
        · exact .inr h
    rcases hstep with h | h
    · exact .inl h
    · exact ih m e h

theorem Inv.empty (numReplicas : Nat) : Inv (empty numReplicas : HashRing α) :=
  ⟨List.nodup_nil, fun _ h => nomatch h⟩

theorem Inv.step [DecidableEq α] [LT α] [DecidableLT α] (replicaHash : α → Nat → UInt32) {r : HashRing α}
    {op : Op α}
    (hpre : Pre r op) (hr : Inv r) : Inv (step replicaHash r op) := by
  cases op with
  | addNode node =>
    refine ⟨?_, fun e he => ?_⟩
    · show (r.nodes.insert node).Nodup
      rw [List.insert_of_not_mem hpre]
      exact List.nodup_cons.2 ⟨hpre, hr.nodup⟩
    · show e.2 ∈ r.nodes.insert node
      rcases mem_addNode_loop replicaHash node r.numReplicas r.hashToNode e he with h | h
      · rw [h]; exact List.mem_insert_self
      · exact List.mem_insert_of_mem (hr.entries e h)
  | removeNode node =>
    refine ⟨by exact hr.nodup.erase node, fun e he => ?_⟩
    simp only [HashRing.step, removeNode, List.mem_filter, bne_iff_ne, ne_eq] at he
    show e.2 ∈ r.nodes.erase node
    exact (hr.nodup.mem_erase_iff).2 ⟨he.2, hr.entries e he.1⟩

/-- The ring depends on the order of the calls. With one replica and both nodes
placed at hash 5, adding "10.0.0.2" alone leaves it at hash 5; adding "10.0.0.1",
then "10.0.0.2", which loses the collision, then removing "10.0.0.1" leaves the same
nodes and an empty map, so `GetNode` finds no node. -/
theorem getNode_history_dependent :
    Run.Admissible (step fun _ _ => 5) Pre (empty 1 : HashRing String)
        [.addNode "10.0.0.2"] ∧
      Run.Admissible (step fun _ _ => 5) Pre (empty 1 : HashRing String)
        [.addNode "10.0.0.1", .addNode "10.0.0.2", .removeNode "10.0.0.1"] ∧
      ([.addNode "10.0.0.2"].foldl (step fun _ _ => 5) (empty 1 : HashRing String)).nodes =
        ["10.0.0.2"] ∧
      ([.addNode "10.0.0.1", .addNode "10.0.0.2", .removeNode "10.0.0.1"].foldl
        (step fun _ _ => 5) (empty 1 : HashRing String)).nodes = ["10.0.0.2"] ∧
      getNode ([.addNode "10.0.0.2"].foldl (step fun _ _ => 5) (empty 1 : HashRing String)) 0 =
        some "10.0.0.2" ∧
      getNode ([.addNode "10.0.0.1", .addNode "10.0.0.2", .removeNode "10.0.0.1"].foldl
        (step fun _ _ => 5) (empty 1 : HashRing String)) 0 = none := by
  refine ⟨⟨by decide, trivial⟩, ⟨by decide, by decide, by decide, trivial⟩, by decide, by decide,
    by decide, by decide⟩

end HashRing

end Impala
