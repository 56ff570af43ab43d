import KVCache.Core.Ids

namespace KVCache.Policy

variable {κ : Type}

-- `std::mt19937`, with a `std::uniform_int_distribution` over the tokens between two bounds
-- and one over the numbers up to a bound.
structure Rng (κ : Type) where
  seed : UInt32 → κ
  token : TokenId → TokenId → κ → TokenId × κ
  index : Nat → κ → Nat × κ
  index_le : ∀ n st, (index n st).1 ≤ n

structure RoutingContext where
  context_hash : CacheContextHash
  full_block_count : UInt32
  first_block_hash : ContentHash
  timestamp_ns : Nat
deriving DecidableEq, Repr

-- No routing policy reads more of a node than its id.
structure NodePolicyFeatures where
  node_id : NodeId
deriving DecidableEq, Repr

structure RoutingPolicy (κ : Type) where
  chooseNode : RoutingContext → List NodePolicyFeatures → κ → Except Fault (NodeId × κ)

-- `Span::operator[]` does not check its index.
def nodeAt (nodes : List NodePolicyFeatures) (idx : Nat) : Except Fault NodeId :=
  match nodes[idx]? with
  | some node => .ok node.node_id
  | none => .error (.undefined_behavior "Span: index out of range")

def HashFirstBlockRoutingPolicy : RoutingPolicy κ where
  chooseNode context nodes st := do
    if nodes = [] then .error (.logic_error "HashFirstBlockRoutingPolicy: no nodes")
    else
      let idx := context.first_block_hash.lo.toNat % nodes.length
      return (← nodeAt nodes idx, st)

def RandomRoutingPolicy (rng : Rng κ) : RoutingPolicy κ where
  chooseNode _ nodes st := do
    if nodes = [] then return (0, st)
    else if nodes.length = 1 then return (← nodeAt nodes 0, st)
    else
      let (idx, st') := rng.index (nodes.length - 1) st
      return (← nodeAt nodes idx, st')

-- A routing policy that answers with one of the nodes, where there are any.
def RoutingPolicy.PicksNode (p : RoutingPolicy κ) : Prop :=
  ∀ context nodes st, nodes ≠ [] → ∃ node ∈ nodes, ∃ st',
    p.chooseNode context nodes st = .ok (node.node_id, st')

theorem nodeAt_eq {nodes : List NodePolicyFeatures} {idx : Nat} (h : idx < nodes.length) :
    ∃ node ∈ nodes, nodeAt nodes idx = .ok node.node_id :=
  ⟨nodes[idx], List.getElem_mem h, by simp only [nodeAt, List.getElem?_eq_getElem h]⟩

theorem HashFirstBlockRoutingPolicy.picksNode :
    (HashFirstBlockRoutingPolicy : RoutingPolicy κ).PicksNode := by
  intro context nodes st hne
  have hpos := List.length_pos_iff.mpr hne
  obtain ⟨node, hmem, hnode⟩ :=
    nodeAt_eq (Nat.mod_lt context.first_block_hash.lo.toNat hpos)
  refine ⟨node, hmem, st, ?_⟩
  simp only [HashFirstBlockRoutingPolicy, if_neg hne, hnode]
  rfl

theorem RandomRoutingPolicy.picksNode (rng : Rng κ) : (RandomRoutingPolicy rng).PicksNode := by
  intro context nodes st hne
  have hpos := List.length_pos_iff.mpr hne
  simp only [RandomRoutingPolicy, if_neg hne]
  split
  · obtain ⟨node, hmem, hnode⟩ := nodeAt_eq hpos
    exact ⟨node, hmem, st, by rw [hnode]; rfl⟩
  · have hle := rng.index_le (nodes.length - 1) st
    have hlt : (rng.index (nodes.length - 1) st).1 < nodes.length := by omega
    obtain ⟨node, hmem, hnode⟩ := nodeAt_eq hlt
    exact ⟨node, hmem, _, by rw [hnode]; rfl⟩

end KVCache.Policy

namespace KVCache.Sample

-- A generator for runs on fixed inputs.
def rng : Policy.Rng UInt32 where
  seed s := s
  token lo hi st :=
    (lo + (st % ((hi - lo).toUInt32 + 1)).toInt32, st * 1664525 + 1013904223)
  index n st := (st.toNat % (n + 1), st * 1664525 + 1013904223)
  index_le n _ := Nat.le_of_lt_succ (Nat.mod_lt _ n.succ_pos)

end KVCache.Sample
