import KVCache.Lib.MapValues
import KVCache.Prefix.PrefixIndex

namespace KVCache.Coordinator

open Lib

structure CoordinatorQueryResult where
  refs : List GlobalBlockRef
  available : Bool := true
deriving DecidableEq, Repr

-- Which workers may hold a copy of the block with a content hash.
structure GlobalIndex where
  index : UnorderedMap ContentHash (List GlobalBlockRef) := ∅

namespace GlobalIndex

def query (g : GlobalIndex) (hash : ContentHash) : List GlobalBlockRef :=
  (g.index.lookup hash).getD []

def announce (g : GlobalIndex) (hash : ContentHash) (ref : GlobalBlockRef) : GlobalIndex where
  index := g.index.insert hash
    (if ref ∈ g.query hash then g.query hash else g.query hash ++ [ref])

-- The loop over all hashes of `invalidate` and `removeNode`.
def removeIf (g : GlobalIndex) (gone : GlobalBlockRef → Bool) : GlobalIndex where
  index := mapValues (fun refs => refs.filter fun r => !gone r) g.index

def invalidate (g : GlobalIndex) (node : NodeId) (block_id : BlockId) (generation : Nat) :
    GlobalIndex :=
  g.removeIf fun r => r = ⟨node, block_id, generation⟩

def removeNode (g : GlobalIndex) (node : NodeId) : GlobalIndex :=
  g.removeIf fun r => r.node_id = node

def entryCount (g : GlobalIndex) : Nat := (g.index.entries.map fun entry => entry.2.length).sum

variable {g : GlobalIndex} {hash : ContentHash} {ref : GlobalBlockRef}

@[simp] theorem query_announce (g : GlobalIndex) (hash hash' : ContentHash)
    (ref : GlobalBlockRef) :
    (g.announce hash ref).query hash' =
      if hash' = hash ∧ ref ∉ g.query hash then g.query hash' ++ [ref] else g.query hash' := by
  unfold announce
  rw [query]
  by_cases h : hash' = hash
  · subst h
    rw [AList.lookup_insert, Option.getD_some]
    by_cases hmem : ref ∈ g.query hash' <;> simp [hmem]
  · rw [AList.lookup_insert_ne h]
    simp [h, query]

@[simp] theorem query_removeIf (g : GlobalIndex) (gone : GlobalBlockRef → Bool)
    (hash : ContentHash) :
    (g.removeIf gone).query hash = (g.query hash).filter fun r => !gone r := by
  unfold query removeIf
  rw [lookup_mapValues]
  cases g.index.lookup hash <;> rfl

theorem mem_query_invalidate {node : NodeId} {block_id : BlockId} {generation : Nat} :
    ref ∈ (g.invalidate node block_id generation).query hash ↔
      ref ∈ g.query hash ∧ ref ≠ ⟨node, block_id, generation⟩ := by
  simp [invalidate]

theorem mem_query_removeNode {node : NodeId} :
    ref ∈ (g.removeNode node).query hash ↔ ref ∈ g.query hash ∧ ref.node_id ≠ node := by
  simp [removeNode]

theorem mem_query_announce {hash' : ContentHash} {ref' : GlobalBlockRef} :
    ref' ∈ (g.announce hash ref).query hash' ↔
      ref' ∈ g.query hash' ∨ hash' = hash ∧ ref' = ref := by
  rw [query_announce]
  split
  · rename_i h
    rw [List.mem_append, List.mem_singleton]
    simp [h.1]
  · rename_i h
    refine ⟨.inl, ?_⟩
    rintro (hmem | ⟨rfl, rfl⟩)
    · exact hmem
    · exact not_not.mp fun hno => h ⟨rfl, hno⟩

end GlobalIndex

end KVCache.Coordinator
