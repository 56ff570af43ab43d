import KVCache.Bench.Accounting

namespace KVCache.Bench

open Lib Cluster Controller Coordinator Pipeline Policy Sim

variable {κ π ρ : Type}

section Home

variable {num_workers total : UInt32}

-- The worker that hash routing gives the requests that start with these tokens.
def homeWorker (X : XXH3) (num_workers : UInt32) (tokens : List TokenId) : NodeId :=
  (computeContentHash X (computeContextHash X makeCtx) 0 (UInt16.ofNat BLOCK_SIZE.toNat)
    (tokens.take BLOCK_SIZE.toNat)).lo.toNat % num_workers.toNat

theorem nodeAt_nodeFeatures {idx node : Nat}
    (h : nodeAt (nodeFeatures num_workers) idx = .ok node) : node = idx := by
  unfold nodeAt at h
  split at h
  · rename_i f hf
    cases h
    obtain ⟨hlt, rfl⟩ := List.getElem?_eq_some_iff.mp hf
    simp [nodeFeatures]
  · cases h

theorem chooseNode_home {X : XXH3} {req : BenchRequest} {st st' : κ} {node : NodeId}
    (h : (HashFirstBlockRoutingPolicy : RoutingPolicy κ).chooseNode
      (requestContext X total req) (nodeFeatures num_workers) st = .ok (node, st')) :
    node = homeWorker X num_workers req.tokens := by
  have hlen : (nodeFeatures num_workers).length = num_workers.toNat := by
    simp [nodeFeatures]
  simp only [HashFirstBlockRoutingPolicy, hlen] at h
  split at h
  · cases h
  · cases hnode : nodeAt (nodeFeatures num_workers)
      ((requestContext X total req).first_block_hash.lo.toNat % num_workers.toNat) with
    | error e =>
        rw [hnode] at h
        cases h
    | ok node' =>
        rw [hnode] at h
        cases h
        exact nodeAt_nodeFeatures hnode

theorem chooses_home {X : XXH3} {st st' : κ} {served : List (NodeId × BenchRequest)}
    (h : Chooses HashFirstBlockRoutingPolicy (requestContext X total) (nodeFeatures num_workers)
      st served st') :
    served = (served.map Prod.snd).map fun req =>
      (homeWorker X num_workers req.tokens, req) := by
  induction h with
  | start => rfl
  | next h hnext ih =>
      rw [List.map_append, List.map_append, ← ih, chooseNode_home hnext]
      rfl

end Home

end KVCache.Bench
