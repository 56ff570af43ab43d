import KVCache.Controller.Stack

namespace KVCache.Controller

open Lib Policy Prefix Sim Tier

variable {π : Type}

structure MakeSpaceRequest where
  blocks_needed : Nat
  timestamp_ns : Nat
  tier : Tier := .GpuSim
deriving DecidableEq, Repr

inductive EvictionStatus where
  | Success
  | InsufficientCandidates
deriving DecidableEq, Repr

structure EvictionResult where
  status : EvictionStatus
  evicted_count : Nat
deriving DecidableEq, Repr

-- `SafeCandidateFinder::find`.
def findCandidates (store : BlockStore) : List BlockId :=
  (store.records.filter fun record => record.state = .Ready ∧ record.refcount = 0).map (·.id)

namespace EvictionController

-- Those of the blocks whose record names the tier.
def inTier (store : BlockStore) (tier : KVCache.Tier) : List BlockId → Except Fault (List BlockId)
  | [] => .ok []
  | id :: ids => do
      let record ← store.get id
      let rest ← inTier store tier ids
      return if record.tier = tier then id :: rest else rest

def buildAll (store : BlockStore) (index : PrefixIndex) (now_ns : Nat) :
    List BlockId → Except Fault (List BlockPolicyFeatures)
  | [] => .ok []
  | id :: ids => do
      let f ← buildFeatures store index id now_ns
      let fs ← buildAll store index now_ns ids
      return f :: fs

-- Give up the block that the policy chose.
def evict (env : Env π) (request : MakeSpaceRequest) (candidates : List BlockId)
    (victim_id : BlockId) : Stack.Op π Unit := do
  Stack.onManager (BlockManager.transitionState victim_id .Ready .Evicting)
  Exec.modify fun s => { s with index := s.index.remove victim_id }
  match ← Exec.read fun s => s.tier_manager with
  | none => Stack.onManager (BlockManager.freeBlock victim_id)
  | some tm => do
      let _ ← Stack.onTier tm (TierManager.remove victim_id)
      Stack.onManager (BlockManager.freeBlock victim_id)
  Stack.record (.BlockEvicted victim_id env.eviction.name request.timestamp_ns)
  Stack.log (.EvictionDecision victim_id env.eviction.name candidates request.timestamp_ns)

-- One pass of the loop of `makeSpace`: whether a block was evicted.
def evictOne (env : Env π) (request : MakeSpaceRequest) : Stack.Op π Bool := do
  let all_candidates ← Exec.read fun s => findCandidates s.manager.store
  if all_candidates = [] then return false
  else do
    let candidates ← Exec.check fun s => inTier s.manager.store request.tier all_candidates
    if candidates = [] then return false
    else do
      let features ← Exec.check fun s =>
        buildAll s.manager.store s.index request.timestamp_ns candidates
      let victim ← Stack.ask
        (env.eviction.chooseVictim ⟨request.tier, 0, request.timestamp_ns⟩ features)
      match victim with
      | none => return false
      | some victim_id => do
          evict env request candidates victim_id
          return true

def makeSpaceLoop (env : Env π) (request : MakeSpaceRequest) :
    Nat → Nat → Stack.Op π EvictionResult
  | 0, evicted => return ⟨.Success, evicted⟩
  | missing + 1, evicted => do
      if ← evictOne env request then makeSpaceLoop env request missing (evicted + 1)
      else return ⟨.InsufficientCandidates, evicted⟩

def makeSpace (env : Env π) (request : MakeSpaceRequest) : Stack.Op π EvictionResult :=
  makeSpaceLoop env request request.blocks_needed 0

end EvictionController

end KVCache.Controller
