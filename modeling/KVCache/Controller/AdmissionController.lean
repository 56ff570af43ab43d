import KVCache.Controller.EvictionController

namespace KVCache

inductive AdmitStatus where
  | Admitted
  | AlreadyPresent
  | CapacityExceeded
  | InvalidBlock
  | Rejected
deriving DecidableEq, Repr

-- The result type of the controller and the one of `LocalCache`, which copies it.
structure AdmitResult where
  status : AdmitStatus
  handle : Option BlockHandle := none
deriving DecidableEq, Repr

namespace Controller

open Lib Policy Prefix Sim Tier

variable {π : Type}

namespace AdmissionController

def candidateFeatures (candidate : BlockCandidate) (block_size : Nat) : BlockCandidateFeatures where
  hash := candidate.hash
  block_index := candidate.block_index
  token_count := UInt16.ofNat block_size
  payload_bytes := candidate.payload.length
  origin := candidate.origin
  prefix_depth_blocks := candidate.block_index
  estimated_recompute_cost_ns := 0

-- The tier that the placement policy chooses; without a tier manager, `GpuSim`.
def chooseTarget (env : Env π) (ctx : AdmissionContext) (features : BlockCandidateFeatures) :
    Stack.Op π KVCache.Tier := do
  match ← Exec.read fun s => s.tier_manager with
  | none => return .GpuSim
  | some tm =>
      let gpu_stats := tm.stats .GpuSim
      let host_stats := tm.stats .Host
      Stack.ask (env.placement.chooseTier
        ⟨gpu_stats.used_blocks, gpu_stats.capacity_blocks, host_stats.used_blocks,
          host_stats.capacity_blocks, ctx.timestamp_ns⟩ features)

def tierFull (s : Stack π) (target_tier : KVCache.Tier) : Bool :=
  match s.tier_manager with
  | none => false
  | some tm => !tm.hasCapacity target_tier

-- Make room for one block where there is none: whether there is room now.
def ensureSpace (env : Env π) (ctx : AdmissionContext) (target_tier : KVCache.Tier) :
    Stack.Op π Bool := do
  let full ← Exec.read fun s => s.manager.available == 0 || tierFull s target_tier
  if full then do
    let space_result ← EvictionController.makeSpace env ⟨1, ctx.timestamp_ns, target_tier⟩
    return space_result.status ≠ .InsufficientCandidates
  else return true

-- The payload goes to the target tier when there is a tier manager.
def placeBlock (id : BlockId) (target_tier : KVCache.Tier) (payload : List UInt8) :
    Stack.Op π TierOpStatus := do
  match ← Exec.read fun s => s.tier_manager with
  | none => return .Success
  | some tm => do
      let place_result ← Stack.onTier tm (TierManager.place id target_tier payload)
      return place_result.status

-- Enter a placed block into the index and hand it out.
def publish (candidate : BlockCandidate) (ctx : AdmissionContext) (ctx_hash : CacheContextHash)
    (existing_blocks : List BlockId) (target_tier : KVCache.Tier) (id : BlockId) :
    Stack.Op π AdmitResult := do
  Exec.modify fun s =>
    { s with index := s.index.insert ctx_hash candidate.tokens (existing_blocks ++ [id]) }
  Stack.onManager (BlockManager.transitionState id .Admitting .Ready)
  Stack.record (.BlockAdmitted id ctx_hash target_tier candidate.origin ctx.timestamp_ns)
  let handle ← Stack.onManager (BlockManager.acquire id)
  return ⟨.Admitted, handle⟩

-- The part of `admit` that follows when there is room.
def storeBlock (candidate : BlockCandidate) (ctx : AdmissionContext) (ctx_hash : CacheContextHash)
    (existing_blocks : List BlockId) (target_tier : KVCache.Tier) : Stack.Op π AdmitResult := do
  let block_size ← Exec.read fun s => s.block_size
  let slot ← Stack.onManager (BlockManager.createBlock candidate.hash candidate.block_index
    (UInt16.ofNat block_size) target_tier)
  match slot with
  | none => return { status := .CapacityExceeded }
  | some (id, _) => do
      match ← placeBlock id target_tier candidate.payload with
      | .CapacityExceeded => do
          Stack.onManager (BlockManager.freeBlock id)
          return { status := .CapacityExceeded }
      | _ => publish candidate ctx ctx_hash existing_blocks target_tier id

def askAdmission (env : Env π) (ctx : AdmissionContext) (candidate : BlockCandidate) :
    Stack.Op π AdmissionDecision := do
  let block_size ← Exec.read fun s => s.block_size
  let decision ← Stack.ask (env.admission.decide ctx (candidateFeatures candidate block_size))
  Stack.log (.AdmissionRecord (decision = .Admit) env.admission.name candidate.hash
    ctx.timestamp_ns)
  return decision

-- The block ids on the path of the candidate's parent.
def existingBlocks (s : Stack π) (ctx_hash : CacheContextHash) (candidate : BlockCandidate) :
    List BlockId :=
  (s.index.lookup ctx_hash
    (candidate.tokens.take (candidate.block_index.toNat * s.block_size))).blocks

def admitCandidate (env : Env π) (candidate : BlockCandidate) (ctx : AdmissionContext) :
    Stack.Op π AdmitResult := do
  let block_size ← Exec.read fun s => s.block_size
  if candidate.tokens.length ≠ (candidate.block_index.toNat + 1) * block_size then
    return { status := .InvalidBlock }
  else do
    let ctx_hash := computeContextHash env.xxh3 candidate.context
    let full_blocks ← Exec.read fun s => (s.index.lookup ctx_hash candidate.tokens).blocks
    if full_blocks.length = candidate.block_index.toNat + 1 then
      return { status := .AlreadyPresent }
    else do
      let existing_blocks ← Exec.read fun s => existingBlocks s ctx_hash candidate
      if existing_blocks.length ≠ candidate.block_index.toNat then
        return { status := .InvalidBlock }
      else do
        match ← askAdmission env ctx candidate with
        | .Reject => return { status := .Rejected }
        | .Admit => do
            let target_tier ← chooseTarget env ctx (candidateFeatures candidate block_size)
            if ← ensureSpace env ctx target_tier then
              storeBlock candidate ctx ctx_hash existing_blocks target_tier
            else return { status := .CapacityExceeded }

end AdmissionController

end Controller

end KVCache
