import KVCache.Controller.AdmissionController
import KVCache.Prefix.PrefixLookupEngine

namespace KVCache

open Lib Controller Policy Prefix Tier

variable {π : Type}

structure LocalLookupOutcome where
  matched_blocks : List BlockHandle
  matched_tokens : Nat
  miss_token_offset : Nat
  context_hash : CacheContextHash
  total_full_blocks_in_request : Nat
deriving DecidableEq, Repr

inductive ServeBlockStatus where
  | Ok
  | NotFound
  | StaleGeneration
deriving DecidableEq, Repr

structure ServeBlockResult where
  status : ServeBlockStatus
  payload : List UInt8 := []
  hash : ContentHash := ⟨0, 0⟩
  generation : Nat := 0
deriving DecidableEq, Repr

structure CacheSnapshot where
  total_capacity_blocks : UInt32
  used_blocks : UInt32
  ready_blocks : UInt32
deriving DecidableEq, Repr

-- A cache is its stack of controllers.
abbrev LocalCache (π : Type) := Stack π

namespace LocalCache

-- The constructors without tiers: a manager and an index of its own.
def new (capacity block_size : Nat) (clock : Clock) (policy_state : π) : LocalCache π where
  manager := .new capacity clock
  index := { block_size }
  block_size := block_size
  policy_state := policy_state

-- The constructor with tiers: the tier manager comes with a block store of its own.
def newTiered (capacity block_size : Nat) (clock : Clock) (policy_state : π)
    (tier_manager : TierManager) (tier_block_store : BlockStore) : LocalCache π :=
  { new capacity block_size clock policy_state with
    tier_manager := some tier_manager
    tier_block_store := some tier_block_store }

-- What the constructors build.
inductive Constructed : LocalCache π → Prop
  | untiered (capacity block_size : Nat) (clock : Clock) (policy_state : π) :
      Constructed (new capacity block_size clock policy_state)
  | tiered (capacity block_size : Nat) (clock : Clock) (policy_state : π)
      (tier_manager : TierManager) (tier_block_store : BlockStore) :
      Constructed (newTiered capacity block_size clock policy_state tier_manager tier_block_store)

-- The policies of the constructor that takes none.
def phase1Env (X : XXH3) : Env π where
  xxh3 := X
  admission := AlwaysAdmitPolicy
  eviction := NoEvictionPolicy
  placement := GpuFirstPlacementPolicy
  promotion := NoMigrationPolicy
  demotion := NoMigrationPolicy

def lookupPrefix (env : Env π) (ctx : CacheKeyContext) (tokens : List TokenId) :
    Stack.Op π LocalLookupOutcome := do
  let ctx_hash := computeContextHash env.xxh3 ctx
  let block_size ← Exec.read fun s => s.block_size
  if block_size = 0 then
    Exec.throw (.undefined_behavior "LocalCache::lookupPrefix: division by zero")
  else do
    let index ← Exec.read fun s => s.index
    let raw ← Stack.onManager (PrefixLookupEngine.lookup index ctx_hash tokens block_size)
    return {
      matched_blocks := raw.handles
      matched_tokens := raw.matched_tokens
      miss_token_offset := raw.matched_tokens
      context_hash := ctx_hash
      total_full_blocks_in_request := tokens.length / block_size % 2 ^ 32 }

def admitBlock (env : Env π) (candidate : BlockCandidate) : Stack.Op π AdmitResult := do
  let now ← Stack.onManager BlockManager.nowNs
  AdmissionController.admitCandidate env candidate
    { request_id := 0
      context_hash := computeContextHash env.xxh3 candidate.context
      missing_blocks := 0
      timestamp_ns := now }

def getBlock (id : BlockId) (generation : Nat) : Stack.Op π FetchLocalResult :=
  Stack.onManager (BlockManager.fetchLocal id generation)

-- The bytes that `serveBlockFetch` copies out for a record.
def payloadBytes (s : LocalCache π) (record : BlockRecord) : Except Fault (List UInt8) :=
  match s.tier_manager with
  | none => .ok []
  | some tm => if record.payload.valid then tm.getPayload record.payload else .ok []

def serveBlockFetch (id : BlockId) (generation : Nat) : Stack.Op π ServeBlockResult := do
  let result ← Stack.onManager (BlockManager.fetchLocal id generation)
  match result.status, result.handle with
  | .NotFound, _ => return { status := .NotFound }
  | .StaleGeneration, _ => return { status := .StaleGeneration }
  | .Hit, none => Exec.throw (.undefined_behavior "LocalCache::serveBlockFetch: empty handle")
  | .Hit, some handle => do
      let record ← Exec.read fun s => s.manager.store.records.getD handle.slot {}
      let payload_bytes ← Exec.read fun s => payloadBytes s record
      -- the handle dies on both ways out
      Stack.onManager (BlockManager.dropHandle handle)
      match payload_bytes with
      | .error e => Exec.throw e
      | .ok payload => return ⟨.Ok, payload, record.hash, record.generation⟩

def snapshot (s : LocalCache π) : CacheSnapshot :=
  let recs := s.manager.store.records
  { total_capacity_blocks := UInt32.ofNat recs.length
    used_blocks := UInt32.ofNat
      (recs.countP fun record => 0 < record.generation ∧ record.state ≠ .Free)
    ready_blocks := UInt32.ofNat (recs.countP fun record => record.state = .Ready) }

end LocalCache

end KVCache
