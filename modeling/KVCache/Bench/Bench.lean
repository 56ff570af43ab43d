import KVCache.Bench.Workload
import KVCache.Cluster.PrefixSoundness
import KVCache.Policy.PrefixAwareEviction
import Mathlib.Data.UInt

namespace KVCache.Bench

open Lib Coordinator Pipeline Policy Sim

variable {κ π ρ : Type}

def makeCtx : CacheKeyContext where
  model_id := 1
  tokenizer_id := 1
  block_size := BLOCK_SIZE
  dtype := .BF16
  num_layers := 32
  num_kv_heads := 8
  head_dim := 128
  rope_config_hash := 0
  kv_layout_hash := 0

def makeEvictionPolicy (name : String) : EvictionPolicy π :=
  if name = "prefix_aware" then PrefixAwareEvictionPolicy else LruEvictionPolicy

def makeRoutingPolicy (rng : Rng κ) (args : BenchArgs) : RoutingPolicy κ :=
  if args.routing = "hash_first_block" then HashFirstBlockRoutingPolicy
  else RandomRoutingPolicy rng

def makeCandidate (X : XXH3) (ctx : CacheKeyContext) (block_idx : UInt32)
    (full_tokens : List TokenId) : Except Fault BlockCandidate := do
  let block ← readTokens "makeCandidate: block out of range" full_tokens
    (block_idx * BLOCK_SIZE).toNat BLOCK_SIZE.toNat
  let toks ← readTokens "makeCandidate: tokens out of range" full_tokens 0
    ((block_idx + 1) * BLOCK_SIZE).toNat
  return {
    context := ctx
    block_index := block_idx
    tokens := toks
    hash := computeContentHash X (computeContextHash X ctx) block_idx
      (UInt16.ofNat BLOCK_SIZE.toNat) block
    payload := []
    origin := .LocallyComputed
    source_ref := none }

-- The rigs, the coordinator and the counters of a bench. `κ` is the state of the routing
-- policy.
structure State (π ρ κ : Type) where
  cluster : Cluster π ρ
  routing_policy : κ
  local_hits : NodeId → UInt32 := fun _ => 0
  remote_hits : NodeId → UInt32 := fun _ => 0
  total_prefix_possible : UInt32 := 0

def onCluster {α : Type} (x : Exec Fault (Cluster π ρ) α) : Exec Fault (State π ρ κ) α :=
  Exec.on State.cluster (fun s c => { s with cluster := c }) x

-- The handle variables of a worker from `i` on go out of scope.
def endScope (E : ClusterEnv π ρ) (n : NodeId) (i : Nat) : Exec Fault (Cluster π ρ) Unit :=
  Exec.modify fun c => c.setWorker n ((c.workers n).unwind (E.env n) i)

-- The body of the loop over the blocks of a request that were not to be had. The handle of
-- the new block dies before the announcement.
def computeBlock (E : ClusterEnv π ρ) (chosen : NodeId) (tokens : List TokenId) (bi : UInt32) :
    Exec Fault (Cluster π ρ) Unit := do
  let cand ← Exec.check fun _ => makeCandidate E.xxh3 makeCtx bi tokens
  let scope ← Exec.read fun c => (c.workers chosen).handles.length
  let result ← (Cluster.wiring E chosen).onWorker (Session.admitBlock (E.env chosen) cand)
  match result.status, result.handle with
  | .Admitted, some handle => do
      let gen ← Exec.read fun c =>
        ((c.workers chosen).cache.manager.store.records.getD handle.slot {}).generation
      endScope E chosen scope
      Exec.modify fun c =>
        { c with index := c.index.announce cand.hash ⟨chosen, handle.slot, gen⟩ }
  | _, _ => endScope E chosen scope

-- The numbers of a loop from `first` to below `total`.
def loopFrom (first total : UInt32) : List UInt32 :=
  (List.range' first.toNat (total.toNat - first.toNat)).map UInt32.ofNat

def nodeFeatures (num_workers : UInt32) : List NodePolicyFeatures :=
  (List.range num_workers.toNat).map fun i => ⟨i⟩

def chooseNode (routing : RoutingPolicy κ) (context : RoutingContext)
    (nodes : List NodePolicyFeatures) : Exec Fault (State π ρ κ) NodeId := ⟨fun s =>
  match routing.chooseNode context nodes s.routing_policy with
  | .ok (node, st) => (.ok node, { s with routing_policy := st })
  | .error e => (.error e, s)⟩

def routingContext (X : XXH3) (total_blocks_per_request : UInt32) (first_block : List TokenId) :
    RoutingContext where
  context_hash := computeContextHash X makeCtx
  full_block_count := total_blocks_per_request
  first_block_hash := computeContentHash X (computeContextHash X makeCtx) 0
    (UInt16.ofNat BLOCK_SIZE.toNat) first_block
  timestamp_ns := 0

def routeRequest (req : BenchRequest) : RouteRequest :=
  ⟨req.request_id.toNat, makeCtx, req.tokens⟩

def State.count (s : State π ρ κ) (chosen : NodeId) (result : RouteResult) : State π ρ κ :=
  { s with
    local_hits := Function.update s.local_hits chosen
      (s.local_hits chosen + result.local_hit_blocks)
    remote_hits := Function.update s.remote_hits chosen
      (s.remote_hits chosen + result.remote_hit_blocks) }

-- The body of the loop over the requests, from the choice of a worker on.
def serve (E : ClusterEnv π ρ) (total_blocks_per_request : UInt32) (req : BenchRequest)
    (chosen : NodeId) : Exec Fault (State π ρ κ) Unit := do
  let scope ← Exec.read fun s => (s.cluster.workers chosen).handles.length
  let result ← onCluster (RequestPipeline.run (Cluster.wiring E chosen) (routeRequest req))
  Exec.modify fun s => s.count chosen result
  let first_miss := UInt32.ofNat result.reusable_blocks.length
  onCluster ((loopFrom first_miss total_blocks_per_request).forM
    (computeBlock E chosen req.tokens))
  onCluster (endScope E chosen scope)

def benchRequest (E : ClusterEnv π ρ) (routing : RoutingPolicy κ) (num_workers : UInt32)
    (total_blocks_per_request : UInt32) (req : BenchRequest) :
    Exec Fault (State π ρ κ) Unit := do
  let prefix_blocks := if 0 < total_blocks_per_request then total_blocks_per_request - 1 else 0
  Exec.modify fun s =>
    { s with total_prefix_possible := s.total_prefix_possible + prefix_blocks }
  let first_block ← Exec.check fun _ =>
    readTokens "runBench: first block out of range" req.tokens 0 BLOCK_SIZE.toNat
  let chosen ← chooseNode routing (routingContext E.xxh3 total_blocks_per_request first_block)
    (nodeFeatures num_workers)
  if num_workers.toNat ≤ chosen then
    Exec.throw (.undefined_behavior "runBench: no such worker")
  else serve E total_blocks_per_request req chosen

-- The rigs as `runBench` wires them up. The clocks are never set.
def rigs (args : BenchArgs) : Cluster Unit Unit where
  workers _ :=
    { cache := .new args.capacity_per_worker.toNat BLOCK_SIZE.toNat { readings := fun _ => 0 } () }
  registered i j := i ≠ j ∧ i < args.num_workers.toNat ∧ j < args.num_workers.toNat
  collaborators := ()

def benchEnv (X : XXH3) (args : BenchArgs) : ClusterEnv Unit Unit where
  xxh3 := X
  policies _ := { LocalCache.phase1Env X with eviction := makeEvictionPolicy args.eviction }
  chooseReplica _ _ replicas st := (replicas.head?, st)
  networkFetchNs _ _ st := (0, st)
  record _ _ st := st

def totalBlocksPerRequest (requests : List BenchRequest) : UInt32 :=
  match requests with
  | [] => 0
  | req :: _ => UInt32.ofNat (req.tokens.length / BLOCK_SIZE.toNat)

def runBench (X : XXH3) (rng : Rng κ) (args : BenchArgs) :
    Except Fault Unit × State Unit Unit κ :=
  let requests := generateWorkload rng args
  (requests.forM (benchRequest (benchEnv X args) (makeRoutingPolicy rng args) args.num_workers
    (totalBlocksPerRequest requests))).run
      { cluster := rigs args, routing_policy := rng.seed args.seed }

structure WorkerResults where
  node_id : NodeId
  local_hits : UInt32
  remote_hits : UInt32
  evictions : UInt32
  admissions : UInt32
deriving DecidableEq, Repr

-- The counters that `writeJsonOutput` writes.
structure BenchResults where
  local_hits : UInt32
  remote_hits : UInt32
  total_prefix_possible : UInt32
  evictions : UInt32
  admissions : UInt32
  workers : List WorkerResults
deriving DecidableEq, Repr

-- `CountingTeeEventSink` counts in 32 bits.
def workerResults (s : State π ρ κ) (node : NodeId) : WorkerResults where
  node_id := node
  local_hits := s.local_hits node
  remote_hits := s.remote_hits node
  evictions := UInt32.ofNat ((s.cluster.workers node).cache.events.countP Event.isEvicted)
  admissions := UInt32.ofNat ((s.cluster.workers node).cache.events.countP Event.isAdmitted)

def results (args : BenchArgs) (s : State π ρ κ) : BenchResults :=
  let workers := (List.range args.num_workers.toNat).map (workerResults s)
  { local_hits := (workers.map (·.local_hits)).sum
    remote_hits := (workers.map (·.remote_hits)).sum
    total_prefix_possible := s.total_prefix_possible
    evictions := (workers.map (·.evictions)).sum
    admissions := (workers.map (·.admissions)).sum
    workers }

end KVCache.Bench
