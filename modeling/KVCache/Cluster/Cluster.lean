import KVCache.Pipeline.Recorded

namespace KVCache

open Lib Coordinator Pipeline Policy Sim

variable {π ρ : Type}

-- `LocalCache::serveBlockFetch` for a worker service.
def Session.serveBlockFetch (env : Env π) (id : BlockId) (generation : Nat) :
    Exec Fault (Session π) ServeBlockResult :=
  ⟨fun s => (((LocalCache.serveBlockFetch id generation).run s.cache).1,
    s.step env (.serveBlockFetch id generation))⟩

-- What the parts of a cluster are given: a digest for all of them, the policies of each
-- cache, and the replica policy, the latency model and the event sink of each pipeline.
-- `ρ` is the state of the latter three.
structure ClusterEnv (π ρ : Type) where
  xxh3 : XXH3
  policies : NodeId → Env π
  chooseReplica : NodeId → ReplicaSelectionContext → List GlobalBlockRef → ρ →
    Option GlobalBlockRef × ρ
  networkFetchNs : NodeId → Nat → ρ → Nat × ρ
  record : NodeId → Event → ρ → ρ

def ClusterEnv.env (E : ClusterEnv π ρ) (node : NodeId) : Env π :=
  { E.policies node with xxh3 := E.xxh3 }

-- Any number of workers and one coordinator. `registered n m` says that the transport of
-- worker `n` has been told of worker `m`.
structure Cluster (π ρ : Type) where
  workers : NodeId → Session π
  registered : NodeId → NodeId → Bool
  index : GlobalIndex := {}
  collaborators : ρ

inductive ClusterOp where
  -- the user of a worker's cache
  | use (node : NodeId) (op : SessionOp)
  -- `WorkerService::lookup`
  | request (node : NodeId) (req : RouteRequest)
  -- `CoordinatorService`
  | announce (hash : ContentHash) (ref : GlobalBlockRef)
  | nodeLeave (node : NodeId)
  -- `InprocTransport` of worker `node`
  | registerWorker (node other : NodeId)

namespace Cluster

def setWorker (c : Cluster π ρ) (node : NodeId) (s : Session π) : Cluster π ρ :=
  { c with workers := Function.update c.workers node s }

-- Ask a collaborator that is not modelled.
def consult {α : Type} (f : ρ → α × ρ) : Exec Fault (Cluster π ρ) α :=
  Exec.modifyGet fun c => ((f c.collaborators).1, { c with collaborators := (f c.collaborators).2 })

-- What the transport makes of the answer of a worker.
def response (result : ServeBlockResult) : FetchBlockResponse :=
  match result.status with
  | .Ok => ⟨.Ok, result.payload, result.hash, result.generation⟩
  | .NotFound => { status := .NotFound }
  | .StaleGeneration => { status := .StaleGeneration }

-- `InprocTransport::fetchBlock` of worker `n`.
def fetchBlock (E : ClusterEnv π ρ) (n node : NodeId) (block : BlockId) (generation : Nat) :
    Exec Fault (Cluster π ρ) FetchBlockResponse := do
  let known ← Exec.read fun c => c.registered n node
  if known = false then return { status := .TransportError }
  else do
    let result ← Exec.on (fun c => c.workers node) (fun c s => c.setWorker node s)
      (Session.serveBlockFetch (E.env node) block generation)
    return response result

-- Worker `n` with the in-process coordinator client and transport.
def wiring (E : ClusterEnv π ρ) (n : NodeId) : Wiring (Cluster π ρ) π where
  query hash := Exec.read fun c => { refs := c.index.query hash }
  invalidate node block_id generation :=
    Exec.modify fun c => { c with index := c.index.invalidate node block_id generation }
  chooseReplica ctx refs := consult (E.chooseReplica n ctx refs)
  fetchBlock := fetchBlock E n
  networkFetchNs payload_bytes := consult (E.networkFetchNs n payload_bytes)
  record e := consult fun r => ((), E.record n e r)
  worker c := c.workers n
  setWorker c s := c.setWorker n s
  env := E.env n

def step (E : ClusterEnv π ρ) (c : Cluster π ρ) : ClusterOp → Cluster π ρ
  | .use node op => c.setWorker node ((c.workers node).step (E.env node) op)
  | .request node req => ((RequestPipeline.run (wiring E node) req).run c).2
  | .announce hash ref => { c with index := c.index.announce hash ref }
  | .nodeLeave node => { c with index := c.index.removeNode node }
  | .registerWorker node other =>
      { c with registered := fun n m => c.registered n m || (n = node && m = other) }

-- The calls that a request of worker `node` makes to its collaborators, with the answers.
def calls (E : ClusterEnv π ρ) (c : Cluster π ρ) (node : NodeId) (req : RouteRequest) :
    List RemoteCall :=
  ((RequestPipeline.run (wiring E node).recorded req).run (c, [])).2.2

-- The announcement is that of an `Admitted` result of the worker that it names.
def Truthful (c : Cluster π ρ) (hash : ContentHash) (ref : GlobalBlockRef) : Prop :=
  ∃ a ∈ (c.workers ref.node_id).admissions,
    a.candidate.hash = hash ∧ a.block_id = ref.block_id ∧ a.generation = ref.generation

-- Runs in which the users of the caches keep to `ok` and announcements are truthful.
def Allowed (ok : SessionOp → Prop) (c : Cluster π ρ) : ClusterOp → Prop
  | .use _ op => ok op
  | .announce hash ref => c.Truthful hash ref
  | _ => True

abbrev Run (E : ClusterEnv π ρ) (ok : SessionOp → Prop) : Cluster π ρ → Cluster π ρ → Prop :=
  Steps (step E) (Allowed ok)

-- A cluster of untiered caches that have not been used.
structure Fresh (c : Cluster π ρ) : Prop where
  workers : ∀ node, ∃ capacity block_size clock policy_state,
    c.workers node = { cache := .new capacity block_size clock policy_state }
  index : c.index = {}

end Cluster

namespace Sample

-- Workers with LRU eviction that fetch from the first replica.
def lruCluster : ClusterEnv Unit Unit where
  xxh3 := xxh3
  policies _ := lruEnv
  chooseReplica _ _ refs st := (refs.head?, st)
  networkFetchNs _ _ st := (0, st)
  record _ _ st := st

-- Caches of `capacity` blocks of one token that can all fetch from each other.
def cluster (capacity : Nat) : Cluster Unit Unit where
  workers _ := { cache := .new capacity 1 clock () }
  registered _ _ := true
  collaborators := ()

theorem cluster_fresh (capacity : Nat) : (cluster capacity).Fresh :=
  ⟨fun _ => ⟨capacity, 1, clock, (), rfl⟩, rfl⟩

end Sample

end KVCache
