import KVCache.Coordinator.GlobalIndex
import KVCache.Core.ContentHash
import KVCache.Core.LocalCache
import KVCache.Lib.Exec
import KVCache.Sim.Event

namespace KVCache.Pipeline

open Lib Coordinator Sim

structure RouteRequest where
  request_id : Nat
  context : CacheKeyContext
  tokens : List TokenId
deriving DecidableEq, Repr

structure MissingBlockInfo where
  block_index : UInt32
  hash : ContentHash
deriving DecidableEq, Repr

structure RemoteResolutionOutcome where
  fetched_blocks : List BlockCandidate := []
  remote_hit_count : UInt32 := 0
  stale_ref_count : UInt32 := 0
deriving DecidableEq, Repr

inductive FetchBlockStatus where
  | Ok
  | NotFound
  | StaleGeneration
  | TransportError
deriving DecidableEq, Repr

-- What a transport answers.
structure FetchBlockResponse where
  status : FetchBlockStatus
  payload : List UInt8 := []
  hash : ContentHash := ⟨0, 0⟩
  generation : Nat := 0
deriving DecidableEq, Repr

inductive FetchRemoteStatus where
  | Ok
  | NotFound
  | StaleGeneration
  | HashMismatch
  | TransportError
deriving DecidableEq, Repr

structure FetchRemoteResult where
  status : FetchRemoteStatus
  payload : List UInt8
  hash : ContentHash
  source_ref : GlobalBlockRef
deriving DecidableEq, Repr

structure ReplicaSelectionContext where
  target_hash : ContentHash
  requesting_node : NodeId
  timestamp_ns : Nat
deriving DecidableEq, Repr

-- The collaborators of remote resolution, all of them virtual: the coordinator client,
-- the replica policy, the transport, the latency model and the event sink. `σ` is the
-- state that they share with the rest of the program.
structure Remote (σ : Type) where
  query : ContentHash → Exec Fault σ CoordinatorQueryResult
  invalidate : NodeId → BlockId → Nat → Exec Fault σ Unit
  chooseReplica : ReplicaSelectionContext → List GlobalBlockRef →
    Exec Fault σ (Option GlobalBlockRef)
  fetchBlock : NodeId → BlockId → Nat → Exec Fault σ FetchBlockResponse
  networkFetchNs : Nat → Exec Fault σ Nat
  record : Event → Exec Fault σ Unit

-- The tokens of a span; the language leaves it undefined to read past its end.
def readTokens (what : String) (tokens : List TokenId) (start count : Nat) :
    Except Fault (List TokenId) :=
  if start + count ≤ tokens.length then .ok ((tokens.drop start).take count)
  else .error (.undefined_behavior what)

namespace MissingBlockPlanner

def planBlock (X : XXH3) (req : RouteRequest) (bi : UInt32) : Except Fault MissingBlockInfo := do
  let block_size := req.context.block_size
  let block ← readTokens "MissingBlockPlanner::plan: block out of range" req.tokens
    (bi * block_size).toNat block_size.toNat
  return ⟨bi, computeContentHash X (computeContextHash X req.context) bi
    (UInt16.ofNat block_size.toNat) block⟩

def plan (X : XXH3) (req : RouteRequest) (loc : LocalLookupOutcome) :
    Except Fault (List MissingBlockInfo) :=
  let block_size := req.context.block_size
  if block_size = 0 then
    .error (.undefined_behavior "MissingBlockPlanner::plan: division by zero")
  else
    let total_tokens := UInt32.ofNat req.tokens.length
    let total_full_blocks := total_tokens / block_size
    let first_missing := UInt32.ofNat loc.matched_blocks.length
    if total_full_blocks ≤ first_missing then .ok []
    else (List.range' first_missing.toNat (total_full_blocks.toNat - first_missing.toNat)).mapM
      fun bi => planBlock X req (UInt32.ofNat bi)

end MissingBlockPlanner

variable {σ : Type}

namespace RemoteBlockFetcher

def fetch (w : Remote σ) (ref : GlobalBlockRef) (expected_hash : ContentHash) :
    Exec Fault σ FetchRemoteResult := do
  w.record (.RemoteFetchStarted expected_hash ref.node_id 0)
  let resp ← w.fetchBlock ref.node_id ref.block_id ref.generation
  match resp.status with
  | .NotFound => do
      w.record (.RemoteFetchFailed expected_hash ref.node_id .NotFound 0)
      return ⟨.NotFound, [], ⟨0, 0⟩, ref⟩
  | .StaleGeneration => do
      w.record (.RemoteFetchFailed expected_hash ref.node_id .StaleGeneration 0)
      return ⟨.StaleGeneration, [], ⟨0, 0⟩, ref⟩
  | .TransportError => do
      w.record (.RemoteFetchFailed expected_hash ref.node_id .TransportError 0)
      return ⟨.TransportError, [], ⟨0, 0⟩, ref⟩
  | .Ok =>
      if resp.hash ≠ expected_hash then do
        w.record (.RemoteFetchFailed expected_hash ref.node_id .HashMismatch 0)
        return ⟨.HashMismatch, [], ⟨0, 0⟩, ref⟩
      else do
        let _ ← w.networkFetchNs resp.payload.length
        w.record (.RemoteFetchCompleted expected_hash ref.node_id resp.payload.length 0)
        return ⟨.Ok, resp.payload, resp.hash, ref⟩

end RemoteBlockFetcher

namespace RemoteResolutionStage

-- The candidate that a fetched block becomes.
def toCandidate (req : RouteRequest) (mb : MissingBlockInfo) (fetch : FetchRemoteResult) :
    Except Fault BlockCandidate := do
  let end_token := (mb.block_index + 1) * req.context.block_size
  let toks ← readTokens "RemoteResolutionStage::run: tokens out of range" req.tokens 0
    end_token.toNat
  return {
    context := req.context
    block_index := mb.block_index
    tokens := toks
    hash := fetch.hash
    payload := fetch.payload
    origin := .RemoteFetch
    source_ref := some fetch.source_ref }

-- The loop over the missing blocks, with the outcome so far.
def resolve (w : Remote σ) (req : RouteRequest) :
    List MissingBlockInfo → RemoteResolutionOutcome → Exec Fault σ RemoteResolutionOutcome
  | [], outcome => return outcome
  | mb :: rest, outcome => do
      let query_result ← w.query mb.hash
      if query_result.available = false ∨ query_result.refs = [] then return outcome
      else do
        match ← w.chooseReplica ⟨mb.hash, 0, 0⟩ query_result.refs with
        | none => return outcome
        | some chosen => do
            let fetch ← RemoteBlockFetcher.fetch w chosen mb.hash
            match fetch.status with
            | .StaleGeneration => do
                w.invalidate chosen.node_id chosen.block_id chosen.generation
                w.record (.CoordinatorStaleRef chosen.node_id chosen.block_id chosen.generation 0)
                return { outcome with stale_ref_count := outcome.stale_ref_count + 1 }
            | .Ok => do
                let candidate ← Exec.check fun _ => toCandidate req mb fetch
                resolve w req rest
                  { outcome with
                    fetched_blocks := outcome.fetched_blocks ++ [candidate]
                    remote_hit_count := outcome.remote_hit_count + 1 }
            | _ => return outcome

def run (w : Remote σ) (X : XXH3) (req : RouteRequest) (loc : LocalLookupOutcome) :
    Exec Fault σ RemoteResolutionOutcome := do
  let missing ← Exec.check fun _ => MissingBlockPlanner.plan X req loc
  resolve w req missing {}

end RemoteResolutionStage

end KVCache.Pipeline
