import KVCache.Lib.Jsonl
import KVCache.Sim.Event

namespace KVCache

open Lib

def tier_name : Tier → String
  | .GpuSim => "GPU_SIM"
  | .Host => "HOST"

namespace Sim

-- All that a sink can be given: what the cache and the pipeline record, and three kinds of
-- events that no code records.
inductive SinkEvent where
  | LookupHit (id : BlockId) (timestamp_ns : Nat)
  | LookupMiss (context_hash : CacheContextHash) (miss_token_offset : UInt32) (timestamp_ns : Nat)
  | NonContiguousLocalBlocks (gap_at_block_index : UInt32) (timestamp_ns : Nat)
  | recorded (e : Event)
deriving DecidableEq, Repr

def fetchFailName : FetchFailReason → String
  | .NotFound => "not_found"
  | .StaleGeneration => "stale_generation"
  | .HashMismatch => "hash_mismatch"
  | .TransportError => "transport_error"

def originName (origin : BlockOrigin) : String :=
  if origin = .LocallyComputed then "local" else "remote"

def serializeEvent : SinkEvent → JsonObject
  | .LookupHit id ns =>
      [("type", .string "lookup_hit"), ("block_id", .number id), ("timestamp_ns", .number ns)]
  | .LookupMiss context_hash miss_token_offset ns =>
      [("type", .string "lookup_miss"), ("context_hash", .number context_hash.toNat),
        ("miss_token_offset", .number miss_token_offset.toNat), ("timestamp_ns", .number ns)]
  | .recorded (.BlockAdmitted id context_hash tier origin ns) =>
      [("type", .string "block_admitted"), ("block_id", .number id),
        ("context_hash", .number context_hash.toNat), ("tier", .string (tier_name tier)),
        ("origin", .string (originName origin)), ("timestamp_ns", .number ns)]
  | .recorded (.BlockEvicted id policy_name ns) =>
      [("type", .string "block_evicted"), ("block_id", .number id),
        ("policy", .string policy_name), ("timestamp_ns", .number ns)]
  | .recorded (.BlockPromoted id from_tier to_tier ns) =>
      [("type", .string "block_promoted"), ("block_id", .number id),
        ("from", .string (tier_name from_tier)), ("to", .string (tier_name to_tier)),
        ("timestamp_ns", .number ns)]
  | .recorded (.BlockDemoted id from_tier to_tier ns) =>
      [("type", .string "block_demoted"), ("block_id", .number id),
        ("from", .string (tier_name from_tier)), ("to", .string (tier_name to_tier)),
        ("timestamp_ns", .number ns)]
  | .recorded (.RemoteFetchStarted hash source_node ns) =>
      [("type", .string "remote_fetch_started"), ("hash_lo", .number hash.lo.toNat),
        ("hash_hi", .number hash.hi.toNat), ("source_node", .number source_node),
        ("timestamp_ns", .number ns)]
  | .recorded (.RemoteFetchCompleted hash source_node bytes_fetched ns) =>
      [("type", .string "remote_fetch_completed"), ("hash_lo", .number hash.lo.toNat),
        ("hash_hi", .number hash.hi.toNat), ("source_node", .number source_node),
        ("bytes_fetched", .number bytes_fetched), ("timestamp_ns", .number ns)]
  | .recorded (.RemoteFetchFailed hash source_node reason ns) =>
      [("type", .string "remote_fetch_failed"), ("hash_lo", .number hash.lo.toNat),
        ("hash_hi", .number hash.hi.toNat), ("source_node", .number source_node),
        ("reason", .string (fetchFailName reason)), ("timestamp_ns", .number ns)]
  | .recorded (.CoordinatorStaleRef node block_id generation ns) =>
      [("type", .string "coordinator_stale_ref"), ("node_id", .number node),
        ("block_id", .number block_id), ("generation", .number generation),
        ("timestamp_ns", .number ns)]
  | .NonContiguousLocalBlocks gap_at_block_index ns =>
      [("type", .string "non_contiguous_local_blocks"),
        ("gap_at_block_index", .number gap_at_block_index.toNat), ("timestamp_ns", .number ns)]

-- `JsonlEventSink::record`, with the text that the sink has written so far.
def JsonlEventSink.record (dump : JsonObject → List Char) (out : List Char) (event : SinkEvent) :
    List Char := writeLine dump out (serializeEvent event)

def tierOfName : String → Option Tier
  | "GPU_SIM" => some .GpuSim
  | "HOST" => some .Host
  | _ => none

def originOfName : String → Option BlockOrigin
  | "local" => some .LocallyComputed
  | "remote" => some .RemoteFetch
  | _ => none

def reasonOfName : String → Option FetchFailReason
  | "not_found" => some .NotFound
  | "stale_generation" => some .StaleGeneration
  | "hash_mismatch" => some .HashMismatch
  | "transport_error" => some .TransportError
  | _ => none

@[simp] theorem tierOfName_name (tier : Tier) : tierOfName (tier_name tier) = some tier := by
  cases tier <;> simp [tierOfName, tier_name]

@[simp] theorem originOfName_name (origin : BlockOrigin) :
    originOfName (originName origin) = some origin := by
  cases origin <;> simp [originOfName, originName]

@[simp] theorem reasonOfName_name (reason : FetchFailReason) :
    reasonOfName (fetchFailName reason) = some reason := by
  cases reason <;> simp [reasonOfName, fetchFailName]

section Reader

variable (fields : String → Option JsonValue)

def numberAt (key : String) : Option Nat :=
  match fields key with
  | some (.number n) => some n
  | _ => none

def stringAt (key : String) : Option String :=
  match fields key with
  | some (.string s) => some s
  | _ => none

def hashAt : Option ContentHash :=
  return ⟨.ofNat (← numberAt fields "hash_lo"), .ofNat (← numberAt fields "hash_hi")⟩

def tierAt (key : String) : Option Tier := (stringAt fields key).bind tierOfName

-- The event that the fields of an object tell of.
def readEvent : Option SinkEvent := do
  let ns ← numberAt fields "timestamp_ns"
  match ← stringAt fields "type" with
  | "lookup_hit" =>
      let id ← numberAt fields "block_id"
      return .LookupHit id ns
  | "lookup_miss" =>
      let context_hash ← numberAt fields "context_hash"
      let miss_token_offset ← numberAt fields "miss_token_offset"
      return .LookupMiss (.ofNat context_hash) (.ofNat miss_token_offset) ns
  | "block_admitted" =>
      let id ← numberAt fields "block_id"
      let context_hash ← numberAt fields "context_hash"
      let tier ← tierAt fields "tier"
      let origin ← (stringAt fields "origin").bind originOfName
      return .recorded (.BlockAdmitted id (.ofNat context_hash) tier origin ns)
  | "block_evicted" =>
      let id ← numberAt fields "block_id"
      let policy_name ← stringAt fields "policy"
      return .recorded (.BlockEvicted id policy_name ns)
  | "block_promoted" =>
      let id ← numberAt fields "block_id"
      let from_tier ← tierAt fields "from"
      let to_tier ← tierAt fields "to"
      return .recorded (.BlockPromoted id from_tier to_tier ns)
  | "block_demoted" =>
      let id ← numberAt fields "block_id"
      let from_tier ← tierAt fields "from"
      let to_tier ← tierAt fields "to"
      return .recorded (.BlockDemoted id from_tier to_tier ns)
  | "remote_fetch_started" =>
      let hash ← hashAt fields
      let source_node ← numberAt fields "source_node"
      return .recorded (.RemoteFetchStarted hash source_node ns)
  | "remote_fetch_completed" =>
      let hash ← hashAt fields
      let source_node ← numberAt fields "source_node"
      let bytes_fetched ← numberAt fields "bytes_fetched"
      return .recorded (.RemoteFetchCompleted hash source_node bytes_fetched ns)
  | "remote_fetch_failed" =>
      let hash ← hashAt fields
      let source_node ← numberAt fields "source_node"
      let reason ← (stringAt fields "reason").bind reasonOfName
      return .recorded (.RemoteFetchFailed hash source_node reason ns)
  | "coordinator_stale_ref" =>
      let node ← numberAt fields "node_id"
      let block_id ← numberAt fields "block_id"
      let generation ← numberAt fields "generation"
      return .recorded (.CoordinatorStaleRef node block_id generation ns)
  | "non_contiguous_local_blocks" =>
      let gap_at_block_index ← numberAt fields "gap_at_block_index"
      return .NonContiguousLocalBlocks (.ofNat gap_at_block_index) ns
  | _ => none

end Reader

theorem readEvent_serializeEvent (event : SinkEvent) :
    readEvent (serializeEvent event).get = some event := by
  rcases event with _ | _ | _ | e
  case recorded =>
    cases e <;> simp [serializeEvent, readEvent, JsonObject.get, numberAt, stringAt, hashAt,
      tierAt]
  all_goals simp [serializeEvent, readEvent, JsonObject.get, numberAt, stringAt]

abbrev JsonlEventSink.format : JsonFormat SinkEvent where
  toJson := serializeEvent
  ofFields := readEvent
  wellFormed event := by
    rcases event with _ | _ | _ | e
    case recorded => cases e <;> simp [serializeEvent, JsonObject.WellFormed]
    all_goals simp [serializeEvent, JsonObject.WellFormed]
  lawful := readEvent_serializeEvent

end Sim

end KVCache
