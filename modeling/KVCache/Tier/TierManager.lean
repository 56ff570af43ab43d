import KVCache.Lib.Exec
import KVCache.Core.BlockStore
import Mathlib.Data.Finset.Card
import Mathlib.Data.Finset.Basic

namespace KVCache.Tier

open Lib

structure TierStats where
  capacity_blocks : Nat
  used_blocks : Nat
deriving DecidableEq, Repr

structure TierStore where
  capacity_blocks : Nat
  block_ids : Finset BlockId := ∅
deriving DecidableEq

namespace TierStore

def hasCapacity (t : TierStore) : Bool := t.block_ids.card < t.capacity_blocks

def contains (t : TierStore) (id : BlockId) : Bool := id ∈ t.block_ids

def add (t : TierStore) (id : BlockId) : Except Fault TierStore :=
  if t.hasCapacity then .ok { t with block_ids := insert id t.block_ids }
  else .error (.logic_error "TierStore::add: tier at capacity")

def remove (t : TierStore) (id : BlockId) : TierStore :=
  { t with block_ids := t.block_ids.erase id }

def stats (t : TierStore) : TierStats := ⟨t.capacity_blocks, t.block_ids.card⟩

end TierStore

-- `LatencyModel`, as far as tiers use it.
structure LatencyModel where
  tierAccessNs : KVCache.Tier → Nat → Nat
  migrationNs : KVCache.Tier → KVCache.Tier → Nat → Nat

inductive TierOpStatus where
  | Success
  | CapacityExceeded
  | BlockNotFound
deriving DecidableEq, Repr

structure TierOpResult where
  status : TierOpStatus
  simulated_latency_ns : Nat := 0
deriving DecidableEq, Repr

structure TierManager where
  tiers : KVCache.Tier → Option TierStore
  payload_store : PayloadStore
  latency_model : LatencyModel

namespace TierManager

-- A tier manager works next to the block store that it was given.
abbrev Op (α : Type) := Exec Fault (TierManager × BlockStore) α

def setTierStore (tm : TierManager) (tier : KVCache.Tier) (t : TierStore) : TierManager :=
  { tm with tiers := Function.update tm.tiers tier (some t) }

def putPayload (bytes : List UInt8) : Op PayloadRef := ⟨fun s =>
  match s.1.payload_store.put bytes with
  | .ok (ref, p) => (.ok ref, { s.1 with payload_store := p }, s.2)
  | .error e => (.error e, s)⟩

def addTo (tier : KVCache.Tier) (t : TierStore) (id : BlockId) : Op Unit :=
  Exec.update fun s =>
    match t.add id with
    | .ok t => .ok (s.1.setTierStore tier t, s.2)
    | .error e => .error e

def onStore (f : BlockStore → Except Fault BlockStore) : Op Unit :=
  Exec.update fun s =>
    match f s.2 with
    | .ok store => .ok (s.1, store)
    | .error e => .error e

def place (block_id : BlockId) (target : KVCache.Tier) (payload_bytes : List UInt8) :
    Op TierOpResult := do
  let tm ← Exec.read fun s => s.1
  match tm.tiers target with
  | none => Exec.throw (.logic_error "TierManager::place: unknown tier")
  | some t =>
      if t.hasCapacity = false then return { status := .CapacityExceeded }
      else do
        let ref ← putPayload payload_bytes
        addTo target t block_id
        onStore fun st => st.setTier block_id target
        onStore fun st => st.setPayload block_id ref
        return { status := .Success
                 simulated_latency_ns :=
                  tm.latency_model.tierAccessNs target tm.payload_store.bytes_per_block }

-- `promote` and `demote` differ in the name they report only.
def migrate (unknown_target : String) (block_id : BlockId) (target : KVCache.Tier) :
    Op TierOpResult := do
  let record ← Exec.check fun s => s.2.get block_id
  let tm ← Exec.read fun s => s.1
  match tm.tiers record.tier with
  | none => return { status := .BlockNotFound }
  | some source =>
      if source.contains block_id = false then return { status := .BlockNotFound }
      else
        match tm.tiers target with
        | none => Exec.throw (.logic_error unknown_target)
        | some t =>
            if t.hasCapacity = false then return { status := .CapacityExceeded }
            else do
              Exec.modify fun s => (s.1.setTierStore record.tier (source.remove block_id), s.2)
              -- the target is looked at again: it may be the tier just written
              let again ← Exec.read fun s => s.1.tiers target
              addTo target (again.getD t) block_id
              onStore fun st => st.setTier block_id target
              return { status := .Success
                       simulated_latency_ns :=
                        tm.latency_model.migrationNs record.tier target
                          tm.payload_store.bytes_per_block }

def promote (block_id : BlockId) (target : KVCache.Tier) : Op TierOpResult :=
  migrate "TierManager::promote: unknown target tier" block_id target

def demote (block_id : BlockId) (target : KVCache.Tier) : Op TierOpResult :=
  migrate "TierManager::demote: unknown target tier" block_id target

-- The tiers in the order in which the map may hand them out.
def tierOrder : List KVCache.Tier := [.GpuSim, .Host]

def removePayload (ref : PayloadRef) : Op Unit :=
  Exec.update fun s =>
    match s.1.payload_store.remove ref with
    | .ok p => .ok ({ s.1 with payload_store := p }, s.2)
    | .error e => .error e

def removeFrom (block_id : BlockId) : List KVCache.Tier → Op TierOpResult
  | [] => return { status := .BlockNotFound }
  | tier :: order => do
      let tm ← Exec.read fun s => s.1
      match tm.tiers tier with
      | none => removeFrom block_id order
      | some t =>
          if t.contains block_id = false then removeFrom block_id order
          else do
            let record ← Exec.check fun s => s.2.get block_id
            removePayload record.payload
            Exec.modify fun s => (s.1.setTierStore tier (t.remove block_id), s.2)
            return { status := .Success
                     simulated_latency_ns :=
                      tm.latency_model.tierAccessNs tier tm.payload_store.bytes_per_block }

def remove (block_id : BlockId) : Op TierOpResult := removeFrom block_id tierOrder

def stats (tm : TierManager) (tier : KVCache.Tier) : TierStats :=
  match tm.tiers tier with
  | none => ⟨0, 0⟩
  | some t => t.stats

def hasCapacity (tm : TierManager) (tier : KVCache.Tier) : Bool :=
  match tm.tiers tier with
  | none => false
  | some t => t.hasCapacity

def tierStore (tm : TierManager) (tier : KVCache.Tier) : Except Fault TierStore :=
  match tm.tiers tier with
  | none => .error (.logic_error "TierManager::tierStore: unknown tier")
  | some t => .ok t

def getPayload (tm : TierManager) (ref : PayloadRef) : Except Fault (List UInt8) :=
  tm.payload_store.get ref

end TierManager

end KVCache.Tier
