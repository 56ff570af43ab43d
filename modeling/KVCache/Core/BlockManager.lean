import KVCache.Lib.Exec
import KVCache.Core.BlockPool
import KVCache.Core.BlockStore

namespace KVCache

open Lib

-- A clock is what its successive readings return.
structure Clock where
  readings : Nat → Nat
  reads : Nat := 0

namespace Clock

def nowNs (c : Clock) : Nat × Clock := (c.readings c.reads, { c with reads := c.reads + 1 })

end Clock

inductive FetchLocalStatus where
  | Hit
  | NotFound
  | StaleGeneration
deriving DecidableEq, Repr

structure FetchLocalResult where
  status : FetchLocalStatus
  handle : Option BlockHandle
deriving DecidableEq, Repr

def isLegalTransition : BlockState → BlockState → Bool
  | .Free, target => target = .Admitting ∨ target = .Fetching
  | .Admitting, target => target = .Ready ∨ target = .Free
  | .Fetching, target => target = .Ready ∨ target = .Free
  | .Ready, target => target = .Migrating ∨ target = .Evicting
  | .Migrating, target => target = .Ready
  | .Evicting, target => target = .Free

structure BlockManager where
  pool : BlockPool
  store : BlockStore
  clock : Clock

namespace BlockManager

def new (capacity : Nat) (clock : Clock) : BlockManager where
  pool := .new capacity
  store := .new capacity
  clock := clock

abbrev Op (α : Type) := Exec Fault BlockManager α

def onStore (f : BlockStore → Except Fault BlockStore) : Op Unit :=
  Exec.update fun m =>
    match f m.store with
    | .ok store => .ok { m with store }
    | .error e => .error e

def onPool (f : BlockPool → Except Fault BlockPool) : Op Unit :=
  Exec.update fun m =>
    match f m.pool with
    | .ok pool => .ok { m with pool }
    | .error e => .error e

def nowNs : Op Nat :=
  Exec.modifyGet fun m => (m.clock.nowNs.1, { m with clock := m.clock.nowNs.2 })

def createBlock (hash : ContentHash) (block_index : UInt32) (token_count : UInt16) (tier : Tier) :
    Op (Option (BlockId × Nat)) := do
  let result ← Exec.modifyGet fun m => (m.pool.allocate.1, { m with pool := m.pool.allocate.2 })
  match result with
  | none => return none
  | some (id, generation) => do
      onStore fun st =>
        st.initializeRecord id generation hash block_index token_count tier .Admitting
      return some (id, generation)

-- The accesses that both `acquire` and `fetchLocal` end with.
def touch (id : BlockId) : Op BlockHandle := do
  let now ← nowNs
  onStore fun st => st.markAccessed id now
  onStore fun st => st.createHandle id
  return ⟨id⟩

def acquire (id : BlockId) : Op (Option BlockHandle) := do
  let capacity ← Exec.read fun m => m.pool.capacity
  if capacity ≤ id then return none
  else do
    let record ← Exec.check fun m => m.store.get id
    if record.generation = 0 ∨ record.state ≠ .Ready then return none
    else do
      let handle ← touch id
      return some handle

def fetchLocal (id : BlockId) (generation : Nat) : Op FetchLocalResult := do
  let capacity ← Exec.read fun m => m.pool.capacity
  if capacity ≤ id then return ⟨.NotFound, none⟩
  else do
    let record ← Exec.check fun m => m.store.get id
    if record.generation = 0 then return ⟨.NotFound, none⟩
    else if record.generation ≠ generation then return ⟨.StaleGeneration, none⟩
    else if record.state ≠ .Ready then return ⟨.NotFound, none⟩
    else do
      let handle ← touch id
      return ⟨.Hit, some handle⟩

def markAccessed (id : BlockId) : Op Unit := do
  let now ← nowNs
  onStore fun st => st.markAccessed id now

def transitionState (id : BlockId) (source target : BlockState) : Op Unit := do
  let record ← Exec.check fun m => m.store.get id
  if record.state ≠ source then
    Exec.throw (.logic_error "BlockManager::transitionState: unexpected current state")
  else if isLegalTransition source target = false then
    Exec.throw (.logic_error "BlockManager::transitionState: illegal state transition")
  else if source = .Ready ∧ target = .Evicting ∧ 0 < record.refcount then
    Exec.throw (.logic_error
      "BlockManager::transitionState: cannot evict block with active handles")
  else do
    onStore fun st => st.setState id target
    if target = .Free then onPool fun p => p.free id
    else return ()

def freeBlock (id : BlockId) : Op Unit := transitionState id .Evicting .Free

def available (m : BlockManager) : Nat := m.pool.available

-- The end of the life of a handle.
def dropHandle (h : BlockHandle) : Op Unit :=
  Exec.modify fun m => { m with store := m.store.dropHandle h }

end BlockManager

end KVCache
