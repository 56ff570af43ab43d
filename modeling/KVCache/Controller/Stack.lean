import KVCache.Core.BlockManager
import KVCache.Policy.Policies
import KVCache.Prefix.PrefixIndex
import KVCache.Sim.Event
import KVCache.Tier.TierManager

namespace KVCache.Controller

open Lib Prefix Sim Tier

-- What the controllers work on: one manager and one index, perhaps a tier manager,
-- the state of the policies, and what the two sinks have received. A tier manager
-- works on a block store of its own or, with `none`, on the one of the manager.
structure Stack (π : Type) where
  manager : BlockManager
  index : PrefixIndex
  block_size : Nat
  tier_manager : Option TierManager := none
  tier_block_store : Option BlockStore := none
  policy_state : π
  events : List Event := []
  decisions : List Decision := []

namespace Stack

variable {π : Type}

abbrev Op (π α : Type) := Exec Fault (Stack π) α

def onManager {α : Type} (x : BlockManager.Op α) : Op π α :=
  Exec.on (fun s => s.manager) (fun s m => { s with manager := m }) x

def tierStore (s : Stack π) : BlockStore := s.tier_block_store.getD s.manager.store

def setTierStore (s : Stack π) (st : BlockStore) : Stack π :=
  match s.tier_block_store with
  | none => { s with manager := { s.manager with store := st } }
  | some _ => { s with tier_block_store := some st }

-- Run an operation of the tier manager `tm` of the stack.
def onTier {α : Type} (tm : TierManager) (x : TierManager.Op α) : Op π α := ⟨fun s =>
  ((x.run (tm, s.tierStore)).1,
    { s.setTierStore (x.run (tm, s.tierStore)).2.2 with
      tier_manager := some (x.run (tm, s.tierStore)).2.1 })⟩

def record (e : Event) : Op π Unit :=
  Exec.modify fun s => { s with events := s.events ++ [e] }

def log (d : Decision) : Op π Unit :=
  Exec.modify fun s => { s with decisions := s.decisions ++ [d] }

-- Ask a policy.
def ask {α : Type} (f : π → α × π) : Op π α :=
  Exec.modifyGet fun s => ((f s.policy_state).1, { s with policy_state := (f s.policy_state).2 })

theorem onManager_ok {α : Type} {x : BlockManager.Op α} {a : α} {s : Stack π} {m : BlockManager}
    (h : x.run s.manager = (.ok a, m)) :
    (onManager x).run s = (.ok a, { s with manager := m }) := by
  simp only [onManager, Exec.on_run, h]

theorem onManager_error {α : Type} {x : BlockManager.Op α} {e : Fault} {s : Stack π}
    {m : BlockManager} (h : x.run s.manager = (.error e, m)) :
    (onManager x).run s = (.error e, { s with manager := m }) := by
  simp only [onManager, Exec.on_run, h]

theorem setTierStore_self (s : Stack π) : s.setTierStore s.tierStore = s := by
  obtain ⟨m, i, b, tm, ext, p, e, d⟩ := s
  cases ext <;> rfl

-- An operation of the tier manager that leaves the records alone.
theorem onTier_same {α : Type} {tm tm' : TierManager} {x : TierManager.Op α} {s : Stack π}
    {res : Except Fault α} (h : x.run (tm, s.tierStore) = (res, (tm', s.tierStore))) :
    (onTier tm x).run s = (res, { s with tier_manager := some tm' }) := by
  simp only [onTier, h, setTierStore_self]

end Stack

end KVCache.Controller
