import KVCache.Core.Access
import KVCache.Controller.Stack
import KVCache.Tier.Moves
import Mathlib.Data.Multiset.Count

namespace KVCache.Controller

open Lib Policy Prefix Sim Tier

variable {π : Type}

-- Nothing changes but the clock, the state of the policies and the decision log.
structure Quiet (s s' : Stack π) : Prop where
  pool : s'.manager.pool = s.manager.pool
  store : s'.manager.store = s.manager.store
  index : s'.index = s.index
  block_size : s'.block_size = s.block_size
  tier_manager : s'.tier_manager = s.tier_manager
  tier_block_store : s'.tier_block_store = s.tier_block_store
  events : s'.events = s.events

theorem Quiet.refl (s : Stack π) : Quiet s s := ⟨rfl, rfl, rfl, rfl, rfl, rfl, rfl⟩

theorem Quiet.trans {s s' s'' : Stack π} (h : Quiet s s') (h' : Quiet s' s'') : Quiet s s'' :=
  ⟨h'.pool.trans h.pool, h'.store.trans h.store, h'.index.trans h.index,
    h'.block_size.trans h.block_size, h'.tier_manager.trans h.tier_manager,
    h'.tier_block_store.trans h.tier_block_store, h'.events.trans h.events⟩

theorem Quiet.inStep {s s' : Stack π} (h : Quiet s s') (hs : s.manager.InStep) :
    s'.manager.InStep := hs.of_eq h.pool h.store

namespace Stack

-- The stack after the block in slot `id` was evicted.
def evicted (s : Stack π) (id : BlockId) (policy_name : String) (timestamp_ns : Nat)
    (tm : Option TierManager) : Stack π :=
  { s with
    manager := s.manager.freed id
    index := s.index.remove id
    tier_manager := tm
    events := s.events ++ [.BlockEvicted id policy_name timestamp_ns] }

-- The stack after an eviction that the tier manager broke off.
def evictStuck (s : Stack π) (id : BlockId) : Stack π :=
  { s with
    manager := s.manager.withRecord id fun r => { r with state := .Evicting }
    index := s.index.remove id }

-- The stack after an admission that broke off with its slot taken.
def leaked (s : Stack π) (id : BlockId) (rest : List BlockId) (r : BlockRecord)
    (tm : Option TierManager) : Stack π :=
  { s with manager := s.manager.taken id rest r, tier_manager := tm }

-- The stack after a block was admitted, before its handle is made.
def admitted (s : Stack π) (id : BlockId) (rest : List BlockId) (r : BlockRecord)
    (tm : Option TierManager) (ext : Option BlockStore) (index : PrefixIndex) (e : Event) :
    Stack π :=
  { s with
    manager := s.manager.taken id rest r
    tier_manager := tm
    tier_block_store := ext
    index := index
    events := s.events ++ [e] }

-- The stack after a block changed its tier.
def migrated (s : Stack π) (id : BlockId) (target : KVCache.Tier) (tm : TierManager)
    (e : Event) : Stack π :=
  { s.setTierStore ⟨s.tierStore.records.modify id fun r => { r with tier := target }⟩ with
    tier_manager := some tm
    events := s.events ++ [e] }

section Records

variable (s : Stack π) (id j : BlockId)

@[simp] theorem evicted_getElem? (name : String) (ts : Nat) (tm : Option TierManager) :
    (s.evicted id name ts tm).manager.store.records[j]? =
      if j = id then s.manager.store.records[j]?.map fun r => { r with state := .Free }
      else s.manager.store.records[j]? :=
  BlockManager.freed_getElem? s.manager id j

@[simp] theorem evictStuck_getElem? :
    (s.evictStuck id).manager.store.records[j]? =
      if j = id then s.manager.store.records[j]?.map fun r => { r with state := .Evicting }
      else s.manager.store.records[j]? :=
  BlockManager.withRecord_getElem? s.manager id j _

@[simp] theorem leaked_getElem? (rest : List BlockId) (r : BlockRecord)
    (tm : Option TierManager) :
    (s.leaked id rest r tm).manager.store.records[j]? =
      if j = id then s.manager.store.records[j]?.map fun _ => r
      else s.manager.store.records[j]? :=
  BlockManager.taken_getElem? s.manager id j rest r

@[simp] theorem admitted_getElem? (rest : List BlockId) (r : BlockRecord)
    (tm : Option TierManager) (ext : Option BlockStore) (index : PrefixIndex) (e : Event) :
    (s.admitted id rest r tm ext index e).manager.store.records[j]? =
      if j = id then s.manager.store.records[j]?.map fun _ => r
      else s.manager.store.records[j]? :=
  BlockManager.taken_getElem? s.manager id j rest r

end Records

section NotReady

variable {s : Stack π} {id : BlockId} {r : BlockRecord}

-- These three leave no ready block in the slot.
theorem evicted_not_ready {name : String} {ts : Nat} {tm : Option TierManager}
    (h : (s.evicted id name ts tm).manager.store.records[id]? = some r) : r.state ≠ .Ready := by
  rw [evicted_getElem?, if_pos rfl] at h
  obtain ⟨_, -, rfl⟩ := Option.map_eq_some_iff.mp h
  simp

theorem evictStuck_not_ready (h : (s.evictStuck id).manager.store.records[id]? = some r) :
    r.state ≠ .Ready := by
  rw [evictStuck_getElem?, if_pos rfl] at h
  obtain ⟨_, -, rfl⟩ := Option.map_eq_some_iff.mp h
  simp

theorem leaked_not_ready {rest : List BlockId} {r' : BlockRecord} {tm : Option TierManager}
    (hstate : r'.state ≠ .Ready)
    (h : (s.leaked id rest r' tm).manager.store.records[id]? = some r) : r.state ≠ .Ready := by
  rw [leaked_getElem?, if_pos rfl] at h
  obtain ⟨_, -, rfl⟩ := Option.map_eq_some_iff.mp h
  exact hstate

end NotReady

end Stack

-- What `place` does to a stack: the tier manager, the block store of its own, and the
-- payload reference in the record of the manager. Of a tier manager that works on
-- another store nothing is said.
inductive Placement (s : Stack π) (id : BlockId) (target : KVCache.Tier) (bytes : List UInt8) :
    Option TierManager → Option BlockStore → PayloadRef → Prop
  | untiered (h : s.tier_manager = none) : Placement s id target bytes none s.tier_block_store {}
  | shared {tm : TierManager} {t : TierStore} {ref : PayloadRef} {p : PayloadStore}
      (h : s.tier_manager = some tm) (hs : s.tier_block_store = none)
      (ht : tm.tiers target = some t) (hcap : t.hasCapacity = true)
      (hput : tm.payload_store.put bytes = .ok (ref, p)) :
      Placement s id target bytes (some (tm.placed target t id p)) none ref
  | apart {tm tm' : TierManager} {st st' : BlockStore} (h : s.tier_manager = some tm)
      (hs : s.tier_block_store = some st) : Placement s id target bytes (some tm') (some st') {}

-- Why a placement breaks off, and what is left of the tier manager then.
inductive Misplacement (s : Stack π) (target : KVCache.Tier) (bytes : List UInt8) :
    Option TierManager → Prop
  | shared {tm : TierManager} (h : s.tier_manager = some tm) (hs : s.tier_block_store = none)
      (why : tm.hasCapacity target = false ∨ ∃ e, tm.payload_store.put bytes = .error e) :
      Misplacement s target bytes (some tm)
  | apart {tm tm' : TierManager} {st : BlockStore} (h : s.tier_manager = some tm)
      (hs : s.tier_block_store = some st) : Misplacement s target bytes (some tm')

-- What `remove` does to the tier manager of a stack, for a block whose record has the
-- payload `ref`.
inductive Removal (s : Stack π) (id : BlockId) (ref : PayloadRef) : Option TierManager → Prop
  | untiered (h : s.tier_manager = none) : Removal s id ref none
  | absent {tm : TierManager} (h : s.tier_manager = some tm)
      (habsent : ∀ tier t, tm.tiers tier = some t → id ∉ t.block_ids) : Removal s id ref (some tm)
  | removed {tm : TierManager} {tier : KVCache.Tier} {t : TierStore} {ref' : PayloadRef}
      {p : PayloadStore} (h : s.tier_manager = some tm) (ht : tm.tiers tier = some t)
      (hid : id ∈ t.block_ids) (href : s.tier_block_store = none → ref' = ref)
      (hp : tm.payload_store.remove ref' = .ok p) :
      Removal s id ref (some (tm.removed tier t id p))

-- Why the removal breaks off.
structure StuckRemoval (s : Stack π) (id : BlockId) (ref : PayloadRef) : Prop where
  tiered : ∃ tm tier t, s.tier_manager = some tm ∧ tm.tiers tier = some t ∧ id ∈ t.block_ids ∧
    (s.tier_block_store = none → ∃ e, tm.payload_store.remove ref = .error e)

section Untiered

variable {s : Stack π} {id : BlockId} {target : KVCache.Tier} {bytes : List UInt8}
  {tm : Option TierManager} {ext : Option BlockStore} {ref : PayloadRef}

theorem Placement.none_of_untiered (h : Placement s id target bytes tm ext ref)
    (hs : s.tier_manager = none) : tm = none := by
  cases h with
  | untiered _ => rfl
  | shared htm _ _ _ _ => rw [hs] at htm; cases htm
  | apart htm _ => rw [hs] at htm; cases htm

theorem Removal.none_of_untiered (h : Removal s id ref tm) (hs : s.tier_manager = none) :
    tm = none := by
  cases h with
  | untiered _ => rfl
  | absent htm _ => rw [hs] at htm; cases htm
  | removed htm _ _ _ _ => rw [hs] at htm; cases htm

-- Without tiers nothing breaks off.
theorem Misplacement.not_untiered (h : Misplacement s target bytes tm) :
    s.tier_manager ≠ none := by
  intro hs
  cases h with
  | shared htm _ _ => rw [hs] at htm; cases htm
  | apart htm _ => rw [hs] at htm; cases htm

theorem StuckRemoval.not_untiered (h : StuckRemoval s id ref) : s.tier_manager ≠ none := by
  intro hs
  obtain ⟨tm, -, -, htm, -⟩ := h.tiered
  rw [hs] at htm
  cases htm

end Untiered

theorem Stack.migrated_manager (s : Stack π) (id : BlockId) (target : KVCache.Tier)
    (tm : TierManager) (e : Event) :
    (s.migrated id target tm e).manager =
      if s.tier_block_store = none then
        s.manager.withRecord id fun r => { r with tier := target }
      else s.manager := by
  unfold Stack.migrated Stack.setTierStore Stack.tierStore
  cases h : s.tier_block_store with
  | none => rw [if_pos rfl]; rfl
  | some st => rw [if_neg (by simp)]

-- At most the tiers in the records of the manager change.
theorem Stack.migrated_getElem? (s : Stack π) (id : BlockId) (target : KVCache.Tier)
    (tm : TierManager) (e : Event) (j : Nat) :
    (s.migrated id target tm e).manager.store.records[j]? = s.manager.store.records[j]? ∨
      (s.migrated id target tm e).manager.store.records[j]? =
        (s.manager.store.records[j]?).map
          fun r : BlockRecord => ({ r with tier := target } : BlockRecord) := by
  rw [Stack.migrated_manager]
  split
  · rw [BlockManager.withRecord_getElem?]
    split
    · exact .inr rfl
    · exact .inl rfl
  · exact .inl rfl

-- A stack together with the slots that the live handles point to.
structure Held (π : Type) where
  stack : Stack π
  held : Multiset Nat

-- The steps that every operation of the stack is made of. `ok` is what may be assumed
-- of the live handles when a block is evicted.
inductive Transition (env : Env π) (ok : Multiset Nat → Prop) : Held π → Held π → Prop
  | quiet {s s' : Stack π} {H : Multiset Nat} (h : Quiet s s') : Transition env ok ⟨s, H⟩ ⟨s', H⟩
  | access {s : Stack π} {m : BlockManager} {H H' : Multiset Nat}
      (h : BlockManager.Access (s.manager, H) (m, H')) :
      Transition env ok ⟨s, H⟩ ⟨{ s with manager := m }, H'⟩
  | evict {s : Stack π} {H : Multiset Nat} {id : Nat} {r : BlockRecord} {timestamp_ns : Nat}
      {tm : Option TierManager} (hr : s.manager.store.records[id]? = some r)
      (hready : r.state = .Ready) (href : r.refcount = 0) (hok : ok H)
      (hrem : Removal s id r.payload tm) :
      Transition env ok ⟨s, H⟩ ⟨s.evicted id env.eviction.name timestamp_ns tm, H⟩
  | evictStuck {s : Stack π} {H : Multiset Nat} {id : Nat} {r : BlockRecord}
      (hr : s.manager.store.records[id]? = some r) (hready : r.state = .Ready)
      (href : r.refcount = 0) (hok : ok H) (hstuck : StuckRemoval s id r.payload) :
      Transition env ok ⟨s, H⟩ ⟨s.evictStuck id, H⟩
  | leak {s : Stack π} {H : Multiset Nat} {id : Nat} {rest : List BlockId}
      {candidate : BlockCandidate} {target : KVCache.Tier} {tm : Option TierManager}
      (hfree : s.manager.pool.free_list = id :: rest)
      (hmis : Misplacement s target candidate.payload tm) :
      Transition env ok ⟨s, H⟩
        ⟨s.leaked id rest
          (BlockManager.freshRecord id (BlockManager.nextGeneration s.manager.pool id)
            candidate.hash candidate.block_index (UInt16.ofNat s.block_size) target {} .Admitting)
          tm, H⟩
  | enter {s : Stack π} {H : Multiset Nat} {id : Nat} {rest : List BlockId}
      {candidate : BlockCandidate} {ctx_hash : CacheContextHash} {existing : List BlockId}
      {target : KVCache.Tier} {timestamp_ns : Nat} {tm : Option TierManager}
      {ext : Option BlockStore} {ref : PayloadRef}
      (hfree : s.manager.pool.free_list = id :: rest)
      (hplace : Placement s id target candidate.payload tm ext ref) :
      Transition env ok ⟨s, H⟩
        ⟨s.admitted id rest (BlockManager.freshRecord id
            (BlockManager.nextGeneration s.manager.pool id) candidate.hash candidate.block_index
            (UInt16.ofNat s.block_size) target ref .Ready) tm ext
            (s.index.insert ctx_hash candidate.tokens (existing ++ [id]))
            (.BlockAdmitted id ctx_hash target candidate.origin timestamp_ns),
          H⟩
  | migrate {s : Stack π} {H : Multiset Nat} {id : Nat} {r : BlockRecord} {tm : TierManager}
      {t t' : TierStore} {target : KVCache.Tier} {e : Event} {timestamp_ns : Nat}
      (h : s.tier_manager = some tm) (hr : s.tierStore.records[id]? = some r)
      (ht : tm.tiers r.tier = some t) (hid : id ∈ t.block_ids)
      (ht' : (tm.setTierStore r.tier (t.remove id)).tiers target = some t')
      (hcap : t'.hasCapacity = true)
      (he : (target = .GpuSim ∧ e = .BlockPromoted id .Host .GpuSim timestamp_ns) ∨
        (target = .Host ∧ e = .BlockDemoted id .GpuSim .Host timestamp_ns)) :
      Transition env ok ⟨s, H⟩ ⟨s.migrated id target (tm.moved r.tier t target t' id) e, H⟩

-- A run of transitions.
abbrev Transitions (env : Env π) (ok : Multiset Nat → Prop) : Held π → Held π → Prop :=
  Relation.ReflTransGen (Transition env ok)

-- Pool and store stay in step.
theorem Transition.inStep {env : Env π} {ok : Multiset Nat → Prop} {x x' : Held π}
    (h : Transition env ok x x') (hx : x.stack.manager.InStep) : x'.stack.manager.InStep := by
  cases h with
  | quiet h => exact h.inStep hx
  | access h => exact h.inStep hx
  | evict hr hready href hok hrem => exact hx.freed hr (by simp [hready])
  | evictStuck hr hready href hok hstuck =>
      refine hx.withRecord fun r' hr' => ⟨rfl, rfl, ?_⟩
      rw [hr] at hr'
      cases hr'
      simp [hready]
  | leak hfree hmis => exact hx.taken hfree rfl rfl (by simp [BlockManager.freshRecord])
  | enter hfree hplace => exact hx.taken hfree rfl rfl (by simp [BlockManager.freshRecord])
  | migrate h hr ht hid ht' hcap he =>
      simp only [Stack.migrated_manager]
      split
      · exact hx.withRecord fun _ _ => ⟨rfl, rfl, Iff.rfl⟩
      · exact hx

theorem Transition.block_size {env : Env π} {ok : Multiset Nat → Prop} {x x' : Held π}
    (h : Transition env ok x x') : x'.stack.block_size = x.stack.block_size := by
  cases h with
  | quiet h => exact h.block_size
  | migrate h hr ht hid ht' hcap he =>
      simp only [Stack.migrated, Stack.setTierStore]
      split <;> rfl
  | _ => rfl

-- A stack without tiers gets none.
theorem Transition.untiered {env : Env π} {ok : Multiset Nat → Prop} {x x' : Held π}
    (h : Transition env ok x x') (hx : x.stack.tier_manager = none) :
    x'.stack.tier_manager = none := by
  cases h with
  | quiet h => exact h.tier_manager.trans hx
  | access h => exact hx
  | evict hr hready href hok hrem => exact hrem.none_of_untiered hx
  | evictStuck hr hready href hok hstuck => exact hx
  | leak hfree hmis => exact absurd hx hmis.not_untiered
  | enter hfree hplace => exact hplace.none_of_untiered hx
  | migrate htm hr ht hid ht' hcap he => rw [hx] at htm; cases htm

theorem Transitions.inStep {env : Env π} {ok : Multiset Nat → Prop} {x x' : Held π}
    (h : Transitions env ok x x') (hx : x.stack.manager.InStep) : x'.stack.manager.InStep :=
  Exec.reach_invariant (J := fun x : Held π => x.stack.manager.InStep)
    (fun _ _ hx h => Transition.inStep h hx) h hx

end KVCache.Controller
