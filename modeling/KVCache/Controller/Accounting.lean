import KVCache.Controller.Transition
import KVCache.Tier.Accounting

namespace KVCache.Controller

open Lib Policy Prefix Sim Tier

variable {π : Type} {env : Env π} {s s' : Stack π} {config : TierConfig} {id : Nat}

namespace Stack

-- Where a ready block is, by its record.
def location (s : Stack π) (id : BlockId) : Option (KVCache.Tier × PayloadRef) :=
  (s.manager.store.records[id]?).bind fun r =>
    if r.state = .Ready then some (r.tier, r.payload) else none

theorem location_eq_some {tier : KVCache.Tier} {ref : PayloadRef} :
    s.location id = some (tier, ref) ↔ ∃ r, s.manager.store.records[id]? = some r ∧
      r.state = .Ready ∧ r.tier = tier ∧ r.payload = ref := by
  unfold location
  cases s.manager.store.records[id]? with
  | none => simp
  | some r =>
      by_cases h : r.state = .Ready <;> simp [h]

theorem location_of_ready {r : BlockRecord} (hr : s.manager.store.records[id]? = some r)
    (hready : r.state = .Ready) : s.location id = some (r.tier, r.payload) :=
  location_eq_some.mpr ⟨r, hr, hready, rfl, rfl⟩

theorem location_of_not_ready {r : BlockRecord} (hr : s.manager.store.records[id]? = some r)
    (hready : r.state ≠ .Ready) : s.location id = none := by
  simp [location, hr, hready]

-- A stack whose tier manager works on the records of the manager, and whose tiers and
-- payload store hold exactly its ready blocks.
structure Accounted (s : Stack π) (config : TierConfig) : Prop where
  shared : s.tier_block_store = none
  tiered : ∃ tm, s.tier_manager = some tm ∧ tm.Accounts config s.location

end Stack

-- Changes that no tier sees.
private theorem accounted_same (ha : s.Accounted config)
    (hext : s'.tier_block_store = s.tier_block_store) (htm : s'.tier_manager = s.tier_manager)
    (hloc : ∀ id, s'.location id = s.location id) : s'.Accounted config := by
  obtain ⟨hshared, tm, htm₀, hacc⟩ := ha
  exact ⟨hext.trans hshared, tm, htm.trans htm₀, (funext hloc : s'.location = s.location) ▸ hacc⟩

theorem Stack.location_sameBlocks (h : s.manager.SameBlocks s'.manager) (id : Nat) :
    s'.location id = s.location id := by
  unfold Stack.location
  cases hr : s.manager.store.records[id]? with
  | none =>
      have hlen := congrArg List.length h.records
      simp only [List.length_map] at hlen
      have hout := List.getElem?_eq_none_iff.mp hr
      rw [← hlen] at hout
      rw [List.getElem?_eq_none hout]
  | some r =>
      obtain ⟨r', hr', hbody⟩ := h.record hr
      obtain ⟨-, -, -, -, -, htier, hpayload, hstate⟩ := BlockRecord.fields_of_body hbody
      simp only [hr', Option.bind_some, htier, hpayload, hstate]

theorem Stack.Accounted.sameBlocks (ha : s.Accounted config)
    (h : s.manager.SameBlocks s'.manager) (hext : s'.tier_block_store = s.tier_block_store)
    (htm : s'.tier_manager = s.tier_manager) : s'.Accounted config :=
  accounted_same ha hext htm (Stack.location_sameBlocks h)

-- One slot changes.
theorem Stack.location_update {f : BlockRecord → BlockRecord}
    (hrec : ∀ j, s'.manager.store.records[j]? =
      if j = id then s.manager.store.records[j]?.map f else s.manager.store.records[j]?)
    {r : BlockRecord} (hr : s.manager.store.records[id]? = some r) :
    s'.location = Function.update s.location id
      (if (f r).state = .Ready then some ((f r).tier, (f r).payload) else none) := by
  funext j
  by_cases hj : j = id
  · subst hj
    simp [Stack.location, hrec, hr]
  · rw [Function.update_of_ne hj]
    simp [Stack.location, hrec, hj]

theorem Stack.location_freed (h : s'.manager = s.manager.freed id) {r : BlockRecord}
    (hr : s.manager.store.records[id]? = some r) :
    s'.location = Function.update s.location id none :=
  location_update (fun j => h ▸ BlockManager.freed_getElem? s.manager id j) hr

theorem Stack.location_taken {rest : List BlockId} {r' : BlockRecord}
    (h : s'.manager = s.manager.taken id rest r') {r : BlockRecord}
    (hr : s.manager.store.records[id]? = some r) :
    s'.location = Function.update s.location id
      (if r'.state = .Ready then some (r'.tier, r'.payload) else none) :=
  location_update (fun j => h ▸ BlockManager.taken_getElem? s.manager id j rest r') hr

theorem Stack.location_of_free (hs : s.manager.InStep) {rest : List BlockId}
    (hfree : s.manager.pool.free_list = id :: rest) :
    ∃ r, s.manager.store.records[id]? = some r ∧ s.location id = none := by
  obtain ⟨r, hr, hstate⟩ := hs.next_free hfree
  exact ⟨r, hr, Stack.location_of_not_ready hr (by simp [hstate])⟩

-- A ready block leaves its tier; the payload store takes its buffer back.
theorem Removal.accounts {r : BlockRecord} (ha : s.Accounted config)
    (hr : s.manager.store.records[id]? = some r) (hready : r.state = .Ready)
    {tm' : Option TierManager} (hrem : Removal s id r.payload tm') :
    ∃ tm t p, s.tier_manager = some tm ∧ tm.tiers r.tier = some t ∧ id ∈ t.block_ids ∧
      tm.payload_store.remove r.payload = .ok p ∧ tm' = some (tm.removed r.tier t id p) ∧
      (tm.removed r.tier t id p).Accounts config (Function.update s.location id none) := by
  obtain ⟨hshared, tm, htm, hacc⟩ := ha
  have hloc := Stack.location_of_ready hr hready
  cases hrem with
  | untiered h =>
      rw [htm] at h
      cases h
  | absent h habsent =>
      rw [htm] at h
      cases h
      obtain ⟨t, ht, hid⟩ := hacc.tiers.mpr ⟨_, hloc⟩
      exact absurd hid (habsent _ t ht)
  | @removed _ tier t ref' p h ht hid href hp =>
      rw [htm] at h
      cases h
      obtain ⟨ref, hloc'⟩ := hacc.tiers.mp ⟨t, ht, hid⟩
      rw [hloc] at hloc'
      obtain rfl : r.tier = tier := congrArg Prod.fst (Option.some.inj hloc')
      rw [href hshared] at hp
      exact ⟨tm, t, p, htm, ht, hid, hp, rfl, hacc.removed hloc ht hp⟩

-- An eviction does not get stuck.
theorem Stack.Accounted.not_stuck {r : BlockRecord} (ha : s.Accounted config)
    (hr : s.manager.store.records[id]? = some r) (hready : r.state = .Ready) :
    ¬ StuckRemoval s id r.payload := by
  rintro ⟨tm, tier, t, htm, ht, hid, hfail⟩
  obtain ⟨hshared, tm', htm', hacc⟩ := ha
  rw [htm] at htm'
  cases htm'
  obtain ⟨p, hp⟩ := hacc.backs.remove_ok config.max_blocks_lt id r.payload
    (by rw [Stack.location_of_ready hr hready]; rfl)
  obtain ⟨e, he⟩ := hfail hshared
  rw [hp] at he
  cases he

-- A block that its tier has moves to another.
theorem Stack.Accounted.migrated {r : BlockRecord} {tm : TierManager} {t t' : TierStore}
    {target : KVCache.Tier} (ha : s.Accounted config) (e : Event)
    (htm : s.tier_manager = some tm) (hr : s.manager.store.records[id]? = some r)
    (ht : tm.tiers r.tier = some t) (hid : id ∈ t.block_ids)
    (ht' : (tm.setTierStore r.tier (t.remove id)).tiers target = some t')
    (hcap : t'.hasCapacity = true) :
    (s.migrated id target (tm.moved r.tier t target t' id) e).Accounted config := by
  obtain ⟨hshared, tm₀, htm₀, hacc⟩ := ha
  rw [htm] at htm₀
  cases htm₀
  obtain ⟨ref, hloc⟩ := hacc.tiers.mp ⟨t, ht, hid⟩
  have hready : r.state = .Ready ∧ r.payload = ref := by
    obtain ⟨r', hr', hready, -, hpayload⟩ := Stack.location_eq_some.mp hloc
    rw [hr] at hr'
    cases hr'
    exact ⟨hready, hpayload⟩
  refine ⟨?_, tm.moved r.tier t target t' id, rfl, ?_⟩
  · unfold Stack.migrated Stack.setTierStore
    simp only [hshared]
  · have hrec : ∀ j, (s.migrated id target (tm.moved r.tier t target t' id)
        e).manager.store.records[j]? = if j = id then s.manager.store.records[j]?.map
          fun r : BlockRecord => ({ r with tier := target } : BlockRecord)
        else s.manager.store.records[j]? := fun j => by
      rw [Stack.migrated_manager, if_pos hshared, BlockManager.withRecord_getElem?]
    rw [Stack.location_update hrec hr]
    simp only [hready.1, if_pos, hready.2]
    exact hacc.moved hloc ht ht' hcap

theorem Transition.accounted {ok : Multiset Nat → Prop} {x x' : Held π}
    (h : Transition env ok x x') (hs : x.stack.manager.InStep) (ha : x.stack.Accounted config) :
    x'.stack.Accounted config := by
  cases h with
  | quiet h =>
      exact ha.sameBlocks (.of_eq h.pool h.store) h.tier_block_store h.tier_manager
  | access h => exact ha.sameBlocks h.sameBlocks rfl rfl
  | @evict s H id r ts tm' hr hready href hok hrem =>
      obtain ⟨tm, t, p, htm, ht, hid, hp, rfl, hacc⟩ := hrem.accounts ha hr hready
      refine ⟨ha.shared, _, rfl, ?_⟩
      rw [Stack.location_freed rfl hr]
      exact hacc
  | evictStuck hr hready href hok hstuck => exact absurd hstuck (ha.not_stuck hr hready)
  | @leak s H id rest candidate target tm' hfree hmis =>
      obtain ⟨r, hr, hnone⟩ := Stack.location_of_free hs hfree
      cases hmis with
      | apart h hext =>
          rw [ha.shared] at hext
          cases hext
      | shared htm hext why =>
          refine accounted_same ha rfl htm.symm fun j => ?_
          rw [Stack.location_taken rfl hr]
          exact congrFun (Function.update_eq_self_iff.mpr hnone.symm) j
  | @enter s H id rest candidate ctx_hash existing target ts tm' ext ref hfree hplace =>
      obtain ⟨r, hr, hnone⟩ := Stack.location_of_free hs hfree
      obtain ⟨hshared, tm₀, htm₀, hacc⟩ := ha
      cases hplace with
      | untiered h =>
          rw [htm₀] at h
          cases h
      | apart h hext =>
          rw [hshared] at hext
          cases hext
      | @shared tm t _ p h hext ht hcap hput =>
          rw [htm₀] at h
          cases h
          refine ⟨rfl, _, rfl, ?_⟩
          rw [Stack.location_taken rfl hr]
          exact hacc.placed hnone ht hcap hput
  | @migrate s H id r tm t t' target e ts htm hr ht hid ht' hcap he =>
      have hshared : s.tier_block_store = none := ha.shared
      have hr' : s.manager.store.records[id]? = some r := by
        simpa [Stack.tierStore, hshared] using hr
      exact ha.migrated e htm hr' ht hid ht' hcap

end KVCache.Controller
