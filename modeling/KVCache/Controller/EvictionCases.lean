import KVCache.Controller.EvictionController
import KVCache.Controller.Transition

namespace KVCache.Controller

open Lib Policy Prefix Sim Tier

variable {π : Type} {env : Env π} {s : Stack π}

section Candidates

variable {m : BlockManager} {id : Nat}

-- The candidates are the slots whose record is ready and unpinned.
theorem mem_findCandidates (hm : m.InStep) :
    id ∈ findCandidates m.store ↔
      ∃ r, m.store.records[id]? = some r ∧ r.state = .Ready ∧ r.refcount = 0 := by
  simp only [findCandidates, List.mem_map, List.mem_filter, decide_eq_true_eq]
  constructor
  · rintro ⟨r, ⟨hmem, hready, href⟩, rfl⟩
    obtain ⟨j, hj⟩ := List.mem_iff_getElem?.mp hmem
    have hid := (hm.identity hj (by simp [hready])).1
    rw [hid]
    exact ⟨r, hj, hready, href⟩
  · rintro ⟨r, hr, hready, href⟩
    exact ⟨r, ⟨List.mem_of_getElem? hr, hready, href⟩, (hm.identity hr (by simp [hready])).1⟩

theorem inTier_eq (store : BlockStore) (tier : KVCache.Tier) {ids : List BlockId}
    (h : ∀ id ∈ ids, ∃ r, store.records[id]? = some r) :
    EvictionController.inTier store tier ids =
      .ok (ids.filter fun id => (store.records.getD id {}).tier = tier) := by
  induction ids with
  | nil => rfl
  | cons id ids ih =>
      obtain ⟨r, hr⟩ := h id List.mem_cons_self
      have hget : store.get id = .ok r := BlockStore.get_eq_ok.mpr hr
      have hrest := ih fun id hid => h id (List.mem_cons_of_mem _ hid)
      simp only [EvictionController.inTier, hget, hrest, bind, Except.bind, pure, Except.pure,
        List.filter_cons, List.getD_eq_getElem?_getD, hr, Option.getD_some]
      by_cases ht : r.tier = tier <;> simp [ht]

-- What the policies are told about a block.
def featuresOf (store : BlockStore) (index : PrefixIndex) (now_ns : Nat) (id : BlockId) :
    BlockPolicyFeatures :=
  let record := store.records.getD id {}
  { id := id
    hash := record.hash
    tier := record.tier
    payload_bytes := 0
    age_ns := if record.last_access_ns ≤ now_ns then now_ns - record.last_access_ns else 0
    last_access_ns := record.last_access_ns
    access_count := record.access_count
    prefix_depth_blocks := record.block_index
    prefix_child_count := index.blockChildCount id
    descendant_block_count := index.blockDescendantCount id
    is_shared_prefix := 0 < index.blockChildCount id
    is_remote_origin := false
    estimated_recompute_cost_ns := 0
    estimated_refetch_cost_ns := 0 }

theorem buildFeatures_eq {store : BlockStore} {id : BlockId} {r : BlockRecord}
    (hr : store.records[id]? = some r) (index : PrefixIndex) (now_ns : Nat) :
    buildFeatures store index id now_ns = .ok (featuresOf store index now_ns id) := by
  have hget : store.get id = .ok r := BlockStore.get_eq_ok.mpr hr
  simp only [buildFeatures, hget, featuresOf, List.getD_eq_getElem?_getD, hr, Option.getD_some]
  rfl

theorem buildAll_eq_map (store : BlockStore) (index : PrefixIndex) (now_ns : Nat)
    {ids : List BlockId} (h : ∀ id ∈ ids, ∃ r, store.records[id]? = some r) :
    EvictionController.buildAll store index now_ns ids =
      .ok (ids.map (featuresOf store index now_ns)) := by
  induction ids with
  | nil => rfl
  | cons id ids ih =>
      obtain ⟨r, hr⟩ := h id List.mem_cons_self
      have hrest := ih fun id hid => h id (List.mem_cons_of_mem _ hid)
      simp only [EvictionController.buildAll, buildFeatures_eq hr, hrest]
      rfl

-- The features that are handed to the policy name the candidates, in their order.
theorem buildAll_eq (store : BlockStore) (index : PrefixIndex) (now_ns : Nat) {ids : List BlockId}
    (h : ∀ id ∈ ids, ∃ r, store.records[id]? = some r) :
    ∃ fs, EvictionController.buildAll store index now_ns ids = .ok fs ∧ fs.map (·.id) = ids := by
  refine ⟨_, buildAll_eq_map store index now_ns h, ?_⟩
  rw [List.map_map]
  exact List.map_id _

end Candidates

namespace EvictionController

-- The candidates that the policy is asked about.
def candidates (s : Stack π) (tier : KVCache.Tier) : List BlockId :=
  (findCandidates s.manager.store).filter fun id =>
    (s.manager.store.records.getD id {}).tier = tier

-- The block that the policy chooses in the next pass, if it is asked and chooses one.
def victim (env : Env π) (request : MakeSpaceRequest) (s : Stack π) : Option BlockId :=
  if candidates s request.tier = [] then none
  else
    match buildAll s.manager.store s.index request.timestamp_ns (candidates s request.tier) with
    | .error _ => none
    | .ok features =>
        (env.eviction.chooseVictim ⟨request.tier, 0, request.timestamp_ns⟩ features
          s.policy_state).1

theorem mem_candidates {s : Stack π} (hs : s.manager.InStep) {tier : KVCache.Tier} {id : Nat} :
    id ∈ candidates s tier ↔ ∃ r, s.manager.store.records[id]? = some r ∧ r.state = .Ready ∧
      r.refcount = 0 ∧ r.tier = tier := by
  simp only [candidates, List.mem_filter, mem_findCandidates hs, decide_eq_true_eq]
  constructor
  · rintro ⟨⟨r, hr, hready, href⟩, ht⟩
    exact ⟨r, hr, hready, href, by simpa [List.getD_eq_getElem?_getD, hr] using ht⟩
  · rintro ⟨r, hr, hready, href, ht⟩
    exact ⟨⟨r, hr, hready, href⟩, by simpa [List.getD_eq_getElem?_getD, hr] using ht⟩

-- A policy that picks among its candidates picks a block that may be evicted.
theorem victim_eligible (hpick : env.eviction.PicksCandidate) (hs : s.manager.InStep)
    {request : MakeSpaceRequest} {id : Nat} (h : victim env request s = some id) :
    ∃ r, s.manager.store.records[id]? = some r ∧ r.state = .Ready ∧ r.refcount = 0 ∧
      r.tier = request.tier := by
  unfold victim at h
  split at h
  · cases h
  · obtain ⟨fs, hfs, hids⟩ := buildAll_eq s.manager.store s.index request.timestamp_ns
      fun id hid => by
        obtain ⟨r, hr, -⟩ := (mem_candidates hs).mp hid
        exact ⟨r, hr⟩
    rw [hfs] at h
    obtain ⟨f, hf, rfl⟩ := hpick _ _ _ _ h
    have hmem : f.id ∈ candidates s request.tier := hids ▸ List.mem_map_of_mem hf
    exact (mem_candidates hs).mp hmem

-- The ways in which one pass of `makeSpace` can end.
inductive EvictOneCase (env : Env π) (request : MakeSpaceRequest) (s : Stack π) :
    Except Fault Bool → Stack π → Prop
  | none {s' : Stack π} (hv : victim env request s = none) (hq : Quiet s s') :
      EvictOneCase env request s (.ok false) s'
  | refused {s' : Stack π} {id : Nat} (e : Fault) (hv : victim env request s = some id)
      (hnot : ∀ r, s.manager.store.records[id]? = some r → r.state = .Ready → 0 < r.refcount)
      (hq : Quiet s s') : EvictOneCase env request s (.error e) s'
  | stuck {s₀ : Stack π} {id : Nat} {r : BlockRecord} (e : Fault)
      (hv : victim env request s = some id) (hq : Quiet s s₀)
      (hr : s₀.manager.store.records[id]? = some r) (hready : r.state = .Ready)
      (href : r.refcount = 0) (hstuck : StuckRemoval s₀ id r.payload) :
      EvictOneCase env request s (.error e) (s₀.evictStuck id)
  | evicted {s₀ s' : Stack π} {id : Nat} {r : BlockRecord} {tm : Option TierManager}
      (hv : victim env request s = some id) (hq : Quiet s s₀)
      (hr : s₀.manager.store.records[id]? = some r) (hready : r.state = .Ready)
      (href : r.refcount = 0) (hrem : Removal s₀ id r.payload tm)
      (hq' : Quiet (s₀.evicted id env.eviction.name request.timestamp_ns tm) s') :
      EvictOneCase env request s (.ok true) s'

-- The two state changes of an eviction are one.
private theorem freed_withRecord (m : BlockManager) (id : BlockId) :
    (m.withRecord id fun r => { r with state := .Evicting }).freed id = m.freed id := by
  simp [BlockManager.freed, BlockManager.withRecord, List.modify_modify_eq, Function.comp_def]

private theorem evictStuck_inStep (hs : s.manager.InStep) {id : Nat} {r : BlockRecord}
    (hr : s.manager.store.records[id]? = some r) (hready : r.state = .Ready) :
    (s.evictStuck id).manager.InStep := by
  refine hs.withRecord fun r' hr' => ⟨rfl, rfl, ?_⟩
  rw [hr] at hr'
  cases hr'
  simp [hready]

-- What is left of `evict` once the tier manager, now `tm`, has let go of the block.
private theorem evict_rest (env : Env π) (hs : s.manager.InStep) (request : MakeSpaceRequest)
    (cands : List BlockId) {id : Nat} {r : BlockRecord}
    (hr : s.manager.store.records[id]? = some r) (hready : r.state = .Ready)
    (tm : Option TierManager) :
    ∃ s', (do Stack.onManager (BlockManager.freeBlock id)
              Stack.record (.BlockEvicted id env.eviction.name request.timestamp_ns)
              Stack.log (.EvictionDecision id env.eviction.name cands request.timestamp_ns) :
            Stack.Op π Unit).run { s.evictStuck id with tier_manager := tm } = (.ok (), s') ∧
      Quiet (s.evicted id env.eviction.name request.timestamp_ns tm) s' := by
  have hr' : (s.evictStuck id).manager.store.records[id]? =
      some { r with state := .Evicting } := by
    simp [Stack.evictStuck, hr]
  have hfree := BlockManager.freeBlock_eq (evictStuck_inStep hs hr hready) hr' rfl
  have hfreed : (s.evictStuck id).manager.freed id = s.manager.freed id := freed_withRecord _ _
  rw [hfreed] at hfree
  have hrun := Stack.onManager_ok (s := { s.evictStuck id with tier_manager := tm }) hfree
  rw [Exec.bind_ok hrun]
  exact ⟨_, rfl, ⟨rfl, rfl, rfl, rfl, rfl, rfl, rfl⟩⟩

-- `evict` of a block that is ready and unpinned.
private theorem evict_eligible (env : Env π) (hs : s.manager.InStep) (request : MakeSpaceRequest)
    (cands : List BlockId) {id : Nat} {r : BlockRecord}
    (hr : s.manager.store.records[id]? = some r) (hready : r.state = .Ready)
    (href : r.refcount = 0) :
    (∃ e, (evict env request cands id).run s = (.error e, s.evictStuck id) ∧
        StuckRemoval s id r.payload) ∨
      ∃ tm, ((evict env request cands id).run s).1 = .ok () ∧ Removal s id r.payload tm ∧
        Quiet (s.evicted id env.eviction.name request.timestamp_ns tm)
          ((evict env request cands id).run s).2 := by
  have htrans : (BlockManager.transitionState id .Ready .Evicting).run s.manager =
      (.ok (), s.manager.withRecord id fun r => { r with state := .Evicting }) :=
    BlockManager.transitionState_eq hr hready (by decide) (by simp [href]) (by simp)
  have hrest := evict_rest env hs request cands hr hready
  simp only [evict]
  rw [Exec.bind_ok (Stack.onManager_ok htrans)]
  simp only [Exec.modify_bind_run, Exec.read_bind_run]
  change (∃ e, Exec.run _ (s.evictStuck id) = _ ∧ _) ∨
    ∃ tm, (Exec.run _ (s.evictStuck id)).1 = _ ∧ _ ∧ Quiet _ (Exec.run _ (s.evictStuck id)).2
  have hsame : ∀ tm, s.tier_manager = tm →
      { s.evictStuck id with tier_manager := tm } = s.evictStuck id := by
    rintro tm rfl
    rfl
  cases htm : s.tier_manager with
  | none =>
      refine .inr ⟨none, ?_⟩
      obtain ⟨s', hrun, hq⟩ := hrest none
      rw [hsame none htm] at hrun
      simp only [hrun]
      exact ⟨trivial, .untiered htm, hq⟩
  | some tm =>
      have hpayload : s.tier_block_store = none →
          (s.evictStuck id).tierStore.records[id]? = some { r with state := .Evicting } := by
        intro hshared
        simp [Stack.tierStore, Stack.evictStuck, hshared, hr]
      have hcase := TierManager.remove_cases tm (s.evictStuck id).tierStore id
      rcases hrm : (TierManager.remove id).run (tm, (s.evictStuck id).tierStore) with ⟨res, x⟩
      rw [hrm] at hcase
      cases hcase with
      | absent habsent =>
          refine .inr ⟨some tm, ?_⟩
          obtain ⟨s', hrun, hq⟩ := hrest (some tm)
          simp only
          rw [Exec.bind_ok (Stack.onTier_same hrm), hrun]
          exact ⟨rfl, .absent htm habsent, hq⟩
      | @failed tier t e ht hid hfail =>
          refine .inl ⟨e, ?_, ⟨tm, tier, t, htm, ht, hid, fun hshared => ⟨e, ?_⟩⟩⟩
          · simp only
            rw [Exec.bind_error (Stack.onTier_same hrm), hsame (some tm) htm]
          · exact hfail { r with state := .Evicting } (hpayload hshared)
      | @removed tier t r' p ns ht hid hr' hp =>
          refine .inr ⟨some (tm.removed tier t id p), ?_⟩
          obtain ⟨s', hrun, hq⟩ := hrest (some (tm.removed tier t id p))
          simp only
          rw [Exec.bind_ok (Stack.onTier_same hrm), hrun]
          refine ⟨rfl, .removed htm ht hid (fun hshared => ?_) hp, hq⟩
          rw [hpayload hshared] at hr'
          cases hr'
          rfl

-- `evict` of a block that is not.
private theorem evict_refused (env : Env π) (request : MakeSpaceRequest)
    (cands : List BlockId) {id : Nat}
    (hnot : ∀ r, s.manager.store.records[id]? = some r → r.state = .Ready → 0 < r.refcount) :
    ∃ e, (evict env request cands id).run s = (.error e, s) := by
  obtain ⟨e, he⟩ := BlockManager.transitionState_refused fun r hr hs _ =>
    ⟨rfl, rfl, hnot r hr hs⟩
  exact ⟨e, by rw [evict, Exec.bind_error (Stack.onManager_error he)]⟩

theorem evictOne_cases (env : Env π) (hs : s.manager.InStep) (request : MakeSpaceRequest) :
    EvictOneCase env request s ((evictOne env request).run s).1
      ((evictOne env request).run s).2 := by
  have hvalid : ∀ id ∈ findCandidates s.manager.store, ∃ r, s.manager.store.records[id]? = some r :=
    fun id hid => by
      obtain ⟨r, hr, -⟩ := (mem_findCandidates hs).mp hid
      exact ⟨r, hr⟩
  simp only [evictOne, Exec.read_bind_run]
  by_cases hall : findCandidates s.manager.store = []
  · rw [if_pos hall]
    exact .none (by simp [victim, candidates, hall]) (Quiet.refl s)
  · rw [if_neg hall]
    have hin : inTier s.manager.store request.tier (findCandidates s.manager.store) =
        .ok (candidates s request.tier) := inTier_eq s.manager.store request.tier hvalid
    simp only [Exec.check_bind_run, hin]
    by_cases hcand : candidates s request.tier = []
    · rw [if_pos hcand]
      exact .none (by simp [victim, hcand]) (Quiet.refl s)
    · rw [if_neg hcand]
      obtain ⟨fs, hfs, -⟩ := buildAll_eq s.manager.store s.index request.timestamp_ns
        fun id hid => hvalid id (List.mem_of_mem_filter hid)
      have hvictim : victim env request s = (env.eviction.chooseVictim
          ⟨request.tier, 0, request.timestamp_ns⟩ fs s.policy_state).1 := by
        have hfs' : buildAll s.manager.store s.index request.timestamp_ns
            (candidates s request.tier) = .ok fs := hfs
        simp only [victim, if_neg hcand, hfs']
      rw [show List.filter _ _ = candidates s request.tier from rfl] at hfs
      simp only [Exec.check_bind_run, Stack.ask, Exec.modifyGet_bind_run, hfs]
      set choice := env.eviction.chooseVictim ⟨request.tier, 0, request.timestamp_ns⟩ fs
        s.policy_state with hchoice
      have hq : Quiet s { s with policy_state := choice.2 } := ⟨rfl, rfl, rfl, rfl, rfl, rfl, rfl⟩
      cases hv : choice.1 with
      | none => exact .none (hvictim.trans hv) hq
      | some id =>
          simp only
          have hvictim := hvictim.trans hv
          by_cases helig : ∃ r, s.manager.store.records[id]? = some r ∧ r.state = .Ready ∧
              r.refcount = 0
          · obtain ⟨r, hr, hready, href⟩ := helig
            rcases evict_eligible env (s := { s with policy_state := choice.2 })
              (hq.inStep hs) request _ hr hready href with ⟨e, hrun, hstuck⟩ | ⟨tm, hok, hrem, hq'⟩
            · rw [Exec.bind_error hrun]
              exact .stuck e hvictim hq hr hready href hstuck
            · rw [Exec.bind_ok (Prod.ext hok rfl)]
              exact .evicted hvictim hq hr hready href hrem hq'
          · have hnot : ∀ r, s.manager.store.records[id]? = some r → r.state = .Ready →
                0 < r.refcount := by
              intro r hr hready
              exact Nat.pos_of_ne_zero fun h => helig ⟨r, hr, hready, h⟩
            obtain ⟨e, hrun⟩ := evict_refused env
              (s := { s with policy_state := choice.2 }) request _ hnot
            rw [Exec.bind_error hrun]
            exact .refused e hvictim hnot hq

theorem evictOne_transitions (env : Env π) {ok : Multiset Nat → Prop} {H : Multiset Nat}
    (hs : s.manager.InStep) (hok : ok H) (request : MakeSpaceRequest) :
    Transitions env ok ⟨s, H⟩ ⟨((evictOne env request).run s).2, H⟩ := by
  have hcase := evictOne_cases env hs request
  generalize (evictOne env request).run s = res at hcase
  obtain ⟨res, s'⟩ := res
  cases hcase with
  | none hv hq => exact .single (.quiet hq)
  | refused e hv hnot hq => exact .single (.quiet hq)
  | stuck e hv hq hr hready href hstuck =>
      exact .tail (.single (.quiet hq)) (.evictStuck hr hready href hok hstuck)
  | evicted hv hq hr hready href hrem hq' =>
      exact .tail (.tail (.single (.quiet hq)) (.evict hr hready href hok hrem)) (.quiet hq')

theorem makeSpace_transitions (env : Env π) {ok : Multiset Nat → Prop} {H : Multiset Nat}
    (hs : s.manager.InStep) (hok : ok H) (request : MakeSpaceRequest) :
    Transitions env ok ⟨s, H⟩ ⟨((makeSpace env request).run s).2, H⟩ := by
  unfold makeSpace
  generalize request.blocks_needed = missing
  generalize 0 = evicted
  induction missing generalizing evicted s with
  | zero => exact .refl
  | succ missing ih =>
      have hfirst := evictOne_transitions env hs hok request
      simp only [makeSpaceLoop, Exec.bind_run]
      generalize (evictOne env request).run s = res at hfirst ⊢
      obtain ⟨_ | more, s'⟩ := res
      · exact hfirst
      · cases more with
        | false => exact hfirst
        | true => exact hfirst.trans (ih (hfirst.inStep hs) _)

end EvictionController

end KVCache.Controller
