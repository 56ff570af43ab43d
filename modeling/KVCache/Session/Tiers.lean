import KVCache.Controller.Accounting
import KVCache.Session.Session

namespace KVCache

open Lib Controller Policy Prefix Sim Tier

variable {π : Type}

namespace Controller.Stack

-- Controllers over one manager, with a tier manager that works on its records.
def tiered (capacity block_size : Nat) (clock : Clock) (policy_state : π) (config : TierConfig)
    (latency_model : LatencyModel) : Stack π :=
  { LocalCache.new capacity block_size clock policy_state with
    tier_manager := some (.new config latency_model) }

theorem tiered_accounted (capacity block_size : Nat) (clock : Clock) (policy_state : π)
    (config : TierConfig) (latency_model : LatencyModel) :
    (tiered capacity block_size clock policy_state config latency_model).Accounted config := by
  refine ⟨rfl, _, rfl, ?_⟩
  have hnone : (tiered capacity block_size clock policy_state config latency_model).location =
      fun _ => none := by
    funext id
    unfold location
    cases h : (tiered capacity block_size clock policy_state config
      latency_model).manager.store.records[id]? with
    | none => rfl
    | some r =>
        rw [(BlockManager.new_getElem? h).2]
        rfl
  rw [hnone]
  exact .new config latency_model

def readyBlocks (s : Stack π) : Nat :=
  (s.manager.store.records.filter fun r => r.state = .Ready).length

-- The slots with a place are as many as the ready blocks.
theorem card_location (s : Stack π) :
    ((Finset.range s.manager.store.records.length).filter
      fun id => (s.location id).isSome).card = s.readyBlocks := by
  have hsome : ∀ id < s.manager.store.records.length,
      ((s.location id).isSome ↔ (s.manager.store.records.getD id {}).state = .Ready) := by
    intro id hid
    rw [location, List.getD_eq_getElem?_getD, List.getElem?_eq_getElem hid]
    by_cases h : s.manager.store.records[id].state = .Ready <;> simp [h]
  have hrecords : s.manager.store.records =
      (List.range s.manager.store.records.length).map (s.manager.store.records.getD · {}) := by
    refine List.ext_getElem (by simp) fun i h _ => ?_
    simp [h]
  have hlist : (Finset.range s.manager.store.records.length).filter
      (fun id => (s.location id).isSome) =
      ((List.range s.manager.store.records.length).filter
        fun id => (s.manager.store.records.getD id {}).state = .Ready).toFinset := by
    ext id
    simp only [Finset.mem_filter, Finset.mem_range, List.mem_toFinset, List.mem_filter,
      List.mem_range, decide_eq_true_eq]
    exact and_congr_right (hsome id)
  rw [hlist, List.toFinset_card_of_nodup (List.nodup_range.filter _), readyBlocks]
  conv_rhs => rw [hrecords]
  rw [List.filter_map, List.length_map]
  rfl

variable {s : Stack π} {tm : TierManager} {config : TierConfig}

private theorem cell_of_ready {id : Nat} {r : BlockRecord}
    (hr : s.manager.store.records[id]? = some r) (hready : r.state = .Ready) :
    (s.location id).map (·.2.index) = some r.payload.index := by
  rw [location_of_ready hr hready]
  rfl

private theorem mem_located (s : Stack π) (id : Nat) :
    id ∈ (Finset.range s.manager.store.records.length).filter
      (fun id => (s.location id).isSome) ↔ ((s.location id).map (·.2.index)).isSome := by
  rw [Finset.mem_filter, Finset.mem_range, Option.isSome_map, and_iff_right_iff_imp]
  intro hsome
  obtain ⟨⟨tier, ref⟩, hloc⟩ := Option.isSome_iff_exists.mp hsome
  obtain ⟨r, hr, -⟩ := location_eq_some.mp hloc
  exact BlockManager.lt_of_getElem? hr

-- Each ready block has a buffer of its own, which is in use.
private theorem ready_payload (hacc : tm.Accounts config s.location)
    (hpos : 0 < config.bytes_per_block) {id : Nat} {r : BlockRecord}
    (hr : s.manager.store.records[id]? = some r) (hready : r.state = .Ready) :
    r.payload.valid = true ∧ r.payload.index ∉ tm.payload_store.free_list ∧
      ∀ (id' : BlockId) (r' : BlockRecord), s.manager.store.records[id']? = some r' →
        r'.state = .Ready → r'.payload = r.payload → id' = id := by
  have hdealt := hacc.backs.dealt hpos
  refine ⟨?_, hdealt.not_free (cell_of_ready hr hready), fun id' r' hr' hready' hsame => ?_⟩
  · have hlt := hdealt.cell_lt (cell_of_ready hr hready)
    have hmax := config.max_blocks_lt
    have hne : r.payload.index ≠ PayloadRef.INVALID := by
      unfold PayloadRef.INVALID
      omega
    exact decide_eq_true hne
  · refine hdealt.cell_inj (cell_of_ready hr' hready') ?_
    rw [cell_of_ready hr hready, hsame]

private theorem ready_bytes (hacc : tm.Accounts config s.location)
    (hpos : 0 < config.bytes_per_block) :
    tm.payload_store.bytesUsed = s.readyBlocks * config.bytes_per_block % 2 ^ 64 ∧
      s.readyBlocks ≤ config.max_blocks := by
  have hlen := (hacc.backs.dealt hpos).length_add_card (mem_located s)
  have hused := hacc.backs.bytesUsed config.max_blocks_lt (mem_located s) hpos
  rw [card_location] at hlen hused
  exact ⟨hused, by omega⟩

end Controller.Stack

namespace Session

variable {env : Env π} {s : Session π} {capacity block_size : Nat} {clock : Clock}
  {policy_state : π} {config : TierConfig} {latency_model : LatencyModel}

theorem run_accounted {allowed : Session π → SessionOp → Prop}
    (hrun : Run env allowed
      { cache := .tiered capacity block_size clock policy_state config latency_model } s) :
    s.cache.manager.InStep ∧ s.cache.Accounted config := by
  refine run_invariant (J := fun x => x.stack.Accounted config) (fun _ => True)
    (fun _ _ _ => trivial) (fun _ _ hs ha h => h.accounted hs ha) ?_ hrun
    (BlockManager.new_inStep capacity clock)
    (Stack.tiered_accounted capacity block_size clock policy_state config latency_model)
  rintro x x' - ha ⟨slot, -, rfl⟩
  exact ha.sameBlocks (BlockManager.released_sameBlocks _ slot) rfl rfl

-- Tiers and payloads are accounted for: after any run, calls that threw included, the
-- tiers hold the ready blocks, each where its record says, and the payload store deals
-- its buffers out to them.
theorem tier_accounting {allowed : Session π → SessionOp → Prop}
    (hrun : Run env allowed
      { cache := .tiered capacity block_size clock policy_state config latency_model } s) :
    ∃ tm, s.cache.tier_manager = some tm ∧
      (∀ id r, s.cache.manager.store.records[id]? = some r → r.state = .Ready →
        ∀ tier, (∃ t, tm.tiers tier = some t ∧ id ∈ t.block_ids) ↔ tier = r.tier) ∧
      (∀ id tier t, tm.tiers tier = some t → id ∈ t.block_ids →
        ∃ r, s.cache.manager.store.records[id]? = some r ∧ r.state = .Ready) ∧
      (∀ tier t, tm.tiers tier = some t → config.capacities tier = some t.capacity_blocks ∧
        t.block_ids.card ≤ t.capacity_blocks) ∧
      (0 < config.bytes_per_block →
        (∀ (id : BlockId) (r : BlockRecord), s.cache.manager.store.records[id]? = some r →
          r.state = .Ready → r.payload.valid = true ∧
            r.payload.index ∉ tm.payload_store.free_list ∧
            ∀ (id' : BlockId) (r' : BlockRecord),
              s.cache.manager.store.records[id']? = some r' → r'.state = .Ready →
                r'.payload = r.payload → id' = id) ∧
        tm.payload_store.free_list.Nodup ∧
        tm.payload_store.bytesUsed = s.cache.readyBlocks * config.bytes_per_block % 2 ^ 64 ∧
        (config.max_blocks * config.bytes_per_block < 2 ^ 64 →
          tm.payload_store.bytesUsed = s.cache.readyBlocks * config.bytes_per_block)) := by
  obtain ⟨-, -, tm, htm, hacc⟩ := run_accounted hrun
  refine ⟨tm, htm, fun id r hr hready tier => ?_, fun id tier t ht hid => ?_, fun tier t ht => ?_,
    fun hpos => ?_⟩
  · rw [hacc.tiers, Stack.location_of_ready hr hready]
    constructor
    · rintro ⟨ref, heq⟩
      exact (congrArg Prod.fst (Option.some.inj heq)).symm
    · rintro rfl
      exact ⟨_, rfl⟩
  · obtain ⟨ref, hloc⟩ := hacc.tiers.mp ⟨t, ht, hid⟩
    obtain ⟨r, hr, hready, -⟩ := Stack.location_eq_some.mp hloc
    exact ⟨r, hr, hready⟩
  · have hconf := hacc.configured tier
    rw [ht] at hconf
    exact ⟨hconf.symm, hacc.capacity ht⟩
  · obtain ⟨hused, hle⟩ := Stack.ready_bytes hacc hpos
    refine ⟨fun id r hr hready => Stack.ready_payload hacc hpos hr hready,
      (hacc.backs.dealt hpos).free_nodup, hused, fun hfits => ?_⟩
    have hbytes : s.cache.readyBlocks * config.bytes_per_block ≤
        config.max_blocks * config.bytes_per_block := Nat.mul_le_mul_right _ hle
    rw [hused, Nat.mod_eq_of_lt (by omega)]

-- Payloads of two bytes, two of them, for three slots; the host takes one block.
private abbrev smallHost : TierConfig where
  bytes_per_block := 2
  max_blocks := 2
  max_blocks_lt := by decide
  capacities
    | .GpuSim => some 3
    | .Host => some 1

private abbrev demoteAll : Env Unit := { Sample.lruEnv with demotion := ⟨fun _ _ st => (true, st)⟩ }

private abbrev smallStack : Stack Unit :=
  .tiered 3 1 Sample.clock () smallHost ⟨fun _ _ => 0, fun _ _ _ => 0⟩

-- Two blocks, a scan that fills the host with one of them, and a third block, for which there
-- is no payload buffer.
private abbrev demotedSession : Session Unit :=
  [.admitBlock (Sample.candidate 1 [7] [1, 2]), .admitBlock (Sample.candidate 1 [8] [3]),
    .demotionScan 3 [0, 1], .admitBlock (Sample.candidate 1 [9] [])].foldl (step demoteAll)
      { cache := smallStack }

theorem tier_accounting_demoted :
    ∃ tm host gpu, demotedSession.cache.tier_manager = some tm ∧
      tm.tiers .Host = some host ∧ 0 ∈ host.block_ids ∧
      tm.tiers .GpuSim = some gpu ∧ 1 ∈ gpu.block_ids ∧ gpu.block_ids.card ≤ 3 ∧
      tm.payload_store.bytesUsed = 4 := by
  have hstart : Run demoteAll (fun _ _ => True) { cache := smallStack } { cache := smallStack } :=
    Steps.refl _
  have hrun : Run demoteAll (fun _ _ => True) { cache := smallStack } demotedSession :=
    (((hstart.snoc (.admitBlock (Sample.candidate 1 [7] [1, 2])) trivial).snoc
      (.admitBlock (Sample.candidate 1 [8] [3])) trivial).snoc
      (.demotionScan 3 [0, 1]) trivial).snoc
      (.admitBlock (Sample.candidate 1 [9] [])) trivial
  obtain ⟨tm, htm, hwhere, -, hcapacity, hpayload⟩ := tier_accounting hrun
  obtain ⟨host, hhost, hmoved⟩ := (hwhere 0 (demotedSession.cache.manager.store.records.getD 0 {})
    (by decide +kernel) (by decide +kernel) .Host).mpr (by decide +kernel)
  obtain ⟨gpu, hgpu, hstayed⟩ := (hwhere 1 (demotedSession.cache.manager.store.records.getD 1 {})
    (by decide +kernel) (by decide +kernel) .GpuSim).mpr (by decide +kernel)
  obtain ⟨hconfigured, hcard⟩ := hcapacity .GpuSim gpu hgpu
  rw [← Option.some.inj hconfigured] at hcard
  have hready : demotedSession.cache.readyBlocks = 2 := by decide +kernel
  refine ⟨tm, host, gpu, htm, hhost, hmoved, hgpu, hstayed, hcard, ?_⟩
  rw [(hpayload (by decide)).2.2.2 (by decide), hready]
  rfl

private abbrev fullStack : Stack Unit :=
  .tiered 2 1 Sample.clock () (Sample.oneBuffer 2 2) ⟨fun _ _ => 0, fun _ _ _ => 0⟩

private abbrev fullSession : Session Unit :=
  step Sample.lruEnv { cache := fullStack } (.admitBlock (Sample.candidate 1 [7] [1, 2]))

private theorem fullSession_run : Run Sample.lruEnv (fun _ _ => True) { cache := fullStack }
    fullSession := (Steps.refl _).snoc _ trivial

section AllOrNothing

variable {candidate : BlockCandidate} {ctx : AdmissionContext}

-- Records, free slots, prefix lookups, tiers and payloads are what they were, and no
-- eviction was reported.
structure Untouched (s s' : Stack π) : Prop where
  store : s'.manager.store = s.manager.store
  pool : s'.manager.pool = s.manager.pool
  index : s'.index = s.index
  tier_manager : s'.tier_manager = s.tier_manager
  events : s'.events = s.events

-- An admission that does not end with `Admitted` leaves the stack untouched.
def AllOrNothing (env : Env π) (candidate : BlockCandidate) (ctx : AdmissionContext)
    (s : Stack π) : Prop :=
  (∀ res, ((AdmissionController.admitCandidate env candidate ctx).run s).1 = .ok res →
      res.status ≠ .Admitted) →
    Untouched s ((AdmissionController.admitCandidate env candidate ctx).run s).2

-- The candidate gets as far as its slot without an eviction, and there is no buffer for
-- its payload.
def NoBuffer (env : Env π) (candidate : BlockCandidate) (ctx : AdmissionContext) (s : Stack π) :
    Prop :=
  AdmissionController.Eligible env s candidate ∧
    AdmissionController.decision env ctx candidate s = .Admit ∧
    AdmissionController.noRoom s (AdmissionController.planned env ctx candidate s).1 = false ∧
    ∃ tm, s.tier_manager = some tm ∧ 0 < tm.payload_store.bytes_per_block ∧
      tm.payload_store.free_list = []

private theorem untouched_of_quiet {s s' : Stack π} (h : Quiet s s') : Untouched s s' :=
  ⟨h.store, h.pool, h.index, h.tier_manager, h.events⟩

-- After the eviction of a block of the target tier, there is room in the tier and a
-- buffer for the payload.
private theorem placeable_of_evicted {s₀ s₁ : Stack π} {id : Nat} {r : BlockRecord}
    {target : KVCache.Tier} {bytes : List UInt8} {name : String} {ts : Nat}
    {tm tm' : Option TierManager} (ha : s₀.Accounted config)
    (hr : s₀.manager.store.records[id]? = some r) (hready : r.state = .Ready)
    (htier : r.tier = target) (hrem : Removal s₀ id r.payload tm)
    (hq : Quiet (s₀.evicted id name ts tm) s₁) : ¬ Misplacement s₁ target bytes tm' := by
  obtain ⟨tm₀, t, p, htm₀, ht, hid, hp, rfl, -⟩ := hrem.accounts ha hr hready
  have htm₁ : s₁.tier_manager = some (tm₀.removed r.tier t id p) := hq.tier_manager
  obtain ⟨hshared, tm₀', htm₀', hacc⟩ := ha
  rw [htm₀] at htm₀'
  cases htm₀'
  intro hmis
  cases hmis with
  | apart h hext =>
      have hnone : s₁.tier_block_store = none := hq.tier_block_store.trans hshared
      rw [hnone] at hext
      cases hext
  | shared h hext why =>
      rw [htm₁] at h
      cases h
      rcases why with hfull | hput
      · subst htier
        have hcap : (tm₀.removed r.tier t id p).hasCapacity r.tier = true := by
          simp only [TierManager.hasCapacity, TierManager.removed, TierManager.setTierStore,
            Function.update_self, TierStore.remove, TierStore.hasCapacity, decide_eq_true_eq]
          have hlt := Finset.card_erase_lt_of_mem hid
          exact lt_of_lt_of_le hlt (hacc.capacity ht)
        rw [hcap] at hfull
        cases hfull
      · obtain ⟨hpos, hnil⟩ := (PayloadStore.put_error_iff _).mp hput
        have hback := hacc.backs.remove config.max_blocks_lt id
          (by rw [Stack.location_of_ready hr hready]; rfl) hp
        have hbytes : p.bytes_per_block = config.bytes_per_block := hback.1.bytes_eq
        rw [show (tm₀.removed r.tier t id p).payload_store = p from rfl] at hpos hnil
        rw [hback.2 (hbytes ▸ hpos)] at hnil
        cases hnil

-- Without a buffer there is no placement, and where a placement breaks off with room in
-- the tier, there is no buffer.
private theorem not_placed_of_noBuffer {s₀ s₁ : Stack π} {id : Nat} {tm : TierManager}
    {tm' : Option TierManager} {ext : Option BlockStore} {ref : PayloadRef} {target : KVCache.Tier}
    {bytes : List UInt8} (ha : s₀.Accounted config) (hq : Quiet s₀ s₁)
    (htm : s₀.tier_manager = some tm) (hpos : 0 < tm.payload_store.bytes_per_block)
    (hnil : tm.payload_store.free_list = []) : ¬ Placement s₁ id target bytes tm' ext ref := by
  intro hplace
  obtain ⟨e, hput⟩ := (PayloadStore.put_error_iff bytes).mpr ⟨hpos, hnil⟩
  cases hplace with
  | untiered h =>
      rw [hq.tier_manager, htm] at h
      cases h
  | shared h hext ht hcap hput' =>
      rw [hq.tier_manager, htm] at h
      cases h
      rw [hput] at hput'
      cases hput'
  | apart h hext =>
      rw [hq.tier_block_store, ha.shared] at hext
      cases hext

private theorem noBuffer_of_misplaced {s₀ s₁ : Stack π} {tm' : Option TierManager}
    {target : KVCache.Tier} {bytes : List UInt8} (ha : s₀.Accounted config) (hq : Quiet s₀ s₁)
    (hroom : AdmissionController.noRoom s₀ target = false)
    (hmis : Misplacement s₁ target bytes tm') :
    ∃ tm, s₀.tier_manager = some tm ∧ 0 < tm.payload_store.bytes_per_block ∧
      tm.payload_store.free_list = [] := by
  cases hmis with
  | apart h hext =>
      rw [hq.tier_block_store, ha.shared] at hext
      cases hext
  | @shared tm h hext why =>
      rw [hq.tier_manager] at h
      rcases why with hfull | hput
      · simp only [AdmissionController.noRoom, Bool.or_eq_false_iff,
          AdmissionController.tierFull, h, hfull] at hroom
        cases hroom.2
      · obtain ⟨hpos, hnil⟩ := (PayloadStore.put_error_iff _).mp hput
        exact ⟨tm, h, hpos, hnil⟩

-- Without a buffer the admission throws, with one slot less on the free list.
private theorem leaks_of_noBuffer {s₀ s' : Stack π} {res : Except Fault AdmitResult}
    (ha : s₀.Accounted config)
    (hcase : AdmissionController.AdmitCase env ctx candidate s₀ res s')
    (hno : NoBuffer env candidate ctx s₀) :
    (∃ e, res = .error e) ∧ s'.manager.pool.free_list ≠ s₀.manager.pool.free_list := by
  obtain ⟨he, hd, hroom, tm, htm, hpos, hnil⟩ := hno
  have hvictim := AdmissionController.admissionVictim_of_room hroom
  cases hcase with
  | badLength h => exact absurd he.tokens h
  | present htokens h => exact absurd h he.absent
  | noParent htokens habsent h => exact absurd he.parent h
  | rejected he' hd' hq => cases hd.symm.trans hd'
  | noSpace he' hd' hroom' hv hq => cases hroom.symm.trans hroom'
  | evictRefused e he' hv hnot hq => cases hvictim.symm.trans hv
  | evictStuck e he' hv hq hr hready href hstuck => cases hvictim.symm.trans hv
  | @leaked s₁ id rest tm' e' he' hd' hroom' hfree hmis =>
      cases hroom' with
      | evicted hfull => cases hroom.symm.trans hfull
      | free _ hq =>
          refine ⟨⟨e', rfl⟩, fun hlist => ?_⟩
          rw [← hq.pool, hfree] at hlist
          have hlen := congrArg List.length hlist
          simp [Stack.leaked, BlockManager.taken] at hlen
  | admitted he' hd' hroom' hfree hplace hs₂ =>
      cases hroom' with
      | evicted hfull => cases hroom.symm.trans hfull
      | free _ hq => exact absurd hplace (not_placed_of_noBuffer ha hq htm hpos hnil)

-- Otherwise an admission that does not end with `Admitted` changes nothing.
private theorem untouched_of_buffer {s₀ s' : Stack π} {res : Except Fault AdmitResult}
    (hpick : env.eviction.PicksCandidate) (hs : s₀.manager.InStep) (ha : s₀.Accounted config)
    (hcase : AdmissionController.AdmitCase env ctx candidate s₀ res s')
    (hbuffer : ¬ NoBuffer env candidate ctx s₀)
    (hnot : ∀ r, res = .ok r → r.status ≠ .Admitted) : Untouched s₀ s' := by
  cases hcase with
  | badLength h => exact untouched_of_quiet (.refl _)
  | present htokens h => exact untouched_of_quiet (.refl _)
  | noParent htokens habsent h => exact untouched_of_quiet (.refl _)
  | rejected he hd hq => exact untouched_of_quiet hq
  | noSpace he hd hroom hv hq => exact untouched_of_quiet hq
  | evictRefused e he hv hnot' hq => exact untouched_of_quiet hq
  | evictStuck e he hv hq hr hready href hstuck =>
      have ha₀ := ha.sameBlocks (.of_eq hq.pool hq.store) hq.tier_block_store hq.tier_manager
      exact absurd hstuck (ha₀.not_stuck hr hready)
  | @leaked s₁ id rest tm' e' he hd hroom hfree hmis =>
      exfalso
      cases hroom with
      | free hroom hq =>
          -- there is room in the tier, so it is the payload that was refused
          exact hbuffer ⟨he, hd, hroom, noBuffer_of_misplaced ha hq hroom hmis⟩
      | @evicted s₀ _ victim r tm hroom hv hq hr hready href hrem hq' =>
          have ha₀ := ha.sameBlocks (.of_eq hq.pool hq.store) hq.tier_block_store hq.tier_manager
          obtain ⟨r', hr', -, -, htier⟩ :=
            AdmissionController.admissionVictim_eligible hpick hs hv
          rw [hq.store, hr'] at hr
          cases hr
          exact placeable_of_evicted ha₀ (hq.store ▸ hr') hready htier hrem hq' hmis
  | admitted he hd hroom hfree hplace hs₂ => exact absurd rfl (hnot _ rfl)

-- Admission is all or nothing exactly where it does not run out of buffers with a slot
-- already taken: then the exception leaves the slot in `Admitting`.
theorem admit_all_or_nothing_iff {allowed : Session π → SessionOp → Prop}
    (hpick : env.eviction.PicksCandidate)
    (hrun : Run env allowed
      { cache := .tiered capacity block_size clock policy_state config latency_model } s)
    (candidate : BlockCandidate) (ctx : AdmissionContext) :
    AllOrNothing env candidate ctx s.cache ↔ ¬ NoBuffer env candidate ctx s.cache := by
  obtain ⟨hs, ha⟩ := run_accounted hrun
  have hcase := AdmissionController.admit_cases env hs candidate ctx
  constructor
  · intro hall hno
    obtain ⟨⟨e, hthrows⟩, hlist⟩ := leaks_of_noBuffer ha hcase hno
    have huntouched := hall fun res hres => by
      rw [hthrows] at hres
      cases hres
    exact hlist (congrArg BlockPool.free_list huntouched.pool)
  · intro hbuffer hnot
    exact untouched_of_buffer hpick hs ha hcase hbuffer hnot

private abbrev laterContext : AdmissionContext := ⟨0, 0, 0, 5⟩

-- A second block finds a free slot and room in the tier, but no buffer: the exception
-- leaves its slot in `Admitting`.
theorem admit_leaks_slot :
    Sample.lruEnv.eviction.PicksCandidate ∧
      Run Sample.lruEnv (fun _ _ => True) { cache := fullStack } fullSession ∧
      (((AdmissionController.admitCandidate Sample.lruEnv (Sample.candidate 1 [8] [3])
        laterContext).run fullSession.cache).2.manager.store.records.map (·.state)) =
          [.Ready, .Admitting] ∧
      ¬ AllOrNothing Sample.lruEnv (Sample.candidate 1 [8] [3]) laterContext fullSession.cache := by
  refine ⟨LruEvictionPolicy.picksCandidate, fullSession_run, by decide +kernel, fun h => ?_⟩
  have hthrows : ((AdmissionController.admitCandidate Sample.lruEnv (Sample.candidate 1 [8] [3])
      laterContext).run fullSession.cache).1.isOk = false := by decide +kernel
  have huntouched := h fun res hres => by
    rw [hres] at hthrows
    cases hthrows
  have hfree : ((AdmissionController.admitCandidate Sample.lruEnv (Sample.candidate 1 [8] [3])
      laterContext).run fullSession.cache).2.manager.pool.free_list ≠
      fullSession.cache.manager.pool.free_list := by decide +kernel
  exact hfree (congrArg BlockPool.free_list huntouched.pool)

-- The one slot is taken by a block that is pinned, and the one buffer with it.
private abbrev takenStack : Stack Unit :=
  .tiered 1 1 Sample.clock () (Sample.oneBuffer 2 2) ⟨fun _ _ => 0, fun _ _ _ => 0⟩

private abbrev takenSession : Session Unit :=
  step Sample.lruEnv { cache := takenStack } (.admitBlock (Sample.candidate 1 [7] [1, 2]))

-- The call gets as far as the eviction, which finds no victim, and not to the payload.
theorem admit_all_or_nothing_iff_pinned :
    (((AdmissionController.admitCandidate Sample.lruEnv (Sample.candidate 1 [8] [3])
      laterContext).run takenSession.cache).1.toOption.map (·.status)) = some .CapacityExceeded ∧
      AllOrNothing Sample.lruEnv (Sample.candidate 1 [8] [3]) laterContext takenSession.cache := by
  have hrun : Run Sample.lruEnv (fun _ _ => True) { cache := takenStack } takenSession :=
    (Steps.refl _).snoc _ trivial
  refine ⟨by decide +kernel,
    (admit_all_or_nothing_iff LruEvictionPolicy.picksCandidate hrun _ _).mpr ?_⟩
  rintro ⟨-, -, hroom, -⟩
  exact absurd hroom (by decide +kernel)

end AllOrNothing

end Session

end KVCache
