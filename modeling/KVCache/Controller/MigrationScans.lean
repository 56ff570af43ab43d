import KVCache.Controller.Accounting
import KVCache.Controller.MigrationCases

namespace KVCache.Controller

open Lib Policy Prefix Sim Tier

variable {π : Type} {env : Env π} {s s' s'' : Stack π} {config : TierConfig}

namespace Stack

-- The blocks that a tier has, and the room that is left in it.
def blocksIn (s : Stack π) (tier : KVCache.Tier) : Finset Nat :=
  (s.tier_manager.bind fun tm => tm.tiers tier).elim ∅ fun t => t.block_ids

def freeIn (s : Stack π) (tier : KVCache.Tier) : Nat :=
  (s.tier_manager.bind fun tm => tm.tiers tier).elim 0 fun t =>
    t.capacity_blocks - t.block_ids.card

-- The order in which an iterator goes through a tier.
structure Lists (s : Stack π) (tier : KVCache.Tier) (ids : List BlockId) : Prop where
  nodup : ids.Nodup
  toFinset : ids.toFinset = s.blocksIn tier

-- What a scan that starts here tells its policy.
def migrationContext (s : Stack π) (timestamp_ns : Nat) : MigrationContext :=
  let gpu_stats := s.tier_manager.elim ⟨0, 0⟩ fun tm => tm.stats .GpuSim
  ⟨gpu_stats.used_blocks, gpu_stats.capacity_blocks, timestamp_ns⟩

-- The blocks of a tier that `agrees` is for, with everything as it is here.
def agreed (s : Stack π) (agrees : MigrationContext → BlockPolicyFeatures → Bool)
    (tier : KVCache.Tier) (timestamp_ns : Nat) : Finset Nat :=
  (s.blocksIn tier).filter fun id =>
    agrees (s.migrationContext timestamp_ns)
      (featuresOf s.manager.store s.index timestamp_ns id) = true

theorem Accounted.mem_blocksIn (ha : s.Accounted config) {tier : KVCache.Tier} {id : Nat} :
    id ∈ s.blocksIn tier ↔ ∃ ref, s.location id = some (tier, ref) := by
  obtain ⟨-, tm, htm, hacc⟩ := ha
  rw [← hacc.tiers]
  simp only [blocksIn, htm, Option.bind_some]
  cases tm.tiers tier with
  | none => simp
  | some t => simp

-- The record and the tier of a block that is in one.
theorem Accounted.of_mem (ha : s.Accounted config) {tier : KVCache.Tier} {id : Nat}
    (hid : id ∈ s.blocksIn tier) :
    ∃ tm t r, s.tier_manager = some tm ∧ tm.tiers tier = some t ∧ id ∈ t.block_ids ∧
      s.manager.store.records[id]? = some r ∧ r.state = .Ready ∧ r.tier = tier := by
  obtain ⟨ref, hloc⟩ := ha.mem_blocksIn.mp hid
  obtain ⟨r, hr, hready, htier, -⟩ := location_eq_some.mp hloc
  obtain ⟨-, tm, htm, hacc⟩ := ha
  obtain ⟨t, ht, hmem⟩ := hacc.tiers.mpr ⟨ref, hloc⟩
  exact ⟨tm, t, r, htm, ht, hmem, hr, hready, htier⟩

theorem hasCapacity_iff {tm : TierManager} (htm : s.tier_manager = some tm)
    (tier : KVCache.Tier) : tm.hasCapacity tier = true ↔ 0 < s.freeIn tier := by
  simp only [TierManager.hasCapacity, freeIn, htm, Option.bind_some]
  cases tm.tiers tier with
  | none => simp
  | some t =>
      have hroom : t.hasCapacity ↔ t.block_ids.card < t.capacity_blocks := by
        simp [TierStore.hasCapacity]
      have hpos : t.block_ids.card < t.capacity_blocks ↔
          0 < t.capacity_blocks - t.block_ids.card := by omega
      simpa using hroom.trans hpos

end Stack

-- The stack after the blocks `ids` went from one tier to another, in that order.
structure Moved (config : TierConfig) (source target : KVCache.Tier) (report : BlockId → Event)
    (s : Stack π) (ids : List BlockId) (s' : Stack π) : Prop where
  accounted : s'.Accounted config
  source : ∀ id ∈ ids, id ∈ s.blocksIn source
  records : ∀ j : Nat, s'.manager.store.records[j]? =
    (s.manager.store.records[j]?).map fun r =>
      { r with tier := if j ∈ ids then target else r.tier }
  pool : s'.manager.pool = s.manager.pool
  index : s'.index = s.index
  payloads : s'.tier_manager.map (·.payload_store) = s.tier_manager.map (·.payload_store)
  events : s'.events = s.events ++ ids.map report

namespace Moved

variable {source target : KVCache.Tier} {report : BlockId → Event} {ids : List BlockId}

theorem refl (ha : s.Accounted config) : Moved config source target report s [] s where
  accounted := ha
  source := by simp
  records j := by simp
  pool := rfl
  index := rfl
  payloads := rfl
  events := by simp

-- Where the blocks are now.
theorem location (h : Moved config source target report s ids s') (id : Nat) :
    s'.location id = if id ∈ ids then (s.location id).map fun at_ => (target, at_.2)
      else s.location id := by
  unfold Stack.location
  rw [h.records]
  cases s.manager.store.records[id]? with
  | none => simp
  | some r =>
      by_cases hid : id ∈ ids <;> by_cases hready : r.state = .Ready <;> simp [hid, hready]

-- A block that has not moved yet stays where it is.
theorem mem_source_of_not_mem (ha : s.Accounted config)
    (h : Moved config source target report s ids s') {id : Nat} (hid : id ∉ ids)
    (hin : id ∈ s.blocksIn source) : id ∈ s'.blocksIn source := by
  rw [h.accounted.mem_blocksIn, h.location, if_neg hid, ← ha.mem_blocksIn]
  exact hin

-- What the tiers have now.
theorem blocksIn (ha : s.Accounted config) (hne : source ≠ target)
    (h : Moved config source target report s ids s') :
    s'.blocksIn target = s.blocksIn target ∪ ids.toFinset ∧
      s'.blocksIn source = s.blocksIn source \ ids.toFinset := by
  have hplace : ∀ id ∈ ids, ∃ ref, s.location id = some (source, ref) :=
    fun id hid => ha.mem_blocksIn.mp (h.source id hid)
  constructor
  · ext id
    rw [h.accounted.mem_blocksIn, h.location, Finset.mem_union, ha.mem_blocksIn, List.mem_toFinset]
    by_cases hid : id ∈ ids
    · obtain ⟨ref, hloc⟩ := hplace id hid
      simp [hid, hloc]
    · simp [hid]
  · ext id
    rw [h.accounted.mem_blocksIn, h.location, Finset.mem_sdiff, ha.mem_blocksIn, List.mem_toFinset]
    by_cases hid : id ∈ ids
    · obtain ⟨ref, hloc⟩ := hplace id hid
      simp [hid, hloc, hne.symm]
    · simp [hid]

theorem append {ids' : List BlockId} (h : Moved config source target report s ids s')
    (h' : Moved config source target report s' ids' s'')
    (hsource : ∀ j ∈ ids', j ∈ s.blocksIn source) :
    Moved config source target report s (ids ++ ids') s'' where
  accounted := h'.accounted
  source j hj := by
    rcases List.mem_append.mp hj with hj | hj
    · exact h.source j hj
    · exact hsource j hj
  records j := by
    rw [h'.records, h.records, Option.map_map]
    congr 1
    funext r
    by_cases hj : j ∈ ids <;> by_cases hj' : j ∈ ids' <;> simp [hj, hj']
  pool := h'.pool.trans h.pool
  index := h'.index.trans h.index
  payloads := h'.payloads.trans h.payloads
  events := by rw [h'.events, h.events, List.append_assoc, ← List.map_append]

-- The state of the policies plays no part.
theorem of_policy_state {st : π}
    (h : Moved config source target report { s with policy_state := st } ids s') :
    Moved config source target report s ids s' :=
  ⟨h.accounted, h.source, h.records, h.pool, h.index, h.payloads, h.events⟩

end Moved

namespace ScanKind

variable {kind : ScanKind π} {timestamp_ns : Nat}

-- The room in the target tier after a block has come in.
private theorem freeIn_migrated {tm : TierManager} {t t' : TierStore} {source target : KVCache.Tier}
    (e : Event) (htm : s.tier_manager = some tm) (ht' : tm.tiers target = some t') {id : Nat}
    (hid : id ∉ t'.block_ids) :
    (s.migrated id target (tm.moved source t target t' id) e).freeIn target =
      s.freeIn target - 1 := by
  simp [Stack.freeIn, Stack.migrated, TierManager.moved, TierManager.setTierStore, htm, ht',
    Finset.card_insert_of_notMem hid, Nat.sub_sub]

-- A block that is in the source tier moves, as long as the target has room.
theorem move_moves (hkind : kind.Migrates) (hne : kind.source ≠ kind.target)
    (ha : s.Accounted config) {tm : TierManager} (htm : s.tier_manager = some tm)
    (hcap : tm.hasCapacity kind.target = true) {id : BlockId}
    (hid : id ∈ s.blocksIn kind.source) (timestamp_ns : Nat) :
    ∃ ns s₁ s', (Stack.onTier tm (kind.move id)).run s = (.ok ⟨.Success, ns⟩, s₁) ∧
      s' = { s₁ with events := s₁.events ++ [kind.moved id timestamp_ns] } ∧
      Moved config kind.source kind.target (kind.moved · timestamp_ns) s [id] s' ∧
      s'.freeIn kind.target = s.freeIn kind.target - 1 := by
  obtain ⟨what, hmove⟩ := hkind.move
  obtain ⟨tm', t, r, htm', ht, hmem, hr, hready, htier⟩ := ha.of_mem hid
  rw [htm] at htm'
  cases htm'
  obtain ⟨t', ht', hroom⟩ : ∃ t', tm.tiers kind.target = some t' ∧ t'.hasCapacity = true := by
    unfold TierManager.hasCapacity at hcap
    cases ht' : tm.tiers kind.target with
    | none => simp [ht'] at hcap
    | some t' => exact ⟨t', rfl, by simpa [ht'] using hcap⟩
  have hshared : s.tier_block_store = none := ha.shared
  have hstore : s.tierStore = s.manager.store := by simp [Stack.tierStore, hshared]
  have hr' : s.tierStore.records[id]? = some r := hstore ▸ hr
  rw [← htier] at ht hne
  obtain ⟨t'', ns, hagain, hroom', hrun⟩ :=
    TierManager.migrate_moves what hr' ht hmem ht' hroom
  -- the target is another tier, and does not have the block
  obtain rfl : t'' = t' := by
    simp only [TierManager.setTierStore, Function.update_of_ne hne.symm, ht'] at hagain
    exact (Option.some.inj hagain).symm
  have hnot : id ∉ t''.block_ids := by
    intro hin
    have hin : id ∈ s.blocksIn kind.target := by simp [Stack.blocksIn, htm, ht', hin]
    obtain ⟨ref, hloc⟩ := ha.mem_blocksIn.mp hin
    obtain ⟨r', hr'', -, htier', -⟩ := Stack.location_eq_some.mp hloc
    rw [hr] at hr''
    cases hr''
    exact hne htier'
  have hs' : s.migrated id kind.target (tm.moved r.tier t kind.target t'' id)
      (kind.moved id timestamp_ns) = { s.setTierStore ⟨s.tierStore.records.modify id fun r =>
        { r with tier := kind.target }⟩ with
          tier_manager := some (tm.moved r.tier t kind.target t'' id)
          events := s.events ++ [kind.moved id timestamp_ns] } := rfl
  refine ⟨ns, _, _, by simp only [Stack.onTier, hmove, hrun]; rfl, ?_,
    ⟨ha.migrated (kind.moved id timestamp_ns) htm hr ht hmem hagain hroom',
      by simpa using hid, fun j => ?_, ?_, ?_, ?_, rfl⟩, freeIn_migrated _ htm ht' hnot⟩
  · rw [hs']
    simp only [Stack.setTierStore, hshared]
  · rw [Stack.migrated_manager, if_pos hshared, BlockManager.withRecord_getElem?]
    by_cases hj : j = id <;> simp [hj]
  · rw [Stack.migrated_manager, if_pos hshared]
    rfl
  · rw [hs']
    simp only [Stack.setTierStore, hshared]
  · rw [htm]
    rfl

-- A candidate of the scan: there is no room for it, or the policy declines it, or it moves.
theorem scanLoop_cons (hkind : kind.Migrates) (hne : kind.source ≠ kind.target)
    (ha : s.Accounted config) {id : BlockId} (hid : id ∈ s.blocksIn kind.source)
    (ctx : MigrationContext) (timestamp_ns : Nat) (ids : List BlockId) (count : Nat) :
    (s.freeIn kind.target = 0 ∧
      (scanLoop kind ctx timestamp_ns (id :: ids) count).run s = (.ok count, s)) ∨
    (0 < s.freeIn kind.target ∧ ∃ s' answer, answer = (kind.policy.decide ctx
        (featuresOf s.manager.store s.index timestamp_ns id) s.policy_state).1 ∧
      Moved config kind.source kind.target (kind.moved · timestamp_ns) s
        (if answer then [id] else []) s' ∧
      s'.freeIn kind.target = s.freeIn kind.target - (if answer then 1 else 0) ∧
      (scanLoop kind ctx timestamp_ns (id :: ids) count).run s =
        (scanLoop kind ctx timestamp_ns ids (count + if answer then 1 else 0)).run s') := by
  obtain ⟨tm, t, r, htm, -, -, hr, -⟩ := ha.of_mem hid
  simp only [scanLoop, Exec.read_bind_run, htm]
  by_cases hcap : tm.hasCapacity kind.target = true
  · refine .inr ⟨(Stack.hasCapacity_iff htm _).mp hcap, ?_⟩
    rw [if_neg (by simp [hcap])]
    simp only [Exec.check_bind_run, buildFeatures_eq hr, Stack.ask, Exec.modifyGet_bind_run]
    set choice := kind.policy.decide ctx
      (featuresOf s.manager.store s.index timestamp_ns id) s.policy_state
    have ha' : Stack.Accounted { s with policy_state := choice.2 } config :=
      ha.sameBlocks (.of_eq rfl rfl) rfl rfl
    cases choice.1 with
    | true =>
        obtain ⟨ns, s₁, s', hrun, rfl, hmoved, hfree⟩ :=
          move_moves hkind hne ha' htm hcap hid timestamp_ns
        refine ⟨_, true, rfl, hmoved.of_policy_state, hfree, ?_⟩
        rw [if_neg (by simp), Exec.bind_ok hrun, if_pos rfl]
        rfl
    | false => exact ⟨_, false, rfl, (Moved.refl ha').of_policy_state, rfl, by rw [if_pos rfl]; rfl⟩
  · refine .inl ⟨Nat.eq_zero_of_not_pos fun h => hcap ((Stack.hasCapacity_iff htm _).mpr h), ?_⟩
    rw [if_pos (by simpa using hcap)]
    rfl

-- The candidates that the policy is for, with everything as it is here.
def chosen (agrees : MigrationContext → BlockPolicyFeatures → Bool) (ctx : MigrationContext)
    (timestamp_ns : Nat) (s : Stack π) (ids : List BlockId) : List BlockId :=
  ids.filter fun id => agrees ctx (featuresOf s.manager.store s.index timestamp_ns id)

-- Blocks that have not moved have the features they had.
theorem chosen_congr {source target : KVCache.Tier} {report : BlockId → Event}
    {agrees : MigrationContext → BlockPolicyFeatures → Bool} {ctx : MigrationContext}
    {done ids : List BlockId} (h : Moved config source target report s done s')
    (hids : ∀ id ∈ ids, id ∉ done) :
    chosen agrees ctx timestamp_ns s' ids = chosen agrees ctx timestamp_ns s ids := by
  refine List.filter_congr fun j hj => ?_
  have hrecord : s'.manager.store.records.getD j {} = s.manager.store.records.getD j {} := by
    rw [List.getD_eq_getElem?_getD, List.getD_eq_getElem?_getD, h.records]
    simp [hids j hj]
  simp only [featuresOf, hrecord, h.index]

-- The scan goes on as long as the target has room: of the candidates that the policy is
-- for it moves as many as there is room for, and none of the others.
theorem scanLoop_exact (hkind : kind.Migrates) (hne : kind.source ≠ kind.target)
    {agrees : MigrationContext → BlockPolicyFeatures → Bool}
    (hpolicy : ∀ ctx f st, (kind.policy.decide ctx f st).1 = agrees ctx f)
    (ctx : MigrationContext) (timestamp_ns : Nat) {ids : List BlockId} (hids : ids.Nodup)
    (ha : s.Accounted config) (hsource : ∀ id ∈ ids, id ∈ s.blocksIn kind.source) (count : Nat) :
    ∃ P s', (scanLoop kind ctx timestamp_ns ids count).run s = (.ok (count + P.length), s') ∧
      P.Sublist (chosen agrees ctx timestamp_ns s ids) ∧
      P.length = min (chosen agrees ctx timestamp_ns s ids).length (s.freeIn kind.target) ∧
      Moved config kind.source kind.target (kind.moved · timestamp_ns) s P s' := by
  induction ids generalizing s count with
  | nil => exact ⟨[], s, rfl, .slnil, by simp [chosen], .refl ha⟩
  | cons id ids ih =>
      obtain ⟨hid, hids⟩ := List.nodup_cons.mp hids
      have hmem := hsource id List.mem_cons_self
      have hrest : ∀ j ∈ ids, j ∈ s.blocksIn kind.source :=
        fun j hj => hsource j (List.mem_cons_of_mem _ hj)
      rcases scanLoop_cons hkind hne ha hmem ctx timestamp_ns ids count with
        ⟨hfull, hrun⟩ | ⟨hpos, s₁, answer, hanswer, hmoved, hfree, hrun⟩
      · exact ⟨[], s, hrun, List.nil_sublist _, by simp [hfull], .refl ha⟩
      · rw [hpolicy] at hanswer
        -- what is left to do has not moved
        have hpending : ∀ j ∈ ids, j ∉ if answer then [id] else [] := by
          intro j hj hmem
          cases answer with
          | true => exact hid (List.mem_singleton.mp hmem ▸ hj)
          | false => cases hmem
        have hstay := fun j hj => hmoved.mem_source_of_not_mem ha (hpending j hj) (hrest j hj)
        obtain ⟨P, s', hloop, hsub, hlen, hP⟩ :=
          ih hids hmoved.accounted hstay (count + if answer then 1 else 0)
        rw [chosen_congr hmoved hpending] at hsub hlen
        rw [hfree] at hlen
        have hP := hmoved.append hP fun j hj => hrest j (List.mem_of_mem_filter (hsub.subset hj))
        rw [hrun, hloop]
        cases answer with
        | true =>
            have hchosen : chosen agrees ctx timestamp_ns s (id :: ids) =
                id :: chosen agrees ctx timestamp_ns s ids :=
              List.filter_cons_of_pos hanswer.symm
            refine ⟨id :: P, s', ?_, hchosen ▸ hsub.cons_cons id, ?_, hP⟩
            · simp only [if_true, List.length_cons]
              congr 2
              omega
            · rw [hchosen, List.length_cons, List.length_cons]
              simp only [if_true] at hlen
              omega
        | false =>
            have hchosen : chosen agrees ctx timestamp_ns s (id :: ids) =
                chosen agrees ctx timestamp_ns s ids :=
              List.filter_cons_of_neg (by simp [← hanswer])
            exact ⟨P, s', rfl, hchosen ▸ hsub, hchosen ▸ hlen, hP⟩

-- A scan of a tier that exists, from the order of its iterator.
theorem runScan_exact (hkind : kind.Migrates) (hne : kind.source ≠ kind.target)
    {agrees : MigrationContext → BlockPolicyFeatures → Bool}
    (hpolicy : ∀ ctx f st, (kind.policy.decide ctx f st).1 = agrees ctx f)
    (ha : s.Accounted config) (hconf : config.capacities kind.source ≠ none)
    (timestamp_ns : Nat) {ids : List BlockId} (hids : s.Lists kind.source ids) :
    ∃ P s', (kind.runScan timestamp_ns ids).run s = (.ok P.length, s') ∧ P.Nodup ∧
      P.toFinset ⊆ s.agreed agrees kind.source timestamp_ns ∧
      P.length = min (s.agreed agrees kind.source timestamp_ns).card (s.freeIn kind.target) ∧
      Moved config kind.source kind.target (kind.moved · timestamp_ns) s P s' := by
  obtain ⟨-, tm, htm, hacc⟩ := id ha
  obtain ⟨t, ht⟩ : ∃ t, tm.tiers kind.source = some t := by
    have h := hacc.configured kind.source
    cases ht : tm.tiers kind.source with
    | none =>
        rw [ht] at h
        exact absurd h.symm hconf
    | some t => exact ⟨t, rfl⟩
  obtain ⟨P, s', hrun, hsub, hlen, hmoved⟩ := scanLoop_exact hkind hne hpolicy
    (s.migrationContext timestamp_ns) timestamp_ns hids.nodup ha
    (fun id hid => by rw [← hids.toFinset]; exact List.mem_toFinset.mpr hid) 0
  have hnodup : (chosen agrees (s.migrationContext timestamp_ns) timestamp_ns s ids).Nodup :=
    hids.nodup.filter _
  have hagreed : s.agreed agrees kind.source timestamp_ns =
      (chosen agrees (s.migrationContext timestamp_ns) timestamp_ns s ids).toFinset := by
    rw [Stack.agreed, ← hids.toFinset, chosen, List.toFinset_filter]
  refine ⟨P, s', ?_, hnodup.sublist hsub, ?_, ?_, hmoved⟩
  · have hctx : s.migrationContext timestamp_ns =
        ⟨(tm.stats .GpuSim).used_blocks, (tm.stats .GpuSim).capacity_blocks, timestamp_ns⟩ := by
      simp [Stack.migrationContext, htm]
    simp only [runScan, Exec.read_bind_run, htm, Exec.check_bind_run, TierManager.tierStore, ht]
    rw [← hctx, hrun, Nat.zero_add]
  · intro id hid
    rw [hagreed, List.mem_toFinset]
    exact hsub.subset (List.mem_toFinset.mp hid)
  · rw [hagreed, List.toFinset_card_of_nodup hnodup]
    exact hlen

end ScanKind

-- Both scans move as many of the blocks that their policy is for as the other tier has
-- room for, in whatever order they go through the tier, and change nothing else.
theorem Stack.migration_scans_exact (ha : s.Accounted config) (timestamp_ns : Nat) :
    (∀ promote : MigrationContext → BlockPolicyFeatures → Bool,
      (∀ ctx f st, (env.promotion.decide ctx f st).1 = promote ctx f) →
      config.capacities .Host ≠ none → ∀ ids, s.Lists .Host ids →
      ∃ P s', ((PromotionController env).runScan timestamp_ns ids).run s = (.ok P.length, s') ∧
        P.Nodup ∧ P.toFinset ⊆ s.agreed promote .Host timestamp_ns ∧
        P.length = min (s.agreed promote .Host timestamp_ns).card (s.freeIn .GpuSim) ∧
        s'.blocksIn .GpuSim = s.blocksIn .GpuSim ∪ P.toFinset ∧
        s'.blocksIn .Host = s.blocksIn .Host \ P.toFinset ∧
        Moved config .Host .GpuSim (.BlockPromoted · .Host .GpuSim timestamp_ns) s P s') ∧
    (∀ demote : MigrationContext → BlockPolicyFeatures → Bool,
      (∀ ctx f st, (env.demotion.decide ctx f st).1 = demote ctx f) →
      config.capacities .GpuSim ≠ none → ∀ ids, s.Lists .GpuSim ids →
      ∃ P s', ((DemotionController env).runScan timestamp_ns ids).run s = (.ok P.length, s') ∧
        P.Nodup ∧ P.toFinset ⊆ s.agreed demote .GpuSim timestamp_ns ∧
        P.length = min (s.agreed demote .GpuSim timestamp_ns).card (s.freeIn .Host) ∧
        s'.blocksIn .Host = s.blocksIn .Host ∪ P.toFinset ∧
        s'.blocksIn .GpuSim = s.blocksIn .GpuSim \ P.toFinset ∧
        Moved config .GpuSim .Host (.BlockDemoted · .GpuSim .Host timestamp_ns) s P s') := by
  constructor
  · intro promote hpolicy hconf ids hids
    have hne : KVCache.Tier.Host ≠ .GpuSim := by decide
    obtain ⟨P, s', hrun, hnodup, hsub, hlen, hmoved⟩ := ScanKind.runScan_exact
      (PromotionController_migrates env) hne hpolicy ha hconf timestamp_ns hids
    obtain ⟨htarget, hsource⟩ := hmoved.blocksIn ha hne
    exact ⟨P, s', hrun, hnodup, hsub, hlen, htarget, hsource, hmoved⟩
  · intro demote hpolicy hconf ids hids
    have hne : KVCache.Tier.GpuSim ≠ .Host := by decide
    obtain ⟨P, s', hrun, hnodup, hsub, hlen, hmoved⟩ := ScanKind.runScan_exact
      (DemotionController_migrates env) hne hpolicy ha hconf timestamp_ns hids
    obtain ⟨htarget, hsource⟩ := hmoved.blocksIn ha hne
    exact ⟨P, s', hrun, hnodup, hsub, hlen, htarget, hsource, hmoved⟩

-- Three blocks fit on the host and one on the simulated device.
private abbrev hostAndDevice : TierConfig where
  bytes_per_block := 0
  max_blocks := 3
  max_blocks_lt := by decide
  capacities
    | .GpuSim => some 1
    | .Host => some 3

private abbrev noPayloads : PayloadStore := .new 3 0

private def emptyTiers : TierManager := .new hostAndDevice ⟨fun _ _ => 0, fun _ _ _ => 0⟩

private def hostTiers : TierManager :=
  ((emptyTiers.placed .Host ⟨3, ∅⟩ 0 noPayloads).placed .Host ⟨3, {0}⟩ 1 noPayloads).placed
    .Host ⟨3, {1, 0}⟩ 2 noPayloads

private def hostRecord (id : Nat) : BlockRecord :=
  BlockManager.freshRecord id 1 ⟨0, 0⟩ 0 1 .Host {} .Ready

-- The host is full, and the device is empty.
private def onHost : Stack Unit where
  manager := (((BlockManager.new 3 { readings := id }).taken 0 [1, 2] (hostRecord 0)).taken 1 [2]
    (hostRecord 1)).taken 2 [] (hostRecord 2)
  index := { block_size := 1 }
  block_size := 1
  tier_manager := some hostTiers
  policy_state := ()

private theorem onHost_accounted : onHost.Accounted hostAndDevice := by
  have hloc : onHost.location = Function.update (Function.update (Function.update
      (fun _ : Nat => none) 0 (some (KVCache.Tier.Host, ({} : PayloadRef))))
      1 (some (KVCache.Tier.Host, ({} : PayloadRef))))
      2 (some (KVCache.Tier.Host, ({} : PayloadRef))) := by
    funext id
    match id with
    | 0 => rfl
    | 1 => rfl
    | 2 => rfl
    | id + 3 =>
        rw [Function.update_of_ne (by omega), Function.update_of_ne (by omega),
          Function.update_of_ne (by omega)]
        rfl
  have hput : noPayloads.put [] = .ok ({}, noPayloads) := rfl
  refine ⟨rfl, hostTiers, rfl, ?_⟩
  rw [hloc]
  exact (((TierManager.Accounts.new hostAndDevice _).placed rfl rfl rfl hput).placed rfl rfl rfl
    hput).placed rfl rfl rfl hput

-- The policy is for all blocks but the first one.
private def promoteLater : Env Unit where
  xxh3 := ⟨fun _ => 0, fun _ => ⟨0, 0⟩⟩
  admission := AlwaysAdmitPolicy
  eviction := NoEvictionPolicy
  placement := GpuFirstPlacementPolicy
  promotion := ⟨fun _ features st => (features.id != 0, st)⟩
  demotion := NoMigrationPolicy

-- One of the two blocks finds room.
theorem Stack.migration_scans_exact_full : ∃ (P : List BlockId) (s' : Stack Unit),
    ((PromotionController promoteLater).runScan 3 [2, 0, 1]).run onHost = (.ok 1, s') ∧
      P.length = 1 ∧ P.toFinset ⊆ {1, 2} ∧ s'.blocksIn .GpuSim = P.toFinset ∧
      s'.blocksIn .Host = {0, 1, 2} \ P.toFinset ∧
      s'.events = P.map (.BlockPromoted · .Host .GpuSim 3) := by
  have hlists : onHost.Lists .Host [2, 0, 1] := ⟨by decide, by decide⟩
  have hlaws := @Stack.migration_scans_exact Unit promoteLater onHost hostAndDevice
    onHost_accounted 3
  obtain ⟨P, s', hrun, -, hagrees, hlen, htarget, hsource, hmoved⟩ :=
    hlaws.1 (fun _ features => features.id != 0) (fun _ _ _ => rfl) (by decide) [2, 0, 1] hlists
  have hagreed : onHost.agreed (fun _ features => features.id != 0) .Host 3 = {1, 2} := by decide
  have hfree : onHost.freeIn .GpuSim = 1 := by decide
  have hhost : onHost.blocksIn .Host = {0, 1, 2} := by decide
  rw [hagreed, hfree] at hlen
  have hone : P.length = 1 := hlen
  rw [hone] at hrun
  rw [hagreed] at hagrees
  rw [hhost] at hsource
  refine ⟨P, s', hrun, hone, hagrees, ?_, hsource, hmoved.events⟩
  rw [htarget]
  exact Finset.empty_union _

end KVCache.Controller
