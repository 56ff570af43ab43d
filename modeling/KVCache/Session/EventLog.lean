import KVCache.Controller.EventLog
import KVCache.Session.Agreement
import KVCache.Session.Tiers

namespace KVCache

open Lib Controller Policy Prefix Sim Tier

variable {π : Type} {env : Env π} {config : TierConfig}

-- A stack of controllers at the start: without tiers, or with a tier manager that works
-- on the records of the manager.
inductive Controller.Stack.Starts (config : TierConfig) : Stack π → Prop
  | untiered (capacity block_size : Nat) (clock : Clock) (policy_state : π) :
      Starts config (LocalCache.new capacity block_size clock policy_state)
  | tiered (capacity block_size : Nat) (clock : Clock) (policy_state : π)
      (latency_model : LatencyModel) :
      Starts config (.tiered capacity block_size clock policy_state config latency_model)

-- What a scan goes through is what the iterator of its source tier finds.
def SessionOp.Iterates (s : Session π) : SessionOp → Prop
  | .promotionScan _ candidates => s.cache.Lists .Host candidates
  | .demotionScan _ candidates => s.cache.Lists .GpuSim candidates
  | _ => True

theorem Controller.Stack.Starts.logged {s : Stack π} (h : s.Starts config) :
    s.manager.InStep ∧ s.Logged config := by
  have hempty : ∀ (capacity : Nat) (clock : Clock) (id : Nat),
      ((BlockManager.new capacity clock).store.records[id]?).bind (fun r =>
        if r.state = .Ready then some (r.tier, r.payload) else none) = none := by
    intro capacity clock id
    cases hr : (BlockManager.new capacity clock).store.records[id]? with
    | none => rfl
    | some r =>
        rw [(BlockManager.new_getElem? hr).2]
        rfl
  cases h with
  | untiered capacity block_size clock policy_state =>
      refine ⟨BlockManager.new_inStep capacity clock, .inl rfl, .nil, funext fun id => ?_⟩
      exact (congrArg (Option.map fun place => place.1) (hempty capacity clock id)).symm
  | tiered capacity block_size clock policy_state latency_model =>
      refine ⟨BlockManager.new_inStep capacity clock,
        .inr (Stack.tiered_accounted _ _ _ _ _ _), .nil, funext fun id => ?_⟩
      exact (congrArg (Option.map fun place => place.1) (hempty capacity clock id)).symm

namespace Session

variable {s : Session π} {c₀ : Stack π}

-- Every call keeps the log true, calls that throw included.
theorem step_logged (hs : s.cache.manager.InStep) (hl : s.cache.Logged config) {op : SessionOp}
    (hop : op.Iterates s) : (step env s op).cache.Logged config := by
  have hlooks : op.Looks → (step env s op).cache.Logged config := by
    intro hlooks
    obtain ⟨m, hm, hsame, -⟩ := step_looks env hs hlooks
    rw [hm]
    exact hl.same hsame rfl rfl rfl
  cases op with
  | admitBlock candidate =>
      have hcase := admitBlock_cases env hs candidate
      have hrun : Transitions env (fun _ => True) ⟨s.cache, 0⟩ _ :=
        LocalCache.admitBlock_transitions hs trivial candidate
      exact hrun.logged hs hl hcase.isMove_eq
  | admitCandidate candidate ctx =>
      have hcase := AdmissionController.admit_cases env hs candidate ctx
      have hrun : Transitions env (fun _ => True) ⟨s.cache, 0⟩ _ :=
        AdmissionController.admit_transitions env hs trivial candidate ctx
      exact hrun.logged hs hl hcase.isMove_eq
  | makeSpace request =>
      have hrun : Transitions env (fun _ => True) ⟨s.cache, 0⟩ _ :=
        EvictionController.makeSpace_transitions env hs trivial request
      exact hrun.logged hs hl (EvictionController.makeSpace_isMove_eq hs request)
  | promotionScan timestamp_ns candidates =>
      have hne : KVCache.Tier.Host ≠ .GpuSim := by decide
      exact ScanKind.runScan_logged (PromotionController_migrates env) hne
        (ScanKind.promotion_reports env) hl timestamp_ns hop
  | demotionScan timestamp_ns candidates =>
      have hne : KVCache.Tier.GpuSim ≠ .Host := by decide
      exact ScanKind.runScan_logged (DemotionController_migrates env) hne
        (ScanKind.demotion_reports env) hl timestamp_ns hop
  | lookupPrefix ctx tokens => exact hlooks trivial
  | getBlock id generation => exact hlooks trivial
  | serveBlockFetch id generation => exact hlooks trivial
  | moveHandle i => exact hlooks trivial
  | assignHandle i j => exact hlooks trivial
  | dropHandle i => exact hlooks trivial

theorem run_logged (hstart : c₀.Starts config)
    (hrun : Run env (fun s op => op.Iterates s) { cache := c₀ } s) :
    s.cache.manager.InStep ∧ s.cache.Logged config := by
  refine Steps.invariant (I := fun s : Session π => s.cache.manager.InStep ∧
    s.cache.Logged config) ?_ hrun hstart.logged
  rintro s op ⟨hs, hl⟩ hop
  exact ⟨step_inStep env hs op, step_logged hs hl hop⟩

-- The log of a run is true at every event, and what it leads to are the ready blocks in
-- the tiers of their records; as many are ready as were admitted and not evicted.
theorem event_log_reconstructs (hstart : c₀.Starts config)
    (hrun : Run env (fun s op => op.Iterates s) { cache := c₀ } s) :
    (∀ id tier, blocksAfter s.cache.events id = some tier ↔
      ∃ r, s.cache.manager.store.records[id]? = some r ∧ r.state = .Ready ∧ r.tier = tier) ∧
    (∀ before e after, s.cache.events = before ++ e :: after → e.Fits (blocksAfter before)) ∧
    s.cache.events.countP Event.isAdmitted =
      s.cache.readyBlocks + s.cache.events.countP Event.isEvicted := by
  obtain ⟨hs, hl⟩ := run_logged hstart hrun
  refine ⟨fun id tier => ?_, hl.log, ?_⟩
  · rw [hl.blocks, Stack.tierOf, Option.map_eq_some_iff]
    constructor
    · rintro ⟨⟨tier', ref⟩, hloc, rfl⟩
      obtain ⟨r, hr, hready, htier, -⟩ := Stack.location_eq_some.mp hloc
      exact ⟨r, hr, hready, htier⟩
    · rintro ⟨r, hr, hready, rfl⟩
      exact ⟨_, Stack.location_of_ready hr hready, rfl⟩
  · obtain ⟨blocks, hmem, hcount⟩ := hl.log.count
    have hready : blocks = (Finset.range s.cache.manager.store.records.length).filter
        fun id => (s.cache.location id).isSome := by
      ext id
      rw [hmem, hl.blocks, Stack.tierOf, Option.isSome_map, Finset.mem_filter, Finset.mem_range]
      refine ⟨fun hsome => ⟨?_, hsome⟩, fun h => h.2⟩
      obtain ⟨place, hplace⟩ := Option.isSome_iff_exists.mp hsome
      obtain ⟨r, hr, -⟩ := Stack.location_eq_some.mp hplace
      exact BlockManager.lt_of_getElem? hr
    rw [hcount, hready, Stack.card_location]

private abbrev hostFirst : Env Unit :=
  { Sample.lruEnv with
    placement := ⟨fun _ _ st => (.Host, st)⟩
    promotion := ⟨fun _ _ st => (true, st)⟩ }

private abbrev oneBuffer : Stack Unit :=
  .tiered 1 1 Sample.clock () (Sample.oneBuffer 1 0) ⟨fun _ _ => 0, fun _ _ _ => 0⟩

private abbrev admittedToHost : Session Unit :=
  step hostFirst { cache := oneBuffer } (.admitBlock (Sample.candidate 1 [7] []))

private abbrev promoted : Session Unit := step hostFirst admittedToHost (.promotionScan 3 [0])

theorem event_log_reconstructs_promoted :
    blocksAfter promoted.cache.events 0 = some .GpuSim := by
  have hlists : admittedToHost.cache.Lists .Host [0] := ⟨by decide, by decide +kernel⟩
  have hadmitted : Run hostFirst (fun s op => op.Iterates s) _ admittedToHost :=
    (Steps.refl _).snoc _ trivial
  have hrun : Run hostFirst (fun s op => op.Iterates s) _ promoted := hadmitted.snoc _ hlists
  refine ((event_log_reconstructs (.tiered 1 1 Sample.clock () _) hrun).1 0 .GpuSim).mpr ?_
  exact ⟨promoted.cache.manager.store.records.getD 0 {}, by decide +kernel, by decide +kernel,
    by decide +kernel⟩

end Session

end KVCache
