import KVCache.Controller.AuditLog
import KVCache.Session.Agreement

namespace KVCache

open Lib Controller Policy Prefix Sim Tier

variable {π : Type} {env : Env π} {c₀ : Stack π} {s : Session π}

namespace Session

-- An operation writes its evictions to both logs, and pays for its admissions.
theorem step_adds (hpick : env.eviction.PicksCandidate) (hs : s.cache.manager.InStep)
    (op : SessionOp) : Stack.Adds env 0 s.cache (step env s op).cache := by
  have hlooks : op.Looks → Stack.Adds env 0 s.cache (step env s op).cache := by
    intro hop
    obtain ⟨m, hm, -⟩ := step_looks env hs hop
    rw [hm]
    exact .same rfl rfl
  cases op with
  | admitBlock candidate =>
      have hrun := AdmissionController.admitCandidate_audited hpick candidate
        (LocalCache.admitContext env candidate s.cache) s.cache.ticked
      have hticked : Stack.Adds env 0 s.cache s.cache.ticked := .same rfl rfl
      exact hticked.trans hrun
  | admitCandidate candidate ctx =>
      exact AdmissionController.admitCandidate_audited hpick candidate ctx s.cache
  | makeSpace request => exact EvictionController.makeSpace_audited hpick request s.cache
  | promotionScan timestamp_ns candidates =>
      exact ScanKind.runScan_audited (fun _ _ => rfl) timestamp_ns candidates s.cache
  | demotionScan timestamp_ns candidates =>
      exact ScanKind.runScan_audited (fun _ _ => rfl) timestamp_ns candidates s.cache
  | lookupPrefix ctx tokens => exact hlooks trivial
  | getBlock id generation => exact hlooks trivial
  | serveBlockFetch id generation => exact hlooks trivial
  | moveHandle i => exact hlooks trivial
  | assignHandle i j => exact hlooks trivial
  | dropHandle i => exact hlooks trivial

-- The two logs of a run tell the same story, calls that throw included: every eviction in
-- the one was decided in the other, in the same order and with the same data, its block was
-- among the candidates, and no block was admitted without a decision to accept it.
theorem logs_agree (hpick : env.eviction.PicksCandidate) (hstart : c₀.manager.InStep)
    (hevents : c₀.events = []) (hdecisions : c₀.decisions = [])
    (hrun : Run env (fun _ _ => True) { cache := c₀ } s) :
    s.cache.events.filterMap Event.eviction = s.cache.decisions.filterMap Decision.eviction ∧
    (∀ d ∈ s.cache.decisions, d.Sound env) ∧
    s.cache.events.countP Event.isAdmitted ≤ s.cache.decisions.countP Decision.accepts := by
  have hadds : s.cache.manager.InStep ∧ Stack.Adds env 0 c₀ s.cache := by
    refine Steps.invariant (I := fun s : Session π => s.cache.manager.InStep ∧
      Stack.Adds env 0 c₀ s.cache) ?_ hrun ⟨hstart, .same rfl rfl⟩
    intro s op h _
    exact ⟨step_inStep env h.1 op, h.2.trans (step_adds hpick h.1 op)⟩
  obtain ⟨es, ds, hes, hds, hexp⟩ := hadds.2
  rw [hevents, List.nil_append] at hes
  rw [hdecisions, List.nil_append] at hds
  rw [hes, hds]
  exact ⟨hexp.evictions, hexp.sound, hexp.admissions⟩

private abbrev auditOps : List SessionOp :=
  [.admitBlock (Sample.candidate 1 [7] []), .dropHandle 0,
    .admitBlock (Sample.candidate 1 [8] [])]

private abbrev auditStart : Session Unit := { cache := .new 1 1 Sample.clock () }

-- One eviction and its decision.
theorem logs_agree_evicted :
    ((auditOps.foldl (step Sample.lruEnv) auditStart).cache.events.filterMap
      Event.eviction).length = 1 ∧
    (auditOps.foldl (step Sample.lruEnv) auditStart).cache.events.filterMap Event.eviction =
      (auditOps.foldl (step Sample.lruEnv) auditStart).cache.decisions.filterMap
        Decision.eviction := by
  have hrun : Run Sample.lruEnv (fun _ _ => True) auditStart
      (auditOps.foldl (step Sample.lruEnv) auditStart) :=
    (((Steps.refl _).snoc (SessionOp.admitBlock (Sample.candidate 1 [7] [])) trivial).snoc
      (.dropHandle 0) trivial).snoc (.admitBlock (Sample.candidate 1 [8] [])) trivial
  exact ⟨by decide +kernel, (logs_agree LruEvictionPolicy.picksCandidate
    (BlockManager.new_inStep 1 Sample.clock) rfl rfl hrun).1⟩

end Session

end KVCache
