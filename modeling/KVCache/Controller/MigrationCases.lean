import KVCache.Controller.MigrationControllers
import KVCache.Controller.EvictionCases

namespace KVCache.Controller

open Lib Policy Prefix Sim Tier

variable {π : Type}

-- What makes a scan one of the two: it moves blocks with `migrate` and reports it so.
structure ScanKind.Migrates (kind : ScanKind π) : Prop where
  move : ∃ what, ∀ id, kind.move id = TierManager.migrate what id kind.target
  moved : ∀ id ns, (kind.target = .GpuSim ∧ kind.moved id ns = .BlockPromoted id .Host .GpuSim ns) ∨
    (kind.target = .Host ∧ kind.moved id ns = .BlockDemoted id .GpuSim .Host ns)

theorem PromotionController_migrates (env : Env π) : (PromotionController env).Migrates :=
  ⟨⟨_, fun _ => rfl⟩, fun _ _ => .inl ⟨rfl, rfl⟩⟩

theorem DemotionController_migrates (env : Env π) : (DemotionController env).Migrates :=
  ⟨⟨_, fun _ => rfl⟩, fun _ _ => .inr ⟨rfl, rfl⟩⟩

namespace ScanKind

variable {env : Env π} {ok : Multiset Nat → Prop} {s : Stack π} {H : Multiset Nat}

-- Moving one block and, where that worked, reporting it.
private theorem move_transitions (env : Env π) (ok : Multiset Nat → Prop) (H : Multiset Nat)
    {kind : ScanKind π} (hkind : kind.Migrates) {tm : TierManager}
    (htm : s.tier_manager = some tm) (id timestamp_ns : Nat) :
    (∃ e, (Stack.onTier tm (kind.move id)).run s = (.error e, s)) ∨
      (∃ res : TierOpResult, res.status ≠ .Success ∧
        (Stack.onTier tm (kind.move id)).run s = (.ok res, s)) ∨
      ∃ ns s', (Stack.onTier tm (kind.move id)).run s = (.ok ⟨.Success, ns⟩, s') ∧
        Transition env ok ⟨s, H⟩
          ⟨{ s' with events := s'.events ++ [kind.moved id timestamp_ns] }, H⟩ := by
  obtain ⟨what, hmove⟩ := hkind.move
  rw [hmove]
  have hself : { s with tier_manager := some tm } = s := by rw [← htm]
  have hcase := TierManager.migrate_cases tm s.tierStore id what kind.target
  rcases hrun : (TierManager.migrate what id kind.target).run (tm, s.tierStore) with ⟨out, x⟩
  rw [hrun] at hcase
  cases hcase with
  | failed e =>
      refine .inl ⟨e, ?_⟩
      rw [Stack.onTier_same hrun, hself]
  | refused res hres =>
      refine .inr (.inl ⟨res, hres, ?_⟩)
      rw [Stack.onTier_same hrun, hself]
  | @moved r t t' ns hr ht hid ht' hcap =>
      refine .inr (.inr ⟨ns, _, by simp only [Stack.onTier, hrun]; rfl, ?_⟩)
      have hmig : Transition env ok ⟨s, H⟩ _ :=
        .migrate htm hr ht hid ht' hcap (hkind.moved id timestamp_ns)
      have hevents : (s.setTierStore ⟨s.tierStore.records.modify id fun r =>
          { r with tier := kind.target }⟩).events = s.events := by
        unfold Stack.setTierStore
        split <;> rfl
      unfold Stack.migrated at hmig
      rw [← hevents] at hmig
      exact hmig

private theorem scanLoop_transitions {kind : ScanKind π} (hkind : kind.Migrates)
    (ctx : MigrationContext) (timestamp_ns : Nat) (ids : List BlockId) (count : Nat)
    (s : Stack π) :
    Transitions env ok ⟨s, H⟩ ⟨((scanLoop kind ctx timestamp_ns ids count).run s).2, H⟩ := by
  induction ids generalizing count s with
  | nil => exact .refl
  | cons id ids ih =>
      simp only [scanLoop, Exec.read_bind_run]
      cases htm : s.tier_manager with
      | none => exact .refl
      | some tm =>
          simp only
          split
          · exact .refl
          · simp only [Exec.check_bind_run]
            cases hf : buildFeatures s.manager.store s.index id timestamp_ns with
            | error e => exact .refl
            | ok features =>
                simp only [Stack.ask, Exec.modifyGet_bind_run]
                set choice := kind.policy.decide ctx features s.policy_state
                have hq : Transition env ok ⟨s, H⟩ ⟨{ s with policy_state := choice.2 }, H⟩ :=
                  .quiet ⟨rfl, rfl, rfl, rfl, rfl, rfl, rfl⟩
                by_cases hmove : choice.1 = false
                · rw [if_pos hmove]
                  exact .head hq (ih count _)
                · rw [if_neg hmove]
                  rcases move_transitions env ok H hkind
                    (s := { s with policy_state := choice.2 }) htm id timestamp_ns with
                    ⟨e, hrun⟩ | ⟨res, hres, hrun⟩ | ⟨ns, s', hrun, hmig⟩
                  · rw [Exec.bind_error hrun]
                    exact .single hq
                  · rw [Exec.bind_ok hrun, if_neg hres]
                    exact .head hq (ih count _)
                  · rw [Exec.bind_ok hrun, if_pos rfl]
                    simp only [Stack.record, Exec.modify_bind_run]
                    exact .head hq (.head hmig (ih (count + 1) _))

-- A scan only moves blocks, whatever the candidates it goes through.
theorem runScan_transitions {kind : ScanKind π} (hkind : kind.Migrates) (timestamp_ns : Nat)
    (candidates : List BlockId) (s : Stack π) :
    Transitions env ok ⟨s, H⟩ ⟨((runScan kind timestamp_ns candidates).run s).2, H⟩ := by
  simp only [runScan, Exec.read_bind_run]
  cases htm : s.tier_manager with
  | none => exact .refl
  | some tm =>
      simp only [Exec.check_bind_run]
      cases tm.tierStore kind.source with
      | error e => exact .refl
      | ok t => exact scanLoop_transitions hkind _ timestamp_ns candidates 0 s

end ScanKind

end KVCache.Controller
