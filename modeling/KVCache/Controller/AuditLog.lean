import KVCache.Controller.AdmissionController
import KVCache.Controller.MigrationControllers

namespace KVCache

open Lib Controller Policy Prefix Sim Tier

variable {π α β : Type}

namespace Sim

-- What an event tells of an eviction: the block, the policy and the time.
def Event.eviction : Event → Option (BlockId × String × Nat)
  | .BlockEvicted id policy_name ns => some (id, policy_name, ns)
  | _ => none

def Decision.eviction : Decision → Option (BlockId × String × Nat)
  | .EvictionDecision chosen_block policy_name _ ns => some (chosen_block, policy_name, ns)
  | .AdmissionRecord .. => none

def Decision.accepts : Decision → Bool
  | .AdmissionRecord admitted .. => admitted
  | .EvictionDecision .. => false

-- A decision that a stack of controllers can have come to.
def Decision.Sound (env : Env π) : Decision → Prop
  | .EvictionDecision chosen_block policy_name candidates _ =>
      chosen_block ∈ candidates ∧ policy_name = env.eviction.name
  | .AdmissionRecord _ policy_name .. => policy_name = env.admission.name

-- The events that came with some decisions: the evictions are those that were decided, in
-- their order, and at most `k` more blocks were admitted than candidates accepted.
structure Explains (env : Env π) (k : Nat) (es : List Event) (ds : List Decision) : Prop where
  evictions : es.filterMap Event.eviction = ds.filterMap Decision.eviction
  sound : ∀ d ∈ ds, d.Sound env
  admissions : es.countP Event.isAdmitted ≤ ds.countP Decision.accepts + k

theorem Explains.nil (env : Env π) : Explains env 0 [] [] := ⟨rfl, by simp, Nat.le_refl _⟩

theorem Explains.append {env : Env π} {k l : Nat} {es es' : List Event} {ds ds' : List Decision}
    (h : Explains env k es ds) (h' : Explains env l es' ds') :
    Explains env (k + l) (es ++ es') (ds ++ ds') := by
  have hleft := h.admissions
  have hright := h'.admissions
  refine ⟨?_, fun d hd => ?_, ?_⟩
  · rw [List.filterMap_append, List.filterMap_append, h.evictions, h'.evictions]
  · rcases List.mem_append.mp hd with hd | hd
    · exact h.sound d hd
    · exact h'.sound d hd
  · rw [List.countP_append, List.countP_append]
    omega

end Sim

namespace Controller

variable {env : Env π} {k l : Nat} {s s' s'' : Stack π}

-- What a program adds to the two logs of a stack.
def Stack.Adds (env : Env π) (k : Nat) (s s' : Stack π) : Prop :=
  ∃ es ds, s'.events = s.events ++ es ∧ s'.decisions = s.decisions ++ ds ∧ Explains env k es ds

abbrev Stack.Audited (env : Env π) (k : Nat) (x : Stack.Op π α) : Prop :=
  Exec.Keeps (Stack.Adds env k) x

namespace Stack

theorem Adds.same (hevents : s'.events = s.events) (hdecisions : s'.decisions = s.decisions) :
    Adds env 0 s s' :=
  ⟨[], [], by simpa using hevents, by simpa using hdecisions, .nil env⟩

theorem Adds.trans (h : Adds env k s s') (h' : Adds env l s' s'') : Adds env (k + l) s s'' := by
  obtain ⟨es, ds, hes, hds, hexp⟩ := h
  obtain ⟨es', ds', hes', hds', hexp'⟩ := h'
  refine ⟨es ++ es', ds ++ ds', ?_, ?_, hexp.append hexp'⟩
  · rw [hes', hes, List.append_assoc]
  · rw [hds', hds, List.append_assoc]

theorem Adds.le (h : Adds env k s s') (hkl : k ≤ l) : Adds env l s s' := by
  obtain ⟨es, ds, hes, hds, hexp⟩ := h
  exact ⟨es, ds, hes, hds, hexp.evictions, hexp.sound,
    hexp.admissions.trans (Nat.add_le_add_left hkl _)⟩

-- The first program admits nothing.
private theorem audited_bind {x : Op π α} {f : α → Op π β} (hx : Audited env 0 x)
    (hf : ∀ a, Audited env k (f a)) : Audited env k (x >>= f) := by
  refine Exec.Keeps.andThen ?_ ?_ hx hf
  · exact fun _ _ h => h.le (Nat.zero_le k)
  · exact fun _ _ _ h h' => (h.trans h').le (Nat.le_of_eq (Nat.zero_add k))

private theorem audited_pure (a : α) : Audited env 0 (pure a : Op π α) := fun _ => .same rfl rfl

theorem onManager_audited (x : BlockManager.Op α) : Audited env 0 (onManager x : Op π α) :=
  fun _ => .same rfl rfl

theorem onTier_audited (tm : TierManager) (x : TierManager.Op α) :
    Audited env 0 (onTier tm x : Op π α) := by
  intro s
  simp only [onTier, setTierStore]
  split <;> exact .same rfl rfl

end Stack

open Stack

namespace EvictionController

theorem evict_audited (request : MakeSpaceRequest) {candidates : List BlockId} {victim_id : BlockId}
    (hvictim : victim_id ∈ candidates) :
    Audited env 0 (evict env request candidates victim_id) := by
  refine audited_bind (onManager_audited _) fun _ => audited_bind (fun _ => .same rfl rfl)
    fun _ => audited_bind (fun _ => .same rfl rfl) fun tier_manager => ?_
  -- the event and the decision are written one after the other
  have hlast : ∀ _ : Unit, Audited env 0 (do
      record (.BlockEvicted victim_id env.eviction.name request.timestamp_ns)
      log (.EvictionDecision victim_id env.eviction.name candidates request.timestamp_ns) :
        Op π Unit) := by
    intro _ s
    refine ⟨[_], [_], rfl, rfl, rfl, ?_, Nat.zero_le _⟩
    exact List.forall_mem_singleton.mpr ⟨hvictim, rfl⟩
  cases tier_manager with
  | none => exact audited_bind (onManager_audited _) hlast
  | some tm =>
      exact audited_bind (onTier_audited tm _) fun _ => audited_bind (onManager_audited _) hlast

theorem buildAll_ids {store : BlockStore} {index : PrefixIndex} {now_ns : Nat} {ids : List BlockId}
    {fs : List BlockPolicyFeatures} (h : buildAll store index now_ns ids = .ok fs) :
    fs.map (fun f => f.id) = ids := by
  induction ids generalizing fs with
  | nil =>
      cases h
      rfl
  | cons id ids ih =>
      rw [buildAll, buildFeatures] at h
      cases hget : store.get id with
      | error e =>
          rw [hget] at h
          cases h
      | ok record =>
          rw [hget] at h
          cases hrest : buildAll store index now_ns ids with
          | error e =>
              rw [hrest] at h
              cases h
          | ok rest =>
              rw [hrest] at h
              cases h
              rw [List.map_cons, ih hrest]

theorem evictOne_audited (hpick : env.eviction.PicksCandidate) (request : MakeSpaceRequest) :
    Audited env 0 (evictOne env request) := by
  refine audited_bind (fun _ => .same rfl rfl) fun all_candidates => ?_
  split
  · exact audited_pure _
  · refine audited_bind (fun _ => .same rfl rfl) fun candidates => ?_
    split
    · exact audited_pure _
    · intro s
      rw [Exec.check_bind_run]
      cases hfeatures : buildAll s.manager.store s.index request.timestamp_ns candidates with
      | error e => exact .same rfl rfl
      | ok features =>
          have hids := buildAll_ids hfeatures
          simp only [ask, Exec.modifyGet_bind_run]
          cases hvictim : (env.eviction.chooseVictim ⟨request.tier, 0, request.timestamp_ns⟩
              features s.policy_state).1 with
          | none => exact .same rfl rfl
          | some victim_id =>
              obtain ⟨f, hf, rfl⟩ := hpick _ _ _ _ hvictim
              have hmem : f.id ∈ candidates := hids ▸ List.mem_map_of_mem hf
              have hevict : Audited env 0 (do
                  evict env request candidates f.id
                  return true) :=
                audited_bind (evict_audited request hmem) fun _ => audited_pure _
              exact (Adds.same rfl rfl).trans (hevict _)

theorem makeSpace_audited (hpick : env.eviction.PicksCandidate) (request : MakeSpaceRequest) :
    Audited env 0 (makeSpace env request) := by
  have hloop : ∀ missing evicted, Audited env 0 (makeSpaceLoop env request missing evicted) := by
    intro missing
    induction missing with
    | zero => exact fun evicted => audited_pure _
    | succ missing ih =>
        intro evicted
        refine audited_bind (evictOne_audited hpick request) fun more => ?_
        cases more with
        | false => exact audited_pure _
        | true => exact ih _
  exact hloop _ _

end EvictionController

namespace AdmissionController

theorem placeBlock_audited (id : BlockId) (target : KVCache.Tier) (payload : List UInt8) :
    Audited env 0 (placeBlock id target payload : Op π TierOpStatus) := by
  refine audited_bind (fun _ => .same rfl rfl) fun tier_manager => ?_
  cases tier_manager with
  | none => exact audited_pure _
  | some tm => exact audited_bind (onTier_audited tm _) fun _ => audited_pure _

-- One block is entered, and its decision was logged before.
theorem publish_audited (candidate : BlockCandidate) (ctx : AdmissionContext)
    (ctx_hash : CacheContextHash) (existing : List BlockId) (target : KVCache.Tier)
    (id : BlockId) :
    Audited env 1 (publish candidate ctx ctx_hash existing target id : Op π AdmitResult) := by
  refine audited_bind (fun _ => .same rfl rfl) fun _ =>
    audited_bind (onManager_audited _) fun _ => ?_
  have hrecord : Audited env 1
      (record (.BlockAdmitted id ctx_hash target candidate.origin ctx.timestamp_ns) : Op π Unit) :=
    fun s => ⟨[_], [], rfl, by simp [record], rfl, by simp, Nat.le_refl _⟩
  have hrest : ∀ _ : Unit, Audited env 0 (do
      let handle ← onManager (BlockManager.acquire id)
      return ⟨.Admitted, handle⟩ : Op π AdmitResult) :=
    fun _ => audited_bind (onManager_audited _) fun _ => audited_pure _
  exact hrecord.andThen (fun _ _ h => h) (fun _ _ _ h h' => h.trans h') hrest

theorem storeBlock_audited (candidate : BlockCandidate) (ctx : AdmissionContext)
    (ctx_hash : CacheContextHash) (existing : List BlockId) (target : KVCache.Tier) :
    Audited env 1 (storeBlock candidate ctx ctx_hash existing target : Op π AdmitResult) := by
  have hnone : ∀ res : AdmitResult, Audited env 1 (pure res : Op π AdmitResult) :=
    fun res s => (audited_pure res s).le (Nat.zero_le 1)
  refine audited_bind (fun _ => .same rfl rfl) fun block_size =>
    audited_bind (onManager_audited _) fun slot => ?_
  cases slot with
  | none => exact hnone _
  | some slot =>
      refine audited_bind (placeBlock_audited _ _ _) fun status => ?_
      cases status with
      | CapacityExceeded => exact audited_bind (onManager_audited _) fun _ => hnone _
      | _ => exact publish_audited candidate ctx ctx_hash existing target slot.1

theorem chooseTarget_audited (ctx : AdmissionContext) (features : BlockCandidateFeatures) :
    Audited env 0 (chooseTarget env ctx features) := by
  refine audited_bind (fun _ => .same rfl rfl) fun tier_manager => ?_
  cases tier_manager <;> exact fun s => .same rfl rfl

theorem ensureSpace_audited (hpick : env.eviction.PicksCandidate) (ctx : AdmissionContext)
    (target : KVCache.Tier) : Audited env 0 (ensureSpace env ctx target) := by
  refine audited_bind (fun _ => .same rfl rfl) fun full => ?_
  split
  · exact audited_bind (EvictionController.makeSpace_audited hpick _) fun _ => audited_pure _
  · exact audited_pure _

-- The answer of the policy is logged, and pays for one block.
private theorem askAdmission_bind {ctx : AdmissionContext} {candidate : BlockCandidate}
    {f : AdmissionDecision → Op π AdmitResult} (hreject : Audited env 0 (f .Reject))
    (hadmits : Audited env 1 (f .Admit)) :
    Audited env 0 (askAdmission env ctx candidate >>= f) := by
  intro s
  have hlogged : ∀ (d : AdmissionDecision) (s₁ : Stack π), s₁.events = s.events →
      s₁.decisions = s.decisions ++ [.AdmissionRecord (d = .Admit) env.admission.name candidate.hash
        ctx.timestamp_ns] → Adds env 0 s ((f d).run s₁).2 := by
    intro d s₁ hevents hdecisions
    have hkeeps : Audited env (if d = .Admit then 1 else 0) (f d) := by
      cases d
      · exact hadmits
      · exact hreject
    obtain ⟨es, ds, hes, hds, hexp⟩ := hkeeps s₁
    have hcount := hexp.admissions
    refine ⟨es, .AdmissionRecord (d = .Admit) env.admission.name candidate.hash
      ctx.timestamp_ns :: ds, ?_, ?_, hexp.evictions, ?_, ?_⟩
    · rw [hes, hevents]
    · rw [hds, hdecisions, List.append_assoc, List.singleton_append]
    · exact List.forall_mem_cons.mpr ⟨rfl, hexp.sound⟩
    · rw [List.countP_cons]
      cases d <;> simpa [Decision.accepts] using hcount
  exact hlogged _ _ rfl rfl

theorem admitCandidate_audited (hpick : env.eviction.PicksCandidate) (candidate : BlockCandidate)
    (ctx : AdmissionContext) : Audited env 0 (admitCandidate env candidate ctx) := by
  refine audited_bind (fun _ => .same rfl rfl) fun block_size => ?_
  split
  · exact audited_pure _
  · refine audited_bind (fun _ => .same rfl rfl) fun full_blocks => ?_
    split
    · exact audited_pure _
    · refine audited_bind (fun _ => .same rfl rfl) fun existing => ?_
      split
      · exact audited_pure _
      · refine askAdmission_bind (audited_pure _) ?_
        refine audited_bind (chooseTarget_audited ctx _) fun target =>
          audited_bind (ensureSpace_audited hpick ctx target) fun room => ?_
        split
        · exact storeBlock_audited candidate ctx _ existing target
        · exact fun s => (audited_pure _ s).le (Nat.zero_le 1)

end AdmissionController

namespace ScanKind

variable {kind : ScanKind π}

theorem runScan_audited (hmoved : ∀ id ns, (kind.moved id ns).isMove = true) (timestamp_ns : Nat)
    (candidates : List BlockId) : Audited env 0 (kind.runScan timestamp_ns candidates) := by
  have hloop : ∀ ctx (ids : List BlockId) (count : Nat),
      Audited env 0 (kind.scanLoop ctx timestamp_ns ids count) := by
    intro ctx ids
    induction ids with
    | nil => exact fun count => audited_pure _
    | cons id ids ih =>
        intro count
        refine audited_bind (fun _ => .same rfl rfl) fun tier_manager => ?_
        cases tier_manager with
        | none => exact audited_pure _
        | some tm =>
            simp only
            split
            · exact audited_pure _
            · refine audited_bind (fun _ => .same rfl rfl) fun features =>
                audited_bind (fun _ => .same rfl rfl) fun move => ?_
              split
              · exact ih count
              · refine audited_bind (onTier_audited tm _) fun result => ?_
                split
                · refine audited_bind (fun s => ?_) fun _ => ih (count + 1)
                  have hmove := hmoved id timestamp_ns
                  refine ⟨[_], [], rfl, by simp [record], ?_, by simp, ?_⟩
                  · cases hk : kind.moved id timestamp_ns <;> rw [hk] at hmove <;> first
                      | rfl
                      | cases hmove
                  · cases hk : kind.moved id timestamp_ns <;> rw [hk] at hmove <;> first
                      | exact Nat.le_refl _
                      | cases hmove
                · exact ih count
  refine audited_bind (fun _ => .same rfl rfl) fun tier_manager => ?_
  cases tier_manager with
  | none => exact audited_pure _
  | some tm => exact audited_bind (fun _ => .same rfl rfl) fun _ => hloop _ _ _

end ScanKind

end Controller

end KVCache
