import KVCache.Cluster.References

namespace KVCache

open Lib Controller Coordinator Pipeline Policy Sim

variable {π ρ : Type}

namespace Controller.AdmissionController

variable {env : Env π} {ctx : AdmissionContext} {candidate : BlockCandidate}

-- An eviction makes room for one block only, and the slot that it frees is the one that
-- the block gets. So what is ready stays ready.
theorem AdmitCase.stays_ready {s s' : Stack π} {res : Except Fault AdmitResult}
    (h : AdmitCase env ctx candidate s res s') (hs : s.manager.InStep)
    (hnone : s.tier_manager = none) {id : Nat} {r : BlockRecord}
    (hr : s.manager.store.records[id]? = some r) (hready : r.state = .Ready) :
    ∃ r', s'.manager.store.records[id]? = some r' ∧ r'.state = .Ready := by
  have hquiet : ∀ {s' : Stack π}, Quiet s s' →
      ∃ r', s'.manager.store.records[id]? = some r' ∧ r'.state = .Ready := fun hq => by
    rw [hq.store]
    exact ⟨r, hr, hready⟩
  cases h with
  | badLength _ | present _ _ | noParent _ _ _ => exact ⟨r, hr, hready⟩
  | rejected he hd hq => exact hquiet hq
  | noSpace he hd hroom hv hq => exact hquiet hq
  | evictRefused e he hv hnot hq => exact hquiet hq
  | evictStuck e he hv hq hr' hready' href hstuck =>
      exact absurd (hq.tier_manager.trans hnone) hstuck.not_untiered
  | leaked e he hd hroom hfree hmis =>
      refine absurd ?_ hmis.not_untiered
      cases hroom with
      | free hroom hq => exact hq.tier_manager.trans hnone
      | evicted hroom hv hq hr' hready' href hrem hq' =>
          exact hq'.tier_manager.trans (hrem.none_of_untiered (hq.tier_manager.trans hnone))
  | @admitted s₁ s₂ new rest tm ext ref he hd hroom hfree hplace hs₂ =>
      subst hs₂
      -- only the slot of the new block is another one than in `s`
      have hsame : id ≠ new → s₁.manager.store.records[id]? = some r := by
        intro hne
        cases hroom with
        | free hroom hq => rwa [hq.store]
        | @evicted s₀ _ victim r₀ tm' hroom hv hq hr' hready' href hrem hq' =>
            have hvictim : victim = new := by
              rw [hq'.pool] at hfree
              exact (List.cons.inj hfree).1
            subst hvictim
            rw [hq'.store]
            rw [Stack.evicted_getElem?, if_neg hne]
            rwa [hq.store]
      by_cases hid : id = new
      · subst hid
        obtain ⟨r₁, hr₁, -⟩ := (hroom.spec hs).1.next_free hfree
        simp only [BlockManager.touched_getElem?, if_true, Stack.admitted_getElem?, hr₁,
          Option.map_some]
        exact ⟨_, rfl, rfl⟩
      · simp only [BlockManager.touched_getElem?, Stack.admitted_getElem?, if_neg hid, hsame hid]
        exact ⟨r, rfl, hready⟩

end Controller.AdmissionController

namespace Session

variable {env : Env π} {s s' : Session π}

-- Every slot that an admission got holds a block, be it another one by now.
def Occupied (s : Session π) : Prop :=
  ∀ a ∈ s.admissions, ∃ r, s.cache.manager.store.records[a.block_id]? = some r ∧ r.state = .Ready

theorem step_occupied (env : Env π) (hs : s.cache.manager.InStep)
    (hnone : s.cache.tier_manager = none) (h : s.Occupied) {op : SessionOp} (hop : op.Public) :
    (step env s op).Occupied := by
  have hstays : ∀ {id : Nat} {r : BlockRecord}, s.cache.manager.store.records[id]? = some r →
      r.state = .Ready → ∃ r', (step env s op).cache.manager.store.records[id]? = some r' ∧
        r'.state = .Ready := by
    intro id r hr hready
    rcases hop with hop | ⟨candidate, rfl⟩
    · obtain ⟨m, hm, hsame, -⟩ := step_looks env hs hop
      obtain ⟨r', hr', hbody⟩ := hsame.record hr
      obtain ⟨-, -, -, -, -, -, -, hstate⟩ := BlockRecord.fields_of_body hbody
      rw [hm]
      exact ⟨r', hr', hstate.trans hready⟩
    · have hq := s.cache.ticked_quiet
      exact (admitBlock_cases env hs candidate).stays_ready (hq.inStep hs)
        (hq.tier_manager.trans hnone) (by rwa [hq.store]) hready
  obtain ⟨new, hnew, henters⟩ := step_admissions env hs op
  intro a ha
  rw [hnew] at ha
  rcases List.mem_append.mp ha with ha | ha
  · obtain ⟨r, hr, hready, -⟩ := (henters a ha).record
    exact ⟨r, hr, hready⟩
  · obtain ⟨r, hr, hready⟩ := h a ha
    exact hstays hr hready

theorem run_occupied (hs : s.cache.manager.InStep) (hnone : s.cache.tier_manager = none)
    (h : s.Occupied) (hrun : Run env (fun _ op => op.Public) s s') : s'.Occupied := by
  have hinv := Steps.invariant (I := fun s : Session π => s.cache.manager.InStep ∧
    s.cache.tier_manager = none ∧ s.Occupied) ?_ hrun ⟨hs, hnone, h⟩
  · exact hinv.2.2
  · rintro s op ⟨hs, hnone, h⟩ hop
    have hone : Run env (fun _ op => op.Public) s (step env s op) := (Steps.refl _).snoc op hop
    exact ⟨step_inStep env hs op, run_untiered hs hnone hone, step_occupied env hs hnone h hop⟩

end Session

namespace Cluster

variable {E : ClusterEnv π ρ} {c₀ c c' : Cluster π ρ} {ok : SessionOp → Prop}

-- A request only takes references out of the index.
theorem request_mem_query (hc : c.Sound) {n : NodeId} {req : RouteRequest} {hash : ContentHash}
    {ref : GlobalBlockRef} (h : ref ∈ (c.step E (.request n req)).index.query hash) :
    ref ∈ c.index.query hash := by
  obtain ⟨x, hasked, -, hindex, -⟩ := request_asked (E := E) hc n req
  rw [hindex, hasked.index] at h
  exact h.1

-- What an operation adds to the index was announced by it.
theorem step_mem_query (hc : c.Sound) {op : ClusterOp} {hash : ContentHash} {ref : GlobalBlockRef}
    (h : ref ∈ (c.step E op).index.query hash) :
    ref ∈ c.index.query hash ∨ op = .announce hash ref := by
  cases op with
  | use node op => exact .inl h
  | request node req => exact .inl (request_mem_query hc h)
  | announce hash' ref' =>
      rcases GlobalIndex.mem_query_announce.mp h with h | ⟨rfl, rfl⟩
      · exact .inl h
      · exact .inr rfl
  | nodeLeave node => exact .inl (GlobalIndex.mem_query_removeNode.mp h).1
  | registerWorker node other => exact .inl h

-- The index knows truthful references only.
theorem run_index_truthful (h₀ : c₀.Fresh) (hrun : Run E (fun _ => True) c₀ c) {hash : ContentHash}
    {ref : GlobalBlockRef} (h : ref ∈ c.index.query hash) : c.Truthful hash ref := by
  induction hrun with
  | refl =>
      rw [h₀.index] at h
      cases h
  | tail hrun hlast ih =>
      obtain ⟨op, hop, rfl⟩ := hlast
      have hc := run_sound h₀ hrun
      have hmoves := step_moves (E := E) (fun _ _ => trivial) (fun _ _ _ _ _ _ _ _ _ => trivial) hop
      refine hmoves.truthful hc ?_
      rcases step_mem_query hc h with h | rfl
      · exact ih h
      · exact hop

-- Where the caches are used through themselves only, a truthful reference is answered
-- with its block or with another generation.
theorem run_served (h₀ : c₀.Fresh) (hrun : Run E SessionOp.Public c₀ c) {hash : ContentHash}
    {ref : GlobalBlockRef} (ht : c.Truthful hash ref) : (c.served ref).status ≠ .NotFound := by
  obtain ⟨a, ha, -, hid, -⟩ := ht
  obtain ⟨capacity, block_size, clock, policy_state, hworker⟩ := h₀.workers ref.node_id
  have hmoves := run_moves_public hrun
  have hstart : (c₀.workers ref.node_id).Occupied := by
    rw [hworker]
    exact fun _ ha => by cases ha
  obtain ⟨hs₀, hnone₀⟩ := h₀.sound ref.node_id
  obtain ⟨r, hr, hready⟩ := Session.run_occupied hs₀ hnone₀ hstart (hmoves ref.node_id) a ha
  have hs := (hmoves.sound h₀.sound ref.node_id).1
  have hpos := (hs.identity hr (by simp [hready])).2.2
  rw [hid] at hr
  simp only [served, LocalCache.served, hr, if_neg (Nat.pos_iff_ne_zero.mp hpos)]
  split
  · simp
  · simp [hready]

-- A request that gets no block for a reference which its worker once gave out takes the
-- reference out of the index, for all hashes, and there it stays away until somebody
-- announces it again.
theorem dead_reference_dropped (h₀ : c₀.Fresh) (hrun : Run E SessionOp.Public c₀ c) {n : NodeId}
    {req : RouteRequest} {ref : GlobalBlockRef} {resp : FetchBlockResponse}
    (hfetch : .fetchBlock ref resp ∈ c.calls E n req)
    (hdead : resp.status = .NotFound ∨ resp.status = .StaleGeneration) :
    (∀ hash, ref ∉ (c.step E (.request n req)).index.query hash) ∧
    ∀ c', Steps (step E)
        (fun c op => Allowed SessionOp.Public c op ∧ ∀ hash, op ≠ .announce hash ref)
        (c.step E (.request n req)) c' →
      ∀ hash, ref ∉ c'.index.query hash := by
  have hany : ∀ {c c' : Cluster π ρ}, Run E SessionOp.Public c c' → Run E (fun _ => True) c c' :=
    Steps.mono fun _ op hop => by
      cases op with
      | use node op => trivial
      | _ => exact hop
  have hc := run_sound h₀ (hany hrun)
  have hnow : ∀ hash, ref ∉ (c.step E (.request n req)).index.query hash := by
    intro hash hmem
    obtain ⟨x, hasked, hcalls, hindex, hiff⟩ := request_asked (E := E) hc n req
    rw [hindex, hasked.index] at hmem
    obtain ⟨hbefore, hkept⟩ := hmem
    have hserved := run_served h₀ hrun (run_index_truthful h₀ (hany hrun) hbefore)
    rw [← hcalls] at hfetch
    refine hkept ((hiff ref).mpr ⟨resp, hfetch, hdead.resolve_left fun hnot => ?_⟩)
    rcases hasked.answers ref resp hfetch with herr | rfl
    · rw [hnot] at herr
      cases herr
    · unfold response at hnot
      cases hstatus : (c.served ref).status with
      | NotFound => exact hserved hstatus
      | Ok | StaleGeneration => simp [hstatus] at hnot
  refine ⟨hnow, fun c' hlater => ?_⟩
  have hinv := Steps.invariant (I := fun c' : Cluster π ρ =>
    Run E SessionOp.Public c₀ c' ∧ ∀ hash, ref ∉ c'.index.query hash) ?_ hlater
    ⟨hrun.snoc _ trivial, hnow⟩
  · exact hinv.2
  · rintro c' op ⟨hrun', hno⟩ ⟨hop, hother⟩
    refine ⟨hrun'.snoc op hop, fun hash hmem => ?_⟩
    rcases step_mem_query (run_sound h₀ (hany hrun')) hmem with hmem | h
    · exact hno hash hmem
    · exact hother hash h

-- Worker 1 has announced a block, and then needed its slot for another one.
private abbrev dropped : Cluster Unit Unit :=
  step Sample.lruCluster (step Sample.lruCluster (Sample.cluster 1)
    (.use 1 (.admitBlock (Sample.candidate 1 [7] [])))) (.use 1 (.dropHandle 0))

private abbrev slotReused : Cluster Unit Unit :=
  step Sample.lruCluster (step Sample.lruCluster dropped
    (.announce (Sample.candidate 1 [7] []).hash ⟨1, 0, 1⟩))
    (.use 1 (.admitBlock (Sample.candidate 1 [8] [])))

theorem dead_reference_dropped_reused :
    (⟨1, 0, 1⟩ : GlobalBlockRef) ∈ slotReused.index.query (Sample.candidate 1 [7] []).hash ∧
    (⟨1, 0, 1⟩ : GlobalBlockRef) ∉ (slotReused.step Sample.lruCluster (.request 0
      ⟨1, Sample.context 1, [7]⟩)).index.query (Sample.candidate 1 [7] []).hash := by
  have htruthful : dropped.Truthful (Sample.candidate 1 [7] []).hash ⟨1, 0, 1⟩ :=
    ⟨⟨Sample.candidate 1 [7] [], 0, 1⟩, by decide +kernel, rfl, rfl, rfl⟩
  have hdropped : Run Sample.lruCluster SessionOp.Public (Sample.cluster 1) dropped :=
    (Steps.snoc (Steps.refl _) (ClusterOp.use 1 (.admitBlock (Sample.candidate 1 [7] [])))
      (.inr ⟨_, rfl⟩)).snoc (.use 1 (.dropHandle 0)) (.inl trivial)
  have hrun : Run Sample.lruCluster SessionOp.Public (Sample.cluster 1) slotReused :=
    (hdropped.snoc (.announce _ _) htruthful).snoc
      (.use 1 (.admitBlock (Sample.candidate 1 [8] [])))
      (.inr ⟨_, rfl⟩)
  have hfetch : .fetchBlock ⟨1, 0, 1⟩ { status := .StaleGeneration } ∈
      slotReused.calls Sample.lruCluster 0 ⟨1, Sample.context 1, [7]⟩ := by decide +kernel
  exact ⟨by decide +kernel, (dead_reference_dropped (Sample.cluster_fresh 1) hrun hfetch
    (.inr rfl)).1 _⟩

end Cluster

end KVCache
