import KVCache.Cluster.Runs

namespace KVCache.Cluster

open Lib Coordinator Pipeline Policy Sim

variable {π ρ : Type} {E : ClusterEnv π ρ} {c c' : Cluster π ρ}

-- What the worker of a reference answers when it is asked for the block.
def answer (c : Cluster π ρ) (ref : GlobalBlockRef) : Except Fault ServeBlockResult :=
  ((LocalCache.serveBlockFetch ref.block_id ref.generation).run (c.workers ref.node_id).cache).1

-- The same by the record of the slot.
def served (c : Cluster π ρ) (ref : GlobalBlockRef) : ServeBlockResult :=
  LocalCache.served (c.workers ref.node_id).cache.manager ref.block_id ref.generation

theorem Sound.answer_eq (hc : c.Sound) (ref : GlobalBlockRef) : c.answer ref = .ok (c.served ref) :=
  LocalCache.serveBlockFetch_untiered (hc ref.node_id).1 (hc ref.node_id).2 _ _

-- A request that has found `c` has led to `x` by what it asked its collaborators so far:
-- the blocks are those of `c`, the index has lost what was invalidated, and every fetch
-- was answered as in `c` or failed in the transport.
structure Asked (c : Cluster π ρ) (x : Cluster π ρ × List RemoteCall) : Prop where
  blocks : ∀ node, (x.1.workers node).cache.tier_manager = none ∧
    (c.workers node).cache.manager.SameBlocks (x.1.workers node).cache.manager
  index : ∀ hash ref, ref ∈ x.1.index.query hash ↔
    ref ∈ c.index.query hash ∧ .invalidate ref ∉ x.2
  answers : ∀ ref resp, .fetchBlock ref resp ∈ x.2 →
    resp.status = .TransportError ∨ resp = response (c.served ref)

namespace Asked

variable {x : Cluster π ρ × List RemoteCall}

theorem start (hc : c.Sound) : Asked c (c, []) :=
  ⟨fun node => ⟨(hc node).2, .refl _⟩, fun _ _ => by simp, fun _ _ h => by cases h⟩

-- Calls that concern neither the caches nor the index.
theorem aside (h : Asked c x) {x' : Cluster π ρ} {new : List RemoteCall}
    (hworkers : x'.workers = x.1.workers) (hindex : x'.index = x.1.index)
    (hnew : ∀ ref, .invalidate ref ∉ new ∧ ∀ resp, .fetchBlock ref resp ∉ new) :
    Asked c (x', x.2 ++ new) := by
  refine ⟨fun node => ?_, fun hash ref => ?_, fun ref resp hmem => ?_⟩
  · rw [hworkers]
    exact h.blocks node
  · rw [hindex, h.index, List.mem_append]
    simp [(hnew ref).1]
  · exact h.answers ref resp ((List.mem_append.mp hmem).resolve_right ((hnew ref).2 resp))

-- A worker looks at its cache.
theorem looked (h : Asked c x) {n : NodeId} {s : Session π} {m : BlockManager}
    (hs : s.cache = { (x.1.workers n).cache with manager := m })
    (hsame : (x.1.workers n).cache.manager.SameBlocks m) : Asked c (x.1.setWorker n s, x.2) := by
  refine ⟨fun node => ?_, h.index, h.answers⟩
  by_cases hn : node = n
  · subst hn
    rw [setWorker_self, hs]
    exact ⟨(h.blocks node).1, (h.blocks node).2.trans hsame⟩
  · rw [setWorker_ne x.1 s hn]
    exact h.blocks node

theorem inStep (h : Asked c x) (hc : c.Sound) (node : NodeId) :
    (x.1.workers node).cache.manager.InStep := (h.blocks node).2.inStep (hc node).1

-- The answer of a worker is on record.
theorem fetched (h : Asked c x) (hc : c.Sound) {n : NodeId} (ref : GlobalBlockRef) :
    ∃ resp x', (fetchBlock E n ref.node_id ref.block_id ref.generation).run x.1 = (.ok resp, x') ∧
      Asked c (x', x.2 ++ [.fetchBlock ref resp]) := by
  have hadd : ∀ {resp : FetchBlockResponse} {x' : Cluster π ρ},
      (resp.status = .TransportError ∨ resp = response (c.served ref)) → Asked c (x', x.2) →
      Asked c (x', x.2 ++ [.fetchBlock ref resp]) := by
    intro resp x' hresp hx'
    refine ⟨hx'.blocks, fun hash ref' => ?_, fun ref' resp' hmem => ?_⟩
    · rw [hx'.index, List.mem_append]
      simp
    · rcases List.mem_append.mp hmem with hmem | hmem
      · exact hx'.answers ref' resp' hmem
      · cases List.mem_singleton.mp hmem
        exact hresp
  rw [fetchBlock_run]
  split
  · exact ⟨_, _, rfl, hadd (.inl rfl) h⟩
  · have hs := h.inStep hc ref.node_id
    obtain ⟨hnone, hsame⟩ := h.blocks ref.node_id
    rw [LocalCache.serveBlockFetch_untiered hs hnone, LocalCache.served_sameBlocks hsame]
    have hlooks : (SessionOp.serveBlockFetch ref.block_id ref.generation).Looks := trivial
    obtain ⟨m, hm, hsame', -⟩ := Session.step_looks (E.env ref.node_id) hs hlooks
    exact ⟨_, _, rfl, hadd (.inr rfl) (h.looked hm hsame')⟩

end Asked

-- No collaborator of a request throws.
theorem asked_returns (hc : c.Sound) (n : NodeId) :
    (wiring E n).toRemote.recorded.ReturnsOn (Asked c) where
  query hash x hx := ⟨_, _, rfl, hx.aside rfl rfl (by simp)⟩
  invalidate node block_id generation x hx := by
    refine ⟨_, rfl, hx.blocks, fun hash ref => ?_, fun ref resp hmem => ?_⟩
    · rw [GlobalIndex.mem_query_invalidate, hx.index, List.mem_append, List.mem_singleton]
      simp only [RemoteCall.invalidate.injEq, not_or, and_assoc]
    · exact hx.answers ref resp ((List.mem_append.mp hmem).resolve_right (by simp))
  chooseReplica ctx refs x hx := ⟨_, _, rfl, hx.aside rfl rfl (by simp)⟩
  fetchBlock node block_id generation x hx := by
    obtain ⟨resp, x', hrun, hasked⟩ := hx.fetched (E := E) hc (n := n) ⟨node, block_id, generation⟩
    refine ⟨resp, _, ?_, hasked⟩
    have hrun' : ((wiring E n).fetchBlock node block_id generation).run x.1 = (.ok resp, x') := hrun
    simp only [Remote.recorded, logged, hrun']
  networkFetchNs payload_bytes x hx := ⟨_, _, rfl, hx.aside rfl rfl (by simp)⟩
  record e x hx := ⟨_, rfl, hx.aside rfl rfl (by simp)⟩

-- Cleaning up after a throw calls nobody.
private theorem run_stages (n : NodeId) (req : RouteRequest) (x : Cluster π ρ × List RemoteCall) :
    ((RequestPipeline.run (wiring E n).recorded req).run x).2.2 =
        ((RequestPipeline.stages (wiring E n).recorded req).run x).2.2 ∧
      ((RequestPipeline.run (wiring E n).recorded req).run x).2.1.index =
        ((RequestPipeline.stages (wiring E n).recorded req).run x).2.1.index := by
  simp only [RequestPipeline.run, Exec.onThrow]
  rcases (RequestPipeline.stages (wiring E n).recorded req).run x with ⟨_ | result, x'⟩
  · exact ⟨rfl, rfl⟩
  · exact ⟨rfl, rfl⟩

-- What a request asks, and what is left of the index when it ends, by a throw or not: the
-- references that it invalidates are those that it met with another generation.
theorem request_asked (hc : c.Sound) (n : NodeId) (req : RouteRequest) :
    ∃ x, Asked c x ∧ x.2 = c.calls E n req ∧ (c.step E (.request n req)).index = x.1.index ∧
      ∀ ref, .invalidate ref ∈ x.2 ↔
        ∃ resp, .fetchBlock ref resp ∈ x.2 ∧ resp.status = .StaleGeneration := by
  obtain ⟨-, hover⟩ := RequestPipeline.run_over (wiring E n) req (c, [])
  obtain ⟨hlog, hindex⟩ := run_stages (E := E) n req (c, [])
  suffices hstages : ∃ x, Asked c x ∧
      x.2 = ((RequestPipeline.stages (wiring E n).recorded req).run (c, [])).2.2 ∧
      ((RequestPipeline.stages (wiring E n).recorded req).run (c, [])).2.1.index = x.1.index ∧
      ∀ ref, .invalidate ref ∈ x.2 ↔
        ∃ resp, .fetchBlock ref resp ∈ x.2 ∧ resp.status = .StaleGeneration by
    obtain ⟨x, hasked, hcalls, hleft, hiff⟩ := hstages
    refine ⟨x, hasked, hcalls.trans hlog.symm, ?_, hiff⟩
    rw [← hleft, ← hindex, step, ← hover]
  have hlooks : (SessionOp.lookupPrefix req.context req.tokens).Looks := trivial
  obtain ⟨m, hm, hsame, -⟩ := Session.step_looks (E.env n) (hc n).1 hlooks
  have hlooked : Asked c (c.setWorker n ((c.workers n).step (E.env n)
      (.lookupPrefix req.context req.tokens)), []) := (Asked.start hc).looked hm hsame
  have hnothing : ∀ ref, RemoteCall.invalidate ref ∈ ([] : List RemoteCall) ↔ ∃ resp,
      RemoteCall.fetchBlock ref resp ∈ ([] : List RemoteCall) ∧
        resp.status = .StaleGeneration := fun ref => by simp
  have hlookup : ∀ {res}, ((LocalCache.lookupPrefix (E.env n) req.context req.tokens).run
      (c.workers n).cache).1 = res → ((wiring E n).recorded.onWorker (Session.lookupPrefix
        (wiring E n).recorded.env req.context req.tokens)).run (c, []) =
        (res, (c.setWorker n ((c.workers n).step (E.env n)
          (.lookupPrefix req.context req.tokens)), [])) := fun h => Prod.ext h rfl
  cases hres : ((LocalCache.lookupPrefix (E.env n) req.context req.tokens).run
      (c.workers n).cache).1 with
  | error e =>
      rw [RequestPipeline.stages, Exec.bind_error (hlookup hres)]
      exact ⟨_, hlooked, rfl, rfl, hnothing⟩
  | ok loc =>
      rw [RequestPipeline.stages, Exec.bind_ok (hlookup hres)]
      by_cases hb : req.context.block_size = 0
      · simp only [RemoteResolutionStage.run, MissingBlockPlanner.plan_zero hb, Exec.bind_run]
        exact ⟨_, hlooked, rfl, rfl, hnothing⟩
      · obtain ⟨remote, x₂, hremote, hasked⟩ := RemoteResolutionStage.run_returns
          (X := (wiring E n).recorded.env.xxh3) (asked_returns (E := E) hc n) hb loc hlooked
        have hiff := RemoteResolutionStage.run_invalidates hremote
        refine ⟨x₂, hasked, ?_⟩
        rw [Exec.bind_ok (show (RemoteResolutionStage.run (wiring E n).recorded.toRemote
          (wiring E n).recorded.env.xxh3 req loc).run _ = _ from hremote)]
        rcases hadm : ((wiring E n).recorded.onWorker (AdmissionStage.admitRemoteBlocks
          (wiring E n).recorded.env remote)).run x₂ with ⟨e | admission, x₃⟩
        · rw [Exec.bind_error hadm]
          obtain ⟨-, rfl⟩ := Prod.mk.inj hadm
          exact ⟨rfl, rfl, hiff⟩
        · rw [Exec.bind_ok hadm]
          obtain ⟨-, rfl⟩ := Prod.mk.inj hadm
          exact ⟨rfl, rfl, hiff⟩

end KVCache.Cluster
