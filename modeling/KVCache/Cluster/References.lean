import KVCache.Cluster.Requests

namespace KVCache

open Lib Controller Coordinator Pipeline Policy Sim

variable {π ρ : Type}

-- The worker answers with an admitted block as long as its slot was not freed, and then
-- with the hash that the block was admitted under.
theorem Session.Incarnations.served_ok {s : Session π} (hi : s.Incarnations)
    (hs : s.cache.manager.InStep) {a : Admission} (ha : a ∈ s.admissions) :
    (LocalCache.served s.cache.manager a.block_id a.generation).status = .Ok ↔
      a.generation = s.cache.frees a.block_id + 1 := by
  constructor
  · intro hok
    obtain ⟨r, hr, hready, hgen, -⟩ := LocalCache.served_ok.mp hok
    rcases hi.generations.record hr with ⟨-, hown⟩ | ⟨hfree, -⟩
    · exact hgen.symm.trans hown
    · rw [hready] at hfree
      cases hfree
  · intro hlive
    obtain ⟨r, hr, hready, -⟩ := (hi.admission a ha).live hlive
    rcases hi.generations.record hr with ⟨-, hown⟩ | ⟨hfree, -⟩
    · rw [hlive, ← hown, LocalCache.served_ready hs hr hready]
    · rw [hready] at hfree
      cases hfree

theorem Session.Incarnations.served_hash {s : Session π} (hi : s.Incarnations)
    (hs : s.cache.manager.InStep) {a : Admission} (ha : a ∈ s.admissions)
    (hok : (LocalCache.served s.cache.manager a.block_id a.generation).status = .Ok) :
    (LocalCache.served s.cache.manager a.block_id a.generation).hash = a.candidate.hash := by
  obtain ⟨r, hr, -, -, hserved⟩ := LocalCache.served_ok.mp hok
  obtain ⟨r', hr', -, hhash⟩ := (hi.admission a ha).live ((hi.served_ok hs ha).mp hok)
  rw [hr] at hr'
  cases hr'
  rw [hserved]
  exact hhash

namespace Cluster

variable {E : ClusterEnv π ρ} {c₀ c c' : Cluster π ρ}

-- No slot of a cache was freed too often.
def FewFrees (c : Cluster π ρ) : Prop := ∀ node, (c.workers node).cache.FewFrees

-- The incarnation that a reference names is in its slot.
def Caches (c : Cluster π ρ) (ref : GlobalBlockRef) : Prop :=
  ∃ r, (c.workers ref.node_id).cache.manager.store.records[ref.block_id]? = some r ∧
    r.state = .Ready ∧ r.generation = ref.generation

-- In `c` a fetch of `ref` is answered with `status` by its worker or the transport: when
-- somebody asks the worker, or in the course of a request.
inductive Answers (E : ClusterEnv π ρ) (c : Cluster π ρ) (ref : GlobalBlockRef) :
    FetchBlockStatus → Prop
  | asked {result : ServeBlockResult} (h : c.answer ref = .ok result) :
      Answers E c ref (response result).status
  | fetched {n : NodeId} {req : RouteRequest} {resp : FetchBlockResponse}
      (h : .fetchBlock ref resp ∈ c.calls E n req) : Answers E c ref resp.status

theorem response_status {result : ServeBlockResult} :
    (response result).status = .Ok ↔ result.status = .Ok := by
  unfold response
  cases result.status <;> simp

theorem fetched_answer (hc : c.Sound) {n : NodeId} {req : RouteRequest} {ref : GlobalBlockRef}
    {resp : FetchBlockResponse} (h : .fetchBlock ref resp ∈ c.calls E n req) :
    resp.status = .TransportError ∨ resp = response (c.served ref) := by
  obtain ⟨x, hasked, hcalls, -⟩ := request_asked (E := E) hc n req
  exact hasked.answers ref resp (hcalls ▸ h)

theorem Answers.eq (hc : c.Sound) {ref : GlobalBlockRef} {status : FetchBlockStatus}
    (h : Answers E c ref status) :
    status = .TransportError ∨ status = (response (c.served ref)).status := by
  cases h with
  | asked h =>
      rw [hc.answer_eq ref] at h
      cases h
      exact .inr rfl
  | fetched h => exact (fetched_answer hc h).imp id (congrArg FetchBlockResponse.status)

theorem caches_iff (hc : c.Sound) (ref : GlobalBlockRef) :
    c.Caches ref ↔ (c.served ref).status = .Ok := by
  constructor
  · rintro ⟨r, hr, hready, hgen⟩
    rw [served, ← hgen, LocalCache.served_ready (hc ref.node_id).1 hr hready]
  · intro hok
    obtain ⟨r, hr, hready, hgen, -⟩ := LocalCache.served_ok.mp hok
    exact ⟨r, hr, hready, hgen⟩

section Run

variable {ok : SessionOp → Prop}

theorem run_sound (h₀ : c₀.Fresh) (hrun : Run E (fun _ => True) c₀ c) : c.Sound :=
  (run_moves_any hrun).sound h₀.sound

theorem run_incarnations (h₀ : c₀.Fresh) (hrun : Run E (fun _ => True) c₀ c) (hfew : c.FewFrees)
    (node : NodeId) : (c.workers node).Incarnations := by
  obtain ⟨capacity, block_size, clock, policy_state, hworker⟩ := h₀.workers node
  have hstart : (c₀.workers node).Incarnations := by
    rw [hworker]
    exact ⟨Stack.new_generations capacity block_size clock policy_state, fun _ ha => by cases ha⟩
  exact (Session.run_incarnations (h₀.sound node).1 hstart (run_moves_any hrun node)
    (hfew node)).1

-- A reference that is not answered with its block once is not answered with it any more.
theorem dead_stays_dead (h₀ : c₀.Fresh) (hrun : Run E (fun _ => True) c₀ c) (hfew : c.FewFrees)
    (hrun' : Run E (fun _ => True) c c') (hfew' : c'.FewFrees) {hash : ContentHash}
    {ref : GlobalBlockRef} (ht : c.Truthful hash ref) (hdead : (c.served ref).status ≠ .Ok) :
    (c'.served ref).status ≠ .Ok := by
  obtain ⟨a, ha, -, hid, hgen⟩ := ht
  have hi := run_incarnations h₀ hrun hfew ref.node_id
  have hi' := run_incarnations h₀ (hrun.trans hrun') hfew' ref.node_id
  have hs := (run_sound h₀ hrun ref.node_id).1
  have hs' := (run_sound h₀ (hrun.trans hrun') ref.node_id).1
  have hmoves := run_moves_any hrun' ref.node_id
  have hle := (Session.run_incarnations hs hi hmoves (hfew' ref.node_id)).2 a.block_id
  have hused := (hi.admission a ha).le
  unfold served at hdead ⊢
  rw [← hid, ← hgen] at hdead ⊢
  rw [ne_eq, hi.served_ok hs ha] at hdead
  rw [ne_eq, hi'.served_ok hs' (Session.run_admissions hs hmoves ha)]
  omega

theorem served_hash (h₀ : c₀.Fresh) (hrun : Run E (fun _ => True) c₀ c) (hfew : c.FewFrees)
    {hash : ContentHash} {ref : GlobalBlockRef} (ht : c.Truthful hash ref)
    (hok : (c.served ref).status = .Ok) : (c.served ref).hash = hash := by
  obtain ⟨a, ha, rfl, hid, hgen⟩ := ht
  have hi := run_incarnations h₀ hrun hfew ref.node_id
  unfold served at hok ⊢
  rw [← hid, ← hgen] at hok ⊢
  exact hi.served_hash (run_sound h₀ hrun ref.node_id).1 ha hok

end Run

-- A fetch from a worker ends as its answer says.
theorem fetch_run (hc : c.Sound) (n : NodeId) (ref : GlobalBlockRef) (hash : ContentHash) :
    ∃ f x, (RemoteBlockFetcher.fetch (wiring E n).toRemote ref hash).run c = (.ok f, x) ∧
      (f.status = .Ok → f.hash = hash) ∧
      (f.status = .HashMismatch → (c.served ref).status = .Ok ∧ (c.served ref).hash ≠ hash) := by
  obtain ⟨f, x, hrun, -⟩ :=
    RemoteBlockFetcher.fetch_returns (asked_returns (E := E) hc n) ref hash (Asked.start hc)
  obtain ⟨hres, hpart⟩ := RemoteBlockFetcher.fetch_over (wiring E n).toRemote ref hash (c, [])
  rw [hrun] at hres hpart
  have hfetch : (RemoteBlockFetcher.fetch (wiring E n).toRemote ref hash).run c = (.ok f, x.1) :=
    Prod.ext hres.symm hpart.symm
  refine ⟨f, x.1, hfetch, fun hok => (RemoteBlockFetcher.fetch_ok hfetch hok).1, fun hmis => ?_⟩
  obtain ⟨x₁, resp, x₂, hstart, hresp, -, hcase⟩ := RemoteBlockFetcher.fetch_cases hfetch
  have hx₁ := (Prod.mk.inj hstart).2
  have hasked : Asked c (x₁, [] ++ []) := by
    rw [← hx₁]
    exact (Asked.start hc).aside rfl rfl (by simp)
  obtain ⟨resp', x', hresp', hasked'⟩ := hasked.fetched (E := E) hc (n := n) ref
  have hsame : resp = resp' := by
    have h : (fetchBlock E n ref.node_id ref.block_id ref.generation).run x₁ = (.ok resp, x₂) :=
      hresp
    rw [hresp'] at h
    exact Except.ok.inj (Prod.mk.inj h).1.symm
  have hanswer := hasked'.answers ref resp' (List.mem_append_right _ (List.mem_singleton_self _))
  rw [← hsame] at hanswer
  rcases hcase with ⟨-, h⟩ | ⟨-, h⟩ | ⟨-, h⟩ | ⟨hok, hne, -⟩ | ⟨-, -, h, -⟩
  · rw [hmis] at h; cases h
  · rw [hmis] at h; cases h
  · rw [hmis] at h; cases h
  · rcases hanswer with h | rfl
    · rw [hok] at h
      cases h
    · have hserved := response_status.mp hok
      refine ⟨hserved, fun heq => hne ?_⟩
      simp only [response, hserved]
      exact heq
  · rw [hmis] at h; cases h

-- References that were announced truthfully, however late, are safe to fetch: whoever
-- fetches one gets the block that it was announced for or none, one that its worker has
-- once refused is refused for good, and a request invalidates none of a block that is there.
theorem references_safe (h₀ : c₀.Fresh) (hrun : Run E (fun _ => True) c₀ c) (hfew : c.FewFrees) :
    (∀ n hash ref, c.Truthful hash ref → ∃ f x,
      (RemoteBlockFetcher.fetch (wiring E n).toRemote ref hash).run c = (.ok f, x) ∧
        (f.status = .Ok → f.hash = hash) ∧ f.status ≠ .HashMismatch) ∧
    (∀ n req hash ref resp, c.Truthful hash ref → .fetchBlock ref resp ∈ c.calls E n req →
      resp.status = .Ok → resp.hash = hash) ∧
    (∀ hash ref, c.Truthful hash ref →
      Answers E c ref .NotFound ∨ Answers E c ref .StaleGeneration →
      ∀ c', Run E (fun _ => True) c c' → c'.FewFrees → ¬ Answers E c' ref .Ok) ∧
    (∀ n req ref, .invalidate ref ∈ c.calls E n req → ¬ c.Caches ref ∧
      ∀ hash, c.Truthful hash ref →
        ∀ c', Run E (fun _ => True) c c' → c'.FewFrees → ¬ c'.Caches ref) := by
  have hc := run_sound h₀ hrun
  refine ⟨fun n hash ref ht => ?_, fun n req hash ref resp ht hfetch hok => ?_,
    fun hash ref ht hdead c' hrun' hfew' hanswer => ?_, fun n req ref hinv => ?_⟩
  · obtain ⟨f, x, hfetch, hhash, hmis⟩ := fetch_run (E := E) hc n ref hash
    refine ⟨f, x, hfetch, hhash, fun hstatus => ?_⟩
    obtain ⟨hok, hne⟩ := hmis hstatus
    exact hne (served_hash h₀ hrun hfew ht hok)
  · rcases fetched_answer hc hfetch with h | rfl
    · rw [h] at hok
      cases hok
    · have hserved := response_status.mp hok
      simp only [response, hserved]
      exact served_hash h₀ hrun hfew ht hserved
  · have hrefused : (c.served ref).status ≠ .Ok := by
      intro hok
      have hall := response_status.mpr hok
      rcases hdead with h | h <;> rcases h.eq hc with h | h
      · cases h
      · rw [hall] at h; cases h
      · cases h
      · rw [hall] at h; cases h
    have hrefused' := dead_stays_dead h₀ hrun hfew hrun' hfew' ht hrefused
    rcases hanswer.eq (run_sound h₀ (hrun.trans hrun')) with h | h
    · cases h
    · exact hrefused' (response_status.mp h.symm)
  · have hrefused : (c.served ref).status ≠ .Ok := by
      obtain ⟨x, hasked, hcalls, -, hiff⟩ := request_asked (E := E) hc n req
      obtain ⟨resp, hfetch, hstale⟩ := (hiff ref).mp (hcalls ▸ hinv)
      intro hok
      rcases hasked.answers ref resp hfetch with h | rfl
      · rw [hstale] at h
        cases h
      · rw [response_status.mpr hok] at hstale
        cases hstale
    refine ⟨fun h => hrefused ((caches_iff hc ref).mp h), fun hash ht c' hrun' hfew' h => ?_⟩
    exact dead_stays_dead h₀ hrun hfew hrun' hfew' ht hrefused
      ((caches_iff (run_sound h₀ (hrun.trans hrun')) ref).mp h)

-- Worker 1 has admitted a block and announced it.
private abbrev announced : Cluster Unit Unit :=
  step Sample.lruCluster (step Sample.lruCluster (Sample.cluster 1)
    (.use 1 (.admitBlock (Sample.candidate 1 [7] []))))
    (.announce (Sample.candidate 1 [7] []).hash ⟨1, 0, 1⟩)

private theorem announced_truthful : (step Sample.lruCluster (Sample.cluster 1)
    (.use 1 (.admitBlock (Sample.candidate 1 [7] [])))).Truthful
      (Sample.candidate 1 [7] []).hash ⟨1, 0, 1⟩ :=
  ⟨⟨Sample.candidate 1 [7] [], 0, 1⟩, by decide +kernel, rfl, rfl, rfl⟩

-- The block was evicted since, and its slot has another one.
private abbrev overwritten : Cluster Unit Unit :=
  (announced.step Sample.lruCluster (.use 1 (.dropHandle 0))).step Sample.lruCluster
    (.use 1 (.admitBlock (Sample.candidate 1 [8] [])))

theorem references_safe_overwritten :
    (∃ f x, (RemoteBlockFetcher.fetch (wiring Sample.lruCluster 0).toRemote ⟨1, 0, 1⟩
      (Sample.candidate 1 [7] []).hash).run overwritten = (.ok f, x) ∧
        (f.status = .Ok → f.hash = (Sample.candidate 1 [7] []).hash) ∧
        f.status ≠ .HashMismatch) ∧
      ∀ c', Run Sample.lruCluster (fun _ => True) overwritten c' → c'.FewFrees →
        ¬ Answers Sample.lruCluster c' ⟨1, 0, 1⟩ .Ok := by
  have hrun : Run Sample.lruCluster (fun _ => True) (Sample.cluster 1) overwritten :=
    (((Steps.snoc (Steps.refl _) (ClusterOp.use 1 (.admitBlock (Sample.candidate 1 [7] [])))
      trivial).snoc _ announced_truthful).snoc (ClusterOp.use 1 (.dropHandle 0)) trivial).snoc
      (ClusterOp.use 1 (.admitBlock (Sample.candidate 1 [8] []))) trivial
  have hfew : overwritten.FewFrees := by
    intro node id
    refine lt_of_le_of_lt List.countP_le_length ?_
    by_cases hnode : node = 1
    · subst hnode
      decide +kernel
    · have hworker : overwritten.workers node = (Sample.cluster 1).workers node := by
        simp only [overwritten, step, setWorker_ne _ _ hnode]
      rw [hworker]
      exact (by decide : 0 < 2 ^ 64 - 1)
  have htruthful : overwritten.Truthful (Sample.candidate 1 [7] []).hash ⟨1, 0, 1⟩ :=
    ⟨⟨Sample.candidate 1 [7] [], 0, 1⟩, by decide +kernel, rfl, rfl, rfl⟩
  have hstale : Answers Sample.lruCluster overwritten ⟨1, 0, 1⟩ .StaleGeneration := by
    have hanswer : overwritten.answer ⟨1, 0, 1⟩ = .ok { status := .StaleGeneration } := by
      decide +kernel
    exact .asked hanswer
  have hsafe := references_safe (Sample.cluster_fresh 1) hrun hfew
  exact ⟨hsafe.1 0 _ _ htruthful, hsafe.2.2.1 _ _ htruthful (.inr hstale)⟩

end Cluster

end KVCache
