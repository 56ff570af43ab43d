import KVCache.Cluster.Requests
import KVCache.Pipeline.RemoteCalls

namespace KVCache

open Lib Coordinator Pipeline Policy Sim

variable {π ρ σ : Type}

namespace Pipeline

variable {w : Remote σ} {X : XXH3} {req : RouteRequest} {I : σ → Prop}

-- Remote resolution does not get past a block of this hash.
def Stops (w : Remote σ) (hash : ContentHash) (x : σ) : Prop :=
  ∃ q x₁, (w.query hash).run x = (.ok q, x₁) ∧ (q.available = false ∨ q.refs = [] ∨
    ∃ chosen x₂, (w.chooseReplica ⟨hash, 0, 0⟩ q.refs).run x₁ = (.ok chosen, x₂) ∧
      ∀ ref, chosen = some ref → ∃ f x₃,
        (RemoteBlockFetcher.fetch w ref hash).run x₂ = (.ok f, x₃) ∧ f.status ≠ .Ok)

-- What resolution does for the blocks before, which is all but to clean up after a stale one,
-- keeps `I`.
theorem RemoteResolutionStage.Resolves.stops
    (hw : ({ w with invalidate := fun _ _ _ => pure () } : Remote σ).ReturnsOn I) {n bi : Nat}
    {x x' : σ} {candidates : List BlockCandidate} {stale : UInt32}
    (h : Resolves w X req bi n x candidates stale x') (hx : I x) (hlen : candidates.length < n) :
    ∃ y, I y ∧ Stops w (missingBlock X req (bi + candidates.length)).hash y := by
  induction h with
  | done => exact absurd hlen (Nat.not_lt_zero _)
  | unavailable hq hnone => exact ⟨_, hx, _, _, hq, hnone.imp id .inl⟩
  | unchosen hq hsome hc =>
      exact ⟨_, hx, _, _, hq, .inr (.inr ⟨_, _, hc, fun ref h => by cases h⟩)⟩
  | failed hq hsome hc hf hstale hok =>
      refine ⟨_, hx, _, _, hq, .inr (.inr ⟨_, _, hc, fun ref h => ?_⟩)⟩
      cases h
      exact ⟨_, _, hf, hok⟩
  | stale hq hsome hc hf hstale hi he =>
      refine ⟨_, hx, _, _, hq, .inr (.inr ⟨_, _, hc, fun ref h => ?_⟩)⟩
      cases h
      exact ⟨_, _, hf, by simp [hstale]⟩
  | @fetched bi n x x₁ x₂ x₃ x' q ref f candidates stale hq hsome hc hf hok hrest ih =>
      obtain ⟨q', y₁, hq', hx₁⟩ := hw.query (missingBlock X req bi).hash x hx
      cases hq.symm.trans hq'
      obtain ⟨chosen, y₂, hc', hx₂⟩ :=
        hw.chooseReplica ⟨(missingBlock X req bi).hash, 0, 0⟩ q.refs x₁ hx₁
      cases hc.symm.trans hc'
      obtain ⟨f', y₃, hf', hx₃⟩ :=
        RemoteBlockFetcher.fetch_returns hw ref (missingBlock X req bi).hash hx₂
      have hsame : (RemoteBlockFetcher.fetch w ref (missingBlock X req bi).hash).run x₂ =
          (.ok f', y₃) := hf'
      cases hf.symm.trans hsame
      obtain ⟨y, hy, hstops⟩ := ih hx₃ (Nat.lt_of_succ_lt_succ hlen)
      rw [show bi + 1 + candidates.length = bi + (candidates.length + 1) by omega] at hstops
      exact ⟨y, hy, hstops⟩

end Pipeline

namespace Cluster

variable {E : ClusterEnv π ρ} {c x : Cluster π ρ} {n : NodeId} {hash : ContentHash}

-- In the course of a request that has found `c` nothing was done but to look.
structure Consulted (c x : Cluster π ρ) : Prop where
  blocks : ∀ node, (x.workers node).cache.tier_manager = none ∧
    (c.workers node).cache.manager.SameBlocks (x.workers node).cache.manager
  index : x.index = c.index
  registered : x.registered = c.registered

theorem Consulted.start (hc : c.Sound) : Consulted c c :=
  ⟨fun node => ⟨(hc node).2, .refl _⟩, rfl, rfl⟩

theorem Consulted.looked (h : Consulted c x) (hc : c.Sound) {node : NodeId} {op : SessionOp}
    (hop : op.Looks) : Consulted c (x.setWorker node ((x.workers node).step (E.env node) op)) := by
  obtain ⟨hnone, hsame⟩ := h.blocks node
  obtain ⟨m, hm, hsame', -⟩ :=
    Session.step_looks (E.env node) (hsame.inStep (hc node).1) hop
  refine ⟨fun other => ?_, h.index, h.registered⟩
  by_cases hother : other = node
  · subst hother
    rw [setWorker_self, hm]
    exact ⟨hnone, hsame.trans hsame'⟩
  · rw [setWorker_ne x _ hother]
    exact h.blocks other

-- No collaborator throws, and none but the clean-up does more than look.
theorem consulted_returns (hc : c.Sound) (n : NodeId) :
    ({ (wiring E n).toRemote with invalidate := fun _ _ _ => pure () } :
      Remote (Cluster π ρ)).ReturnsOn (Consulted c) where
  query hash x hx := ⟨_, _, rfl, hx⟩
  invalidate node block_id generation x hx := ⟨_, rfl, hx⟩
  chooseReplica ctx refs x hx := ⟨_, _, rfl, hx.blocks, hx.index, hx.registered⟩
  fetchBlock node block_id generation x hx := by
    simp only [wiring, fetchBlock_run]
    split
    · exact ⟨_, _, rfl, hx⟩
    · obtain ⟨hnone, hsame⟩ := hx.blocks node
      rw [LocalCache.serveBlockFetch_untiered (hsame.inStep (hc node).1) hnone]
      exact ⟨_, _, rfl, hx.looked hc trivial⟩
  networkFetchNs payload_bytes x hx := ⟨_, _, rfl, hx.blocks, hx.index, hx.registered⟩
  record e x hx := ⟨_, rfl, hx.blocks, hx.index, hx.registered⟩

-- Worker `n` gets the block of the reference.
structure Fetchable (c : Cluster π ρ) (n : NodeId) (hash : ContentHash) (ref : GlobalBlockRef) :
    Prop where
  registered : c.registered n ref.node_id = true
  status : (c.served ref).status = .Ok
  hash : (c.served ref).hash = hash

theorem Fetchable.response (h : Fetchable c n hash ref) :
    (response (c.served ref)).status = .Ok ∧ (response (c.served ref)).hash = hash := by
  unfold Cluster.response
  rw [h.status]
  exact ⟨rfl, h.hash⟩

-- With the first replica, resolution stops where the index knows of none, if those that it
-- knows of are to be had.
theorem query_nil_of_stops
    (hfirst : ∀ ctx refs st, (E.chooseReplica n ctx refs st).1 = refs.head?) (hc : c.Sound)
    (hx : Consulted c x) (hgood : ∀ ref ∈ c.index.query hash, Fetchable c n hash ref)
    (h : Stops (wiring E n).toRemote hash x) : c.index.query hash = [] := by
  obtain ⟨q, x₁, hq, hcase⟩ := h
  cases hq
  simp only [hx.index] at hcase
  rcases hcase with h | h | ⟨chosen, x₂, hchoose, hfetches⟩
  · cases h
  · exact h
  cases hrefs : c.index.query hash with
  | nil => rfl
  | cons ref rest =>
      rw [hrefs] at hchoose
      have hchosen : chosen = some ref := by
        have hres := Except.ok.inj (congrArg Prod.fst hchoose)
        rw [← hres]
        exact hfirst _ _ _
      obtain ⟨f, x₃, hfetch, hbad⟩ := hfetches ref hchosen
      obtain ⟨z, resp, z', hstart, hresp, -, hcase⟩ := RemoteBlockFetcher.fetch_cases hfetch
      have hx₂ : Consulted c x₂ := by
        rw [← (Prod.mk.inj hchoose).2]
        exact ⟨hx.blocks, hx.index, hx.registered⟩
      have hz : Consulted c z := by
        rw [← (Prod.mk.inj hstart).2]
        exact ⟨hx₂.blocks, hx₂.index, hx₂.registered⟩
      have href : Fetchable c n hash ref := hgood ref (hrefs ▸ List.mem_cons_self)
      obtain ⟨hnone, hsame⟩ := hz.blocks ref.node_id
      have hanswer : resp = Cluster.response (c.served ref) := by
        have hrun : (fetchBlock E n ref.node_id ref.block_id ref.generation).run z =
            (.ok resp, z') := hresp
        rw [fetchBlock_run, hz.registered, href.registered, if_neg (by decide),
          LocalCache.serveBlockFetch_untiered (hsame.inStep (hc ref.node_id).1) hnone,
          LocalCache.served_sameBlocks hsame] at hrun
        exact (Except.ok.inj (Prod.mk.inj hrun).1).symm
      obtain ⟨hstatus, hhash⟩ := href.response
      rw [hanswer, hstatus, hhash] at hcase
      simp at hcase
      exact absurd hcase.1 hbad

end Cluster

end KVCache
