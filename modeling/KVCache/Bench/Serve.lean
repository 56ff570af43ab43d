import KVCache.Bench.Bench
import KVCache.Cluster.Progress

namespace KVCache.Bench

open Lib Cluster Controller Coordinator Pipeline Policy Sim

variable {κ π ρ : Type}

-- Whoever hashes a block of a request gets the hash that the planner looks for.
theorem hash_of_blockAt {X : XXH3} {req : RouteRequest} {bi : Nat}
    {candidate : BlockCandidate} (h : BlockAt req bi candidate) (hbi : bi < fullBlocks req)
    (hhashed : candidate.Hashed X) : candidate.hash = (missingBlock X req bi).hash := by
  rw [hhashed _ (h.length hbi), h.index hbi, h.context, h.block_index, h.tokens, List.drop_take,
    Nat.succ_mul, Nat.add_sub_cancel_left]
  rfl

section Candidate

variable {X : XXH3} {req : BenchRequest} {bi : Nat}

theorem block_size_ne_zero (req : BenchRequest) : (routeRequest req).context.block_size ≠ 0 := by
  simp [routeRequest, makeCtx, BLOCK_SIZE]

-- No candidate is made of tokens beyond the end of the request.
theorem makeCandidate_returns (hbi : bi < fullBlocks (routeRequest req)) :
    ∃ candidate, makeCandidate X makeCtx (UInt32.ofNat bi) req.tokens = .ok candidate ∧
      BlockAt (routeRequest req) bi candidate ∧ candidate.Hashed X := by
  obtain ⟨hstart, hnext⟩ := block_product hbi (block_size_ne_zero req)
  have hend : (bi + 1) * BLOCK_SIZE.toNat ≤ req.tokens.length := block_end_le_length hbi
  have hblock : readTokens "makeCandidate: block out of range" req.tokens
      (UInt32.ofNat bi * BLOCK_SIZE).toNat BLOCK_SIZE.toNat =
      .ok (blockTokens (routeRequest req) bi) := by
    have hstart' : (UInt32.ofNat bi * BLOCK_SIZE).toNat = bi * BLOCK_SIZE.toNat := hstart
    rw [hstart', readTokens, if_pos (by rw [← Nat.succ_mul]; exact hend)]
    rfl
  have htoks : readTokens "makeCandidate: tokens out of range" req.tokens 0
      ((UInt32.ofNat bi + 1) * BLOCK_SIZE).toNat =
      .ok (req.tokens.take ((bi + 1) * BLOCK_SIZE.toNat)) := by
    have hnext' : ((UInt32.ofNat bi + 1) * BLOCK_SIZE).toNat = (bi + 1) * BLOCK_SIZE.toNat := hnext
    rw [hnext', readTokens, if_pos (by omega), List.drop_zero]
  simp only [makeCandidate, hblock, htoks]
  refine ⟨_, rfl, ⟨rfl, rfl, rfl⟩, ?_⟩
  exact fetched_hashed (f := ⟨.Ok, [], (missingBlock X (routeRequest req) bi).hash, ⟨0, 0, 0⟩⟩)
    hbi rfl

end Candidate

-- How far the worker of a request has got since `c`, in a bench that started in `c₀`.
structure Going (E : ClusterEnv π ρ) (c₀ c : Cluster π ρ) (n : NodeId)
    (K : Nat → Nat → Session π → Prop) (bi m : Nat) (x : Cluster π ρ) : Prop where
  run : Cluster.Run E (Uses E) c₀ x
  worker : Progress (E.env n) K (c.workers n) bi m (x.workers n)
  others : ∀ node, node ≠ n → Served (E.env node) (c.workers node) (x.workers node)
  registered : x.registered = c.registered

section Going

variable {E : ClusterEnv π ρ} {c₀ c x : Cluster π ρ} {n : NodeId}
  {K : Nat → Nat → Session π → Prop} {bi m : Nat} {req : BenchRequest}

-- The worker goes on, the others stay.
theorem Going.setWorker (h : Going E c₀ c n K bi m x) {s : Session π} {bi' m' : Nat}
    (hrun : Cluster.Run E (Uses E) x (x.setWorker n s))
    (hworker : Progress (E.env n) K (c.workers n) bi' m' s) :
    Going E c₀ c n K bi' m' (x.setWorker n s) := by
  refine ⟨h.run.trans hrun, ?_, fun node hne => ?_, h.registered⟩
  · rw [setWorker_self]
    exact hworker
  · rw [setWorker_ne x s hne]
    exact h.others node hne

-- The end of a scope that was entered at `x` at the latest.
theorem Going.endScope (h : Going E c₀ c n K bi m x)
    (hK : Collects (E.env n) (routeRequest req) (c.workers n) K)
    (hs : (c.workers n).cache.manager.InStep) {i : Nat} (hle : i ≤ (x.workers n).handles.length)
    (hscope : (c.workers n).handles <+: (x.workers n).handles.take i) :
    Going E c₀ c n K bi m (x.setWorker n ((x.workers n).unwind (E.env n) i)) := by
  have hunwind := Session.unwind_run (E.env n) i (x.workers n)
  refine h.setWorker (run_setWorker (hunwind.mono fun _ _ hop => hop.hashed)) ?_
  refine h.worker.looked hK hs hunwind ?_
  rw [(Session.unwind_spec (E.env n) i (x.workers n) hle).1]
  exact hscope.trans (List.prefix_append _ _)

-- The block is admitted or not, and announced if it was; either way its handle is gone.
theorem computeBlock_returns (hpick : (E.env n).eviction.PicksCandidate) (hc : c.Sound)
    (hK : Collects (E.env n) (routeRequest req) (c.workers n) K) (h : Going E c₀ c n K bi m x)
    (hbi : bi < fullBlocks (routeRequest req)) :
    ∃ x' m', (computeBlock E n req.tokens (UInt32.ofNat bi)).run x = (.ok (), x') ∧
      Going E c₀ c n K (bi + 1) m' x' ∧
      (∀ hash, x.index.query hash ≠ [] → x'.index.query hash ≠ []) ∧
      (m' ≤ m ∨ m' = m + 1 ∧
        x'.index.query (missingBlock E.xxh3 (routeRequest req) bi).hash ≠ []) := by
  obtain ⟨hs, hnone⟩ := hc n
  obtain ⟨cand, hmake, hat, hhashed⟩ := makeCandidate_returns (X := E.xxh3) hbi
  obtain ⟨res, hres, hhandle, hnext⟩ := h.worker.admitted hK hpick hs hnone hbi hat
  have hadmit : ((wiring E n).onWorker (Session.admitBlock (E.env n) cand)).run x =
      (.ok res, x.setWorker n ((x.workers n).step (E.env n) (.admitBlock cand))) :=
    Prod.ext hres rfl
  have huses : Uses E (.admitBlock cand) := by
    refine ⟨.inr ⟨cand, rfl⟩, fun candidate hop => ?_⟩
    obtain rfl := SessionOp.admitBlock.inj hop
    exact hhashed
  have hentered := h.setWorker (run_setWorker ((Steps.refl _).snoc _ huses)) hnext
  have happend : (x.workers n).handles <+:
      ((x.workers n).step (E.env n) (.admitBlock cand)).handles := List.prefix_append _ _
  -- the handle of the block dies
  have hended := hentered.endScope hK hs (i := (x.workers n).handles.length)
    (by rw [setWorker_self]; exact happend.length_le)
    (by rw [setWorker_self, ← List.prefix_iff_eq_take.mp happend]; exact h.worker.handles)
  simp only [computeBlock, Exec.check_bind_run, hmake, Exec.read_bind_run]
  rw [Exec.bind_ok hadmit]
  obtain ⟨status, handle⟩ := res
  cases handle with
  | none =>
      have hnot : ¬ status = .Admitted := by simpa using hhandle
      rw [if_neg hnot] at hended
      refine ⟨_, _, ?_, hended, fun _ h => h, .inl (le_refl m)⟩
      cases status <;> rfl
  | some handle =>
      obtain rfl : status = .Admitted := by simpa using hhandle
      refine ⟨_, _, rfl, ⟨hended.run.snoc (.announce _ _) ?_, hended.worker, hended.others,
        hended.registered⟩, fun hash hknown => ?_, .inr ⟨rfl, ?_⟩⟩
      · simp only [Allowed, Truthful, setWorker_self,
          (Session.unwind_spec (E.env n) _ _ happend.length_le).2]
        exact ⟨_, Session.admission_noted hres, rfl, rfl, rfl⟩
      · obtain ⟨ref, hmem⟩ := List.exists_mem_of_ne_nil _ hknown
        exact List.ne_nil_of_mem (GlobalIndex.mem_query_announce.mpr (.inl hmem))
      · rw [← hash_of_blockAt hat hbi hhashed]
        exact List.ne_nil_of_mem (GlobalIndex.mem_query_announce.mpr (.inr ⟨rfl, rfl⟩))

end Going

-- The rigs before the first request.
structure Ready (E : ClusterEnv π ρ) (c₀ : Cluster π ρ) : Prop where
  picks : ∀ node, (E.env node).eviction.PicksCandidate
  fresh : c₀.Fresh
  block_size : ∀ node, (c₀.workers node).cache.block_size = BLOCK_SIZE.toNat

-- The rigs between two requests: no handle is alive.
structure Rested (E : ClusterEnv π ρ) (c₀ c : Cluster π ρ) : Prop where
  run : Cluster.Run E (Uses E) c₀ c
  idle : ∀ node, (c.workers node).Idle

section Serve

variable {E : ClusterEnv π ρ} {c₀ c : Cluster π ρ} {n : NodeId}
  {K : Nat → Nat → Session π → Prop} {req : BenchRequest}

theorem Rested.moves (h : Rested E c₀ c) : Moves E SessionOp.Public c₀ c :=
  run_moves_public (run_mono (fun _ hop => hop.1) h.run)

theorem Rested.sound (h : Rested E c₀ c) (hr : Ready E c₀) : c.Sound := h.moves.sound hr.fresh.sound

theorem Rested.block_size (h : Rested E c₀ c) (hr : Ready E c₀) (node : NodeId) :
    (c.workers node).cache.block_size = BLOCK_SIZE.toNat :=
  (Session.run_inStep (h.moves node) (hr.fresh.sound node).1).2.trans (hr.block_size node)

-- The round of a loop with the counter at `bi`.
theorem loopFrom_round {first total : UInt32} {before after : List UInt32} {bi : UInt32}
    (h : before ++ bi :: after = loopFrom first total) :
    bi = UInt32.ofNat (first.toNat + before.length) ∧
      first.toNat + before.length < total.toNat := by
  have hget : (loopFrom first total)[before.length]? = some bi := by
    rw [← h]
    simp
  obtain ⟨hlt, hval⟩ := List.getElem?_eq_some_iff.mp hget
  rw [loopFrom, List.length_map, List.length_range'] at hlt
  simp only [loopFrom, List.getElem_map, List.getElem_range'_1] at hval
  exact ⟨hval.symm, by omega⟩

theorem length_loopFrom (first total : UInt32) :
    (loopFrom first total).length = total.toNat - first.toNat := by
  rw [loopFrom, List.length_map, List.length_range']

-- What the index knows in `x` after a request of worker `n` in `c`: all that it knew before it
-- began to compute, and the blocks from `first` on, if all up to `bi` were admitted.
structure Announced (E : ClusterEnv π ρ) (c : Cluster π ρ) (n : NodeId) (req : BenchRequest)
    (first bi m : Nat) (x : Cluster π ρ) : Prop where
  grows : ∀ hash, (c.step E (.request n (routeRequest req))).index.query hash ≠ [] →
    x.index.query hash ≠ []
  blocks : m = bi → ∀ j, first ≤ j → j < bi →
    x.index.query (missingBlock E.xxh3 (routeRequest req) j).hash ≠ []

theorem Announced.next {x x' : Cluster π ρ} {first bi m m' : Nat}
    (h : Announced E c n req first bi m x) (hle : m ≤ bi)
    (hgrows : ∀ hash, x.index.query hash ≠ [] → x'.index.query hash ≠ [])
    (hone : m' ≤ m ∨ m' = m + 1 ∧
      x'.index.query (missingBlock E.xxh3 (routeRequest req) bi).hash ≠ []) :
    Announced E c n req first (bi + 1) m' x' := by
  refine ⟨fun hash hknown => hgrows hash (h.grows hash hknown), fun hm j hj hlt => ?_⟩
  obtain ⟨hsucc, hlast⟩ := hone.resolve_left (by omega)
  by_cases hbi : j = bi
  · rw [hbi]
    exact hlast
  · exact hgrows _ (h.blocks (by omega) j hj (by omega))

-- How a request goes in `c` that worker `n` serves: the worker gets as far as `last` by what it
-- had and by what it fetched, `m` blocks in all, and `count` of these it counts as fetched.
structure Stopped (E : ClusterEnv π ρ) (c : Cluster π ρ) (n : NodeId) (req : BenchRequest)
    (K : Nat → Nat → Session π → Prop) (count last m : Nat) : Prop where
  had : ∃ s, K last m s
  le_count : m ≤ (LocalCache.localHits (E.env n) (c.workers n).cache makeCtx req.tokens).length +
    count
  count_le : (LocalCache.localHits (E.env n) (c.workers n).cache makeCtx req.tokens).length +
    count ≤ last
  le : last ≤ fullBlocks (routeRequest req)
  known : ∀ k < count, c.index.query (missingBlock E.xxh3 (routeRequest req)
    ((LocalCache.localHits (E.env n) (c.workers n).cache makeCtx req.tokens).length + k)).hash ≠ []
  stops : last < fullBlocks (routeRequest req) → ∃ x, Consulted c x ∧
    Stops (wiring E n).toRemote (missingBlock E.xxh3 (routeRequest req) last).hash x

-- What is left of a request that worker `n` serves between `s` and `s'`: no handle, and the
-- `m` blocks that the worker got, which has gone through all of them. It has counted the blocks
-- that were there before, and `count` blocks of others. Those that it computed from `first` on
-- are known to the index, if they were all admitted.
structure Serves (E : ClusterEnv π ρ) (c₀ : Cluster π ρ) (total : UInt32) (req : BenchRequest)
    (n : NodeId) (K : Nat → Nat → Session π → Prop) (s s' : State π ρ κ)
    (m count last first : Nat) : Prop where
  rested : Rested E c₀ s'.cluster
  le : m ≤ total.toNat
  had : K total.toNat m (s'.cluster.workers n)
  others : ∀ node, node ≠ n →
    Served (E.env node) (s.cluster.workers node) (s'.cluster.workers node)
  local_hits : s'.local_hits = Function.update s.local_hits n (s.local_hits n + UInt32.ofNat
    (LocalCache.localHits (E.env n) (s.cluster.workers n).cache makeCtx req.tokens).length)
  remote_hits :
    s'.remote_hits = Function.update s.remote_hits n (s.remote_hits n + UInt32.ofNat count)
  stopped : Stopped E s.cluster n req K count last first
  computed : m = total.toNat → ∀ j, first ≤ j → j < total.toNat →
    s'.cluster.index.query (missingBlock E.xxh3 (routeRequest req) j).hash ≠ []
  registered : s'.cluster.registered = s.cluster.registered
  grows : ∀ hash, (s.cluster.step E (.request n (routeRequest req))).index.query hash ≠ [] →
    s'.cluster.index.query hash ≠ []
  routing_policy : s'.routing_policy = s.routing_policy
  total_prefix_possible : s'.total_prefix_possible = s.total_prefix_possible

theorem Stopped.of_answered {result : RouteResult} {count bi : Nat}
    (h : Answered E c n (routeRequest req) K result count bi) :
    Stopped E c n req K count bi result.reusable_blocks.length :=
  ⟨⟨_, h.worker.had⟩, h.le_count, h.count_le, h.le, h.known, h.stops⟩

-- The loop over the blocks from `first` on computes all of them.
theorem computeBlocks_returns (hpick : (E.env n).eviction.PicksCandidate) (hc : c.Sound)
    (hK : Collects (E.env n) (routeRequest req) (c.workers n) K) {first total : UInt32}
    (htotal : total.toNat = fullBlocks (routeRequest req)) (hle : first.toNat ≤ total.toNat)
    {m : Nat} {x : Cluster π ρ} (h : Going E c₀ c n K first.toNat m x)
    (hannounced : Announced E c n req first.toNat first.toNat m x) :
    ∃ x' m', ((loopFrom first total).forM (computeBlock E n req.tokens)).run x = (.ok (), x') ∧
      Going E c₀ c n K total.toNat m' x' ∧
      Announced E c n req first.toNat total.toNat m' x' := by
  have hround : ∀ before bi after, before ++ bi :: after = loopFrom first total →
      Exec.Yields (fun y => ∃ m, Going E c₀ c n K (first.toNat + before.length) m y ∧
          Announced E c n req first.toNat (first.toNat + before.length) m y)
        (computeBlock E n req.tokens bi)
        fun _ y => ∃ m, Going E c₀ c n K (first.toNat + (before ++ [bi]).length) m y ∧
          Announced E c n req first.toNat (first.toNat + (before ++ [bi]).length) m y := by
    rintro before bi after hsplit y ⟨m, hgoing, hannounced⟩
    obtain ⟨rfl, hlt⟩ := loopFrom_round hsplit
    obtain ⟨y', m', hrun, hnext, hgrows, hone⟩ :=
      computeBlock_returns hpick hc hK hgoing (htotal ▸ hlt)
    refine ⟨(), y', hrun, m', ?_⟩
    rw [List.length_append]
    exact ⟨hnext, hannounced.next hgoing.worker.le hgrows hone⟩
  obtain ⟨⟨⟩, x', hrun, m', hdone⟩ := Exec.Yields.forM (I := fun done y => ∃ m,
    Going E c₀ c n K (first.toNat + done.length) m y ∧
      Announced E c n req first.toNat (first.toNat + done.length) m y) _ hround x
    ⟨m, h, hannounced⟩
  rw [length_loopFrom, Nat.add_sub_cancel' hle] at hdone
  exact ⟨x', m', hrun, hdone⟩

-- The end of a request. The handles that the worker got since are gone.
theorem Going.ends {bi m : Nat} {x : Cluster π ρ} (h : Going E c₀ c n K bi m x)
    (hK : Collects (E.env n) (routeRequest req) (c.workers n) K)
    (hs : (c.workers n).cache.manager.InStep) (hidle : ∀ node, (c.workers node).Idle) :
    let x' := x.setWorker n ((x.workers n).unwind (E.env n) (c.workers n).handles.length)
    Going E c₀ c n K bi m x' ∧ Rested E c₀ x' := by
  have hended := h.endScope hK hs h.worker.handles.length_le
    (by rw [← List.prefix_iff_eq_take.mp h.worker.handles])
  refine ⟨hended, hended.run, fun node => ?_⟩
  by_cases hn : node = n
  · subst hn
    rw [setWorker_self]
    exact (hidle node).unwind h.worker.handles
  · have hsame := served_handles (hended.others node hn)
    intro handle hmem
    rw [hsame] at hmem
    exact hidle node handle hmem

-- `serve`, when its steps return.
theorem serve_run {s : State π ρ κ} {total : UInt32} {c₁ x : Cluster π ρ} {result : RouteResult}
    (hrequest : (RequestPipeline.run (wiring E n) (routeRequest req)).run s.cluster =
      (.ok result, c₁))
    (hloop : ((loopFrom (UInt32.ofNat result.reusable_blocks.length) total).forM
      (computeBlock E n req.tokens)).run c₁ = (.ok (), x)) :
    (serve E total req n).run s = (.ok (), { s.count n result with
      cluster := x.setWorker n
        ((x.workers n).unwind (E.env n) (s.cluster.workers n).handles.length) }) := by
  have hasked : (onCluster (RequestPipeline.run (wiring E n) (routeRequest req))).run s =
      (.ok result, { s with cluster := c₁ }) := by
    rw [onCluster, Exec.on_run, hrequest]
  have hcomputed : (onCluster ((loopFrom (UInt32.ofNat result.reusable_blocks.length) total).forM
      (computeBlock E n req.tokens))).run (State.count { s with cluster := c₁ } n result) =
      (.ok (), { s.count n result with cluster := x }) := by
    simp only [onCluster, Exec.on_run, State.count, hloop]
  simp only [serve, Exec.read_bind_run]
  rw [Exec.bind_ok hasked, Exec.modify_bind_run]
  exact (Exec.bind_ok hcomputed _).trans rfl

-- One request, from the choice of its worker on.
theorem serve_returns (hr : Ready E c₀) {s : State π ρ κ} (h : Rested E c₀ s.cluster)
    {total : UInt32} (htotal : total.toNat = fullBlocks (routeRequest req))
    (hK : Collects (E.env n) (routeRequest req) (s.cluster.workers n) K) :
    ∃ s' m count last first, (serve E total req n).run s = (.ok (), s') ∧
      Serves E c₀ total req n K s s' m count last first := by
  have hc := h.sound hr
  have hsize : (s.cluster.workers n).cache.block_size ≠ 0 := by
    rw [h.block_size hr n]
    decide
  obtain ⟨result, count, last, hrequest, hanswered⟩ :=
    request_returns (hr.picks n) hc hsize (block_size_ne_zero req) hK
  have hle := hanswered.worker.le.trans hanswered.le
  have hfirst : (UInt32.ofNat result.reusable_blocks.length).toNat =
      result.reusable_blocks.length := by
    rw [UInt32.toNat_ofNat']
    exact Nat.mod_eq_of_lt (lt_of_le_of_lt hle (fullBlocks_lt _))
  -- the loop goes on behind the blocks that the request has answered
  have hstart : Going E c₀ s.cluster n K result.reusable_blocks.length
      result.reusable_blocks.length (s.cluster.step E (.request n (routeRequest req))) :=
    ⟨h.run.snoc _ trivial, hanswered.worker.restart hK, hanswered.others, hanswered.registered⟩
  have hknown : Announced E s.cluster n req result.reusable_blocks.length
      result.reusable_blocks.length result.reusable_blocks.length
      (s.cluster.step E (.request n (routeRequest req))) :=
    ⟨fun _ h => h, fun _ j hj hlt => absurd hj (Nat.not_le.mpr hlt)⟩
  rw [← hfirst] at hstart hknown
  obtain ⟨x, m, hloop, hdone, hannounced⟩ := computeBlocks_returns (hr.picks n) hc hK htotal
    (by rw [hfirst, htotal]; exact hle) hstart hknown
  rw [hfirst] at hannounced
  obtain ⟨hended, hrested⟩ := hdone.ends hK (hc n).1 h.idle
  have hhad := hended.worker.had
  rw [setWorker_self] at hhad
  refine ⟨_, m, count, last, result.reusable_blocks.length, serve_run hrequest hloop, ?_⟩
  exact {
    rested := hrested
    le := hended.worker.le
    had := by rwa [setWorker_self]
    others := hended.others
    local_hits := by simp only [State.count, hanswered.local_hits]; rfl
    remote_hits := by simp only [State.count, hanswered.remote_hits]
    stopped := .of_answered hanswered
    computed := hannounced.blocks
    registered := hended.registered
    grows := hannounced.grows
    routing_policy := rfl
    total_prefix_possible := rfl }

end Serve

end KVCache.Bench
