import KVCache.Bench.Serve
import KVCache.Cluster.Recovery
import KVCache.Session.Linked

namespace KVCache.Bench

open Lib Cluster Controller Coordinator Pipeline Policy Sim

variable {κ π ρ : Type}

-- The workers that a routing policy chooses for requests, one after the other, each with its
-- request, the latest last.
inductive Chooses (routing : RoutingPolicy κ) (context : BenchRequest → RoutingContext)
    (nodes : List NodePolicyFeatures) (st : κ) : List (NodeId × BenchRequest) → κ → Prop
  | start : Chooses routing context nodes st [] st
  | next {served : List (NodeId × BenchRequest)} {st' st'' : κ} {node : NodeId}
      {req : BenchRequest} (h : Chooses routing context nodes st served st')
      (hnext : routing.chooseNode (context req) nodes st' = .ok (node, st'')) :
      Chooses routing context nodes st (served ++ [(node, req)]) st''

-- The routing context of a request.
def requestContext (X : XXH3) (total : UInt32) (req : BenchRequest) : RoutingContext :=
  routingContext X total (req.tokens.take BLOCK_SIZE.toNat)

-- Block `k` of a request has the hash of a block of a request that was served.
def Known (X : XXH3) (total : UInt32) (served : List (NodeId × BenchRequest))
    (req : BenchRequest) (k : Nat) : Prop :=
  ∃ x ∈ served, ∃ j < total.toNat,
    (missingBlock X (routeRequest x.2) j).hash = (missingBlock X (routeRequest req) k).hash

-- What the hits of a request come to: `hits` blocks that its worker had, and then `count` blocks
-- that it got from others and that an earlier request had as well.
structure Hits (X : XXH3) (total : UInt32) (served : List (NodeId × BenchRequest))
    (req : BenchRequest) (hits count : Nat) : Prop where
  le : hits + count ≤ total.toNat
  known : ∀ k < count, Known X total served req (hits + k)

-- A property of each worker, its local and remote hits and the requests served so far that
-- every request keeps, be it for the worker or for another one.
structure Keeps (E : ClusterEnv π ρ) (total : UInt32) (requests : List BenchRequest)
    (P : List (NodeId × BenchRequest) → NodeId → UInt32 → UInt32 → Session π → Prop) : Prop where
  serves : ∀ {served node req hits remote s}, served.length < requests.length →
    req ∈ requests → s.cache.manager.InStep → s.cache.block_size = BLOCK_SIZE.toNat →
    P served node hits remote s →
    ∃ K, Collects (E.env node) (routeRequest req) s K ∧ ∀ m count s', m ≤ total.toNat →
      Hits E.xxh3 total served req
        (LocalCache.localHits (E.env node) s.cache makeCtx req.tokens).length count →
      K total.toNat m s' → P (served ++ [(node, req)]) node
        (hits + UInt32.ofNat (LocalCache.localHits (E.env node) s.cache makeCtx req.tokens).length)
        (remote + UInt32.ofNat count) s'
  stands : ∀ {served node req other hits remote s s'}, other ≠ node → s.cache.manager.InStep →
    Session.Run (E.env other) (fun _ op => op.Looks) s s' → P served other hits remote s →
    P (served ++ [(node, req)]) other hits remote s'

-- Requests of `total` whole blocks each.
structure Uniform (requests : List BenchRequest) (total : UInt32) : Prop where
  le : total.toNat ≤ 6
  blocks : ∀ req ∈ requests,
    0 < total.toNat ∧ req.tokens.length = total.toNat * BLOCK_SIZE.toNat

section Uniform

variable {requests : List BenchRequest} {total : UInt32} {req : BenchRequest}

theorem Uniform.length_lt (h : Uniform requests total) (hmem : req ∈ requests) :
    req.tokens.length < 2 ^ 32 := by
  have hle := h.le
  have hsize : BLOCK_SIZE.toNat = 16 := rfl
  rw [(h.blocks req hmem).2, hsize]
  omega

theorem Uniform.fullBlocks (h : Uniform requests total) (hmem : req ∈ requests) :
    Pipeline.fullBlocks (routeRequest req) = total.toNat := by
  rw [fullBlocks_eq (h.length_lt hmem)]
  change req.tokens.length / BLOCK_SIZE.toNat = total.toNat
  rw [(h.blocks req hmem).2, Nat.mul_div_cancel _ (by decide)]

theorem generateWorkload_blocks (rng : Rng κ) (args : BenchArgs) :
    Uniform (generateWorkload rng args) (totalBlocksPerRequest (generateWorkload rng args)) := by
  obtain ⟨-, n, hpos, hle, hall⟩ := generateWorkload_uniform rng args
  cases hrequests : generateWorkload rng args with
  | nil => exact ⟨Nat.zero_le _, fun r hr => absurd hr List.not_mem_nil⟩
  | cons req rest =>
      rw [hrequests] at hall
      have htotal : (totalBlocksPerRequest (req :: rest)).toNat = n := by
        rw [totalBlocksPerRequest, hall req List.mem_cons_self,
          Nat.mul_div_cancel _ (by decide), UInt32.toNat_ofNat']
        exact Nat.mod_eq_of_lt (by omega)
      rw [← htotal] at hpos hle hall
      exact ⟨hle, fun r hr => ⟨hpos, hall r hr⟩⟩

end Uniform

-- The same of a property `Q`, next to one that is kept.
structure Adds (E : ClusterEnv π ρ) (total : UInt32) (requests : List BenchRequest)
    (P Q : List (NodeId × BenchRequest) → NodeId → UInt32 → UInt32 → Session π → Prop) :
    Prop where
  serves : ∀ {served node req hits remote s}, served.length < requests.length →
    req ∈ requests → s.cache.manager.InStep → s.cache.block_size = BLOCK_SIZE.toNat →
    (LocalCache.localHits (E.env node) s.cache makeCtx req.tokens).length ≤
      fullBlocks (routeRequest req) →
    P served node hits remote s → Q served node hits remote s →
    ∃ K, Collects (E.env node) (routeRequest req) s K ∧ ∀ m count s',
      Hits E.xxh3 total served req
        (LocalCache.localHits (E.env node) s.cache makeCtx req.tokens).length count →
      K total.toNat m s' → Q (served ++ [(node, req)]) node
        (hits + UInt32.ofNat (LocalCache.localHits (E.env node) s.cache makeCtx req.tokens).length)
        (remote + UInt32.ofNat count) s'
  stands : ∀ {served node req other hits remote s s'}, other ≠ node → s.cache.manager.InStep →
    Session.Run (E.env other) (fun _ op => op.Looks) s s' → Q served other hits remote s →
    Q (served ++ [(node, req)]) other hits remote s'

section Run

variable {E : ClusterEnv π ρ} {c₀ : Cluster π ρ} {routing : RoutingPolicy κ}
  {num_workers total : UInt32} {requests : List BenchRequest} {req : BenchRequest}

theorem Keeps.and
    {P Q : List (NodeId × BenchRequest) → NodeId → UInt32 → UInt32 → Session π → Prop}
    (h : Keeps E total requests P)
    (hq : Adds E total requests P Q) :
    Keeps E total requests fun served node hits remote s =>
      P served node hits remote s ∧ Q served node hits remote s where
  serves := by
    intro served node req hits remote s hlt hmem hs hsize hPQ
    obtain ⟨K, hK, hdone⟩ := h.serves hlt hmem hs hsize hPQ.1
    obtain ⟨K', hK', hdone'⟩ := hq.serves hlt hmem hs hsize hK.hits_le hPQ.1 hPQ.2
    exact ⟨_, hK.and hK', fun m count s' hm hcount hk =>
      ⟨hdone m count s' hm hcount hk.1, hdone' m count s' hcount hk.2⟩⟩
  stands hne hs hrun hPQ := ⟨h.stands hne hs hrun hPQ.1, hq.stands hne hs hrun hPQ.2⟩

end Run

-- Every block that a worker has had admitted is one of a request that it served.
def Owned (total : UInt32) (served : List (NodeId × BenchRequest)) (node : NodeId)
    (_ _ : UInt32) (s : Session π) : Prop :=
  ∀ a ∈ s.admissions, ∃ req, (node, req) ∈ served ∧
    ∃ k < total.toNat, BlockAt (routeRequest req) k a.candidate

section Owned

variable {env : Env π} {total : UInt32} {s : Session π} {req : BenchRequest}

-- The blocks that a request adds are its own.
theorem collects_own (s₀ : Session π)
    (hle : (LocalCache.localHits env s₀.cache makeCtx req.tokens).length ≤
      fullBlocks (routeRequest req)) :
    Collects env (routeRequest req) s₀ fun _ _ s => ∀ a ∈ s.admissions, a ∈ s₀.admissions ∨
      ∃ k < fullBlocks (routeRequest req), BlockAt (routeRequest req) k a.candidate where
  hits_le := hle
  start := fun a ha => .inl ha
  looks := by
    intro bi m s op hs hop h
    obtain ⟨manager, -, -, hadm⟩ := Session.step_looks env hs hop
    rw [hadm]
    exact h
  admits := by
    intro bi m s candidate res hs h hle hbi hat hres a ha
    obtain ⟨new, hnew, henters⟩ := Session.step_admissions env hs (.admitBlock candidate)
    rw [hnew] at ha
    rcases List.mem_append.mp ha with ha | ha
    · right
      rcases (henters a ha).1 with hop | ⟨ctx, hop⟩
      · obtain rfl := SessionOp.admitBlock.inj hop
        exact ⟨bi, hbi, hat⟩
      · cases hop
    · exact h a ha
  restart := fun h => h

theorem owned_adds {E : ClusterEnv π ρ} {requests : List BenchRequest}
    (huniform : Uniform requests total)
    (P : List (NodeId × BenchRequest) → NodeId → UInt32 → UInt32 → Session π → Prop) :
    Adds E total requests P (Owned total) where
  serves := by
    intro served node req hits remote s hlt hmem hs hsize hle hP howned
    refine ⟨_, collects_own s hle, fun m count s' hcount hown a ha => ?_⟩
    rcases hown a ha with hold | ⟨k, hk, hat⟩
    · obtain ⟨req', hserved, hblock⟩ := howned a hold
      exact ⟨req', List.mem_append_left _ hserved, hblock⟩
    · exact ⟨req, List.mem_append_right _ List.mem_cons_self, k, huniform.fullBlocks hmem ▸ hk, hat⟩
  stands := by
    intro served node req other hits remote s s' hne hs hrun howned
    obtain ⟨-, hadm⟩ := Session.looks_invariant (I := fun _ => True) (fun _ _ _ _ h => h)
      hrun hs trivial
    intro a ha
    rw [hadm] at ha
    obtain ⟨req', hserved, hblock⟩ := howned a ha
    exact ⟨req', List.mem_append_left _ hserved, hblock⟩

end Owned

section Run

variable {E : ClusterEnv π ρ} {c₀ : Cluster π ρ} {routing : RoutingPolicy κ}
  {num_workers total : UInt32} {requests : List BenchRequest} {req : BenchRequest}

theorem mem_nodeFeatures {node : NodePolicyFeatures} :
    node ∈ nodeFeatures num_workers ↔ node.node_id < num_workers.toNat := by
  obtain ⟨id⟩ := node
  simp [nodeFeatures]

theorem nodeFeatures_ne_nil (h : num_workers ≠ 0) : nodeFeatures num_workers ≠ [] := by
  have hpos : num_workers.toNat ≠ 0 := fun hzero => h (UInt32.toNat_inj.mp hzero)
  simpa [nodeFeatures] using hpos

-- A request with a whole block gets a worker that there is.
theorem benchRequest_run (E : ClusterEnv π ρ) (total : UInt32) (hpicks : routing.PicksNode)
    (hworkers : num_workers ≠ 0) (hlen : BLOCK_SIZE.toNat ≤ req.tokens.length)
    (s : State π ρ κ) :
    ∃ node st', node < num_workers.toNat ∧
      routing.chooseNode (requestContext E.xxh3 total req) (nodeFeatures num_workers)
        s.routing_policy = .ok (node, st') ∧
      (benchRequest E routing num_workers total req).run s = (serve E total req node).run
        { s with
          routing_policy := st'
          total_prefix_possible :=
            s.total_prefix_possible + if 0 < total then total - 1 else 0 } := by
  obtain ⟨node, hmem, st', hchoose⟩ := hpicks (requestContext E.xxh3 total req)
    (nodeFeatures num_workers) s.routing_policy (nodeFeatures_ne_nil hworkers)
  have hlt := mem_nodeFeatures.mp hmem
  refine ⟨node.node_id, st', hlt, hchoose, ?_⟩
  have hread : readTokens "runBench: first block out of range" req.tokens 0 BLOCK_SIZE.toNat =
      .ok (req.tokens.take BLOCK_SIZE.toNat) := by
    rw [readTokens, if_pos (by rw [Nat.zero_add]; exact hlen), List.drop_zero]
  have hchosen : (chooseNode (π := π) (ρ := ρ) routing
      (routingContext E.xxh3 total (req.tokens.take BLOCK_SIZE.toNat))
      (nodeFeatures num_workers)).run { s with total_prefix_possible :=
        s.total_prefix_possible + if 0 < total then total - 1 else 0 } =
      (.ok node.node_id, { s with
        routing_policy := st'
        total_prefix_possible :=
          s.total_prefix_possible + if 0 < total then total - 1 else 0 }) := by
    simp only [chooseNode]
    rw [show routing.chooseNode (routingContext E.xxh3 total (req.tokens.take BLOCK_SIZE.toNat))
      (nodeFeatures num_workers) s.routing_policy = .ok (node.node_id, st') from hchoose]
  simp only [benchRequest, Exec.modify_bind_run, Exec.check_bind_run, hread]
  rw [Exec.bind_ok hchosen, if_neg (Nat.not_le.mpr hlt)]

theorem Ready.constructed (hr : Ready E c₀) : c₀.Constructed := by
  refine ⟨fun node => ?_, hr.fresh.index⟩
  obtain ⟨capacity, block_size, clock, policy_state, hworker⟩ := hr.fresh.workers node
  exact ⟨_, .untiered capacity block_size clock policy_state, hworker⟩

-- What the index knows is the hash of a block that a worker got for a request.
theorem known_of_query {c : Cluster π ρ} {served : List (NodeId × BenchRequest)}
    {hits remote : NodeId → UInt32} {k : Nat} (hr : Ready E c₀) (hrest : Rested E c₀ c)
    (howned : ∀ node, Owned total served node (hits node) (remote node) (c.workers node))
    (hserved : ∀ x ∈ served, fullBlocks (routeRequest x.2) = total.toNat)
    (h : c.index.query (missingBlock E.xxh3 (routeRequest req) k).hash ≠ []) :
    Known E.xxh3 total served req k := by
  obtain ⟨ref, hmem⟩ := List.exists_mem_of_ne_nil _ h
  have hany : Cluster.Run E (fun _ => True) c₀ c := run_mono (fun _ _ => trivial) hrest.run
  obtain ⟨a, ha, hhash, -⟩ := run_index_truthful hr.fresh hany hmem
  obtain ⟨req', hreq', j, hj, hat⟩ := howned ref.node_id a ha
  have hhashed := ((Cluster.run_traced hr.constructed hrest.run ref.node_id).admission a ha).1
  refine ⟨_, hreq', j, hj, ?_⟩
  rw [← hhash, hash_of_blockAt hat (hserved _ hreq' ▸ hj) hhashed]

-- So the hits of a request are blocks of the requests before it.
theorem Stopped.hits {c : Cluster π ρ} {served : List (NodeId × BenchRequest)}
    {hits remote : NodeId → UInt32} {n : NodeId} {K : Nat → Nat → Session π → Prop}
    {count last m : Nat} (h : Stopped E c n req K count last m) (hr : Ready E c₀)
    (hrest : Rested E c₀ c)
    (howned : ∀ node, Owned total served node (hits node) (remote node) (c.workers node))
    (hserved : ∀ x ∈ served, fullBlocks (routeRequest x.2) = total.toNat)
    (htotal : total.toNat = fullBlocks (routeRequest req)) :
    Hits E.xxh3 total served req
      (LocalCache.localHits (E.env n) (c.workers n).cache makeCtx req.tokens).length count :=
  ⟨htotal ▸ h.count_le.trans h.le, fun k hk =>
    known_of_query hr hrest howned hserved (h.known k hk)⟩

-- A request counts for the worker that serves it.
theorem Keeps.round
    {P : List (NodeId × BenchRequest) → NodeId → UInt32 → UInt32 → Session π → Prop}
    (hkeeps : Keeps E total requests P) {c c' : Cluster π ρ} (hc : c.Sound)
    {served : List (NodeId × BenchRequest)} {hits remote : NodeId → UInt32} {n : NodeId}
    {more more' : UInt32} (hP : ∀ node, P served node (hits node) (remote node) (c.workers node))
    (hself : P (served ++ [(n, req)]) n (hits n + more) (remote n + more') (c'.workers n))
    (hothers : ∀ node, node ≠ n → Served (E.env node) (c.workers node) (c'.workers node))
    (node : NodeId) :
    P (served ++ [(n, req)]) node (Function.update hits n (hits n + more) node)
      (Function.update remote n (remote n + more') node) (c'.workers node) := by
  by_cases hnode : node = n
  · subst hnode
    rw [Function.update_self, Function.update_self]
    exact hself
  · rw [Function.update_of_ne hnode, Function.update_of_ne hnode]
    refine hkeeps.stands hnode (hc node).1 ((hothers node hnode).mono fun _ op hop => ?_) (hP node)
    obtain ⟨id, generation, rfl⟩ := hop
    trivial

-- One round of the bench.
theorem benchRequest_returns (hr : Ready E c₀) (hpicks : routing.PicksNode)
    (hworkers : num_workers ≠ 0)
    {P : List (NodeId × BenchRequest) → NodeId → UInt32 → UInt32 → Session π → Prop}
    (hkeeps : Keeps E total requests P)
    (hown : ∀ {served node hits remote s}, P served node hits remote s →
      Owned total served node hits remote s)
    {served : List (NodeId × BenchRequest)}
    (hserved : ∀ x ∈ served, fullBlocks (routeRequest x.2) = total.toNat)
    (hlt : served.length < requests.length)
    (hmem : req ∈ requests) (hpos : 0 < total.toNat)
    (htotal : total.toNat = fullBlocks (routeRequest req)) {s : State π ρ κ}
    (hrest : Rested E c₀ s.cluster)
    (hP : ∀ node, P served node (s.local_hits node) (s.remote_hits node) (s.cluster.workers node)) :
    ∃ s' node, (benchRequest E routing num_workers total req).run s = (.ok (), s') ∧
      routing.chooseNode (requestContext E.xxh3 total req) (nodeFeatures num_workers)
        s.routing_policy = .ok (node, s'.routing_policy) ∧
      Rested E c₀ s'.cluster ∧
      s'.total_prefix_possible = s.total_prefix_possible + UInt32.ofNat (total.toNat - 1) ∧
      ∀ other, P (served ++ [(node, req)]) other (s'.local_hits other) (s'.remote_hits other)
        (s'.cluster.workers other) := by
  have hlen : BLOCK_SIZE.toNat ≤ req.tokens.length := by
    have hfirst : (0 + 1) * BLOCK_SIZE.toNat ≤ req.tokens.length :=
      block_end_le_length (htotal ▸ hpos)
    rwa [Nat.zero_add, Nat.one_mul] at hfirst
  obtain ⟨node, st', -, hchoose, hrun⟩ :=
    benchRequest_run E total hpicks hworkers hlen s
  have hc := hrest.sound hr
  obtain ⟨K, hK, hdone⟩ := hkeeps.serves hlt hmem (hc node).1 (hrest.block_size hr node)
    (hP node)
  obtain ⟨s', m, count, last, first, hserve, hserves⟩ := serve_returns (κ := κ) (s := { s with
      routing_policy := st'
      total_prefix_possible :=
        s.total_prefix_possible + if 0 < total then total - 1 else 0 }) hr hrest htotal hK
  refine ⟨s', node, hrun.trans hserve, ?_, hserves.rested, ?_, fun other => ?_⟩
  · rw [hserves.routing_policy]
    exact hchoose
  · have hsome : 0 < total := UInt32.lt_iff_toNat_lt.mpr (by exact hpos)
    have hone : (1 : UInt32) ≤ total := UInt32.le_iff_toNat_le.mpr (by exact hpos)
    have hsub : total - 1 = UInt32.ofNat (total.toNat - 1) := by
      apply UInt32.toNat_inj.mp
      rw [UInt32.toNat_sub_of_le _ _ hone, UInt32.toNat_ofNat',
        Nat.mod_eq_of_lt (lt_of_le_of_lt (Nat.sub_le _ _) total.toNat_lt)]
      rfl
    rw [hserves.total_prefix_possible, if_pos hsome, hsub]
  · rw [hserves.local_hits, hserves.remote_hits]
    have hhits := hserves.stopped.hits hr hrest (fun node => hown (hP node)) hserved htotal
    exact hkeeps.round hc hP (hdone m count _ hserves.le hhits hserves.had) hserves.others other

-- What every round keeps holds after the last one.
theorem requests_loop (E : ClusterEnv π ρ) (routing : RoutingPolicy κ) (num_workers total : UInt32)
    (requests : List BenchRequest) {I : List (NodeId × BenchRequest) → State π ρ κ → Prop}
    (hround : ∀ served req s, served.length < requests.length →
      (∀ x ∈ served, x.2 ∈ requests) → req ∈ requests → I served s →
      ∃ s' node, (benchRequest E routing num_workers total req).run s = (.ok (), s') ∧
        routing.chooseNode (requestContext E.xxh3 total req) (nodeFeatures num_workers)
          s.routing_policy = .ok (node, s'.routing_policy) ∧ I (served ++ [(node, req)]) s')
    (s₀ : State π ρ κ) (hstart : I [] s₀) :
    ∃ s served, (requests.forM (benchRequest E routing num_workers total)).run s₀ = (.ok (), s) ∧
      served.map Prod.snd = requests ∧
      Chooses routing (requestContext E.xxh3 total) (nodeFeatures num_workers) s₀.routing_policy
        served s.routing_policy ∧ I served s := by
  have hrounds : ∀ before req after, before ++ req :: after = requests →
      Exec.Yields (fun s : State π ρ κ => ∃ served, served.map Prod.snd = before ∧
          Chooses routing (requestContext E.xxh3 total) (nodeFeatures num_workers)
            s₀.routing_policy served s.routing_policy ∧ I served s)
        (benchRequest E routing num_workers total req)
        fun _ s => ∃ served, served.map Prod.snd = before ++ [req] ∧
          Chooses routing (requestContext E.xxh3 total) (nodeFeatures num_workers)
            s₀.routing_policy served s.routing_policy ∧ I served s := by
    rintro before req after hsplit s ⟨served, hserved, hchooses, hI⟩
    have hreq : req ∈ requests := by
      rw [← hsplit]
      simp
    have hlt : served.length < requests.length := by
      rw [← hsplit, ← hserved]
      simp
    have hbefore : ∀ x ∈ served, x.2 ∈ requests := by
      intro x hx
      rw [← hsplit, ← hserved]
      exact List.mem_append_left _ (List.mem_map_of_mem hx)
    obtain ⟨s', node, hrun, hchoose, hnext⟩ := hround served req s hlt hbefore hreq hI
    refine ⟨(), s', hrun, served ++ [(node, req)], ?_, hchooses.next hchoose, hnext⟩
    rw [List.map_append, hserved]
    rfl
  obtain ⟨⟨⟩, s, hrun, served, hserved, hrest⟩ := Exec.Yields.forM
    (I := fun done (s : State π ρ κ) => ∃ served, served.map Prod.snd = done ∧
      Chooses routing (requestContext E.xxh3 total) (nodeFeatures num_workers)
        s₀.routing_policy served s.routing_policy ∧ I served s)
    requests hrounds s₀ ⟨[], rfl, .start, hstart⟩
  exact ⟨s, served, hrun, hserved, hrest⟩

theorem Ready.rested (hr : Ready E c₀) : Rested E c₀ c₀ := by
  refine ⟨Steps.refl _, fun node => ?_⟩
  obtain ⟨capacity, block_size, clock, policy_state, hworker⟩ := hr.fresh.workers node
  rw [hworker]
  exact fun _ hmem => absurd hmem List.not_mem_nil

-- A bench over requests of one length returns, and each worker keeps what every request keeps.
theorem requests_return (hr : Ready E c₀) (hpicks : routing.PicksNode) (hworkers : num_workers ≠ 0)
    {P : List (NodeId × BenchRequest) → NodeId → UInt32 → UInt32 → Session π → Prop}
    (hkeeps : Keeps E total requests P)
    (hown : ∀ {served node hits remote s}, P served node hits remote s →
      Owned total served node hits remote s)
    (huniform : Uniform requests total)
    (hstart : ∀ node, P [] node 0 0 (c₀.workers node)) (st : κ) :
    ∃ s served, (requests.forM (benchRequest E routing num_workers total)).run
        { cluster := c₀, routing_policy := st } = (.ok (), s) ∧
      served.map Prod.snd = requests ∧
      Chooses routing (requestContext E.xxh3 total) (nodeFeatures num_workers) st served
        s.routing_policy ∧
      Rested E c₀ s.cluster ∧
      s.total_prefix_possible = UInt32.ofNat (requests.length * (total.toNat - 1)) ∧
      ∀ node, P served node (s.local_hits node) (s.remote_hits node) (s.cluster.workers node) := by
  have hloop := requests_loop E routing num_workers total requests
    (I := fun served s => Rested E c₀ s.cluster ∧
      s.total_prefix_possible = UInt32.ofNat (served.length * (total.toNat - 1)) ∧
      ∀ node, P served node (s.local_hits node) (s.remote_hits node) (s.cluster.workers node)) ?_
    { cluster := c₀, routing_policy := st } ⟨hr.rested, by simp, hstart⟩
  · obtain ⟨s, served, hrun, hserved, hchooses, hrest, hpossible, hP⟩ := hloop
    refine ⟨s, served, hrun, hserved, hchooses, hrest, ?_, hP⟩
    rw [hpossible, ← hserved, List.length_map]
  · rintro served req s hlt hbefore hreq ⟨hrest, hpossible, hP⟩
    obtain ⟨s', node, hrun, hchoose, hrest', hpossible', hP'⟩ :=
      benchRequest_returns hr hpicks hworkers hkeeps hown
        (fun x hx => huniform.fullBlocks (hbefore x hx)) hlt hreq (huniform.blocks req hreq).1
        (huniform.fullBlocks hreq).symm hrest hP
    refine ⟨s', node, hrun, hchoose, hrest', ?_, hP'⟩
    rw [hpossible', hpossible, List.length_append, List.length_singleton, Nat.succ_mul,
      UInt32.ofNat_add]

end Run

section Shipped

variable {args : BenchArgs}

theorem makeEvictionPolicy_picksCandidate (name : String) :
    (makeEvictionPolicy name : EvictionPolicy π).PicksCandidate := by
  unfold makeEvictionPolicy
  split
  · exact PrefixAwareEvictionPolicy.picksCandidate
  · exact LruEvictionPolicy.picksCandidate

theorem makeRoutingPolicy_picksNode (rng : Rng κ) (args : BenchArgs) :
    (makeRoutingPolicy rng args).PicksNode := by
  unfold makeRoutingPolicy
  split
  · exact HashFirstBlockRoutingPolicy.picksNode
  · exact RandomRoutingPolicy.picksNode rng

theorem rigs_ready (X : XXH3) (args : BenchArgs) : Ready (benchEnv X args) (rigs args) where
  picks _ := makeEvictionPolicy_picksCandidate args.eviction
  fresh := ⟨fun _ => ⟨_, _, _, _, rfl⟩, rfl⟩
  block_size _ := rfl

-- A bench returns, and each worker keeps what every request keeps.
theorem runBench_returns (X : XXH3) (rng : Rng κ) (hworkers : args.num_workers ≠ 0)
    {total : UInt32} (htotal : total = totalBlocksPerRequest (generateWorkload rng args))
    {P : List (NodeId × BenchRequest) → NodeId → UInt32 → UInt32 → Session Unit → Prop}
    (hkeeps : Keeps (benchEnv X args) total (generateWorkload rng args) P)
    (hstart : ∀ node, P [] node 0 0 ((rigs args).workers node)) :
    ∃ s served, runBench X rng args = (.ok (), s) ∧
      served.map Prod.snd = generateWorkload rng args ∧
      Chooses (makeRoutingPolicy rng args) (requestContext X total)
        (nodeFeatures args.num_workers) (rng.seed args.seed) served s.routing_policy ∧
      Rested (benchEnv X args) (rigs args) s.cluster ∧
      s.total_prefix_possible =
        UInt32.ofNat ((generateWorkload rng args).length * (total.toNat - 1)) ∧
      ∀ node, P served node (s.local_hits node) (s.remote_hits node) (s.cluster.workers node) ∧
        Owned total served node (s.local_hits node) (s.remote_hits node)
          (s.cluster.workers node) := by
  have huniform : Uniform (generateWorkload rng args) total :=
    htotal ▸ generateWorkload_blocks rng args
  rw [runBench, ← htotal]
  exact requests_return (rigs_ready X args) (makeRoutingPolicy_picksNode rng args) hworkers
    (hkeeps.and (owned_adds huniform P)) (fun h => h.2) huniform
    (fun node => ⟨hstart node, fun a ha => absurd ha List.not_mem_nil⟩) _

end Shipped

end KVCache.Bench
