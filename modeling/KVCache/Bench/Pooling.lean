import KVCache.Bench.Sharing

namespace KVCache.Bench

open Lib Cluster Controller Coordinator Pipeline Policy Sim

variable {κ π ρ : Type}

-- A block that has the hash of another one comes after the same tokens.
def Determined (X : XXH3) (total : UInt32) (requests : List BenchRequest) : Prop :=
  ∀ req ∈ requests, ∀ req' ∈ requests, ∀ j < total.toNat, ∀ j' < total.toNat,
    (missingBlock X (routeRequest req) j).hash = (missingBlock X (routeRequest req') j').hash →
      req.tokens.take ((j + 1) * BLOCK_SIZE.toNat) <+: req'.tokens

-- Workers that have a slot for every block, and fetch from each other what the index knows of.
structure Pool (E : ClusterEnv π ρ) (c₀ : Cluster π ρ) (C : Nat) (num_workers total : UInt32)
    (requests : List BenchRequest) : Prop where
  ready : Ready E c₀
  uniform : Uniform requests total
  admits : ∀ node, (E.env node).admission.AlwaysAdmits
  first : ∀ n ctx refs st, (E.chooseReplica n ctx refs st).1 = refs.head?
  registered : ∀ i j, i ≠ j → i < num_workers.toNat → j < num_workers.toNat →
    c₀.registered i j = true
  room : requests.length * total.toNat * growth total < 2 ^ 32
  capacity : requests.length * total.toNat ≤ C
  determined : Determined E.xxh3 total requests

-- What a worker of a pool has.
def Pools (E : ClusterEnv π ρ) (C : Nat) (total : UInt32) (served : List (NodeId × BenchRequest))
    (node : NodeId) (hits remote : UInt32) (s : Session π) : Prop :=
  (Booked total served node hits remote s ∧ Stored E C total served node hits remote s) ∧
    Owned total served node hits remote s

-- A pool that has served some requests: the index knows of all of their blocks, and the workers
-- have hit what one cache would have hit.
structure Pooled (E : ClusterEnv π ρ) (c₀ : Cluster π ρ) (C : Nat) (num_workers total : UInt32)
    (requests : List BenchRequest) (served : List (NodeId × BenchRequest)) (s : State π ρ κ) :
    Prop where
  rested : Rested E c₀ s.cluster
  registered : s.cluster.registered = c₀.registered
  length : served.length ≤ requests.length
  mem : ∀ x ∈ served, x.1 < num_workers.toNat ∧ x.2 ∈ requests
  workers : ∀ node, Pools E C total served node (s.local_hits node) (s.remote_hits node)
    (s.cluster.workers node)
  complete : ∀ x ∈ served, ∀ j < total.toNat,
    s.cluster.index.query (missingBlock E.xxh3 (routeRequest x.2) j).hash ≠ []
  hits : ∀ node, (s.local_hits node).toNat + (s.remote_hits node).toNat =
    knownAt node [] (served.map fun x => (x.1, blockHashes E.xxh3 total x.2))

section Pool

variable {E : ClusterEnv π ρ} {c₀ : Cluster π ρ} {C : Nat} {num_workers total : UInt32}
  {requests : List BenchRequest} {served : List (NodeId × BenchRequest)} {s : State π ρ κ}
  {req : BenchRequest} {n : NodeId} {hash : ContentHash} {ref : GlobalBlockRef}

theorem Pool.keeps (hp : Pool E c₀ C num_workers total requests) :
    Keeps E total requests (Pools E C total) :=
  ((booked_keeps hp.uniform hp.room).and (stored_adds hp.uniform hp.admits hp.room
    hp.capacity)).and (owned_adds hp.uniform _)

theorem Pooled.any (h : Pooled E c₀ C num_workers total requests served s) :
    Cluster.Run E (fun _ => True) c₀ s.cluster := run_mono (fun _ _ => trivial) h.rested.run

-- No slot was ever freed.
theorem Pooled.frees (hp : Pool E c₀ C num_workers total requests)
    (h : Pooled E c₀ C num_workers total requests served s) (node : NodeId) (id : BlockId) :
    (s.cluster.workers node).cache.frees id = 0 := by
  obtain ⟨⟨-, hstored⟩, -⟩ := h.workers node
  have hblocks := hstored.blocks
  have hcount : served.countP (fun x => x.1 = node) * total.toNat ≤
      requests.length * total.toNat :=
    Nat.mul_le_mul_right _ (List.countP_le_length.trans h.length)
  have hcapacity := hp.capacity
  have hnone := hstored.settled.evicted
  rw [Nat.sub_eq_zero_of_le (by omega)] at hnone
  refine Nat.eq_zero_of_le_zero ((List.countP_mono_left fun e _ he => ?_).trans_eq hnone)
  cases e <;> first | rfl | cases he

theorem Pooled.fewFrees (hp : Pool E c₀ C num_workers total requests)
    (h : Pooled E c₀ C num_workers total requests served s) : s.cluster.FewFrees := by
  intro node id
  rw [h.frees hp node id]
  decide

-- Whoever the index names still has the block.
theorem Pooled.served_ok (hp : Pool E c₀ C num_workers total requests)
    (h : Pooled E c₀ C num_workers total requests served s)
    (hmem : ref ∈ s.cluster.index.query hash) : (s.cluster.served ref).status = .Ok := by
  have hfresh := hp.ready.fresh
  obtain ⟨a, ha, -, hid, hgen⟩ := run_index_truthful hfresh h.any hmem
  have hi := run_incarnations hfresh h.any (h.fewFrees hp) ref.node_id
  have hs := (h.rested.sound hp.ready ref.node_id).1
  have hle := (hi.admission a ha).le
  have hpos := (hi.admission a ha).pos
  rw [h.frees hp] at hle
  unfold Cluster.served
  rw [← hid, ← hgen, hi.served_ok hs ha, h.frees hp]
  omega

-- A worker gets what it does not have from another one, for what it has starts alike.
theorem Pooled.fetchable (hp : Pool E c₀ C num_workers total requests)
    (h : Pooled E c₀ C num_workers total requests served s) (hn : n < num_workers.toNat)
    (hreq : req ∈ requests) {j : Nat} (hj : j < total.toNat)
    (hnew : reusedBlocks BLOCK_SIZE.toNat (share served n) req.tokens ≤ j)
    (hmem : ref ∈ s.cluster.index.query (missingBlock E.xxh3 (routeRequest req) j).hash) :
    Fetchable s.cluster n (missingBlock E.xxh3 (routeRequest req) j).hash ref := by
  have hfresh := hp.ready.fresh
  have ht := run_index_truthful hfresh h.any hmem
  have hok := h.served_ok hp hmem
  obtain ⟨a, ha, hhash, -⟩ := ht
  obtain ⟨req', hserved, k, hk, hat⟩ := (h.workers ref.node_id).2 a ha
  obtain ⟨hnode, hreq'⟩ := h.mem _ hserved
  have hother : n ≠ ref.node_id := by
    rintro rfl
    have hhashed := ((Cluster.run_traced hp.ready.constructed h.rested.run
      ref.node_id).admission a ha).1
    rw [hash_of_blockAt hat (hp.uniform.fullBlocks hreq' ▸ hk) hhashed] at hhash
    have hstart := hp.determined req hreq req' hreq' j hj k hk hhash.symm
    refine absurd (lt_reusedBlocks.mpr ⟨?_, req'.tokens, ?_, hstart⟩) (Nat.not_lt.mpr hnew)
    · rw [(hp.uniform.blocks req hreq).2, Nat.mul_div_cancel _ (by decide)]
      exact hj
    · exact List.mem_map.mpr ⟨_, List.mem_filter.mpr
        ⟨List.mem_map_of_mem hserved, by simp⟩, rfl⟩
  refine ⟨?_, hok, Cluster.served_hash hfresh h.any (h.fewFrees hp)
    (run_index_truthful hfresh h.any hmem) hok⟩
  rw [h.registered]
  exact hp.registered _ _ hother hn hnode

-- The index knows of what the requests before had.
theorem Pooled.knows (h : Pooled E c₀ C num_workers total requests served s) {j : Nat}
    (hj : j < knownItems (served.map fun x => blockHashes E.xxh3 total x.2)
      (blockHashes E.xxh3 total req)) :
    s.cluster.index.query (missingBlock E.xxh3 (routeRequest req) j).hash ≠ [] := by
  have hlen := knownItems_le (served.map fun x => blockHashes E.xxh3 total x.2)
    (blockHashes E.xxh3 total req)
  have hjt : j < total.toNat := by
    simp only [blockHashes, List.length_map, List.length_range] at hlen
    exact lt_of_lt_of_le hj hlen
  obtain ⟨l, hl, hin⟩ := (le_knownItems_iff (hj.trans_le hlen)).mp hj
    (missingBlock E.xxh3 (routeRequest req) j).hash
      (List.mem_take_iff_getElem.mpr ⟨j, by simp [blockHashes, hjt], by simp [blockHashes]⟩)
  obtain ⟨x, hx, rfl⟩ := List.mem_map.mp hl
  obtain ⟨i, hi, hhash⟩ := List.mem_map.mp hin
  rw [← hhash]
  exact h.complete x hx i (List.mem_range.mp hi)

-- A request makes the index forget no block.
theorem Pooled.remembers (hp : Pool E c₀ C num_workers total requests)
    (h : Pooled E c₀ C num_workers total requests served s) (n : NodeId) (r : RouteRequest)
    (hknown : s.cluster.index.query hash ≠ []) :
    (s.cluster.step E (.request n r)).index.query hash ≠ [] := by
  obtain ⟨ref, hmem⟩ := List.exists_mem_of_ne_nil _ hknown
  obtain ⟨x, hasked, -, hindex, hiff⟩ :=
    request_asked (E := E) (h.rested.sound hp.ready) n r
  rw [hindex]
  refine List.ne_nil_of_mem ((hasked.index hash ref).mpr ⟨hmem, fun hinv => ?_⟩)
  obtain ⟨resp, hfetch, hstale⟩ := (hiff ref).mp hinv
  rcases hasked.answers ref resp hfetch with hfailed | rfl
  · rw [hstale] at hfailed
    cases hfailed
  · rw [response_status.mpr (h.served_ok hp hmem)] at hstale
    cases hstale

theorem Pooled.request_hits (hp : Pool E c₀ C num_workers total requests)
    (h : Pooled E c₀ C num_workers total requests served s) (hreq : req ∈ requests)
    {K : Nat → Nat → Session π → Prop} {count last m : Nat}
    (hstopped : Stopped E s.cluster n req K count last m) :
    Hits E.xxh3 total served req
      (LocalCache.localHits (E.env n) (s.cluster.workers n).cache makeCtx req.tokens).length
      count :=
  hstopped.hits hp.ready h.rested (fun node => (h.workers node).2)
    (fun x hx => hp.uniform.fullBlocks (h.mem x hx).2) (hp.uniform.fullBlocks hreq).symm

-- A worker hits all that the requests before had, here or elsewhere.
theorem Pooled.hits_eq (hp : Pool E c₀ C num_workers total requests)
    (h : Pooled E c₀ C num_workers total requests served s) (hn : n < num_workers.toNat)
    (hreq : req ∈ requests) {K : Nat → Nat → Session π → Prop} {count last m : Nat}
    (hall : ∀ bi m s, K bi m s → m = bi) (hstopped : Stopped E s.cluster n req K count last m) :
    reusedBlocks BLOCK_SIZE.toNat (share served n) req.tokens + count = last ∧ m = last ∧
      last = knownItems (served.map fun x => blockHashes E.xxh3 total x.2)
        (blockHashes E.xxh3 total req) := by
  have hhits := h.request_hits hp hreq hstopped
  obtain ⟨⟨y, hy⟩, hfirst, hcount, hle, -, hstops⟩ := hstopped
  obtain rfl := hall _ _ _ hy
  rw [(h.workers n).1.2.stocked.localHits (by decide) req.tokens] at hfirst hcount hhits
  rw [hp.uniform.fullBlocks hreq] at hle hstops
  have hlast : reusedBlocks BLOCK_SIZE.toNat (share served n) req.tokens + count = m := by omega
  refine ⟨hlast, rfl, le_antisymm ?_ (Nat.not_lt.mp fun hlt => ?_)⟩
  · rw [← hlast]
    exact hhits.le_knownItems
  · have hmt : m < total.toNat := by
      have hlen := knownItems_le (served.map fun x => blockHashes E.xxh3 total x.2)
        (blockHashes E.xxh3 total req)
      simp only [blockHashes, List.length_map, List.length_range] at hlen hlt
      omega
    obtain ⟨x, hx, hstop⟩ := hstops hmt
    exact h.knows hlt (query_nil_of_stops (hp.first n) (h.rested.sound hp.ready) hx
      (fun ref hmem => h.fetchable hp hn hreq hmt (by omega) hmem) hstop)

-- The counters have room for another request.
theorem Pooled.counters_lt (hp : Pool E c₀ C num_workers total requests)
    (h : Pooled E c₀ C num_workers total requests served s) (hlt : served.length < requests.length)
    (node : NodeId) :
    (s.local_hits node).toNat + (s.remote_hits node).toNat + total.toNat < 2 ^ 32 := by
  have hbooked := (h.workers node).1.1.hits
  have hserved : served.countP (fun x => x.1 = node) + 1 ≤ requests.length :=
    Nat.succ_le_of_lt (lt_of_le_of_lt List.countP_le_length hlt)
  have hbound : (served.countP (fun x => x.1 = node) + 1) * total.toNat ≤
      requests.length * total.toNat := Nat.mul_le_mul_right _ hserved
  have hfits := lt_of_growth hp.room
  rw [Nat.succ_mul] at hbound
  omega

-- The sum over the workers.
theorem Pooled.sum_hits (hp : Pool E c₀ C num_workers total requests)
    (h : Pooled E c₀ C num_workers total requests served s) :
    ((List.range num_workers.toNat).map s.local_hits).sum.toNat +
        ((List.range num_workers.toNat).map s.remote_hits).sum.toNat =
      totalKnown ((served.map Prod.snd).map (blockHashes E.xxh3 total)) := by
  have hall := sum_knownAt_eq num_workers.toNat []
    (served.map fun x => (x.1, blockHashes E.xxh3 total x.2)) fun x hx => by
      obtain ⟨y, hy, rfl⟩ := List.mem_map.mp hx
      exact (h.mem y hy).1
  have hsum : ((List.range num_workers.toNat).map fun node =>
      knownAt node [] (served.map fun x => (x.1, blockHashes E.xxh3 total x.2))).sum ≤
      ((List.range num_workers.toNat).map fun node =>
        served.countP (fun x => x.1 = node) * total.toNat).sum :=
    List.sum_le_sum fun node _ => (h.hits node).ge.trans (h.workers node).1.1.hits
  rw [List.sum_map_mul_right, sum_countP] at hsum
  have hcount : served.countP (fun x => x.1 < num_workers.toNat) * total.toNat ≤
      requests.length * total.toNat :=
    Nat.mul_le_mul_right _ (List.countP_le_length.trans h.length)
  rw [sum_counters_eq h.hits (lt_of_le_of_lt (hsum.trans hcount) (lt_of_growth hp.room)), hall,
    List.map_map, List.map_map]
  rfl

-- One round.
theorem Pooled.next (hp : Pool E c₀ C num_workers total requests)
    (h : Pooled E c₀ C num_workers total requests served s) {routing : RoutingPolicy κ}
    (hpicks : routing.PicksNode) (hworkers : num_workers ≠ 0) (hreq : req ∈ requests)
    (hlt : served.length < requests.length) :
    ∃ s' node, (benchRequest E routing num_workers total req).run s = (.ok (), s') ∧
      routing.chooseNode (requestContext E.xxh3 total req) (nodeFeatures num_workers)
        s.routing_policy = .ok (node, s'.routing_policy) ∧
      Pooled E c₀ C num_workers total requests (served ++ [(node, req)]) s' := by
  have htotal := hp.uniform.fullBlocks hreq
  have hlen : BLOCK_SIZE.toNat ≤ req.tokens.length := by
    rw [(hp.uniform.blocks req hreq).2]
    exact Nat.le_mul_of_pos_left _ (hp.uniform.blocks req hreq).1
  obtain ⟨node, st', hnode, hchoose, hrun⟩ := benchRequest_run E total hpicks hworkers hlen s
  have hc := h.rested.sound hp.ready
  have hsize := h.rested.block_size hp.ready node
  obtain ⟨K, hK, hdone⟩ := hp.keeps.serves hlt hreq (hc node).1 hsize (h.workers node)
  have hstoring := (h.workers node).1.2.collects hp.uniform (hp.admits node) hp.room hp.capacity hlt
    hreq hsize hK.hits_le (h.workers node).1.1
  obtain ⟨s', m, count, last, first, hserve, hserves⟩ := serve_returns (κ := κ) (s := { s with
      routing_policy := st'
      total_prefix_possible :=
        s.total_prefix_possible + if 0 < total then total - 1 else 0 }) hp.ready h.rested
      htotal.symm (hK.and hstoring)
  obtain ⟨hlast, hfull⟩ := hserves.had
  obtain ⟨hsum, rfl, hknown⟩ :=
    h.hits_eq hp hnode hreq (fun _ _ _ hk => hk.2.all) hserves.stopped
  have hreused := (h.workers node).1.2.stocked.localHits (by decide) req.tokens
  refine ⟨s', node, hrun.trans hserve, ?_, hserves.rested,
    hserves.registered.trans h.registered, ?_, ?_, ?_, ?_, fun other => ?_⟩
  · rw [hserves.routing_policy]
    exact hchoose
  · rw [List.length_append]
    exact hlt
  · intro x hx
    rcases List.mem_append.mp hx with hx | hx
    · exact h.mem x hx
    · rw [List.mem_singleton.mp hx]
      exact ⟨hnode, hreq⟩
  · rw [hserves.local_hits, hserves.remote_hits]
    have hhits := h.request_hits hp hreq hserves.stopped
    exact hp.keeps.round hc h.workers (hdone m count _ hserves.le hhits hlast) hserves.others
  · intro x hx j hj
    rcases List.mem_append.mp hx with hx | hx
    · exact hserves.grows _ (h.remembers hp node _ (h.complete x hx j hj))
    · rw [List.mem_singleton.mp hx]
      by_cases hold : j < first
      · exact hserves.grows _ (h.remembers hp node _ (h.knows (hknown ▸ hold)))
      · exact hserves.computed hfull.all j (Nat.not_lt.mp hold) hj
  · rw [List.map_append, List.map_singleton, knownAt_concat, List.nil_append, List.map_map,
      ← h.hits other]
    by_cases hother : other = node
    · subst hother
      have hfits := h.counters_lt hp hlt other
      have hle := hserves.stopped.le
      rw [htotal] at hle
      rw [hserves.local_hits, hserves.remote_hits, Function.update_self, Function.update_self,
        if_pos rfl, hreused, UInt32.toNat_add, UInt32.toNat_add, UInt32.toNat_ofNat',
        UInt32.toNat_ofNat']
      simp only [Function.comp_def]
      omega
    · rw [hserves.local_hits, hserves.remote_hits, Function.update_of_ne hother,
        Function.update_of_ne hother, if_neg (Ne.symm hother), Nat.add_zero]

theorem Pool.start (hp : Pool E c₀ C num_workers total requests)
    (hstart : ∀ node, Pools E C total [] node 0 0 (c₀.workers node)) (st : κ) :
    Pooled E c₀ C num_workers total requests [] { cluster := c₀, routing_policy := st } where
  rested := hp.ready.rested
  registered := rfl
  length := Nat.zero_le _
  mem _ hx := absurd hx List.not_mem_nil
  workers := hstart
  complete _ hx := absurd hx List.not_mem_nil
  hits _ := rfl

end Pool

theorem rigs_pool (X : XXH3) (rng : Rng κ) (args : BenchArgs)
    (hfew : args.num_requests.toNat ≤ 2 ^ 20) {total : UInt32}
    (htotal : total = totalBlocksPerRequest (generateWorkload rng args))
    (hcapacity : args.num_requests.toNat * total.toNat ≤ args.capacity_per_worker.toNat)
    (hdetermined : Determined X total (generateWorkload rng args)) :
    Pool (benchEnv X args) (rigs args) args.capacity_per_worker.toNat args.num_workers total
      (generateWorkload rng args) := by
  have huniform : Uniform (generateWorkload rng args) total :=
    htotal ▸ generateWorkload_blocks rng args
  have hlen := (generateWorkload_uniform rng args).1
  refine ⟨rigs_ready X args, huniform, fun _ _ _ _ => rfl, fun _ _ _ _ => rfl,
    fun i j hne hi hj => ?_, workload_room huniform (hlen.trans_le hfew), hlen ▸ hcapacity,
    hdetermined⟩
  simp [rigs, hne, hi, hj]

-- With a slot for every block, and hashes that tell the blocks apart, the workers together hit
-- exactly what one cache would have hit that got all of the requests: what a worker does not
-- have it gets from another one, whatever the routing.
theorem bench_pooling (X : XXH3) (rng : Rng κ) (args : BenchArgs) (hworkers : args.num_workers ≠ 0)
    (hfew : args.num_requests.toNat ≤ 2 ^ 20) {total : UInt32}
    (htotal : total = totalBlocksPerRequest (generateWorkload rng args))
    (hcapacity : args.num_requests.toNat * total.toNat ≤ args.capacity_per_worker.toNat)
    (hdetermined : Determined X total (generateWorkload rng args)) :
    ∃ s served, runBench X rng args = (.ok (), s) ∧
      served.map Prod.snd = generateWorkload rng args ∧
      Chooses (makeRoutingPolicy rng args) (requestContext X total)
        (nodeFeatures args.num_workers) (rng.seed args.seed) served s.routing_policy ∧
      (∀ node, (workerResults s node).local_hits.toNat + (workerResults s node).remote_hits.toNat =
        knownAt node [] (served.map fun x => (x.1, blockHashes X total x.2))) ∧
      (∀ x ∈ served, ∀ j < total.toNat,
        s.cluster.index.query (missingBlock X (routeRequest x.2) j).hash ≠ []) ∧
      (results args s).local_hits.toNat + (results args s).remote_hits.toNat =
        totalKnown ((generateWorkload rng args).map (blockHashes X total)) := by
  have hp := rigs_pool X rng args hfew htotal hcapacity hdetermined
  have hstart : ∀ node, Pools (benchEnv X args) args.capacity_per_worker.toNat total [] node 0 0
      ((rigs args).workers node) := fun node =>
    ⟨stored_start X args total node, fun a ha => absurd ha List.not_mem_nil⟩
  obtain ⟨s, served, hrun, hserved, hchooses, hpooled⟩ := requests_loop (benchEnv X args)
    (makeRoutingPolicy rng args) args.num_workers total (generateWorkload rng args)
    (fun _ _ _ hlt _ hreq h =>
      h.next hp (makeRoutingPolicy_picksNode rng args) hworkers hreq hlt)
    _ (hp.start hstart (rng.seed args.seed))
  refine ⟨s, served, ?_, hserved, hchooses, hpooled.hits, hpooled.complete, ?_⟩
  · rw [runBench, ← htotal]
    exact hrun
  · have hsum := hpooled.sum_hits hp
    rw [hserved] at hsum
    simp only [results, List.map_map]
    exact hsum

-- Three requests of five blocks for workers of fifteen slots, wherever they go.
theorem bench_pooling_three : ∃ s : State Unit Unit UInt32,
    runBench Sample.xxh3 Sample.rng
        { num_requests := 3, capacity_per_worker := 15, routing := "random" } = (.ok (), s) ∧
      (results { num_requests := 3, capacity_per_worker := 15, routing := "random" }
          s).local_hits.toNat +
        (results { num_requests := 3, capacity_per_worker := 15, routing := "random" }
          s).remote_hits.toNat = 8 := by
  have htotal : (5 : UInt32) = totalBlocksPerRequest (generateWorkload Sample.rng
      { num_requests := 3, capacity_per_worker := 15, routing := "random" }) := by
    decide +kernel
  have hdetermined : Determined Sample.xxh3 5 (generateWorkload Sample.rng
      { num_requests := 3, capacity_per_worker := 15, routing := "random" }) := by
    unfold Determined
    decide +kernel
  obtain ⟨s, served, hrun, -, -, -, -, hall⟩ := bench_pooling Sample.xxh3 Sample.rng
    { num_requests := 3, capacity_per_worker := 15, routing := "random" } (by decide) (by decide)
    htotal (by decide) hdetermined
  refine ⟨s, hrun, hall.trans ?_⟩
  decide +kernel

end KVCache.Bench
