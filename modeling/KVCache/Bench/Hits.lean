import KVCache.Bench.Partition
import KVCache.Session.Reuse

namespace KVCache.Bench

open Lib Cluster Controller Coordinator Pipeline Policy Sim

variable {κ π ρ : Type}

-- The tokens of the requests that a worker served, in their order.
def share (served : List (NodeId × BenchRequest)) (node : NodeId) : List (List TokenId) :=
  shareOf (served.map fun x => (x.1, x.2.tokens)) node

theorem share_concat (served : List (NodeId × BenchRequest)) (node other : NodeId)
    (req : BenchRequest) : share (served ++ [(node, req)]) other =
      share served other ++ if node = other then [req.tokens] else [] := by
  rw [share, List.map_append, List.map_singleton, shareOf_concat, share]

-- What a worker with `C` slots has, as long as nothing had to be evicted: the blocks of the
-- requests that it served. It has hit those that it had before, and had the others admitted.
structure Stored (E : ClusterEnv π ρ) (C : Nat) (total : UInt32)
    (served : List (NodeId × BenchRequest)) (node : NodeId) (hits _remote : UInt32)
    (s : Session π) : Prop where
  settled : s.cache.Settled C s.admissions.length
  stocked : s.Stocked (E.env node) BLOCK_SIZE.toNat makeCtx (share served node)
  reused : hits.toNat = totalReuse BLOCK_SIZE.toNat (share served node)
  blocks : hits.toNat + s.admissions.length =
    served.countP (fun x => x.1 = node) * total.toNat

-- A worker during a request. All of its blocks up to the next one are there.
structure Storing (env : Env π) (C : Nat) (total : UInt32) (before hits : Nat)
    (ts : List (List TokenId)) (tokens : List TokenId) (bi m : Nat) (s : Session π) : Prop where
  booking : Booking total before hits m s
  settled : s.cache.Settled C s.admissions.length
  stocked : s.Stocked env BLOCK_SIZE.toNat makeCtx (ts ++ [tokens.take (bi * BLOCK_SIZE.toNat)])
  all : m = bi
  past : hits ≤ bi
  blocks : s.admissions.length + hits = before + m

section Storing

variable {env : Env π} {total : UInt32} {C before hits m bi : Nat} {s : Session π}
  {req : BenchRequest} {ts : List (List TokenId)}

theorem Storing.looks (h : Storing env C total before hits ts req.tokens bi m s)
    (hs : s.cache.manager.InStep) {op : SessionOp} (hop : op.Looks) :
    Storing env C total before hits ts req.tokens bi m (s.step env op) := by
  obtain ⟨manager, -, -, hadm⟩ := Session.step_looks env hs hop
  refine ⟨h.booking.looks hs hop, Session.step_settled (.inl hop) h.settled,
    h.stocked.looks hs hop, h.all, h.past, ?_⟩
  rw [hadm]
  exact h.blocks

variable {requests : List BenchRequest} {candidate : BlockCandidate} {res : AdmitResult}

theorem Storing.admits (huniform : Uniform requests total) (hmem : req ∈ requests)
    (hadmits : env.admission.AlwaysAdmits)
    (hroom : (before + total.toNat) * growth total < 2 ^ 32)
    (hcapacity : before + total.toNat ≤ C + hits)
    (hpast : reusedBlocks BLOCK_SIZE.toNat ts req.tokens ≤ hits)
    (h : Storing env C total before hits ts req.tokens bi m s) (hs : s.cache.manager.InStep)
    (hbi : bi < fullBlocks (routeRequest req)) (hat : BlockAt (routeRequest req) bi candidate)
    (hres : ((LocalCache.admitBlock env candidate).run s.cache).1 = .ok res) :
    Storing env C total before hits ts req.tokens (bi + 1)
      (if res.status = .Admitted then m + 1 else m) (s.step env (.admitBlock candidate)) := by
  have htotal := huniform.fullBlocks hmem
  have hblocks := h.blocks
  have hfit := h.past
  have hall := h.all
  have hbooking := h.booking.admits hs hat hall.le hbi (htotal ▸ hbi) hroom hres
  have hsettled : (s.step env (.admitBlock candidate)).cache.Settled C
      (s.step env (.admitBlock candidate)).admissions.length :=
    Session.step_settled (.inr ⟨candidate, rfl⟩) h.settled
  have hnext : Session.NextBlock BLOCK_SIZE.toNat bi ts req.tokens candidate :=
    ⟨hat.index hbi, hat.tokens, block_end_le_length hbi, hpast.trans hfit⟩
  have hstocked := h.stocked
  have hcontext : candidate.context = makeCtx := hat.context
  rw [← hcontext] at hstocked
  have hnodes : (s.step env (.admitBlock candidate)).cache.index.nodes.length < 2 ^ 32 := by
    refine lt_of_le_of_lt (hbooking.nodes.trans (Nat.mul_le_mul_right _ ?_)) hroom
    have hdone := hbooking.blocks
    split at hdone <;> omega
  obtain ⟨hstatus, hlen, hlater⟩ := Session.admitBlock_next hadmits h.settled (by omega) hstocked
    (by decide) hnext hnodes hres
  rw [hcontext] at hlater
  rw [if_pos hstatus] at hbooking ⊢
  exact ⟨hbooking, hsettled, hlater, by omega, by omega, by omega⟩

end Storing

section Stored

variable {E : ClusterEnv π ρ} {C : Nat} {total : UInt32} {requests : List BenchRequest}

-- What a worker is during a request it serves.
theorem Stored.collects {served : List (NodeId × BenchRequest)} {node : NodeId}
    {req : BenchRequest} {hits remote : UInt32} {s : Session π} (huniform : Uniform requests total)
    (hadmits : (E.env node).admission.AlwaysAdmits)
    (hroom : requests.length * total.toNat * growth total < 2 ^ 32)
    (hcapacity : requests.length * total.toNat ≤ C) (hlt : served.length < requests.length)
    (hmem : req ∈ requests) (hsize : s.cache.block_size = BLOCK_SIZE.toNat)
    (hle : (LocalCache.localHits (E.env node) s.cache makeCtx req.tokens).length ≤
      fullBlocks (routeRequest req))
    (hbooked : Booked total served node hits remote s)
    (hstored : Stored E C total served node hits remote s) :
    Collects (E.env node) (routeRequest req) s (Storing (E.env node) C total s.admissions.length
      (reusedBlocks BLOCK_SIZE.toNat (share served node) req.tokens) (share served node)
      req.tokens) := by
  have hserved : served.countP (fun x => x.1 = node) + 1 ≤ requests.length :=
    Nat.succ_le_of_lt (lt_of_le_of_lt List.countP_le_length hlt)
  have hnext : (served.countP (fun x => x.1 = node) + 1) * total.toNat ≤
      requests.length * total.toNat := Nat.mul_le_mul_right _ hserved
  have hblocks := hstored.blocks
  rw [Nat.succ_mul] at hnext
  have hhits := hstored.stocked.localHits (by decide) req.tokens
  have hspace : (s.admissions.length + total.toNat) * growth total < 2 ^ 32 :=
    lt_of_le_of_lt (Nat.mul_le_mul_right _ (by omega)) hroom
  refine ⟨hle, ?_, fun hs hop h => h.looks hs hop, fun hs h hle hbi hat hres => ?_, fun h => ?_⟩
  · rw [show (LocalCache.localHits (E.env node) s.cache (routeRequest req).context
      (routeRequest req).tokens).length = _ from hhits]
    exact ⟨⟨hsize, hbooked.linked, hbooked.nodes, le_refl _⟩, hstored.settled,
      hstored.stocked.begin req.tokens, rfl, le_refl _, rfl⟩
  · exact h.admits huniform hmem hadmits hspace (by omega) (le_refl _) hs hbi hat hres
  · obtain rfl := h.all
    exact h

theorem stored_adds (huniform : Uniform requests total)
    (hadmits : ∀ node, (E.env node).admission.AlwaysAdmits)
    (hroom : requests.length * total.toNat * growth total < 2 ^ 32)
    (hcapacity : requests.length * total.toNat ≤ C) :
    Adds E total requests (Booked total) (Stored E C total) where
  serves := by
    intro served node req hits remote s hlt hmem hs hsize hle hbooked hstored
    have hserved : served.countP (fun x => x.1 = node) + 1 ≤ requests.length :=
      Nat.succ_le_of_lt (lt_of_le_of_lt List.countP_le_length hlt)
    have hnext : (served.countP (fun x => x.1 = node) + 1) * total.toNat ≤
        requests.length * total.toNat := Nat.mul_le_mul_right _ hserved
    have hblocks := hstored.blocks
    rw [Nat.succ_mul] at hnext
    have hhits := hstored.stocked.localHits (by decide) req.tokens
    have hnew := reusedBlocks_le BLOCK_SIZE.toNat (share served node) req.tokens
    rw [(huniform.blocks req hmem).2, Nat.mul_div_cancel _ (by decide)] at hnew
    refine ⟨_, hstored.collects huniform (hadmits node) hroom hcapacity hlt hmem hsize hle hbooked,
      fun m count s' hcount h => ?_⟩
    · have hdone := h.blocks
      have hall := h.all
      have hfits := lt_of_growth hroom
      have hcounted : (hits + UInt32.ofNat (LocalCache.localHits (E.env node) s.cache makeCtx
          req.tokens).length).toNat = hits.toNat +
            reusedBlocks BLOCK_SIZE.toNat (share served node) req.tokens := by
        rw [hhits, UInt32.toNat_add, UInt32.toNat_ofNat']
        omega
      have hshare : share (served ++ [(node, req)]) node = share served node ++ [req.tokens] := by
        rw [share_concat, if_pos rfl]
      have hone := countP_concat served node node req
      rw [if_pos rfl] at hone
      have hstocked := h.stocked
      rw [← (huniform.blocks req hmem).2, List.take_length, ← hshare] at hstocked
      refine ⟨h.settled, hstocked, ?_, ?_⟩
      · rw [hcounted, hstored.reused, hshare, totalReuse_concat]
      · rw [hcounted, hone, Nat.succ_mul]
        omega
  stands := by
    intro served node req other hits remote s s' hne hs hrun hstored
    have hlooked := Session.looks_invariant
      (I := fun s' => s'.cache.Settled C s'.admissions.length ∧
        s'.Stocked (E.env other) BLOCK_SIZE.toNat makeCtx (share served other)) ?_ hrun hs
      ⟨hstored.settled, hstored.stocked⟩
    · obtain ⟨⟨hsettled, hstocked⟩, hadm⟩ := hlooked
      have hshare : share (served ++ [(node, req)]) other = share served other := by
        rw [share_concat, if_neg hne.symm, List.append_nil]
      have hcount := countP_concat served node other req
      rw [if_neg hne.symm, Nat.add_zero] at hcount
      refine ⟨hsettled, ?_, ?_, ?_⟩
      · rw [hshare]
        exact hstocked
      · rw [hshare]
        exact hstored.reused
      · rw [hcount, hadm]
        exact hstored.blocks
    · rintro s' op hs' hop ⟨hsettled, hstocked⟩
      exact ⟨Session.step_settled (.inl hop) hsettled, hstocked.looks hs' hop⟩

-- A worker of a bench that has a slot for every block that is asked for.
theorem stored_keeps (X : XXH3) (rng : Rng κ) (args : BenchArgs)
    (hfew : args.num_requests.toNat ≤ 2 ^ 20)
    (htotal : total = totalBlocksPerRequest (generateWorkload rng args))
    (hcapacity : args.num_requests.toNat * total.toNat ≤ args.capacity_per_worker.toNat) :
    Keeps (benchEnv X args) total (generateWorkload rng args) fun served node hits remote s =>
      Booked total served node hits remote s ∧ Stored (benchEnv X args)
        args.capacity_per_worker.toNat total served node hits remote s := by
  have huniform : Uniform (generateWorkload rng args) total :=
    htotal ▸ generateWorkload_blocks rng args
  have hlen := (generateWorkload_uniform rng args).1
  have hroom := workload_room huniform (hlen.trans_le hfew)
  exact (booked_keeps huniform hroom).and (stored_adds huniform (fun _ _ _ _ => rfl) hroom
    (hlen ▸ hcapacity))

theorem stored_start (X : XXH3) (args : BenchArgs) (total : UInt32) (node : NodeId) :
    Booked total [] node 0 0 ((rigs args).workers node) ∧
      Stored (benchEnv X args) args.capacity_per_worker.toNat total [] node 0 0
        ((rigs args).workers node) :=
  ⟨⟨⟨rfl, .empty _⟩, Nat.zero_le _, Nat.zero_le _, Nat.zero_le _⟩,
    ⟨Session.new_settled _ _ _ _, Session.new_stocked _ _ _ _ _ _, rfl, by simp [rigs]⟩⟩

-- A bench whose workers have a slot for every block that is asked for.
theorem bench_stored (X : XXH3) (rng : Rng κ) (args : BenchArgs) (hworkers : args.num_workers ≠ 0)
    (hfew : args.num_requests.toNat ≤ 2 ^ 20)
    (htotal : total = totalBlocksPerRequest (generateWorkload rng args))
    (hcapacity : args.num_requests.toNat * total.toNat ≤ args.capacity_per_worker.toNat) :
    ∃ s served, runBench X rng args = (.ok (), s) ∧
      served.map Prod.snd = generateWorkload rng args ∧
      Chooses (makeRoutingPolicy rng args) (requestContext X total)
        (nodeFeatures args.num_workers) (rng.seed args.seed) served s.routing_policy ∧
      served.length * total.toNat < 2 ^ 32 ∧
      served.length * total.toNat ≤ args.capacity_per_worker.toNat ∧
      ∀ node, Stored (benchEnv X args) args.capacity_per_worker.toNat total served node
        (s.local_hits node) (s.remote_hits node) (s.cluster.workers node) := by
  have huniform : Uniform (generateWorkload rng args) total :=
    htotal ▸ generateWorkload_blocks rng args
  have hlen := (generateWorkload_uniform rng args).1
  obtain ⟨s, served, hrun, hserved, hchooses, -, -, hall⟩ := runBench_returns X rng hworkers
    htotal (stored_keeps X rng args hfew htotal hcapacity) (stored_start X args total)
  have hrequests : served.length = args.num_requests.toNat := by
    rw [← hlen, ← hserved, List.length_map]
  rw [← hrequests] at hfew hcapacity
  exact ⟨s, served, hrun, hserved, hchooses,
    lt_of_le_of_lt (Nat.mul_le_mul hfew huniform.le) (by decide), hcapacity,
    fun node => (hall node).1.2⟩

end Stored

-- With a slot for every block, nothing is evicted, and each worker hits exactly the blocks that
-- a request has in common with an earlier one of the worker. The blocks of its requests, and no
-- others, are admitted there, each of them once.
theorem bench_hits (X : XXH3) (rng : Rng κ) (args : BenchArgs) (hworkers : args.num_workers ≠ 0)
    (hfew : args.num_requests.toNat ≤ 2 ^ 20) {total : UInt32}
    (htotal : total = totalBlocksPerRequest (generateWorkload rng args))
    (hcapacity : args.num_requests.toNat * total.toNat ≤ args.capacity_per_worker.toNat) :
    ∃ s served, runBench X rng args = (.ok (), s) ∧
      served.map Prod.snd = generateWorkload rng args ∧
      Chooses (makeRoutingPolicy rng args) (requestContext X total)
        (nodeFeatures args.num_workers) (rng.seed args.seed) served s.routing_policy ∧
      ∀ node, (workerResults s node).local_hits.toNat =
          totalReuse BLOCK_SIZE.toNat (share served node) ∧
        (∀ a ∈ (s.cluster.workers node).admissions, a.candidate.context = makeCtx) ∧
        (s.cluster.workers node).admittedPrefixes.Nodup ∧
        (∀ p, p ∈ (s.cluster.workers node).admittedPrefixes ↔
          ∃ tokens ∈ share served node, BlockPrefix BLOCK_SIZE.toNat p tokens) ∧
        (workerResults s node).local_hits.toNat + (workerResults s node).admissions.toNat =
          served.countP (fun x => x.1 = node) * total.toNat ∧
        (workerResults s node).evictions = 0 := by
  obtain ⟨s, served, hrun, hserved, hchooses, hfits, hslots, hall⟩ :=
    bench_stored X rng args hworkers hfew htotal hcapacity
  refine ⟨s, served, hrun, hserved, hchooses, fun node => ?_⟩
  obtain ⟨hsettled, hstocked, hreused, hblocks⟩ := hall node
  have hcount : served.countP (fun x => x.1 = node) * total.toNat ≤
      served.length * total.toNat := Nat.mul_le_mul_right _ List.countP_le_length
  refine ⟨hreused, hstocked.context, hstocked.once, hstocked.admitted, ?_, ?_⟩
  · rw [workerResults, hsettled.entered, UInt32.toNat_ofNat', Nat.mod_eq_of_lt (by omega)]
    exact hblocks
  · rw [workerResults, hsettled.evicted, Nat.sub_eq_zero_of_le (by omega)]
    rfl

-- Three requests of five blocks for workers of fifteen slots.
theorem bench_hits_three : ∃ (s : State Unit Unit UInt32) (served : List (NodeId × BenchRequest)),
    runBench Sample.xxh3 Sample.rng { num_requests := 3, capacity_per_worker := 15 } =
      (.ok (), s) ∧ ∀ node, (workerResults s node).local_hits.toNat =
          totalReuse BLOCK_SIZE.toNat (share served node) ∧
        (s.cluster.workers node).admittedPrefixes.Nodup ∧
        (∀ p, p ∈ (s.cluster.workers node).admittedPrefixes ↔
          ∃ tokens ∈ share served node, BlockPrefix BLOCK_SIZE.toNat p tokens) ∧
        (workerResults s node).evictions = 0 := by
  have htotal : (5 : UInt32) = totalBlocksPerRequest
      (generateWorkload Sample.rng { num_requests := 3, capacity_per_worker := 15 }) := by
    decide +kernel
  obtain ⟨s, served, hrun, -, -, hall⟩ := bench_hits Sample.xxh3 Sample.rng
    { num_requests := 3, capacity_per_worker := 15 } (by decide) (by decide) htotal (by decide)
  refine ⟨s, served, hrun, fun node => ?_⟩
  obtain ⟨hhits, -, honce, hadmitted, -, hevictions⟩ := hall node
  exact ⟨hhits, honce, hadmitted, hevictions⟩

section Affinity

variable {X : XXH3} {num_workers : UInt32} {served : List (NodeId × BenchRequest)}

theorem local_hits_eq (args : BenchArgs) {s : State π ρ κ} {total : Nat}
    (hfits : served.length * total < 2 ^ 32)
    (hreused : ∀ node, (s.local_hits node).toNat =
      totalReuse BLOCK_SIZE.toNat (share served node))
    (hle : ∀ node, (s.local_hits node).toNat ≤ served.countP (fun x => x.1 = node) * total) :
    (results args s).local_hits.toNat = ((List.range args.num_workers.toNat).map fun node =>
      totalReuse BLOCK_SIZE.toNat (share served node)).sum := by
  have hsum : ((List.range args.num_workers.toNat).map fun node => (s.local_hits node).toNat).sum ≤
      ((List.range args.num_workers.toNat).map fun node =>
        served.countP (fun x => x.1 = node) * total).sum :=
    List.sum_le_sum fun node _ => hle node
  rw [List.sum_map_mul_right, sum_countP] at hsum
  have hserved := Nat.mul_le_mul_right total
    (List.countP_le_length (p := fun x => decide (x.1 < args.num_workers.toNat)) (l := served))
  simp only [results, List.map_map]
  rw [toNat_sum_eq]
  · simp only [List.map_map, Function.comp_def, workerResults, hreused]
  · simp only [List.map_map, Function.comp_def, workerResults]
    omega

-- Hash routing keeps requests that start alike together.
theorem share_home (hworkers : num_workers ≠ 0)
    (hhome : served = (served.map Prod.snd).map fun req =>
      (homeWorker X num_workers req.tokens, req)) :
    ((List.range num_workers.toNat).map fun node =>
        totalReuse BLOCK_SIZE.toNat (share served node)).sum =
      totalReuse BLOCK_SIZE.toNat ((served.map Prod.snd).map BenchRequest.tokens) := by
  have hpos : 0 < num_workers.toNat := by
    rw [Nat.pos_iff_ne_zero]
    exact fun h => hworkers (UInt32.toNat_inj.mp h)
  have hnode : ∀ x ∈ served.map (fun x => (x.1, x.2.tokens)),
      x.1 = homeWorker X num_workers x.2 := by
    intro x hx
    rw [hhome] at hx
    obtain ⟨y, hy, rfl⟩ := List.mem_map.mp hx
    obtain ⟨req, -, rfl⟩ := List.mem_map.mp hy
    rfl
  refine (sum_totalReuse_eq (fun x hx => ?_) fun x hx y hy hsame => ?_).trans ?_
  · rw [hnode x hx]
    exact Nat.mod_lt _ hpos
  · rw [hnode x hx, hnode y hy, homeWorker, hsame, homeWorker]
  · rw [List.map_map, List.map_map]
    rfl

end Affinity

-- With a slot for every block, a bench hits at most what one cache would hit that served all of
-- the requests. Hash routing gets all of it, over whichever number of workers.
theorem bench_affinity (X : XXH3) (rng : Rng κ) (args : BenchArgs)
    (hworkers : args.num_workers ≠ 0) (hfew : args.num_requests.toNat ≤ 2 ^ 20) {total : UInt32}
    (htotal : total = totalBlocksPerRequest (generateWorkload rng args))
    (hcapacity : args.num_requests.toNat * total.toNat ≤ args.capacity_per_worker.toNat) :
    ∃ s, runBench X rng args = (.ok (), s) ∧
      (results args s).local_hits.toNat ≤ totalReuse BLOCK_SIZE.toNat
        ((generateWorkload rng args).map BenchRequest.tokens) ∧
      (args.routing = "hash_first_block" → (results args s).local_hits.toNat =
        totalReuse BLOCK_SIZE.toNat ((generateWorkload rng args).map BenchRequest.tokens)) := by
  obtain ⟨s, served, hrun, hserved, hchooses, hfits, -, hall⟩ :=
    bench_stored X rng args hworkers hfew htotal hcapacity
  have hhits := local_hits_eq args hfits (fun node => (hall node).reused) fun node =>
    le_trans (Nat.le_add_right _ _) (hall node).blocks.le
  rw [← hserved]
  refine ⟨s, hrun, ?_, fun hrouting => ?_⟩
  · rw [hhits]
    refine (sum_totalReuse_le _ _ _).trans_eq ?_
    rw [List.map_map, List.map_map]
    rfl
  · rw [hhits]
    rw [makeRoutingPolicy, if_pos hrouting] at hchooses
    exact share_home hworkers (chooses_home hchooses)

-- Three requests of five blocks, which the hash of the first block gives to one of two workers.
theorem bench_affinity_three : ∃ s : State Unit Unit UInt32,
    runBench Sample.xxh3 Sample.rng { num_requests := 3, capacity_per_worker := 15 } =
      (.ok (), s) ∧
    (results { num_requests := 3, capacity_per_worker := 15 } s).local_hits = 8 := by
  have htotal : (5 : UInt32) = totalBlocksPerRequest
      (generateWorkload Sample.rng { num_requests := 3, capacity_per_worker := 15 }) := by
    decide +kernel
  obtain ⟨s, hrun, -, hall⟩ := bench_affinity Sample.xxh3 Sample.rng
    { num_requests := 3, capacity_per_worker := 15 } (by decide) (by decide) htotal (by decide)
  refine ⟨s, hrun, UInt32.toNat_inj.mp ((hall rfl).trans ?_)⟩
  decide +kernel

end KVCache.Bench
