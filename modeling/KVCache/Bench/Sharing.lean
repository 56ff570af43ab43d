import KVCache.Bench.Hits

namespace KVCache.Bench

open Lib Cluster Controller Coordinator Pipeline Policy Sim

variable {κ π ρ : Type}

-- The hashes of the blocks of a request, by which the workers find each other's blocks.
def blockHashes (X : XXH3) (total : UInt32) (req : BenchRequest) : List ContentHash :=
  (List.range total.toNat).map fun k => (missingBlock X (routeRequest req) k).hash

section Known

variable {X : XXH3} {total : UInt32} {served : List (NodeId × BenchRequest)}
  {req req' : BenchRequest} {j : Nat}

-- Requests that start alike have blocks of the same hashes.
theorem hash_eq_of_start (hj : (j + 1) * BLOCK_SIZE.toNat ≤ req.tokens.length)
    (h : req.tokens.take ((j + 1) * BLOCK_SIZE.toNat) <+: req'.tokens) :
    (missingBlock X (routeRequest req') j).hash = (missingBlock X (routeRequest req) j).hash := by
  have htake := List.prefix_iff_eq_take.mp h
  rw [List.length_take, Nat.min_eq_left hj] at htake
  have hblock : ∀ r : BenchRequest, blockTokens (routeRequest r) j =
      (r.tokens.take ((j + 1) * BLOCK_SIZE.toNat)).drop (j * BLOCK_SIZE.toNat) := by
    intro r
    rw [List.drop_take, Nat.succ_mul, Nat.add_sub_cancel_left]
    rfl
  have hsame : blockTokens (routeRequest req') j = blockTokens (routeRequest req) j := by
    rw [hblock, hblock, htake]
  simp only [missingBlock, hsame]
  rfl

-- The hits of a request, local and remote, are blocks that earlier requests had as well.
theorem Hits.le_knownItems {node : NodeId} {count : Nat}
    (h : Hits X total served req
      (reusedBlocks BLOCK_SIZE.toNat (share served node) req.tokens) count) :
    reusedBlocks BLOCK_SIZE.toNat (share served node) req.tokens + count ≤
      knownItems (served.map fun x => blockHashes X total x.2) (blockHashes X total req) := by
  apply (le_knownItems_iff (by simpa [blockHashes] using h.le)).mpr
  intro a ha
  obtain ⟨j, hj, rfl⟩ := List.mem_take_iff_getElem.mp ha
  rw [Nat.lt_min] at hj
  have hlen := hj.2
  have hjt : j < total.toNat := by simpa [blockHashes] using hlen
  have hget : (blockHashes X total req)[j] = (missingBlock X (routeRequest req) j).hash := by
    simp [blockHashes]
  have hmem : ∀ x ∈ served, ∀ i < total.toNat, (missingBlock X (routeRequest x.2) i).hash =
      (missingBlock X (routeRequest req) j).hash →
      ∃ s ∈ served.map fun x => blockHashes X total x.2,
        (missingBlock X (routeRequest req) j).hash ∈ s := by
    intro x hx i hi hhash
    refine ⟨_, List.mem_map.mpr ⟨x, hx, rfl⟩, ?_⟩
    rw [← hhash]
    exact List.mem_map.mpr ⟨i, List.mem_range.mpr hi, rfl⟩
  rw [hget]
  by_cases hlocal : j < reusedBlocks BLOCK_SIZE.toNat (share served node) req.tokens
  · obtain ⟨hlt, s, hs, hpre⟩ := lt_reusedBlocks.mp hlocal
    obtain ⟨y, hy, rfl⟩ := List.mem_map.mp (shareOf_subset _ _ hs)
    obtain ⟨x, hx, rfl⟩ := List.mem_map.mp hy
    have hend : (j + 1) * BLOCK_SIZE.toNat ≤ req.tokens.length :=
      (Nat.mul_le_mul_right _ hlt).trans (Nat.div_mul_le_self _ _)
    exact hmem x hx j hjt (hash_eq_of_start hend hpre)
  · obtain ⟨x, hx, i, hi, hhash⟩ := h.known
      (j - reusedBlocks BLOCK_SIZE.toNat (share served node) req.tokens) (by omega)
    rw [Nat.add_sub_cancel' (by omega)] at hhash
    exact hmem x hx i hi hhash

end Known

-- What a worker has hit is no more than what its requests have of blocks of the requests before
-- them, of whatever worker.
def Reached (X : XXH3) (total : UInt32) (served : List (NodeId × BenchRequest)) (node : NodeId)
    (hits remote : UInt32) (_ : Session π) : Prop :=
  hits.toNat + remote.toNat ≤
    knownAt node [] (served.map fun x => (x.1, blockHashes X total x.2))

theorem reached_adds {E : ClusterEnv π ρ} {C : Nat} {total : UInt32}
    {requests : List BenchRequest} :
    Adds E total requests (fun served node hits remote s =>
      Booked total served node hits remote s ∧ Stored E C total served node hits remote s)
      (Reached E.xxh3 total) where
  serves := by
    intro served node req hits remote s hlt hmem hs hsize hle hP hreached
    refine ⟨fun _ _ _ => True, ⟨hle, trivial, fun _ _ _ => trivial, fun _ _ _ _ _ _ => trivial,
      fun _ => trivial⟩, fun m count s' hcount _ => ?_⟩
    have hlocal := counter_le hits
      (LocalCache.localHits (E.env node) s.cache makeCtx req.tokens).length
    have hremote := counter_le remote count
    rw [hP.2.stocked.localHits (by decide) req.tokens] at hcount hlocal ⊢
    have hknown := hcount.le_knownItems
    unfold Reached at hreached ⊢
    rw [List.map_append, List.map_singleton, knownAt_concat, if_pos rfl, List.nil_append,
      List.map_map]
    simp only [Function.comp_def]
    omega
  stands := by
    intro served node req other hits remote s s' hne hs hrun hreached
    unfold Reached at hreached ⊢
    rw [List.map_append, List.map_singleton, knownAt_concat, if_neg hne.symm, Nat.add_zero]
    exact hreached

-- With a slot for every block, the workers together hit at most what one cache would have had
-- that got all of the requests and told blocks by their hashes, however the requests are routed.
theorem bench_sharing (X : XXH3) (rng : Rng κ) (args : BenchArgs) (hworkers : args.num_workers ≠ 0)
    (hfew : args.num_requests.toNat ≤ 2 ^ 20) {total : UInt32}
    (htotal : total = totalBlocksPerRequest (generateWorkload rng args))
    (hcapacity : args.num_requests.toNat * total.toNat ≤ args.capacity_per_worker.toNat) :
    ∃ s served, runBench X rng args = (.ok (), s) ∧
      served.map Prod.snd = generateWorkload rng args ∧
      Chooses (makeRoutingPolicy rng args) (requestContext X total)
        (nodeFeatures args.num_workers) (rng.seed args.seed) served s.routing_policy ∧
      (∀ node, (workerResults s node).local_hits.toNat + (workerResults s node).remote_hits.toNat ≤
        knownAt node [] (served.map fun x => (x.1, blockHashes X total x.2))) ∧
      (results args s).local_hits.toNat + (results args s).remote_hits.toNat ≤
        totalKnown ((generateWorkload rng args).map (blockHashes X total)) := by
  obtain ⟨s, served, hrun, hserved, hchooses, -, -, hall⟩ := runBench_returns X rng hworkers
    htotal ((stored_keeps X rng args hfew htotal hcapacity).and reached_adds)
    fun node => ⟨stored_start X args total node, Nat.zero_le _⟩
  have hreached := fun node => (hall node).1.2
  refine ⟨s, served, hrun, hserved, hchooses, hreached, ?_⟩
  have hsum := sum_counters_le_sum args.num_workers.toNat hreached
  have hall := sum_knownAt_le args.num_workers.toNat []
    (served.map fun x => (x.1, blockHashes X total x.2))
  have hknown : (served.map fun x => (x.1, blockHashes X total x.2)).map Prod.snd =
      (generateWorkload rng args).map (blockHashes X total) := by
    rw [← hserved, List.map_map, List.map_map]
    rfl
  rw [hknown] at hall
  simp only [results, List.map_map]
  exact hsum.trans hall

-- Three requests of five blocks for workers of fifteen slots.
theorem bench_sharing_three : ∃ s : State Unit Unit UInt32,
    runBench Sample.xxh3 Sample.rng { num_requests := 3, capacity_per_worker := 15 } =
      (.ok (), s) ∧
      (results { num_requests := 3, capacity_per_worker := 15 } s).local_hits.toNat +
        (results { num_requests := 3, capacity_per_worker := 15 } s).remote_hits.toNat ≤ 8 := by
  have htotal : (5 : UInt32) = totalBlocksPerRequest
      (generateWorkload Sample.rng { num_requests := 3, capacity_per_worker := 15 }) := by
    decide +kernel
  obtain ⟨s, served, hrun, -, -, -, hle⟩ := bench_sharing Sample.xxh3 Sample.rng
    { num_requests := 3, capacity_per_worker := 15 } (by decide) (by decide) htotal (by decide)
  refine ⟨s, hrun, hle.trans_eq ?_⟩
  decide +kernel

end KVCache.Bench
