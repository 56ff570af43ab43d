import KVCache.Bench.Runs
import KVCache.Session.Linked
import KVCache.Session.Occupancy
import Mathlib.Algebra.BigOperators.Ring.List
import Mathlib.Algebra.Order.BigOperators.Group.List

namespace KVCache.Bench

open Lib Cluster Controller Coordinator Pipeline Policy Sim

variable {κ π ρ : Type}

-- The nodes that a block of a request takes in the index at most.
def growth (total : UInt32) : Nat := 1 + total.toNat * (total.toNat * BLOCK_SIZE.toNat)

theorem lt_of_growth {total : UInt32} {n : Nat} (h : n * growth total < 2 ^ 32) : n < 2 ^ 32 :=
  lt_of_le_of_lt (Nat.le_mul_of_pos_right _ (by unfold growth; omega)) h

-- The books of a worker: of the blocks of the requests that it served, none was both a local
-- hit and admitted, and none both a local and a remote hit.
structure Booked (total : UInt32) (served : List (NodeId × BenchRequest)) (node : NodeId)
    (hits remote : UInt32) (s : Session π) : Prop where
  linked : s.cache.Linked
  nodes : s.cache.index.nodes.length ≤ s.admissions.length * growth total
  blocks : hits.toNat + s.admissions.length ≤ served.countP (fun x => x.1 = node) * total.toNat
  hits : hits.toNat + remote.toNat ≤ served.countP (fun x => x.1 = node) * total.toNat

-- The books during a request: `hits` of its blocks were hits, after `before` admissions.
structure Booking (total : UInt32) (before hits m : Nat) (s : Session π) : Prop where
  size : s.cache.block_size = BLOCK_SIZE.toNat
  linked : s.cache.Linked
  nodes : s.cache.index.nodes.length ≤ s.admissions.length * growth total
  blocks : s.admissions.length + hits ≤ before + m

section Booking

variable {env : Env π} {total : UInt32} {before hits m bi : Nat} {s : Session π}
  {req : BenchRequest} {candidate : BlockCandidate} {res : AdmitResult}

theorem Booking.looks (h : Booking total before hits m s) (hs : s.cache.manager.InStep)
    {op : SessionOp} (hop : op.Looks) : Booking total before hits m (s.step env op) := by
  obtain ⟨manager, hcache, -, hadm⟩ := Session.step_looks env hs hop
  refine ⟨?_, ?_, ?_, ?_⟩
  · rw [hcache]
    exact h.size
  · rw [hcache]
    exact h.linked.of_index rfl rfl
  · rw [hcache, hadm]
    exact h.nodes
  · rw [hadm]
    exact h.blocks

-- The user notes an admission that got in, and no other.
theorem admissions_length (hres : ((LocalCache.admitBlock env candidate).run s.cache).1 = .ok res) :
    (s.step env (.admitBlock candidate)).admissions.length ≤
      s.admissions.length + if res.status = .Admitted then 1 else 0 := by
  simp only [Session.step, List.length_append]
  rcases hout : (LocalCache.admitBlock env candidate).run s.cache with ⟨res', cache⟩
  rw [hout] at hres
  subst hres
  obtain ⟨status, handle⟩ := res
  cases status <;> cases handle <;> simp [Session.admitted]
  omega

theorem Booking.admits (h : Booking total before hits m s) (hs : s.cache.manager.InStep)
    (hat : BlockAt (routeRequest req) bi candidate) (hle : m ≤ bi)
    (hfull : bi < fullBlocks (routeRequest req)) (hbi : bi < total.toNat)
    (hroom : (before + total.toNat) * growth total < 2 ^ 32)
    (hres : ((LocalCache.admitBlock env candidate).run s.cache).1 = .ok res) :
    Booking total before hits (if res.status = .Admitted then m + 1 else m)
      (s.step env (.admitBlock candidate)) := by
  have hblocks := h.blocks
  have hnodes := h.nodes
  have hone := admissions_length hres
  have hindex := hat.index hfull
  -- the nodes of the index keep up with the admissions
  have hgrown := (Session.admitBlock_cases env hs candidate).nodes_le_add
  have hsize : s.cache.ticked.index.block_size = BLOCK_SIZE.toNat := h.linked.size.trans h.size
  have hstep : 1 + (bi + 1) * ((bi + 1) * BLOCK_SIZE.toNat) ≤ growth total := by
    unfold growth
    gcongr <;> omega
  have hnodes' : (s.step env (.admitBlock candidate)).cache.index.nodes.length ≤
      (s.step env (.admitBlock candidate)).admissions.length * growth total := by
    rw [hsize, hindex] at hgrown
    refine hgrown.trans ?_
    rw [Session.step, List.length_append, Nat.add_comm, Nat.add_mul _ _ (growth total)]
    exact Nat.add_le_add (Nat.mul_le_mul_left _ hstep) hnodes
  have hlen : (s.step env (.admitBlock candidate)).admissions.length + hits ≤
      before + if res.status = .Admitted then m + 1 else m := by
    split at hone <;> rename_i hstatus
    · rw [if_pos hstatus]
      omega
    · rw [if_neg hstatus]
      omega
  have hrun : Session.Run env (fun _ _ => True) s (s.step env (.admitBlock candidate)) :=
    (Steps.refl s).snoc _ trivial
  refine ⟨(Session.run_inStep hrun hs).2.trans h.size, ?_, hnodes', hlen⟩
  refine Session.step_linked hs h.linked (.inr ⟨candidate, rfl⟩) (lt_of_le_of_lt hnodes' ?_)
  refine lt_of_le_of_lt (Nat.mul_le_mul_right _ ?_) hroom
  split at hlen <;> omega

-- A worker whose books are in order can begin on another request.
theorem Booking.collects {requests : List BenchRequest} (huniform : Uniform requests total)
    (hmem : req ∈ requests) (hs : s.cache.block_size = BLOCK_SIZE.toNat) (hlinked : s.cache.Linked)
    (hnodes : s.cache.index.nodes.length ≤ s.admissions.length * growth total)
    (hroom : (s.admissions.length + total.toNat) * growth total < 2 ^ 32) :
    Collects env (routeRequest req) s fun _ m => Booking total s.admissions.length
      (LocalCache.localHits env s.cache makeCtx req.tokens).length m where
  hits_le := by
    have hle := hlinked.localHits_le env makeCtx req.tokens
    rw [hs, (huniform.blocks req hmem).2] at hle
    rw [huniform.fullBlocks hmem]
    exact Nat.le_of_mul_le_mul_right hle (by decide)
  start := ⟨hs, hlinked, hnodes, le_refl _⟩
  looks hs hop h := h.looks hs hop
  admits hs h hle hbi hat hres :=
    h.admits hs hat hle hbi (huniform.fullBlocks hmem ▸ hbi) hroom hres
  restart h := h

end Booking

section Worked

-- What the worker of a request does with its cache: it looks, and offers it blocks of the request.
def Works (req : RouteRequest) (op : SessionOp) : Prop :=
  op.Looks ∨ ∃ bi < fullBlocks req, ∃ candidate, op = .admitBlock candidate ∧
    BlockAt req bi candidate

-- On the way from `s₀` to `s` block `bi` was offered to the cache, which answered: it admitted
-- the block, and the worker has noted that, or it refused.
def Offered (env : Env π) (req : RouteRequest) (bi : Nat) (s₀ s : Session π) : Prop :=
  ∃ x candidate res, Session.Run env (fun _ op => Works req op) s₀ x ∧ BlockAt req bi candidate ∧
    ((LocalCache.admitBlock env candidate).run x.cache).1 = .ok res ∧
    (res.status = .Admitted → ∃ a ∈ s.admissions, a.candidate = candidate) ∧
    Session.Run env (fun _ op => Works req op) (x.step env (.admitBlock candidate)) s

-- A request that took a worker from `s` to `s'`: each of its blocks was there when it came, or
-- was offered to the cache. `count` blocks from others are counted as remote hits.
structure Request (E : ClusterEnv π ρ) (total : UInt32) (served : List (NodeId × BenchRequest))
    (node : NodeId) (req : BenchRequest) (count : Nat) (s s' : Session π) : Prop where
  run : Session.Run (E.env node) (fun _ op => Works (routeRequest req) op) s s'
  counted : Hits E.xxh3 total served req
    (LocalCache.localHits (E.env node) s.cache makeCtx req.tokens).length count
  blocks : ∀ bi < total.toNat,
    bi < (LocalCache.localHits (E.env node) s.cache makeCtx req.tokens).length ∨
      Offered (E.env node) (routeRequest req) bi s s'

-- What worker `node` has done since `s₀`: it served the requests that were given to it, one
-- after the other, and did no more than look at its cache for those of others.
inductive Worked (E : ClusterEnv π ρ) (total : UInt32) (node : NodeId) (s₀ : Session π) :
    List (NodeId × BenchRequest) → UInt32 → UInt32 → Session π → Prop
  | start : Worked E total node s₀ [] 0 0 s₀
  | serves {served : List (NodeId × BenchRequest)} {hits remote : UInt32} {s s' : Session π}
      {req : BenchRequest} {count : Nat} (h : Worked E total node s₀ served hits remote s)
      (hreq : Request E total served node req count s s') :
      Worked E total node s₀ (served ++ [(node, req)])
        (hits + UInt32.ofNat
          (LocalCache.localHits (E.env node) s.cache makeCtx req.tokens).length)
        (remote + UInt32.ofNat count) s'
  | stands {served : List (NodeId × BenchRequest)} {hits remote : UInt32} {s s' : Session π}
      {req : BenchRequest} {other : NodeId} (h : Worked E total node s₀ served hits remote s)
      (hne : other ≠ node) (hrun : Session.Run (E.env node) (fun _ op => op.Looks) s s') :
      Worked E total node s₀ (served ++ [(other, req)]) hits remote s'

variable {env : Env π} {req : RouteRequest} {bi : Nat} {s₀ s : Session π}

theorem Offered.snoc (h : Offered env req bi s₀ s) (hs : s.cache.manager.InStep) {op : SessionOp}
    (hop : Works req op) : Offered env req bi s₀ (s.step env op) := by
  obtain ⟨x, candidate, res, hrun, hat, hres, hnoted, hrest⟩ := h
  refine ⟨x, candidate, res, hrun, hat, hres, fun hstatus => ?_, hrest.snoc op hop⟩
  obtain ⟨a, ha, hcandidate⟩ := hnoted hstatus
  obtain ⟨new, hnew, -⟩ := Session.step_admissions env hs op
  exact ⟨a, hnew ▸ List.mem_append_right _ ha, hcandidate⟩

-- The answer to the last offer.
theorem Offered.last (hrun : Session.Run env (fun _ op => Works req op) s₀ s)
    (hs : s.cache.manager.InStep) {candidate : BlockCandidate} (hat : BlockAt req bi candidate)
    {res : AdmitResult} (hres : ((LocalCache.admitBlock env candidate).run s.cache).1 = .ok res) :
    Offered env req bi s₀ (s.step env (.admitBlock candidate)) := by
  refine ⟨s, candidate, res, hrun, hat, hres, fun hstatus => ?_, Steps.refl _⟩
  obtain ⟨status, handle⟩ := res
  obtain rfl : status = .Admitted := hstatus
  have hcase := Session.admitBlock_cases env hs candidate
  rw [hres] at hcase
  generalize (s.step env (.admitBlock candidate)).cache = cache at hcase
  cases hcase
  exact ⟨_, Session.admission_noted hres, rfl⟩

-- A worker that gets as far as block `bi` has offered all the blocks before that were not there.
theorem collects_works (s₀ : Session π)
    (hle : (LocalCache.localHits env s₀.cache req.context req.tokens).length ≤ fullBlocks req) :
    Collects env req s₀ fun bi m s => m ≤ bi ∧
      Session.Run env (fun _ op => Works req op) s₀ s ∧ ∀ k < bi,
        k < (LocalCache.localHits env s₀.cache req.context req.tokens).length ∨
          Offered env req k s₀ s where
  hits_le := hle
  start := ⟨le_refl _, Steps.refl _, fun k hk => .inl hk⟩
  looks := by
    rintro bi m s op hs hop ⟨hm, hrun, hblocks⟩
    exact ⟨hm, hrun.snoc op (.inl hop), fun k hk =>
      (hblocks k hk).imp id fun h => h.snoc hs (.inl hop)⟩
  admits := by
    rintro bi m s candidate res hs ⟨hm, hrun, hblocks⟩ hle hbi hat hres
    have hop : Works req (.admitBlock candidate) := .inr ⟨bi, hbi, candidate, rfl, hat⟩
    refine ⟨by split <;> omega, hrun.snoc _ hop, fun k hk => ?_⟩
    by_cases hlast : k = bi
    · subst hlast
      exact .inr (.last hrun hs hat hres)
    · exact (hblocks k (by omega)).imp id fun h => h.snoc hs hop
  restart := by
    rintro bi m s ⟨hm, hrun, hblocks⟩
    exact ⟨le_refl m, hrun, fun k hk => hblocks k (hk.trans_le hm)⟩

theorem worked_adds {E : ClusterEnv π ρ} {total : UInt32} {requests : List BenchRequest}
    (c₀ : Cluster π ρ)
    (P : List (NodeId × BenchRequest) → NodeId → UInt32 → UInt32 → Session π → Prop) :
    Adds E total requests P fun served node hits remote s =>
      Worked E total node (c₀.workers node) served hits remote s where
  serves := by
    intro served node req hits remote s hlt hmem hs hsize hle hP hworked
    exact ⟨_, collects_works s hle, fun m count s' hcount hdone =>
      hworked.serves ⟨hdone.2.1, hcount, hdone.2.2⟩⟩
  stands := by
    intro served node req other hits remote s s' hne hs hrun hworked
    exact hworked.stands hne.symm hrun

end Worked

section Books

variable {E : ClusterEnv π ρ} {total : UInt32} {requests : List BenchRequest}

-- A counter that wraps shows at most what was counted.
theorem counter_le (counter : UInt32) (n : Nat) :
    (counter + UInt32.ofNat n).toNat ≤ counter.toNat + n := by
  rw [UInt32.toNat_add, UInt32.toNat_ofNat']
  exact (Nat.mod_le _ _).trans (Nat.add_le_add_left (Nat.mod_le _ _) _)

theorem countP_concat (served : List (NodeId × BenchRequest)) (node other : NodeId)
    (req : BenchRequest) : (served ++ [(node, req)]).countP (fun x => x.1 = other) =
      served.countP (fun x => x.1 = other) + if node = other then 1 else 0 := by
  rw [List.countP_append, List.countP_singleton]
  simp only [decide_eq_true_eq]

-- The books of the workers are in order after every request, where the indexes do not run out
-- of node numbers.
theorem booked_keeps (huniform : Uniform requests total)
    (hroom : requests.length * total.toNat * growth total < 2 ^ 32) :
    Keeps E total requests (Booked total) where
  serves := by
    intro served node req hits remote s hlt hmem hs hsize hbooked
    have hserved : served.countP (fun x => x.1 = node) + 1 ≤ requests.length :=
      Nat.succ_le_of_lt (lt_of_le_of_lt List.countP_le_length hlt)
    have hblocks := hbooked.blocks
    have hhits := hbooked.hits
    have hnext : s.admissions.length + total.toNat ≤ requests.length * total.toNat := by
      refine le_trans ?_ (Nat.mul_le_mul_right _ hserved)
      rw [Nat.succ_mul]
      omega
    refine ⟨_, Booking.collects huniform hmem hsize hbooked.linked hbooked.nodes
      (lt_of_le_of_lt (Nat.mul_le_mul_right _ hnext) hroom), fun m count s' hm hcount h => ?_⟩
    have hone := countP_concat served node node req
    rw [if_pos rfl] at hone
    have hlocal := counter_le hits
      (LocalCache.localHits (E.env node) s.cache makeCtx req.tokens).length
    have hremote := counter_le remote count
    have hcounted := hcount.le
    have hdone := h.blocks
    refine ⟨h.linked, h.nodes, ?_, ?_⟩
    · rw [hone, Nat.succ_mul]
      omega
    · rw [hone, Nat.succ_mul]
      omega
  stands := by
    intro served node req other hits remote s s' hne hs hrun hbooked
    have hlooked := Session.looks_invariant
      (I := fun s' => s'.cache.Linked ∧ s'.cache.index = s.cache.index) ?_ hrun hs
      ⟨hbooked.linked, rfl⟩
    · obtain ⟨⟨hlinked, hindex⟩, hadm⟩ := hlooked
      have hsame := countP_concat served node other req
      rw [if_neg hne.symm, Nat.add_zero] at hsame
      refine ⟨hlinked, ?_, ?_, ?_⟩
      · rw [hindex, hadm]
        exact hbooked.nodes
      · rw [hsame, hadm]
        exact hbooked.blocks
      · rw [hsame]
        exact hbooked.hits
    · rintro s' op hs' hop ⟨hlinked, hindex⟩
      obtain ⟨manager, hcache, -, -⟩ := Session.step_looks (E.env other) hs' hop
      rw [hcache]
      exact ⟨hlinked.of_index rfl rfl, hindex⟩

-- A million requests fit.
theorem workload_room (huniform : Uniform requests total) (hfew : requests.length ≤ 2 ^ 20) :
    requests.length * total.toNat * growth total < 2 ^ 32 := by
  have hle := huniform.le
  have hgrowth : growth total ≤ 577 := by
    have hsquare : total.toNat * (total.toNat * BLOCK_SIZE.toNat) ≤ 6 * (6 * 16) :=
      Nat.mul_le_mul hle (Nat.mul_le_mul_right _ hle)
    unfold growth
    omega
  exact lt_of_le_of_lt (Nat.mul_le_mul (Nat.mul_le_mul hfew hle) hgrowth) (by decide)

end Books

section Totals

-- A sum of counters that wrap is at most the sum of what they show.
private theorem toNat_sum_le (l : List UInt32) : l.sum.toNat ≤ (l.map UInt32.toNat).sum := by
  induction l with
  | nil => exact le_refl _
  | cons a l ih =>
      rw [List.sum_cons, List.map_cons, List.sum_cons, UInt32.toNat_add]
      exact (Nat.mod_le _ _).trans (Nat.add_le_add_left ih _)

private theorem countP_lt_succ (served : List (NodeId × BenchRequest)) (k : Nat) :
    served.countP (fun x => x.1 < k + 1) =
      served.countP (fun x => x.1 < k) + served.countP fun x => x.1 = k := by
  induction served with
  | nil => rfl
  | cons x served ih =>
      simp only [List.countP_cons, ih, decide_eq_true_eq]
      split_ifs <;> omega

-- A request is served by one worker.
theorem sum_countP (served : List (NodeId × BenchRequest)) (k : Nat) :
    ((List.range k).map fun node => served.countP fun x => x.1 = node).sum =
      served.countP fun x => x.1 < k := by
  induction k with
  | zero => simp
  | succ k ih =>
      rw [List.range_succ, List.map_append, List.sum_append, ih, countP_lt_succ]
      simp

-- Counters that do not wrap show their sum.
theorem toNat_sum_eq {l : List UInt32} (h : (l.map UInt32.toNat).sum < 2 ^ 32) :
    l.sum.toNat = (l.map UInt32.toNat).sum := by
  induction l with
  | nil => rfl
  | cons a l ih =>
      rw [List.map_cons, List.sum_cons] at h ⊢
      rw [List.sum_cons, UInt32.toNat_add, ih (by omega)]
      exact Nat.mod_eq_of_lt h

-- Two counters of the workers, added up.
theorem sum_counters_le_sum {f g : NodeId → UInt32} {bound : NodeId → Nat} (k : Nat)
    (h : ∀ node, (f node).toNat + (g node).toNat ≤ bound node) :
    ((List.range k).map f).sum.toNat + ((List.range k).map g).sum.toNat ≤
      ((List.range k).map bound).sum := by
  have hf := toNat_sum_le ((List.range k).map f)
  have hg := toNat_sum_le ((List.range k).map g)
  have hsum : ((List.range k).map fun node => (f node).toNat + (g node).toNat).sum ≤
      ((List.range k).map bound).sum := List.sum_le_sum fun node _ => h node
  rw [List.sum_map_add] at hsum
  simp only [List.map_map, Function.comp_def] at hf hg
  omega

theorem sum_counters_eq {f g : NodeId → UInt32} {bound : NodeId → Nat} {k : Nat}
    (h : ∀ node, (f node).toNat + (g node).toNat = bound node)
    (hlt : ((List.range k).map bound).sum < 2 ^ 32) :
    ((List.range k).map f).sum.toNat + ((List.range k).map g).sum.toNat =
      ((List.range k).map bound).sum := by
  have hsum : ((List.range k).map fun node => (f node).toNat + (g node).toNat).sum =
      ((List.range k).map bound).sum := by
    simp only [h]
  rw [List.sum_map_add] at hsum
  rw [toNat_sum_eq, toNat_sum_eq] <;> simp only [List.map_map, Function.comp_def] <;> omega

-- What the workers count adds up to what the requests come to.
theorem sum_counters_le {k total : Nat} {served : List (NodeId × BenchRequest)}
    {f g : NodeId → UInt32}
    (h : ∀ node, (f node).toNat + (g node).toNat ≤
      served.countP (fun x => x.1 = node) * total) :
    ((List.range k).map f).sum.toNat + ((List.range k).map g).sum.toNat ≤
      served.length * total := by
  have hsum := sum_counters_le_sum k h
  rw [List.sum_map_mul_right, sum_countP] at hsum
  have hserved := Nat.mul_le_mul_right total
    (List.countP_le_length (p := fun x => decide (x.1 < k)) (l := served))
  omega

end Totals

-- A bench with a worker returns, whatever the policies and the workload. Each request is served
-- by the worker that was chosen for it: of each of its blocks that worker had the block, or it
-- offered it to its cache. Each worker has let go of its blocks and has evicted what did not fit.
-- No block is counted both as a hit and as admitted where it was computed, nor as a hit twice.
theorem bench_accounting (X : XXH3) (rng : Rng κ) (args : BenchArgs)
    (hworkers : args.num_workers ≠ 0) (hfew : args.num_requests.toNat ≤ 2 ^ 20) {total : UInt32}
    (htotal : total = totalBlocksPerRequest (generateWorkload rng args)) :
    ∃ s served, runBench X rng args = (.ok (), s) ∧
      served.map Prod.snd = generateWorkload rng args ∧
      Chooses (makeRoutingPolicy rng args) (requestContext X total)
        (nodeFeatures args.num_workers) (rng.seed args.seed) served s.routing_policy ∧
      (∀ node, Worked (benchEnv X args) total node ((rigs args).workers node) served
        (workerResults s node).local_hits (workerResults s node).remote_hits
        (s.cluster.workers node)) ∧
      (∀ node, (s.cluster.workers node).Idle ∧
        (workerResults s node).local_hits.toNat + (s.cluster.workers node).admissions.length ≤
          served.countP (fun x => x.1 = node) * total.toNat ∧
        (workerResults s node).admissions =
          UInt32.ofNat (s.cluster.workers node).admissions.length ∧
        (workerResults s node).evictions = UInt32.ofNat
          ((s.cluster.workers node).admissions.length - args.capacity_per_worker.toNat)) ∧
      (results args s).total_prefix_possible =
        UInt32.ofNat (args.num_requests.toNat * (total.toNat - 1)) ∧
      (results args s).local_hits.toNat + (results args s).admissions.toNat ≤
        args.num_requests.toNat * total.toNat ∧
      (results args s).local_hits.toNat + (results args s).remote_hits.toNat ≤
        args.num_requests.toNat * total.toNat := by
  have huniform : Uniform (generateWorkload rng args) total :=
    htotal ▸ generateWorkload_blocks rng args
  have hlen := (generateWorkload_uniform rng args).1
  have hroom := workload_room huniform (hlen.trans_le hfew)
  obtain ⟨s, served, hrun, hserved, hchooses, hrest, hpossible, hall⟩ := runBench_returns X rng
    hworkers htotal ((booked_keeps huniform hroom).and (worked_adds (rigs args) _))
    fun node => ⟨⟨⟨rfl, .empty _⟩, Nat.zero_le _, Nat.zero_le _, Nat.zero_le _⟩, .start⟩
  have hbooks := fun node => (hall node).1.1
  have hsettled : ∀ node, (s.cluster.workers node).cache.Settled args.capacity_per_worker.toNat
      (s.cluster.workers node).admissions.length := fun node =>
    Session.run_settled (hrest.moves node)
  have hrequests : args.num_requests.toNat = served.length := by
    rw [← hlen, ← hserved, List.length_map]
  refine ⟨s, served, hrun, hserved, hchooses, fun node => (hall node).1.2, fun node =>
    ⟨hrest.idle node, (hbooks node).blocks, congrArg UInt32.ofNat (hsettled node).entered,
      congrArg UInt32.ofNat (hsettled node).evicted⟩, hlen ▸ hpossible, ?_, ?_⟩
  · rw [hrequests]
    simp only [results, List.map_map]
    refine sum_counters_le fun node => le_trans (Nat.add_le_add_left ?_ _) (hbooks node).blocks
    rw [Function.comp_apply, workerResults, (hsettled node).entered, UInt32.toNat_ofNat']
    exact Nat.mod_le _ _
  · rw [hrequests]
    simp only [results, List.map_map]
    exact sum_counters_le fun node => (hbooks node).hits

-- Three requests of five blocks.
theorem bench_accounting_three : ∃ (s : State Unit Unit UInt32)
    (served : List (NodeId × BenchRequest)),
    runBench Sample.xxh3 Sample.rng { num_requests := 3 } = (.ok (), s) ∧
      served.map Prod.snd = generateWorkload Sample.rng { num_requests := 3 } ∧
      (∀ node, Worked (benchEnv Sample.xxh3 { num_requests := 3 }) 5 node
        ((rigs { num_requests := 3 }).workers node) served (workerResults s node).local_hits
        (workerResults s node).remote_hits (s.cluster.workers node)) ∧
      (results { num_requests := 3 } s).total_prefix_possible = 12 ∧
      (results { num_requests := 3 } s).local_hits.toNat +
        (results { num_requests := 3 } s).remote_hits.toNat ≤ 15 := by
  have htotal : (5 : UInt32) =
      totalBlocksPerRequest (generateWorkload Sample.rng { num_requests := 3 }) := by
    decide +kernel
  obtain ⟨s, served, hrun, hserved, -, hworked, -, hpossible, -, hle⟩ :=
    bench_accounting Sample.xxh3 Sample.rng { num_requests := 3 } (by decide) (by decide) htotal
  exact ⟨s, served, hrun, hserved, hworked, hpossible, hle⟩

end KVCache.Bench
