import KVCache.Pipeline.PipelineCases
import KVCache.Session.Linked

namespace KVCache.Pipeline

open Lib Controller Policy

variable {π σ : Type} {w : Wiring σ π} {req : RouteRequest} {x : σ} {c : Nat}

-- A worker whose coordinator is never there, as with `NullCoordinatorClient`.
def Wiring.offline (env : Env π) : Wiring (Session π) π where
  query _ := pure { refs := [], available := false }
  invalidate _ _ _ := pure ()
  chooseReplica _ refs := pure refs.head?
  fetchBlock _ _ _ := pure { status := .TransportError }
  networkFetchNs _ := pure 0
  record _ := pure ()
  worker s := s
  setWorker _ s := s
  env := env

-- The request is looked up, planned and cut into candidates: the planner does not divide
-- by zero, and neither it nor the stage reads beyond the tokens.
def Reads (w : Wiring σ π) (req : RouteRequest) (x : σ) : Prop :=
  ∃ loc missing,
    ((LocalCache.lookupPrefix w.env req.context req.tokens).run (w.worker x).cache).1 = .ok loc ∧
    MissingBlockPlanner.plan w.env.xxh3 req loc = .ok missing ∧
    ∀ mb ∈ missing, ∀ f, ∃ candidate, RemoteResolutionStage.toCandidate req mb f = .ok candidate

-- The result tells how many tokens its blocks of `c` tokens cover.
def Covers (c : Nat) (req : RouteRequest) (result : RouteResult) : Prop :=
  result.miss_token_offset = result.matched_tokens ∧
    result.matched_tokens.toNat = c * result.reusable_blocks.length ∧
    c * result.reusable_blocks.length ≤ req.tokens.length

instance (c : Nat) (req : RouteRequest) (result : RouteResult) : Decidable (Covers c req result) :=
  inferInstanceAs (Decidable (_ ∧ _ ∧ _))

theorem served_inStep {env : Env π} {s s' : Session π} (h : Served env s s')
    (hs : s.cache.manager.InStep) :
    s'.cache.manager.InStep ∧ s'.cache.block_size = s.cache.block_size :=
  Session.run_inStep h hs

theorem reads_iff (hs : (w.worker x).cache.manager.InStep)
    (hsize : (w.worker x).cache.block_size ≠ 0) :
    Reads w req x ↔ req.context.block_size ≠ 0 := by
  constructor
  · rintro ⟨loc, missing, -, hplan, -⟩ hb
    rw [MissingBlockPlanner.plan_zero hb] at hplan
    cases hplan
  · intro hb
    obtain ⟨loc, hloc, -⟩ := LocalCache.lookupPrefix_hits w.env hs hsize req.context req.tokens
    refine ⟨loc, _, hloc, MissingBlockPlanner.plan_eq hb loc, fun mb hmb f => ?_⟩
    obtain ⟨bi, hbi, rfl⟩ := List.mem_map.mp hmb
    obtain ⟨i, hi, rfl⟩ := List.mem_range'.mp hbi
    exact ⟨_, RemoteResolutionStage.toCandidate_eq hb (by omega) f⟩

-- A candidate of another block size is refused.
theorem admits_refused {env : Env π} {candidates : List BlockCandidate} {s s' : Session π}
    {results : List AdmitResult} (h : Admits env candidates s results s')
    (hs : s.cache.manager.InStep)
    (hbad : ∀ candidate ∈ candidates,
      candidate.tokens.length ≠ (candidate.block_index.toNat + 1) * s.cache.block_size) :
    ∀ result ∈ results, result = { status := .InvalidBlock } := by
  induction h with
  | nil => simp
  | @cons candidate rest s s' result results hentered hrest ih =>
      have hcase := Session.admitBlock_cases env hs candidate
      rw [hentered] at hcase
      generalize hc' : (s.step env (.admitBlock candidate)).cache = c' at hcase
      have hlen : candidate.tokens.length ≠
          (candidate.block_index.toNat + 1) * s.cache.ticked.block_size :=
        hbad candidate List.mem_cons_self
      have hresult : result = { status := .InvalidBlock } := by
        cases hcase with
        | badLength h => rfl
        | noParent htokens habsent h => rfl
        | present htokens h => exact absurd htokens hlen
        | rejected he hd hq => exact absurd he.tokens hlen
        | noSpace he hd hroom hvictim hq => exact absurd he.tokens hlen
        | admitted he hd hroom hfree hplace hs₂ => exact absurd he.tokens hlen
      have hstep : Session.Run env (fun _ _ => True) s (s.step env (.admitBlock candidate)) :=
        Steps.snoc (Steps.refl s) _ trivial
      have hnext := Session.run_inStep hstep hs
      have hrest := ih hnext.1 fun candidate' hmem => by
        rw [hnext.2]
        exact hbad candidate' (List.mem_cons_of_mem _ hmem)
      simpa [hresult] using hrest

theorem admits_handles_le {env : Env π} {candidates : List BlockCandidate} {s s' : Session π}
    {results : List AdmitResult} (h : Admits env candidates s results s') :
    ((results.filter hit).flatMap fun r => r.handle.toList).length ≤ candidates.length := by
  rw [← h.length_eq]
  clear h
  induction results with
  | nil => simp
  | cons r rs ih =>
      have hone : r.handle.toList.length ≤ 1 := by cases r.handle <;> simp
      by_cases hr : hit r
      · rw [List.filter_cons_of_pos hr, List.flatMap_cons, List.length_append, List.length_cons]
        omega
      · rw [List.filter_cons_of_neg hr, List.length_cons]
        omega

-- What a result consists of: the local hits, and what the admission of the blocks that
-- follow them gave.
theorem result_cases (hs : (w.worker x).cache.manager.InStep)
    (hsize : (w.worker x).cache.block_size ≠ 0) {result : RouteResult} {x' : σ}
    (h : (RequestPipeline.run w req).run x = (.ok result, x')) :
    ∃ loc candidates x₂ results s', loc.matched_blocks.length =
        (LocalCache.localHits w.env (w.worker x).cache req.context req.tokens).length ∧
      candidates.length ≤ fullBlocks req - loc.matched_blocks.length % 2 ^ 32 ∧
      (∀ candidate ∈ candidates, ∃ bi f, bi < fullBlocks req ∧
        candidate = fetchedCandidate req bi f) ∧
      Relation.ReflTransGen w.toRemote.Calls
        (w.setWorker x ((w.worker x).step w.env (.lookupPrefix req.context req.tokens))) x₂ ∧
      Admits w.env candidates (w.worker x₂) results s' ∧
      result = ResultAssembler.assemble req loc (results.foldl AdmissionStage.admitOne {}) := by
  obtain ⟨loc, remote, x₂, results, s', hloc, hremote, hadmits, -, rfl⟩ :=
    RequestPipeline.run_cases h
  obtain ⟨out, hout, hslots⟩ :=
    LocalCache.lookupPrefix_hits w.env hs hsize req.context req.tokens
  rw [hloc] at hout
  cases hout
  obtain ⟨-, hres, -⟩ := RemoteResolutionStage.run_cases hremote
  have hcalls := RemoteResolutionStage.run_makes w.toRemote w.env.xxh3 req loc
    (w.setWorker x ((w.worker x).step w.env (.lookupPrefix req.context req.tokens))) trivial
  rw [hremote] at hcalls
  refine ⟨loc, remote.fetched_blocks, x₂, results, s', ?_, hres.length_le, fun candidate hmem => ?_,
    hcalls, hadmits, rfl⟩
  · rw [← hslots, List.length_map]
  · obtain ⟨k, hk⟩ := List.mem_iff_getElem?.mp hmem
    obtain ⟨f, rfl, -⟩ := hres.getElem? hk
    have hlt := (List.getElem?_eq_some_iff.mp hk).1
    have hle := hres.length_le
    exact ⟨_, f, by omega, rfl⟩

-- A worker of another block size refuses what was fetched for the request.
theorem other_size_handles {env : Env π} {candidates : List BlockCandidate} {s s' : Session π}
    {results : List AdmitResult} (h : Admits env candidates s results s')
    (hs : s.cache.manager.InStep) (hne : req.context.block_size.toNat ≠ s.cache.block_size)
    (hcand : ∀ candidate ∈ candidates, ∃ bi f, bi < fullBlocks req ∧
      candidate = fetchedCandidate req bi f) :
    ((results.filter hit).flatMap fun r => r.handle.toList) = [] := by
  have hall : ∀ r ∈ results, r = { status := .InvalidBlock } := by
    refine admits_refused h hs fun candidate hmem => ?_
    obtain ⟨bi, f, hbi, rfl⟩ := hcand candidate hmem
    have hbi32 : (UInt32.ofNat bi).toNat = bi := by
      rw [UInt32.toNat_ofNat']
      exact Nat.mod_eq_of_lt (lt_trans hbi (fullBlocks_lt req))
    simp only [fetchedCandidate, List.length_take, hbi32, Nat.min_eq_left (block_end_le_length hbi)]
    intro heq
    exact hne (Nat.eq_of_mul_eq_mul_left (Nat.succ_pos bi) heq)
  rw [List.filter_eq_nil_iff.mpr fun r hr => by rw [hall r hr]; decide]
  rfl

-- Where the block sizes are the same, the blocks fit into the tokens as the hits do.
private theorem same_size_covers {hits handles n : Nat} (hc : c ≠ 0) (hn : n < 2 ^ 32)
    (hcount : handles ≤ n / c - hits % 2 ^ 32) :
    (c * (hits + handles) % 2 ^ 32 = c * (hits + handles) ∧ c * (hits + handles) ≤ n) ↔
      hits * c ≤ n ∧ hits * c % 2 ^ 32 = hits * c := by
  constructor
  · rintro ⟨-, hle⟩
    have hhit : hits * c ≤ n := by
      rw [Nat.mul_comm]
      exact le_trans (Nat.mul_le_mul_left c (Nat.le_add_right _ _)) hle
    exact ⟨hhit, Nat.mod_eq_of_lt (by omega)⟩
  · rintro ⟨hhit, -⟩
    have hhits_le : hits ≤ n / c := (Nat.le_div_iff_mul_le (Nat.pos_of_ne_zero hc)).mpr hhit
    have hlt : n / c ≤ n := Nat.div_le_self _ _
    rw [Nat.mod_eq_of_lt (by omega)] at hcount
    have hle : (hits + handles) * c ≤ n :=
      le_trans (Nat.mul_le_mul_right c (show _ ≤ n / c by omega)) (Nat.div_mul_le_self _ _)
    rw [Nat.mul_comm c]
    exact ⟨Nat.mod_eq_of_lt (by omega), hle⟩

-- The token count of a result covers its blocks exactly when the 32-bit product of the
-- local hits with the block size of the request does.
theorem covers_iff (hw : w.Lawful) (hs : (w.worker x).cache.manager.InStep)
    (hsize : (w.worker x).cache.block_size = c) (hc : c ≠ 0)
    (htokens : req.tokens.length < 2 ^ 32) {result : RouteResult} {x' : σ}
    (h : (RequestPipeline.run w req).run x = (.ok result, x')) {hits : Nat}
    (hhits : hits = (LocalCache.localHits w.env (w.worker x).cache req.context req.tokens).length) :
    Covers c req result ↔ hits * c ≤ req.tokens.length ∧
      hits * req.context.block_size.toNat % 2 ^ 32 = hits * c := by
  obtain ⟨loc, candidates, x₂, results, s', hlen, hcount, hcand, hcalls, hadmits, rfl⟩ :=
    result_cases hs (by rw [hsize]; exact hc) h
  rw [← hhits] at hlen
  rw [hlen] at hcount
  have hhandles := admits_handles_le hadmits
  -- the worker that admits is still in step and has the same block size
  have hlook : Session.Run w.env (fun _ _ => True) (w.worker x)
      ((w.worker x).step w.env (.lookupPrefix req.context req.tokens)) :=
    Steps.snoc (Steps.refl _) _ trivial
  have hserved := hw.calls hcalls
  rw [hw.worker_setWorker] at hserved
  have hone := Session.run_inStep hlook hs
  have htwo := served_inStep hserved hone.1
  have hsize₂ : (w.worker x₂).cache.block_size = c := htwo.2.trans (hone.2.trans hsize)
  have hrefused : req.context.block_size.toNat ≠ c →
      ((results.filter hit).flatMap fun r => r.handle.toList) = [] :=
    fun hne => other_size_handles hadmits htwo.1 (by rwa [hsize₂]) hcand
  rw [AdmissionStage.foldl_admitOne]
  simp only [Covers, ResultAssembler.assemble, List.nil_append, List.length_append, true_and,
    UInt32.toNat_mul, UInt32.toNat_ofNat', Nat.mod_mul_mod, hlen]
  generalize ((results.filter hit).flatMap fun r => r.handle.toList) = handles at *
  by_cases hb : req.context.block_size.toNat = c
  · rw [fullBlocks_eq htokens, hb] at hcount
    rw [hb]
    rw [← same_size_covers hc htokens (hhandles.trans hcount), Nat.mul_comm c]
  · rw [hrefused hb, List.length_nil, Nat.add_zero, Nat.mul_comm c]
    exact and_comm

-- A product that does not wrap tells the other one only where the factors are the same.
private theorem product_iff {hits b n : Nat} (hle : hits * c ≤ n) (hn : n < 2 ^ 32) :
    hits * b % 2 ^ 32 = hits * c ↔
      b = c ∨ hits = 0 ∨ (2 ^ 32 ≤ hits * b ∧ hits * b ≡ hits * c [MOD 2 ^ 32]) := by
  have hsmall : hits * c % 2 ^ 32 = hits * c := Nat.mod_eq_of_lt (lt_of_le_of_lt hle hn)
  constructor
  · intro h
    rcases Nat.lt_or_ge (hits * b) (2 ^ 32) with hlt | hge
    · rw [Nat.mod_eq_of_lt hlt, mul_eq_mul_left_iff] at h
      exact h.imp id .inl
    · exact .inr (.inr ⟨hge, h.trans hsmall.symm⟩)
  · rintro (rfl | rfl | ⟨-, h⟩)
    · exact hsmall
    · simp
    · exact Eq.trans h hsmall

-- For a worker that any run has led to, a request that returns tells the tokens of its
-- blocks exactly when the product with the block size of the request does for the local
-- hits: where the block sizes are the same, where there is no hit, or where the product
-- wraps to the right one. A request of block size zero divides by zero, and no other does.
theorem block_size_robust_iff (hw : w.Lawful) {c₀ : LocalCache π}
    (hc : LocalCache.Constructed c₀) (hsize : c₀.block_size ≠ 0) {x₀ : σ}
    (h₀ : w.worker x₀ = { cache := c₀ }) (hrun : w.Runs x₀ x)
    (htokens : req.tokens.length < 2 ^ 32) :
    let hits := (LocalCache.localHits w.env (w.worker x).cache req.context req.tokens).length
    (Reads w req x ↔ req.context.block_size ≠ 0) ∧
      ((w.worker x).cache.index.nodes.length < 2 ^ 32 →
        hits * c₀.block_size ≤ req.tokens.length) ∧
      ∀ result x', (RequestPipeline.run w req).run x = (.ok result, x') →
        (Covers c₀.block_size req result ↔ hits * c₀.block_size ≤ req.tokens.length ∧
          (req.context.block_size.toNat = c₀.block_size ∨ hits = 0 ∨
            (2 ^ 32 ≤ hits * req.context.block_size.toNat ∧
              hits * req.context.block_size.toNat ≡ hits * c₀.block_size [MOD 2 ^ 32]))) := by
  have hadv := hrun.advances hw
  rw [Wiring.Advances, h₀] at hadv
  have hs₀ : c₀.manager.InStep := by
    obtain ⟨capacity, clock, hm⟩ := hc.manager_eq
    rw [hm]
    exact BlockManager.new_inStep capacity clock
  obtain ⟨hs, hb⟩ := Session.run_inStep hadv hs₀
  refine ⟨reads_iff hs (by rw [hb]; exact hsize), fun hnodes => ?_, fun result x' h => ?_⟩
  · have hl := (Session.run_linked hc hadv hnodes).2.2
    have hle := hl.localHits_le w.env req.context req.tokens
    rwa [hb] at hle
  · rw [covers_iff hw hs hb hsize htokens h rfl]
    exact and_congr_right fun hle => product_iff hle htokens

theorem Wiring.offline_lawful (env : Env π) : (Wiring.offline env).Lawful := by
  refine ⟨fun _ _ => rfl, fun x x' h => ?_⟩
  cases h <;> exact Steps.refl _

theorem Wiring.offline_step {env : Env π} (s : Session π) {op : SessionOp} (hop : op.Public) :
    (Wiring.offline env).Step s (s.step env op) := .use hop

private abbrev sampleWiring : Wiring (Session Unit) Unit := Wiring.offline Sample.lruEnv

private abbrev sampleCache : LocalCache Unit := .new 2 1 Sample.clock ()

private abbrev sampleRequest (block_size : UInt32) : RouteRequest where
  request_id := 0
  context := Sample.context block_size
  tokens := [1]

-- A cache of blocks of one token that has one under a context of block size two.
private abbrev mixedSession : Session Unit :=
  Session.step Sample.lruEnv { cache := sampleCache }
    (.admitBlock { Sample.candidate 1 [1] [] with context := Sample.context 2 })

private theorem mixedSession_runs : sampleWiring.Runs { cache := sampleCache } mixedSession :=
  .single (Wiring.offline_step _ (.inr ⟨_, rfl⟩))

-- A request of block size zero divides by zero, and one of block size two is told that
-- its one block of one token covers two.
theorem block_size_miscounts :
    sampleWiring.Lawful ∧ LocalCache.Constructed sampleCache ∧
      sampleWiring.Runs { cache := sampleCache } mixedSession ∧
      ¬ Reads sampleWiring (sampleRequest 0) mixedSession ∧
      ∃ result x', (RequestPipeline.run sampleWiring (sampleRequest 2)).run mixedSession =
        (.ok result, x') ∧ ¬ Covers 1 (sampleRequest 2) result := by
  refine ⟨Wiring.offline_lawful _, .untiered 2 1 _ _, mixedSession_runs, ?_, ?_⟩
  · rintro ⟨loc, missing, -, hplan, -⟩
    cases hplan
  · have hcount : ((RequestPipeline.run sampleWiring (sampleRequest 2)).run mixedSession).1.map
        (fun result => decide (Covers 1 (sampleRequest 2) result)) = .ok false := by
      decide +kernel
    rcases hrun : (RequestPipeline.run sampleWiring (sampleRequest 2)).run mixedSession with
      ⟨_ | result, x'⟩
    · rw [hrun] at hcount
      cases hcount
    · rw [hrun] at hcount
      refine ⟨result, x', rfl, ?_⟩
      simpa [Except.map] using hcount

-- The same token under both contexts.
private def bothSession : Session Unit :=
  Session.step Sample.lruEnv mixedSession (.admitBlock (Sample.candidate 1 [1] []))

-- Each request has one hit, and only the one of the cache's block size is told what it covers.
theorem block_size_robust_iff_mixed :
    Reads sampleWiring (sampleRequest 2) bothSession ∧
      ((RequestPipeline.run sampleWiring (sampleRequest 1)).run bothSession).1.map
        (·.reusable_blocks.length) = .ok 1 ∧
      (∀ result x', (RequestPipeline.run sampleWiring (sampleRequest 1)).run bothSession =
        (.ok result, x') → Covers 1 (sampleRequest 1) result) ∧
      ∀ result x', (RequestPipeline.run sampleWiring (sampleRequest 2)).run bothSession =
        (.ok result, x') → ¬ Covers 1 (sampleRequest 2) result := by
  have hrun : sampleWiring.Runs { cache := sampleCache } bothSession :=
    mixedSession_runs.tail (Wiring.offline_step mixedSession (.inr ⟨_, rfl⟩))
  have hlaw := fun block_size => @block_size_robust_iff Unit (Session Unit) sampleWiring
    (sampleRequest block_size) bothSession (Wiring.offline_lawful Sample.lruEnv) sampleCache
    (.untiered 2 1 Sample.clock ()) (by decide) { cache := sampleCache } rfl hrun (by simp)
  have hone : (LocalCache.localHits sampleWiring.env (sampleWiring.worker bothSession).cache
      (sampleRequest 1).context (sampleRequest 1).tokens).length = 1 := by decide +kernel
  have htwo : (LocalCache.localHits sampleWiring.env (sampleWiring.worker bothSession).cache
      (sampleRequest 2).context (sampleRequest 2).tokens).length = 1 := by decide +kernel
  refine ⟨(hlaw 2).1.mpr (by decide), by decide +kernel, fun result x' h => ?_,
    fun result x' h hcovers => ?_⟩
  · exact ((hlaw 1).2.2 result x' h).mpr ⟨by rw [hone]; decide, .inl rfl⟩
  · have hcount := (((hlaw 2).2.2 result x' h).mp hcovers).2
    rw [htwo] at hcount
    revert hcount
    decide

end KVCache.Pipeline
