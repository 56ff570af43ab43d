import KVCache.Cluster.References
import KVCache.Session.Attribution

namespace KVCache

open Lib Controller Coordinator Pipeline Policy Sim

variable {π ρ : Type}

-- A hit of `serveBlockFetch` is the block of the slot, with tiers or without.
theorem LocalCache.serveBlockFetch_ok {s : LocalCache π} (hs : s.manager.InStep)
    {id generation : Nat} {result : ServeBlockResult}
    (h : ((LocalCache.serveBlockFetch id generation).run s).1 = .ok result)
    (hok : result.status = .Ok) : ∃ r, s.manager.store.records[id]? = some r ∧ r.state = .Ready ∧
      r.generation = generation ∧ result.hash = r.hash := by
  rcases LocalCache.serveBlockFetch_cases hs id generation with
    ⟨r, hr, rfl, hready⟩ | ⟨status, hne, hrun⟩
  · refine ⟨r, hr, hready, rfl, ?_⟩
    rw [LocalCache.serveBlockFetch_hit hs hr hready] at h
    cases hbytes : LocalCache.payloadBytes s r with
    | error e =>
        rw [hbytes] at h
        cases h
    | ok payload =>
        rw [hbytes] at h
        cases h
        rfl
  · rw [hrun] at h
    cases h
    exact absurd hok hne

-- What is fetched for a request is hashed.
theorem Pipeline.fetched_hashed {X : XXH3} {req : RouteRequest} {k : Nat} {f : FetchRemoteResult}
    (hk : k < fullBlocks req) (hhash : f.hash = (missingBlock X req k).hash) :
    (fetchedCandidate req k f).Hashed X := by
  intro b hb
  rw [fetched_length hk f] at hb
  obtain rfl : req.context.block_size.toNat = b := Nat.eq_of_mul_eq_mul_left (Nat.succ_pos _) hb
  rw [fetched_block_index hk, fetched_drop]
  exact hhash

namespace Cluster

variable {E : ClusterEnv π ρ} {c₀ c x x' : Cluster π ρ} {n : NodeId} {req : RouteRequest}
  {loc : LocalLookupOutcome} {outcome : RemoteResolutionOutcome}

-- A cluster of caches that have not been used, with tiers or without.
structure Constructed (c : Cluster π ρ) : Prop where
  workers : ∀ node, ∃ cache, LocalCache.Constructed cache ∧ c.workers node = { cache := cache }
  index : c.index = {}

abbrev Uses (E : ClusterEnv π ρ) : SessionOp → Prop := SessionOp.Hashed E.xxh3

theorem fetches_hashed (E : ClusterEnv π ρ) : Fetches E (Uses E) := by
  intro node req loc remote x x' hremote candidate hmem
  refine ⟨.inr ⟨candidate, rfl⟩, fun candidate' hop => ?_⟩
  obtain rfl := SessionOp.admitBlock.inj hop
  obtain ⟨-, hres, -⟩ := RemoteResolutionStage.run_cases hremote
  obtain ⟨k, hk⟩ := List.mem_iff_getElem?.mp hmem
  have hlen := hres.length_le
  have hlt := (List.getElem?_eq_some_iff.mp hk).1
  obtain ⟨f, rfl, hhash⟩ := hres.getElem? hk
  exact fetched_hashed (by omega) hhash

theorem run_traced (h₀ : c₀.Constructed) (hrun : Run E (Uses E) c₀ c) (node : NodeId) :
    Session.Traced E.xxh3 (c.workers node).cache.block_size (c.workers node) := by
  obtain ⟨cache, hc, hworker⟩ := h₀.workers node
  have hmoves := run_moves (fun _ h => h.hashed) (fetches_hashed E) hrun node
  rw [hworker] at hmoves
  have htraced := Session.run_traced (Session.constructed_traced hc E.xxh3) hmoves
  rwa [htraced.block_size]

-- Blocks, admissions, the index and what the transports know are as in `c`.
structure Kept (c x : Cluster π ρ) : Prop where
  blocks : ∀ node, (c.workers node).cache.manager.SameBlocks (x.workers node).cache.manager
  index : x.index = c.index
  registered : x.registered = c.registered

theorem Kept.asks (h : Kept c x) (hc : ∀ node, (c.workers node).cache.manager.InStep)
    (hx : (wiring E n).toRemote.Asks x x') : Kept c x' := by
  cases hx with
  | fetchBlock node block_id generation =>
      simp only [wiring, fetchBlock_run]
      split
      · exact h
      · refine ⟨fun m => ?_, h.index, h.registered⟩
        by_cases hm : m = node
        · subst hm
          have hlooks : (SessionOp.serveBlockFetch block_id generation).Looks := trivial
          obtain ⟨m', hm', hsame, -⟩ :=
            Session.step_looks (E.env m) ((h.blocks m).inStep (hc m)) hlooks
          rw [setWorker_self, hm']
          exact (h.blocks m).trans hsame
        · rw [setWorker_ne x _ hm]
          exact h.blocks m
  | _ => exact ⟨h.blocks, h.index, h.registered⟩

theorem Kept.fetch (h : Kept c x) (hc : ∀ node, (c.workers node).cache.manager.InStep)
    {ref : GlobalBlockRef} {hash : ContentHash} {f : FetchRemoteResult}
    (hf : (RemoteBlockFetcher.fetch (wiring E n).toRemote ref hash).run x = (.ok f, x'))
    (hok : f.status = .Ok) :
    f.source_ref = ref ∧ c.registered n ref.node_id = true ∧
      ∃ r, (c.workers ref.node_id).cache.manager.store.records[ref.block_id]? = some r ∧
        r.state = .Ready ∧ r.generation = ref.generation ∧ r.hash = hash := by
  obtain ⟨x₁, resp, x₂, hstart, hresp, hsource, hcase⟩ := RemoteBlockFetcher.fetch_cases hf
  refine ⟨hsource, ?_⟩
  have hstatus : resp.status = .Ok ∧ resp.hash = hash := by
    rcases hcase with ⟨-, hs⟩ | ⟨-, hs⟩ | ⟨-, hs⟩ | ⟨-, -, hs⟩ | ⟨hs, hhash, -⟩
    · rw [hok] at hs; cases hs
    · rw [hok] at hs; cases hs
    · rw [hok] at hs; cases hs
    · rw [hok] at hs; cases hs
    · exact ⟨hs, hhash⟩
  have hkept : Kept c x₁ := by
    have hrecord := Remote.Asks.record (w := (wiring E n).toRemote)
      (.RemoteFetchStarted hash ref.node_id 0) x
    rw [hstart] at hrecord
    exact h.asks hc hrecord
  have hrun : (fetchBlock E n ref.node_id ref.block_id ref.generation).run x₁ = (.ok resp, x₂) :=
    hresp
  rw [fetchBlock_run] at hrun
  split at hrun
  · cases hrun
    cases hstatus.1
  · rename_i hknown
    rw [hkept.registered, Bool.not_eq_false] at hknown
    refine ⟨hknown, ?_⟩
    have hres := (Prod.mk.inj hrun).1
    cases hserve : ((LocalCache.serveBlockFetch ref.block_id ref.generation).run
        (x₁.workers ref.node_id).cache).1 with
    | error e =>
        rw [hserve] at hres
        cases hres
    | ok result =>
        rw [hserve] at hres
        have hresult : response result = resp := Except.ok.inj hres
        subst hresult
        have hready := response_status.mp hstatus.1
        obtain ⟨r, hr, hstate, hgen, hhash⟩ := LocalCache.serveBlockFetch_ok
          ((hkept.blocks ref.node_id).inStep (hc ref.node_id)) hserve hready
        obtain ⟨r', hr', hbody⟩ := (hkept.blocks ref.node_id).symm.record hr
        obtain ⟨-, hgen', hhash', -, -, -, -, hstate'⟩ := BlockRecord.fields_of_body hbody
        refine ⟨r', hr', hstate'.trans hstate, hgen'.trans hgen, ?_⟩
        have hresponse : (response result).hash = result.hash := by
          simp only [response, hready]
        exact hhash'.trans (hhash.symm.trans (hresponse.symm.trans hstatus.2))

-- The replica policy of worker `n` may pick the reference for a block that has `hash`.
def Offers (E : ClusterEnv π ρ) (c : Cluster π ρ) (n : NodeId) (hash : ContentHash)
    (ref : GlobalBlockRef) : Prop :=
  ∃ collaborators, (E.chooseReplica n ⟨hash, 0, 0⟩ (c.index.query hash) collaborators).1 = some ref

-- The block of the reference is in its cache, by the admission `a`.
def Holds (c : Cluster π ρ) (ref : GlobalBlockRef) (a : Admission) : Prop :=
  c.Caches ref ∧ (c.workers ref.node_id).lastAdmission ref.block_id = some a ∧
    a.generation = ref.generation

-- The bytes that are hashed for what was admitted and for a request.
def hashedContexts (c : Cluster π ρ) (req : RouteRequest) : Set CacheKeyContext :=
  {ctx | ctx = req.context ∨ ∃ node, ∃ a ∈ (c.workers node).admissions, a.candidate.context = ctx}

def hashedStreams (E : ClusterEnv π ρ) (c : Cluster π ρ) (req : RouteRequest) : Set (List UInt8) :=
  {bytes | (∃ i < fullBlocks req, bytes = contentBytes (computeContextHash E.xxh3 req.context)
      (UInt32.ofNat i) (UInt16.ofNat req.context.block_size.toNat) (blockTokens req i)) ∨
    ∃ node, ∃ a ∈ (c.workers node).admissions,
      bytes = contentBytes (computeContextHash E.xxh3 a.candidate.context) a.candidate.block_index
        (UInt16.ofNat (c.workers node).cache.block_size)
        (a.candidate.tokens.drop
          (a.candidate.block_index.toNat * (c.workers node).cache.block_size))}

-- The candidate was fetched where it had been admitted for the tokens of the request up to
-- and with its block.
def FetchedFor (c : Cluster π ρ) (req : RouteRequest) (candidate : BlockCandidate) : Prop :=
  ∃ ref a, candidate.source_ref = some ref ∧ c.Holds ref a ∧
    a.candidate.context = req.context ∧ a.candidate.block_index = candidate.block_index ∧
    a.candidate.tokens =
      req.tokens.take ((candidate.block_index.toNat + 1) * req.context.block_size.toNat)

-- The reference is on offer to worker `n`, which knows its worker, and the block is still there
-- under the hash.
def Obtainable (E : ClusterEnv π ρ) (c : Cluster π ρ) (n : NodeId) (hash : ContentHash)
    (ref : GlobalBlockRef) : Prop :=
  Offers E c n hash ref ∧ c.registered n ref.node_id = true ∧
    ∃ r, (c.workers ref.node_id).cache.manager.store.records[ref.block_id]? = some r ∧
      r.state = .Ready ∧ r.generation = ref.generation ∧ r.hash = hash

-- A block that may be fetched for block `i` of the request, when those from the first missing one
-- up to it may be, and that was admitted under its context as block `i` with the same tokens
-- inside the block, was admitted after the same tokens as well.
def PrefixesAgree (E : ClusterEnv π ρ) (c : Cluster π ρ) (n : NodeId) (req : RouteRequest)
    (first_missing : Nat) : Prop :=
  ∀ i ref a, first_missing ≤ i → i < fullBlocks req →
    (∀ j, first_missing ≤ j → j < i →
      ∃ ref', Obtainable E c n (missingBlock E.xxh3 req j).hash ref') →
    Offers E c n (missingBlock E.xxh3 req i).hash ref → c.Holds ref a →
    a.candidate.context = req.context → a.candidate.block_index.toNat = i →
    a.candidate.tokens.drop (i * req.context.block_size.toNat) = blockTokens req i →
    a.candidate.tokens.take (i * req.context.block_size.toNat) =
      req.tokens.take (i * req.context.block_size.toNat)

-- Where no digest collides, a block with the hash of block `i` of the request was admitted
-- under its context, as block `i` and with the same tokens inside the block.
theorem admission_of_hash
    (hfree : E.xxh3.CollisionFree (c.hashedContexts req) (hashedStreams E c req)) {node : NodeId}
    (ht : Session.Traced E.xxh3 (c.workers node).cache.block_size (c.workers node)) {id : BlockId}
    {r : BlockRecord} (hr : (c.workers node).cache.manager.store.records[id]? = some r)
    (hready : r.state = .Ready) {i : Nat} (hi : i < fullBlocks req)
    (hhash : r.hash = (missingBlock E.xxh3 req i).hash) :
    ∃ a, (c.workers node).lastAdmission id = some a ∧ a.generation = r.generation ∧
      a.candidate.context = req.context ∧ a.candidate.block_index = UInt32.ofNat i ∧
      a.candidate.tokens.drop (i * req.context.block_size.toNat) = blockTokens req i := by
  obtain ⟨a, hlast, hgen, hown, htokens⟩ := ht.ready hr hready
  have hmem : a ∈ (c.workers node).admissions := List.mem_of_find?_eq_some hlast
  rw [hown] at hhash
  obtain ⟨hctx, hindex, -, hblock⟩ := computeContentHash_injOn hfree
    (.inr ⟨node, a, hmem, rfl⟩) (.inl ⟨i, hi, rfl⟩) hhash
  have hcontext := computeContextHash_injOn hfree (.inr ⟨node, a, hmem, rfl⟩) (.inl rfl) hctx
  have hnat : a.candidate.block_index.toNat = i := by
    rw [hindex, UInt32.toNat_ofNat']
    exact Nat.mod_eq_of_lt (lt_trans hi (fullBlocks_lt req))
  -- the block sizes are the lengths of the two blocks
  have hsize : (c.workers node).cache.block_size = req.context.block_size.toNat := by
    have hlen := congrArg List.length hblock
    rw [blockTokens_length hi, List.length_drop, htokens, Nat.succ_mul,
      Nat.add_sub_cancel_left] at hlen
    exact hlen
  rw [hnat, hsize] at hblock
  exact ⟨a, hlast, hgen, hcontext, hindex, hblock⟩

-- Where a block was fetched from.
private theorem fetched_from (hc : ∀ node, (c.workers node).cache.manager.InStep)
    (hstage : (RemoteResolutionStage.run (wiring E n).toRemote E.xxh3 req loc).run c =
      (.ok outcome, x)) {k : Nat} {candidate : BlockCandidate}
    (hk : outcome.fetched_blocks[k]? = some candidate) :
    loc.matched_blocks.length % 2 ^ 32 + k < fullBlocks req ∧ ∃ ref f,
      Obtainable E c n (missingBlock E.xxh3 req (loc.matched_blocks.length % 2 ^ 32 + k)).hash ref ∧
      f.source_ref = ref ∧
      candidate = fetchedCandidate req (loc.matched_blocks.length % 2 ^ 32 + k) f := by
  obtain ⟨-, hres, -⟩ := RemoteResolutionStage.run_cases hstage
  have hlen := hres.length_le
  have hlt := (List.getElem?_eq_some_iff.mp hk).1
  refine ⟨by omega, ?_⟩
  obtain ⟨y, y₁, y₂, y₃, q, ref, f, hasks, hq, hchoose, hf, hok, hcandidate⟩ := hres.round hk
  generalize missingBlock E.xxh3 req (loc.matched_blocks.length % 2 ^ 32 + k) = missing at *
  -- the calls before leave the blocks and the index as they are
  have hkept : Kept c y := Exec.reach_invariant (J := Kept c) (fun _ _ hkept h => hkept.asks hc h)
    hasks ⟨fun node => .refl _, rfl, rfl⟩
  have hkept₂ : Kept c y₂ := by
    have hquery := Remote.Asks.query (w := (wiring E n).toRemote) missing.hash y
    have hpick := Remote.Asks.chooseReplica (w := (wiring E n).toRemote)
      ⟨missing.hash, 0, 0⟩ q.refs y₁
    rw [hq] at hquery
    rw [hchoose] at hpick
    exact (hkept.asks hc hquery).asks hc hpick
  have hoffer : Offers E c n missing.hash ref := by
    have hquery : q = { refs := y.index.query missing.hash } ∧ y = y₁ := by
      cases hq
      exact ⟨rfl, rfl⟩
    obtain ⟨rfl, rfl⟩ := hquery
    refine ⟨y.collaborators, ?_⟩
    have hpick := (Prod.mk.inj hchoose).1
    rw [← hkept.index]
    exact Except.ok.inj hpick
  obtain ⟨hsource, hrecord⟩ := hkept₂.fetch hc hf hok
  exact ⟨ref, f, ⟨hoffer, hrecord⟩, hsource, hcandidate⟩

-- Where the blocks that a request may fetch agree with it before the block as well, those
-- that it fetches had been admitted for its own tokens. Inside the block the hash sees to it.
theorem remote_reuse_prefix_sound (h₀ : c₀.Constructed) (hrun : Run E (Uses E) c₀ c)
    (hfree : E.xxh3.CollisionFree (c.hashedContexts req) (hashedStreams E c req))
    (hagree : PrefixesAgree E c n req (loc.matched_blocks.length % 2 ^ 32))
    (hstage : (RemoteResolutionStage.run (wiring E n).toRemote E.xxh3 req loc).run c =
      (.ok outcome, x)) :
    ∀ candidate ∈ outcome.fetched_blocks, FetchedFor c req candidate := by
  intro candidate hmem
  have htraced := run_traced h₀ hrun
  have hc : ∀ node, (c.workers node).cache.manager.InStep := fun node => (htraced node).inStep
  obtain ⟨k, hk⟩ := List.mem_iff_getElem?.mp hmem
  obtain ⟨hfull, ref, f, ⟨hoffer, -, r, hr, hready, hgen, hhash⟩, hsource, rfl⟩ :=
    fetched_from hc hstage hk
  -- so were the blocks before it
  have hbefore : ∀ j, loc.matched_blocks.length % 2 ^ 32 ≤ j →
      j < loc.matched_blocks.length % 2 ^ 32 + k →
      ∃ ref', Obtainable E c n (missingBlock E.xxh3 req j).hash ref' := by
    intro j hj hlt
    have hget := List.getElem?_eq_getElem (show j - loc.matched_blocks.length % 2 ^ 32 <
      outcome.fetched_blocks.length from by
        have hlen := (List.getElem?_eq_some_iff.mp hk).1
        omega)
    obtain ⟨-, ref', -, hfetchable, -⟩ := fetched_from hc hstage hget
    rw [Nat.add_sub_cancel' hj] at hfetchable
    exact ⟨ref', hfetchable⟩
  generalize hi : loc.matched_blocks.length % 2 ^ 32 + k = i at *
  obtain ⟨a, hlast, hgen', hcontext, hindex, hblock⟩ :=
    admission_of_hash hfree (htraced ref.node_id) hr hready hfull hhash
  have hnat : (UInt32.ofNat i).toNat = i := by
    rw [UInt32.toNat_ofNat']
    exact Nat.mod_eq_of_lt (lt_trans hfull (fullBlocks_lt req))
  have hholds : c.Holds ref a := ⟨⟨r, hr, hready, hgen⟩, hlast, hgen'.trans hgen⟩
  have hbegin := hagree i ref a (by omega) hfull hbefore hoffer hholds hcontext
    (by rw [hindex, hnat]) hblock
  refine ⟨ref, a, congrArg some hsource, hholds, hcontext, hindex, ?_⟩
  calc a.candidate.tokens
      = a.candidate.tokens.take (i * req.context.block_size.toNat) ++
          a.candidate.tokens.drop (i * req.context.block_size.toNat) :=
        (List.take_append_drop _ _).symm
    _ = req.tokens.take (i * req.context.block_size.toNat) ++ blockTokens req i := by
        rw [hbegin, hblock]
    _ = req.tokens.take ((i + 1) * req.context.block_size.toNat) := by
        rw [blockTokens, Nat.succ_mul, List.take_add]
    _ = _ := by
        simp only [fetchedCandidate]
        rw [hnat]

section Sample

open Sample

private theorem sample_hashed {tokens : List TokenId} (hlen : tokens.length < 2 ^ 32)
    (hne : tokens ≠ []) : (Sample.candidate 1 tokens []).Hashed Sample.xxh3 := by
  have hpos := List.length_pos_iff.mpr hne
  have hindex : (UInt32.ofNat (tokens.length / 1 - 1)).toNat = tokens.length - 1 := by
    rw [UInt32.toNat_ofNat', Nat.div_one]
    exact Nat.mod_eq_of_lt (by omega)
  intro b hb
  simp only [Sample.candidate] at hb ⊢
  rw [hindex] at hb ⊢
  have hb1 : tokens.length * 1 = tokens.length * b := by
    rw [Nat.sub_add_cancel hpos] at hb
    omega
  obtain rfl : 1 = b := Nat.eq_of_mul_eq_mul_left hpos hb1
  simp only [Nat.mul_one]

-- Worker 1 has admitted and announced the second block of `[1, 2]`.
private def announcedSecond : Cluster Unit Unit :=
  ((((Sample.cluster 2).step lruCluster (.use 1 (.admitBlock (Sample.candidate 1 [1] [])))).step
    lruCluster (.use 1 (.admitBlock (Sample.candidate 1 [1, 2] [])))).step lruCluster
    (.announce (Sample.candidate 1 [1, 2] []).hash ⟨1, 1, 1⟩))

-- Worker 0 has admitted the first block of `[t, 2]` and looks for the second one.
private def admittedFirst (t : TokenId) : Cluster Unit Unit :=
  announcedSecond.step lruCluster (.use 0 (.admitBlock (Sample.candidate 1 [t] [])))

private abbrev secondRequest (t : TokenId) : RouteRequest := ⟨0, Sample.context 1, [t, 2]⟩

private def lookedUp (t : TokenId) : Cluster Unit Unit :=
  (admittedFirst t).step lruCluster (.use 0 (.lookupPrefix (Sample.context 1) [t, 2]))

private abbrev localHit : LocalLookupOutcome where
  matched_blocks := [⟨0⟩]
  matched_tokens := 1
  miss_token_offset := 1
  context_hash := computeContextHash Sample.xxh3 (Sample.context 1)
  total_full_blocks_in_request := 2

private theorem secondRequest_fullBlocks (t : TokenId) : fullBlocks (secondRequest t) = 2 := by
  change 2 % 2 ^ 32 / (UInt32.ofNat 1).toNat = 2
  decide

private theorem lookedUp_run (t : TokenId) :
    Run lruCluster (Uses lruCluster) (Sample.cluster 2) (lookedUp t) := by
  have hadmits : ∀ tokens : List TokenId, tokens.length < 2 ^ 32 → tokens ≠ [] →
      (SessionOp.admitBlock (Sample.candidate 1 tokens [])).Hashed Sample.xxh3 := by
    intro tokens hlen hne
    refine ⟨.inr ⟨_, rfl⟩, fun candidate hop => ?_⟩
    cases hop
    exact sample_hashed hlen hne
  have hstart : Run lruCluster (Uses lruCluster) (Sample.cluster 2) (Sample.cluster 2) :=
    Steps.refl _
  have hlooks : (SessionOp.lookupPrefix (Sample.context 1) [t, 2]).Looks := trivial
  refine ((((hstart.snoc (ClusterOp.use 1 (.admitBlock (Sample.candidate 1 [1] [])))
    (hadmits [1] (by decide) (by decide))).snoc
    (ClusterOp.use 1 (.admitBlock (Sample.candidate 1 [1, 2] [])))
    (hadmits [1, 2] (by decide) (by decide))).snoc
    (ClusterOp.announce (Sample.candidate 1 [1, 2] []).hash ⟨1, 1, 1⟩) ?_).snoc
    (ClusterOp.use 0 (.admitBlock (Sample.candidate 1 [t] [])))
    (hadmits [t] (by simp) (by simp))).snoc
    (ClusterOp.use 0 (.lookupPrefix (Sample.context 1) [t, 2])) hlooks.hashed
  exact ⟨⟨Sample.candidate 1 [1, 2] [], 1, 1⟩, by decide +kernel, rfl, rfl, rfl⟩

private theorem lookedUp_other (t : TokenId) {node : NodeId} (h0 : node ≠ 0) (h1 : node ≠ 1) :
    (lookedUp t).workers node = (Sample.cluster 2).workers node := by
  simp only [lookedUp, admittedFirst, announcedSecond, step, setWorker_ne _ _ h0,
    setWorker_ne _ _ h1]

-- Everything that is hashed in the two runs.
private theorem lookedUp_admission {t : TokenId} (ht : t = 1 ∨ t = 3) {node : NodeId}
    {a : Admission} (ha : a ∈ ((lookedUp t).workers node).admissions) :
    ((lookedUp t).workers node).cache.block_size = 1 ∧ a.candidate.context = Sample.context 1 ∧
      a.candidate ∈ [Sample.candidate 1 [1] [], Sample.candidate 1 [1, 2] [],
        Sample.candidate 1 [3] []] := by
  by_cases h0 : node = 0
  · subst h0
    have hall : ((lookedUp t).workers 0).cache.block_size = 1 ∧
        ∀ a ∈ ((lookedUp t).workers 0).admissions, a.candidate.context = Sample.context 1 ∧
          a.candidate ∈ [Sample.candidate 1 [1] [], Sample.candidate 1 [1, 2] [],
            Sample.candidate 1 [3] []] := by
      rcases ht with rfl | rfl <;> decide +kernel
    exact ⟨hall.1, hall.2 a ha⟩
  · by_cases h1 : node = 1
    · subst h1
      have hall : ((lookedUp t).workers 1).cache.block_size = 1 ∧
          ∀ a ∈ ((lookedUp t).workers 1).admissions, a.candidate.context = Sample.context 1 ∧
            a.candidate ∈ [Sample.candidate 1 [1] [], Sample.candidate 1 [1, 2] [],
              Sample.candidate 1 [3] []] := by
        rcases ht with rfl | rfl <;> decide +kernel
      exact ⟨hall.1, hall.2 a ha⟩
    · rw [lookedUp_other t h0 h1] at ha
      cases ha

private abbrev sampleStream (index : UInt32) (tokens : List TokenId) : List UInt8 :=
  contentBytes (computeContextHash Sample.xxh3 (Sample.context 1)) index 1 tokens

private theorem lookedUp_collisionFree {t : TokenId} (ht : t = 1 ∨ t = 3) :
    Sample.xxh3.CollisionFree ((lookedUp t).hashedContexts (secondRequest t))
      (hashedStreams lruCluster (lookedUp t) (secondRequest t)) := by
  have hctx : ∀ ctx ∈ (lookedUp t).hashedContexts (secondRequest t), ctx = Sample.context 1 := by
    rintro ctx (rfl | ⟨node, a, ha, rfl⟩)
    · rfl
    · exact (lookedUp_admission ht ha).2.1
  have hstream : ∀ bytes ∈ hashedStreams lruCluster (lookedUp t) (secondRequest t),
      bytes ∈ [sampleStream 0 [1], sampleStream 0 [3], sampleStream 1 [2]] := by
    rintro bytes (⟨i, hi, rfl⟩ | ⟨node, a, ha, rfl⟩)
    · rw [secondRequest_fullBlocks] at hi
      obtain rfl | rfl : i = 0 ∨ i = 1 := by omega
      · rcases ht with rfl | rfl <;> decide +kernel
      · rcases ht with rfl | rfl <;> decide +kernel
    · obtain ⟨hsize, hcontext, hcandidate⟩ := lookedUp_admission ht ha
      rw [hsize, hcontext]
      revert hcandidate
      generalize a.candidate = candidate
      intro hcandidate
      have hall : ∀ candidate ∈ [Sample.candidate 1 [1] [], Sample.candidate 1 [1, 2] [],
          Sample.candidate 1 [3] []],
          contentBytes (computeContextHash lruCluster.xxh3 (Sample.context 1)) candidate.block_index
            (UInt16.ofNat 1) (candidate.tokens.drop (candidate.block_index.toNat * 1)) ∈
              [sampleStream 0 [1], sampleStream 0 [3], sampleStream 1 [2]] := by
        decide +kernel
      exact hall candidate hcandidate
  have hdistinct : ∀ x ∈ [sampleStream 0 [1], sampleStream 0 [3], sampleStream 1 [2]],
      ∀ y ∈ [sampleStream 0 [1], sampleStream 0 [3], sampleStream 1 [2]],
        Sample.xxh3.bits128 x = Sample.xxh3.bits128 y → x = y := by
    decide +kernel
  refine ⟨?_, fun x hx y hy h => hdistinct x (hstream x hx) y (hstream y hy) h⟩
  rintro _ ⟨ctx, hx, rfl⟩ _ ⟨ctx', hy, rfl⟩ -
  rw [hctx ctx hx, hctx ctx' hy]

private theorem lookedUp_localHit {t : TokenId} (ht : t = 1 ∨ t = 3) :
    ((LocalCache.lookupPrefix (lruCluster.env 0) (secondRequest t).context
      (secondRequest t).tokens).run ((lookedUp t).workers 0).cache).1 = .ok localHit := by
  rcases ht with rfl | rfl <;> decide +kernel

-- The request fetches its second block from worker 1.
private theorem lookedUp_fetches {t : TokenId} (ht : t = 1 ∨ t = 3) : ∃ outcome x,
    (RemoteResolutionStage.run (wiring lruCluster 0).toRemote lruCluster.xxh3 (secondRequest t)
      localHit).run (lookedUp t) = (.ok outcome, x) ∧
      outcome.fetched_blocks.map (fun candidate => (candidate.source_ref, candidate.block_index)) =
        [(some ⟨1, 1, 1⟩, 1)] := by
  have heval : ((RemoteResolutionStage.run (wiring lruCluster 0).toRemote lruCluster.xxh3
      (secondRequest t) localHit).run (lookedUp t)).1.toOption.map (fun outcome =>
        outcome.fetched_blocks.map fun candidate =>
          (candidate.source_ref, candidate.block_index)) = some [(some ⟨1, 1, 1⟩, 1)] := by
    rcases ht with rfl | rfl <;> decide +kernel
  rcases hrun : (RemoteResolutionStage.run (wiring lruCluster 0).toRemote lruCluster.xxh3
      (secondRequest t) localHit).run (lookedUp t) with ⟨e | outcome, x⟩
  · rw [hrun] at heval
    cases heval
  · rw [hrun] at heval
    exact ⟨outcome, x, rfl, Option.some.inj heval⟩

private theorem lookedUp_last {t : TokenId} (ht : t = 1 ∨ t = 3) :
    ((lookedUp t).workers 1).lastAdmission 1 = some ⟨Sample.candidate 1 [1, 2] [], 1, 1⟩ := by
  rcases ht with rfl | rfl <;> decide +kernel

theorem remote_reuse_prefix_sound_same : ∃ outcome x,
    (RemoteResolutionStage.run (wiring lruCluster 0).toRemote lruCluster.xxh3 (secondRequest 1)
      localHit).run (lookedUp 1) = (.ok outcome, x) ∧ outcome.fetched_blocks.length = 1 ∧
      ∀ candidate ∈ outcome.fetched_blocks,
        FetchedFor (lookedUp 1) (secondRequest 1) candidate := by
  obtain ⟨outcome, x, hstage, hfetched⟩ := lookedUp_fetches (t := 1) (.inl rfl)
  have hconstructed : (Sample.cluster 2).Constructed :=
    ⟨fun _ => ⟨_, .untiered 2 1 Sample.clock (), rfl⟩, rfl⟩
  have hlength := congrArg List.length hfetched
  rw [List.length_map] at hlength
  refine ⟨outcome, x, hstage, hlength, ?_⟩
  have hrun := lookedUp_run 1
  have hfree := lookedUp_collisionFree (t := 1) (.inl rfl)
  refine remote_reuse_prefix_sound hconstructed hrun hfree ?_ hstage
  -- the only replica of the only missing block has the right admission
  intro i ref a hmissing hi _ hoffer hholds _ _ _
  rw [secondRequest_fullBlocks] at hi
  have hfirst : 1 % 2 ^ 32 ≤ i := hmissing
  obtain rfl : i = 1 := by omega
  obtain ⟨collaborators, hoffer⟩ := hoffer
  have hrefs : (lookedUp 1).index.query (missingBlock lruCluster.xxh3 (secondRequest 1) 1).hash =
      [⟨1, 1, 1⟩] := by
    decide +kernel
  rw [hrefs] at hoffer
  have hpick : ([⟨1, 1, 1⟩] : List GlobalBlockRef).head? = some ref := hoffer
  obtain rfl := Option.some.inj hpick
  obtain rfl := Option.some.inj ((lookedUp_last (.inl rfl)).symm.trans hholds.2.1)
  rfl

-- The hash of a block does not cover the tokens before it, so a request for `[3, 2]` takes
-- over the second block of `[1, 2]`.
theorem remote_reuse_other_prefix :
    ¬ ∀ (c : Cluster Unit Unit) (n : NodeId) (req : RouteRequest) (loc : LocalLookupOutcome)
      (outcome : RemoteResolutionOutcome) (x : Cluster Unit Unit),
      Run lruCluster (Uses lruCluster) (Sample.cluster 2) c →
      lruCluster.xxh3.CollisionFree (c.hashedContexts req) (hashedStreams lruCluster c req) →
      ((LocalCache.lookupPrefix (lruCluster.env n) req.context req.tokens).run
        (c.workers n).cache).1 = .ok loc →
      (RemoteResolutionStage.run (wiring lruCluster n).toRemote lruCluster.xxh3 req loc).run c =
        (.ok outcome, x) →
      ∀ candidate ∈ outcome.fetched_blocks, FetchedFor c req candidate := by
  intro h
  obtain ⟨outcome, x, hstage, hfetched⟩ := lookedUp_fetches (t := 3) (.inr rfl)
  obtain ⟨candidate, hcandidates, hpair⟩ := List.map_eq_singleton_iff.mp hfetched
  obtain ⟨hsource, hindex⟩ := Prod.mk.inj hpair
  obtain ⟨ref, a, hsource', hholds, -, -, htokens⟩ := h _ 0 (secondRequest 3) localHit outcome x
    (lookedUp_run 3) (lookedUp_collisionFree (.inr rfl)) (lookedUp_localHit (.inr rfl)) hstage
    candidate (by simp [hcandidates])
  obtain rfl := Option.some.inj (hsource.symm.trans hsource')
  obtain rfl := Option.some.inj ((lookedUp_last (.inr rfl)).symm.trans hholds.2.1)
  rw [hindex] at htokens
  exact absurd htokens (by decide)

end Sample

end Cluster

end KVCache
