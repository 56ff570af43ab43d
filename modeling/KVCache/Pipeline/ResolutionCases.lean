import KVCache.Pipeline.RemoteResolution

namespace KVCache.Pipeline

open Lib Coordinator Sim

variable {σ : Type} {X : XXH3} {req : RouteRequest} {w : Remote σ}

-- The full blocks of a request, as the planner counts them.
def fullBlocks (req : RouteRequest) : Nat :=
  req.tokens.length % 2 ^ 32 / req.context.block_size.toNat

def blockTokens (req : RouteRequest) (bi : Nat) : List TokenId :=
  (req.tokens.drop (bi * req.context.block_size.toNat)).take req.context.block_size.toNat

def missingBlock (X : XXH3) (req : RouteRequest) (bi : Nat) : MissingBlockInfo where
  block_index := UInt32.ofNat bi
  hash := computeContentHash X (computeContextHash X req.context) (UInt32.ofNat bi)
    (UInt16.ofNat req.context.block_size.toNat) (blockTokens req bi)

def fetchedCandidate (req : RouteRequest) (bi : Nat) (fetch : FetchRemoteResult) :
    BlockCandidate where
  context := req.context
  block_index := UInt32.ofNat bi
  tokens := req.tokens.take ((bi + 1) * req.context.block_size.toNat)
  hash := fetch.hash
  payload := fetch.payload
  origin := .RemoteFetch
  source_ref := some fetch.source_ref

section Arithmetic

variable {bi : Nat}

theorem block_end_le (hbi : bi < fullBlocks req) :
    (bi + 1) * req.context.block_size.toNat ≤ req.tokens.length % 2 ^ 32 :=
  (Nat.mul_le_mul_right _ hbi).trans (Nat.div_mul_le_self _ _)

theorem block_end_le_length (hbi : bi < fullBlocks req) :
    (bi + 1) * req.context.block_size.toNat ≤ req.tokens.length :=
  (block_end_le hbi).trans (Nat.mod_le _ _)

theorem fullBlocks_lt (req : RouteRequest) : fullBlocks req < 2 ^ 32 :=
  lt_of_le_of_lt (Nat.div_le_self _ _) (Nat.mod_lt _ (by decide))

theorem fullBlocks_eq (h : req.tokens.length < 2 ^ 32) :
    fullBlocks req = req.tokens.length / req.context.block_size.toNat := by
  rw [fullBlocks, Nat.mod_eq_of_lt h]

-- No product of the planner or of the stage wraps.
theorem block_product (hbi : bi < fullBlocks req) (hb : req.context.block_size ≠ 0) :
    (UInt32.ofNat bi * req.context.block_size).toNat = bi * req.context.block_size.toNat ∧
      ((UInt32.ofNat bi + 1) * req.context.block_size).toNat =
        (bi + 1) * req.context.block_size.toNat := by
  have hpos : 0 < req.context.block_size.toNat := by
    rw [Nat.pos_iff_ne_zero]
    exact fun h => hb (UInt32.toNat_inj.mp h)
  have hend := block_end_le hbi
  have hmod : req.tokens.length % 2 ^ 32 < 2 ^ 32 := Nat.mod_lt _ (by decide)
  have hle : bi + 1 ≤ (bi + 1) * req.context.block_size.toNat := Nat.le_mul_of_pos_right _ hpos
  have hmul : (bi + 1) * req.context.block_size.toNat =
      bi * req.context.block_size.toNat + req.context.block_size.toNat := Nat.succ_mul _ _
  have hbi32 : bi % 2 ^ 32 = bi := Nat.mod_eq_of_lt (by omega)
  have hsucc : (bi + 1) % 2 ^ 32 = bi + 1 := Nat.mod_eq_of_lt (by omega)
  rw [UInt32.toNat_mul, UInt32.toNat_mul, UInt32.toNat_add, UInt32.toNat_ofNat', hbi32,
    show (1 : UInt32).toNat = 1 from rfl, hsucc]
  exact ⟨Nat.mod_eq_of_lt (by omega), Nat.mod_eq_of_lt (by omega)⟩

end Arithmetic

section Candidate

variable {k : Nat}

-- The tokens of a candidate from its block on are those of the block.
theorem fetched_drop (f : FetchRemoteResult) :
    (fetchedCandidate req k f).tokens.drop (k * req.context.block_size.toNat) =
      blockTokens req k := by
  simp only [fetchedCandidate, blockTokens, List.drop_take, Nat.succ_mul, Nat.add_sub_cancel_left]

theorem blockTokens_length (hk : k < fullBlocks req) :
    (blockTokens req k).length = req.context.block_size.toNat := by
  have hend := block_end_le_length hk
  rw [Nat.succ_mul] at hend
  rw [blockTokens, List.length_take, List.length_drop]
  omega

theorem fetched_block_index (hk : k < fullBlocks req) (f : FetchRemoteResult) :
    (fetchedCandidate req k f).block_index.toNat = k := by
  simp only [fetchedCandidate, UInt32.toNat_ofNat']
  exact Nat.mod_eq_of_lt (lt_trans hk (fullBlocks_lt req))

theorem fetched_length (hk : k < fullBlocks req) (f : FetchRemoteResult) :
    (fetchedCandidate req k f).tokens.length =
      ((fetchedCandidate req k f).block_index.toNat + 1) * req.context.block_size.toNat := by
  rw [fetched_block_index hk]
  simp only [fetchedCandidate, List.length_take]
  exact Nat.min_eq_left (block_end_le_length hk)

theorem fetched_take (f : FetchRemoteResult) {j : Nat} (hj : j ≤ k) :
    (fetchedCandidate req k f).tokens.take ((j + 1) * req.context.block_size.toNat) =
      req.tokens.take ((j + 1) * req.context.block_size.toNat) := by
  simp only [fetchedCandidate, List.take_take]
  rw [Nat.min_eq_left (Nat.mul_le_mul_right _ (Nat.succ_le_succ hj))]

end Candidate

namespace MissingBlockPlanner

theorem planBlock_eq {bi : Nat} (hb : req.context.block_size ≠ 0) (hbi : bi < fullBlocks req) :
    planBlock X req (UInt32.ofNat bi) = .ok (missingBlock X req bi) := by
  have hend := block_end_le_length hbi
  have hread : readTokens "MissingBlockPlanner::plan: block out of range" req.tokens
      (UInt32.ofNat bi * req.context.block_size).toNat req.context.block_size.toNat =
      .ok (blockTokens req bi) := by
    rw [(block_product hbi hb).1, readTokens, if_pos (by rw [← Nat.succ_mul]; exact hend)]
    rfl
  simp only [planBlock, hread]
  rfl

private theorem mapM_planBlock (hb : req.context.block_size ≠ 0) (bis : List Nat)
    (hbis : ∀ bi ∈ bis, bi < fullBlocks req) :
    (bis.mapM fun bi => planBlock X req (UInt32.ofNat bi)) =
      .ok (bis.map (missingBlock X req)) := by
  induction bis with
  | nil => rfl
  | cons bi bis ih =>
      rw [List.mapM_cons, planBlock_eq hb (hbis bi List.mem_cons_self),
        ih fun bi' hbi' => hbis bi' (List.mem_cons_of_mem _ hbi')]
      rfl

-- The planner reads no token beyond the end, and names the blocks that are left.
theorem plan_eq (hb : req.context.block_size ≠ 0) (loc : LocalLookupOutcome) :
    plan X req loc = .ok ((List.range' (loc.matched_blocks.length % 2 ^ 32)
      (fullBlocks req - loc.matched_blocks.length % 2 ^ 32)).map (missingBlock X req)) := by
  have hfirst : (UInt32.ofNat loc.matched_blocks.length).toNat =
      loc.matched_blocks.length % 2 ^ 32 := UInt32.toNat_ofNat'
  have hfull : (UInt32.ofNat req.tokens.length / req.context.block_size).toNat =
      fullBlocks req := by
    rw [UInt32.toNat_div, UInt32.toNat_ofNat', fullBlocks]
  simp only [plan, if_neg hb, UInt32.le_iff_toNat_le, hfirst, hfull]
  split
  · rename_i hle
    rw [Nat.sub_eq_zero_of_le hle]
    rfl
  · refine mapM_planBlock hb _ fun bi hbi => ?_
    obtain ⟨i, hi, rfl⟩ := List.mem_range'.mp hbi
    omega

theorem plan_zero (hb : req.context.block_size = 0) (loc : LocalLookupOutcome) :
    plan X req loc =
      .error (.undefined_behavior "MissingBlockPlanner::plan: division by zero") := by
  rw [plan, if_pos hb]

end MissingBlockPlanner

namespace RemoteResolutionStage

theorem toCandidate_eq {bi : Nat} (hb : req.context.block_size ≠ 0) (hbi : bi < fullBlocks req)
    (fetch : FetchRemoteResult) :
    toCandidate req (missingBlock X req bi) fetch = .ok (fetchedCandidate req bi fetch) := by
  have hread : readTokens "RemoteResolutionStage::run: tokens out of range" req.tokens 0
      ((UInt32.ofNat bi + 1) * req.context.block_size).toNat =
      .ok (req.tokens.take ((bi + 1) * req.context.block_size.toNat)) := by
    have hend := block_end_le_length hbi
    rw [(block_product hbi hb).2, readTokens, if_pos (by omega), List.drop_zero]
  simp only [toCandidate, missingBlock, hread]
  rfl

-- How the loop goes when it returns: from block `bi` on with `n` blocks to go, the
-- candidates it fetches, the stale references it meets, and the state it ends in.
inductive Resolves (w : Remote σ) (X : XXH3) (req : RouteRequest) :
    Nat → Nat → σ → List BlockCandidate → UInt32 → σ → Prop
  | done {bi : Nat} {x : σ} : Resolves w X req bi 0 x [] 0 x
  | unavailable {bi n : Nat} {x x₁ : σ} {q : CoordinatorQueryResult}
      (hq : (w.query (missingBlock X req bi).hash).run x = (.ok q, x₁))
      (hnone : q.available = false ∨ q.refs = []) : Resolves w X req bi (n + 1) x [] 0 x₁
  | unchosen {bi n : Nat} {x x₁ x₂ : σ} {q : CoordinatorQueryResult}
      (hq : (w.query (missingBlock X req bi).hash).run x = (.ok q, x₁))
      (hsome : ¬ (q.available = false ∨ q.refs = []))
      (hc : (w.chooseReplica ⟨(missingBlock X req bi).hash, 0, 0⟩ q.refs).run x₁ = (.ok none, x₂)) :
      Resolves w X req bi (n + 1) x [] 0 x₂
  | failed {bi n : Nat} {x x₁ x₂ x₃ : σ} {q : CoordinatorQueryResult} {ref : GlobalBlockRef}
      {f : FetchRemoteResult}
      (hq : (w.query (missingBlock X req bi).hash).run x = (.ok q, x₁))
      (hsome : ¬ (q.available = false ∨ q.refs = []))
      (hc : (w.chooseReplica ⟨(missingBlock X req bi).hash, 0, 0⟩ q.refs).run x₁ =
        (.ok (some ref), x₂))
      (hf : (RemoteBlockFetcher.fetch w ref (missingBlock X req bi).hash).run x₂ = (.ok f, x₃))
      (hstale : f.status ≠ .StaleGeneration) (hok : f.status ≠ .Ok) :
      Resolves w X req bi (n + 1) x [] 0 x₃
  | stale {bi n : Nat} {x x₁ x₂ x₃ x₄ x₅ : σ} {q : CoordinatorQueryResult} {ref : GlobalBlockRef}
      {f : FetchRemoteResult}
      (hq : (w.query (missingBlock X req bi).hash).run x = (.ok q, x₁))
      (hsome : ¬ (q.available = false ∨ q.refs = []))
      (hc : (w.chooseReplica ⟨(missingBlock X req bi).hash, 0, 0⟩ q.refs).run x₁ =
        (.ok (some ref), x₂))
      (hf : (RemoteBlockFetcher.fetch w ref (missingBlock X req bi).hash).run x₂ = (.ok f, x₃))
      (hstale : f.status = .StaleGeneration)
      (hi : (w.invalidate ref.node_id ref.block_id ref.generation).run x₃ = (.ok (), x₄))
      (he : (w.record (.CoordinatorStaleRef ref.node_id ref.block_id ref.generation 0)).run x₄ =
        (.ok (), x₅)) :
      Resolves w X req bi (n + 1) x [] 1 x₅
  | fetched {bi n : Nat} {x x₁ x₂ x₃ x' : σ} {q : CoordinatorQueryResult} {ref : GlobalBlockRef}
      {f : FetchRemoteResult} {candidates : List BlockCandidate} {stale : UInt32}
      (hq : (w.query (missingBlock X req bi).hash).run x = (.ok q, x₁))
      (hsome : ¬ (q.available = false ∨ q.refs = []))
      (hc : (w.chooseReplica ⟨(missingBlock X req bi).hash, 0, 0⟩ q.refs).run x₁ =
        (.ok (some ref), x₂))
      (hf : (RemoteBlockFetcher.fetch w ref (missingBlock X req bi).hash).run x₂ = (.ok f, x₃))
      (hok : f.status = .Ok) (hrest : Resolves w X req (bi + 1) n x₃ candidates stale x') :
      Resolves w X req bi (n + 1) x (fetchedCandidate req bi f :: candidates) stale x'

theorem resolve_cases (hb : req.context.block_size ≠ 0) {n bi : Nat}
    (hn : bi + n ≤ fullBlocks req) {out out' : RemoteResolutionOutcome} {x x' : σ}
    (h : (resolve w req ((List.range' bi n).map (missingBlock X req)) out).run x =
      (.ok out', x')) :
    ∃ candidates stale, Resolves w X req bi n x candidates stale x' ∧
      out' = ⟨out.fetched_blocks ++ candidates,
        out.remote_hit_count + UInt32.ofNat candidates.length, out.stale_ref_count + stale⟩ := by
  induction n generalizing bi out x with
  | zero =>
      cases h
      exact ⟨[], 0, .done, by simp⟩
  | succ n ih =>
      rw [List.range'_succ, List.map_cons, resolve] at h
      obtain ⟨q, x₁, hq, h⟩ := Exec.bind_eq_ok.mp h
      split at h
      · rename_i hnone
        cases h
        exact ⟨[], 0, .unavailable hq hnone, by simp⟩
      · rename_i hsome
        obtain ⟨chosen, x₂, hc, h⟩ := Exec.bind_eq_ok.mp h
        cases chosen with
        | none =>
            cases h
            exact ⟨[], 0, .unchosen hq hsome hc, by simp⟩
        | some ref =>
            obtain ⟨f, x₃, hf, h⟩ := Exec.bind_eq_ok.mp h
            cases hstatus : f.status with
            | StaleGeneration =>
                simp only [hstatus] at h
                obtain ⟨⟨⟩, x₄, hi, h⟩ := Exec.bind_eq_ok.mp h
                obtain ⟨⟨⟩, x₅, he, h⟩ := Exec.bind_eq_ok.mp h
                cases h
                exact ⟨[], 1, .stale hq hsome hc hf hstatus hi he, by simp⟩
            | Ok =>
                simp only [hstatus, Exec.check_bind_run,
                  toCandidate_eq hb (show bi < fullBlocks req by omega)] at h
                obtain ⟨candidates, stale, hrest, rfl⟩ := ih (by omega) h
                refine ⟨_, stale, .fetched hq hsome hc hf hstatus hrest, ?_⟩
                simp [UInt32.add_assoc, UInt32.add_comm 1]
            | NotFound | HashMismatch | TransportError =>
                simp only [hstatus] at h
                cases h
                exact ⟨[], 0, .failed hq hsome hc hf (by simp [hstatus]) (by simp [hstatus]),
                  by simp⟩

-- How a run of the stage goes when it returns.
theorem run_cases {loc : LocalLookupOutcome} {outcome : RemoteResolutionOutcome} {x x' : σ}
    (h : (run w X req loc).run x = (.ok outcome, x')) :
    req.context.block_size ≠ 0 ∧
      Resolves w X req (loc.matched_blocks.length % 2 ^ 32)
        (fullBlocks req - loc.matched_blocks.length % 2 ^ 32) x outcome.fetched_blocks
        outcome.stale_ref_count x' ∧
      outcome.remote_hit_count = UInt32.ofNat outcome.fetched_blocks.length := by
  by_cases hb : req.context.block_size = 0
  · rw [run, MissingBlockPlanner.plan_zero hb] at h
    cases h
  · refine ⟨hb, ?_⟩
    rw [run, MissingBlockPlanner.plan_eq hb] at h
    simp only [Exec.check_bind_run] at h
    by_cases hle : loc.matched_blocks.length % 2 ^ 32 ≤ fullBlocks req
    · obtain ⟨candidates, stale, hres, rfl⟩ := resolve_cases hb (by omega) h
      simpa using hres
    · rw [Nat.sub_eq_zero_of_le (by omega)] at h ⊢
      cases h
      exact ⟨.done, rfl⟩

theorem Resolves.length_le {bi n : Nat} {x x' : σ} {candidates : List BlockCandidate}
    {stale : UInt32} (h : Resolves w X req bi n x candidates stale x') :
    candidates.length ≤ n := by
  induction h with
  | fetched _ _ _ _ _ _ ih =>
      rw [List.length_cons]
      omega
  | _ => simp

theorem Resolves.nothing {bi : Nat} {x x' : σ} {candidates : List BlockCandidate} {stale : UInt32}
    (h : Resolves w X req bi 0 x candidates stale x') : candidates = [] ∧ x = x' := by
  cases h
  exact ⟨rfl, rfl⟩

end RemoteResolutionStage

namespace RemoteBlockFetcher

-- How a fetch goes when it returns.
theorem fetch_cases {ref : GlobalBlockRef} {hash : ContentHash} {f : FetchRemoteResult} {x x' : σ}
    (h : (fetch w ref hash).run x = (.ok f, x')) :
    ∃ x₁ resp x₂, (w.record (.RemoteFetchStarted hash ref.node_id 0)).run x = (.ok (), x₁) ∧
      (w.fetchBlock ref.node_id ref.block_id ref.generation).run x₁ = (.ok resp, x₂) ∧
      f.source_ref = ref ∧
      ((resp.status = .NotFound ∧ f.status = .NotFound) ∨
        (resp.status = .StaleGeneration ∧ f.status = .StaleGeneration) ∨
        (resp.status = .TransportError ∧ f.status = .TransportError) ∨
        (resp.status = .Ok ∧ resp.hash ≠ hash ∧ f.status = .HashMismatch) ∨
        (resp.status = .Ok ∧ resp.hash = hash ∧ f.status = .Ok ∧ f.hash = hash ∧
          f.payload = resp.payload)) := by
  rw [fetch] at h
  obtain ⟨⟨⟩, x₁, hstart, h⟩ := Exec.bind_eq_ok.mp h
  obtain ⟨resp, x₂, hresp, h⟩ := Exec.bind_eq_ok.mp h
  refine ⟨x₁, resp, x₂, hstart, hresp, ?_⟩
  cases hstatus : resp.status with
  | NotFound | StaleGeneration | TransportError =>
      simp only [hstatus] at h
      obtain ⟨-, x₃, -, h⟩ := Exec.bind_eq_ok.mp h
      cases h
      simp
  | Ok =>
      simp only [hstatus] at h
      split at h
      · rename_i hne
        obtain ⟨-, x₃, -, h⟩ := Exec.bind_eq_ok.mp h
        cases h
        simp [hne]
      · rename_i heq
        obtain ⟨-, x₃, -, h⟩ := Exec.bind_eq_ok.mp h
        obtain ⟨-, x₄, -, h⟩ := Exec.bind_eq_ok.mp h
        cases h
        simp [not_not.mp heq]

theorem fetch_ok {ref : GlobalBlockRef} {hash : ContentHash} {f : FetchRemoteResult} {x x' : σ}
    (h : (fetch w ref hash).run x = (.ok f, x')) (hok : f.status = .Ok) :
    f.hash = hash ∧ f.source_ref = ref := by
  obtain ⟨_, _, _, _, _, href, hcase⟩ := fetch_cases h
  rcases hcase with ⟨-, hs⟩ | ⟨-, hs⟩ | ⟨-, hs⟩ | ⟨-, -, hs⟩ | ⟨-, -, -, hhash, -⟩
  · rw [hok] at hs; cases hs
  · rw [hok] at hs; cases hs
  · rw [hok] at hs; cases hs
  · rw [hok] at hs; cases hs
  · exact ⟨hhash, href⟩

end RemoteBlockFetcher

namespace RemoteResolutionStage

-- The `k`-th candidate is the one of block `bi + k`, with the hash that was planned.
theorem Resolves.getElem? {bi n : Nat} {x x' : σ} {candidates : List BlockCandidate}
    {stale : UInt32} (h : Resolves w X req bi n x candidates stale x') {k : Nat}
    {candidate : BlockCandidate} (hk : candidates[k]? = some candidate) :
    ∃ f, candidate = fetchedCandidate req (bi + k) f ∧
      f.hash = (missingBlock X req (bi + k)).hash := by
  induction h generalizing k with
  | @fetched bi n x x₁ x₂ x₃ x' q ref f candidates stale hq hsome hc hf hok hrest ih =>
      cases k with
      | zero =>
          obtain rfl : fetchedCandidate req bi f = candidate := by simpa using hk
          exact ⟨f, rfl, (RemoteBlockFetcher.fetch_ok hf hok).1⟩
      | succ k =>
          obtain ⟨f', hcand, hhash⟩ := ih (by simpa using hk)
          rw [show bi + 1 + k = bi + (k + 1) by omega] at hcand hhash
          exact ⟨f', hcand, hhash⟩
  | _ => cases hk

end RemoteResolutionStage

end KVCache.Pipeline
