import KVCache.Pipeline.ResolutionCases

namespace KVCache.Pipeline

open Lib Coordinator Sim

variable {σ : Type} {X : XXH3} {req : RouteRequest}

-- A call of remote resolution to a collaborator, with the answer.
inductive RemoteCall where
  | query (hash : ContentHash) (answer : CoordinatorQueryResult)
  | chooseReplica (refs : List GlobalBlockRef) (answer : Option GlobalBlockRef)
  | fetchBlock (ref : GlobalBlockRef) (answer : FetchBlockResponse)
  | invalidate (ref : GlobalBlockRef)
deriving DecidableEq, Repr

-- Note the call next to the state of the collaborators.
def logged {α : Type} (x : Exec Fault σ α) (call : α → List RemoteCall) :
    Exec Fault (σ × List RemoteCall) α := ⟨fun s =>
  match x.run s.1 with
  | (.ok a, s') => (.ok a, (s', s.2 ++ call a))
  | (.error e, s') => (.error e, (s', s.2))⟩

-- The same collaborators with a record of what they are asked.
def Remote.recorded (w : Remote σ) : Remote (σ × List RemoteCall) where
  query hash := logged (w.query hash) fun answer => [.query hash answer]
  invalidate node block_id generation :=
    logged (w.invalidate node block_id generation) fun _ =>
      [.invalidate ⟨node, block_id, generation⟩]
  chooseReplica ctx refs := logged (w.chooseReplica ctx refs) fun answer =>
    [.chooseReplica refs answer]
  fetchBlock node block_id generation := logged (w.fetchBlock node block_id generation)
    fun answer => [.fetchBlock ⟨node, block_id, generation⟩ answer]
  networkFetchNs payload_bytes := logged (w.networkFetchNs payload_bytes) fun _ => []
  record e := logged (w.record e) fun _ => []

-- The calls for a block that is fetched.
inductive FetchedRound (mb : MissingBlockInfo) : List RemoteCall → Prop
  | mk {q : CoordinatorQueryResult} {ref : GlobalBlockRef} {resp : FetchBlockResponse}
      (hsome : ¬ (q.available = false ∨ q.refs = []))
      (hok : resp.status = .Ok ∧ resp.hash = mb.hash) :
      FetchedRound mb [.query mb.hash q, .chooseReplica q.refs (some ref), .fetchBlock ref resp]

-- The calls after the last block that is fetched, and the stale references among them.
inductive LastRound (X : XXH3) (req : RouteRequest) (bi : Nat) : List RemoteCall → UInt32 → Prop
  | exhausted (h : fullBlocks req ≤ bi) : LastRound X req bi [] 0
  | unavailable {q : CoordinatorQueryResult} (h : bi < fullBlocks req)
      (hnone : q.available = false ∨ q.refs = []) :
      LastRound X req bi [.query (missingBlock X req bi).hash q] 0
  | unchosen {q : CoordinatorQueryResult} (h : bi < fullBlocks req)
      (hsome : ¬ (q.available = false ∨ q.refs = [])) :
      LastRound X req bi
        [.query (missingBlock X req bi).hash q, .chooseReplica q.refs none] 0
  | failed {q : CoordinatorQueryResult} {ref : GlobalBlockRef} {resp : FetchBlockResponse}
      (h : bi < fullBlocks req) (hsome : ¬ (q.available = false ∨ q.refs = []))
      (hstale : resp.status ≠ .StaleGeneration)
      (hfail : ¬ (resp.status = .Ok ∧ resp.hash = (missingBlock X req bi).hash)) :
      LastRound X req bi [.query (missingBlock X req bi).hash q,
        .chooseReplica q.refs (some ref), .fetchBlock ref resp] 0
  | stale {q : CoordinatorQueryResult} {ref : GlobalBlockRef} {resp : FetchBlockResponse}
      (h : bi < fullBlocks req) (hsome : ¬ (q.available = false ∨ q.refs = []))
      (hstale : resp.status = .StaleGeneration) :
      LastRound X req bi [.query (missingBlock X req bi).hash q,
        .chooseReplica q.refs (some ref), .fetchBlock ref resp, .invalidate ref] 1

-- What remote resolution does to a local hit of `m` blocks, and whom it asks for that.
structure Extends (X : XXH3) (req : RouteRequest) (m : Nat) (outcome : RemoteResolutionOutcome)
    (log : List RemoteCall) : Prop where
  candidate : ∀ k candidate, outcome.fetched_blocks[k]? = some candidate →
    candidate.block_index.toNat = m + k ∧ candidate.context = req.context ∧
      candidate.tokens = req.tokens.take ((m + k + 1) * req.context.block_size.toNat) ∧
      candidate.hash = computeContentHash X (computeContextHash X req.context)
        (UInt32.ofNat (m + k)) (UInt16.ofNat req.context.block_size.toNat) (blockTokens req (m + k))
  bounded : m ≤ req.tokens.length / req.context.block_size.toNat →
    m + outcome.fetched_blocks.length ≤ req.tokens.length / req.context.block_size.toNat
  nothing : req.tokens.length / req.context.block_size.toNat < m →
    outcome.fetched_blocks = [] ∧ log = []
  hits : outcome.remote_hit_count.toNat = outcome.fetched_blocks.length
  calls : ∃ (rounds : List (List RemoteCall)) (last : List RemoteCall),
    log = rounds.flatten ++ last ∧ rounds.length = outcome.fetched_blocks.length ∧
    (∀ (k : Nat) round, rounds[k]? = some round → FetchedRound (missingBlock X req (m + k)) round) ∧
    LastRound X req (m + outcome.fetched_blocks.length) last outcome.stale_ref_count

-- Collaborators that do not throw.
structure Remote.Returns (w : Remote σ) : Prop where
  query : ∀ hash x, ∃ q x', (w.query hash).run x = (.ok q, x')
  invalidate : ∀ node block_id generation x,
    ∃ x', (w.invalidate node block_id generation).run x = (.ok (), x')
  chooseReplica : ∀ ctx refs x, ∃ chosen x', (w.chooseReplica ctx refs).run x = (.ok chosen, x')
  fetchBlock : ∀ node block_id generation x,
    ∃ resp x', (w.fetchBlock node block_id generation).run x = (.ok resp, x')
  networkFetchNs : ∀ payload_bytes x, ∃ ns x', (w.networkFetchNs payload_bytes).run x = (.ok ns, x')
  record : ∀ e x, ∃ x', (w.record e).run x = (.ok (), x')

-- Collaborators that do not throw in states with `I`, and keep `I`.
structure Remote.ReturnsOn (w : Remote σ) (I : σ → Prop) : Prop where
  query : ∀ hash x, I x → ∃ q x', (w.query hash).run x = (.ok q, x') ∧ I x'
  invalidate : ∀ node block_id generation x, I x →
    ∃ x', (w.invalidate node block_id generation).run x = (.ok (), x') ∧ I x'
  chooseReplica : ∀ ctx refs x, I x →
    ∃ chosen x', (w.chooseReplica ctx refs).run x = (.ok chosen, x') ∧ I x'
  fetchBlock : ∀ node block_id generation x, I x →
    ∃ resp x', (w.fetchBlock node block_id generation).run x = (.ok resp, x') ∧ I x'
  networkFetchNs : ∀ payload_bytes x, I x →
    ∃ ns x', (w.networkFetchNs payload_bytes).run x = (.ok ns, x') ∧ I x'
  record : ∀ e x, I x → ∃ x', (w.record e).run x = (.ok (), x') ∧ I x'

theorem Remote.Returns.on {w : Remote σ} (hw : w.Returns) : w.ReturnsOn fun _ => True := by
  refine ⟨fun hash x _ => ?_, fun node block_id generation x _ => ?_, fun ctx refs x _ => ?_,
    fun node block_id generation x _ => ?_, fun payload_bytes x _ => ?_, fun e x _ => ?_⟩
  · obtain ⟨q, x', h⟩ := hw.query hash x
    exact ⟨q, x', h, trivial⟩
  · obtain ⟨x', h⟩ := hw.invalidate node block_id generation x
    exact ⟨x', h, trivial⟩
  · obtain ⟨chosen, x', h⟩ := hw.chooseReplica ctx refs x
    exact ⟨chosen, x', h, trivial⟩
  · obtain ⟨resp, x', h⟩ := hw.fetchBlock node block_id generation x
    exact ⟨resp, x', h, trivial⟩
  · obtain ⟨ns, x', h⟩ := hw.networkFetchNs payload_bytes x
    exact ⟨ns, x', h, trivial⟩
  · obtain ⟨x', h⟩ := hw.record e x
    exact ⟨x', h, trivial⟩

section Returns

variable {w : Remote σ} {I : σ → Prop}

theorem RemoteBlockFetcher.fetch_returns (hw : w.ReturnsOn I) (ref : GlobalBlockRef)
    (hash : ContentHash) {x : σ} (hx : I x) :
    ∃ f x', (fetch w ref hash).run x = (.ok f, x') ∧ I x' := by
  obtain ⟨x₁, hstart, hx₁⟩ := hw.record (.RemoteFetchStarted hash ref.node_id 0) x hx
  obtain ⟨resp, x₂, hresp, hx₂⟩ := hw.fetchBlock ref.node_id ref.block_id ref.generation x₁ hx₁
  rw [fetch, Exec.bind_ok hstart, Exec.bind_ok hresp]
  have hfailed : ∀ (reason : FetchFailReason) (f : FetchRemoteResult), ∃ f' x',
      (do w.record (.RemoteFetchFailed hash ref.node_id reason 0); return f :
        Exec Fault σ FetchRemoteResult).run x₂ = (.ok f', x') ∧ I x' := by
    intro reason f
    obtain ⟨x₃, hrec, hx₃⟩ := hw.record (.RemoteFetchFailed hash ref.node_id reason 0) x₂ hx₂
    rw [Exec.bind_ok hrec]
    exact ⟨_, _, rfl, hx₃⟩
  cases resp.status with
  | NotFound | StaleGeneration | TransportError => exact hfailed _ _
  | Ok =>
      simp only
      split
      · exact hfailed _ _
      · obtain ⟨ns, x₃, hns, hx₃⟩ := hw.networkFetchNs resp.payload.length x₂ hx₂
        obtain ⟨x₄, hrec, hx₄⟩ :=
          hw.record (.RemoteFetchCompleted hash ref.node_id resp.payload.length 0) x₃ hx₃
        rw [Exec.bind_ok hns, Exec.bind_ok hrec]
        exact ⟨_, _, rfl, hx₄⟩

theorem RemoteResolutionStage.resolve_returns (hw : w.ReturnsOn I) (hb : req.context.block_size ≠ 0)
    {n bi : Nat} (hn : bi + n ≤ fullBlocks req) (out : RemoteResolutionOutcome) {x : σ} (hx : I x) :
    ∃ out' x', (resolve w req ((List.range' bi n).map (missingBlock X req)) out).run x =
      (.ok out', x') ∧ I x' := by
  induction n generalizing bi out x with
  | zero => exact ⟨out, x, rfl, hx⟩
  | succ n ih =>
      rw [List.range'_succ, List.map_cons, resolve]
      obtain ⟨q, x₁, hq, hx₁⟩ := hw.query (missingBlock X req bi).hash x hx
      rw [Exec.bind_ok hq]
      split
      · exact ⟨out, x₁, rfl, hx₁⟩
      · obtain ⟨chosen, x₂, hc, hx₂⟩ :=
          hw.chooseReplica ⟨(missingBlock X req bi).hash, 0, 0⟩ q.refs x₁ hx₁
        rw [Exec.bind_ok hc]
        cases chosen with
        | none => exact ⟨out, x₂, rfl, hx₂⟩
        | some ref =>
            obtain ⟨f, x₃, hf, hx₃⟩ :=
              RemoteBlockFetcher.fetch_returns hw ref (missingBlock X req bi).hash hx₂
            simp only
            rw [Exec.bind_ok hf]
            cases f.status with
            | StaleGeneration =>
                obtain ⟨x₄, hi, hx₄⟩ :=
                  hw.invalidate ref.node_id ref.block_id ref.generation x₃ hx₃
                obtain ⟨x₅, he, hx₅⟩ := hw.record
                  (.CoordinatorStaleRef ref.node_id ref.block_id ref.generation 0) x₄ hx₄
                simp only
                rw [Exec.bind_ok hi, Exec.bind_ok he]
                exact ⟨_, _, rfl, hx₅⟩
            | Ok =>
                simp only [Exec.check_bind_run,
                  toCandidate_eq hb (show bi < fullBlocks req by omega)]
                exact ih (by omega) _ hx₃
            | NotFound | HashMismatch | TransportError => exact ⟨out, x₃, rfl, hx₃⟩

-- Where the collaborators return, so does the stage.
theorem RemoteResolutionStage.run_returns (hw : w.ReturnsOn I) (hb : req.context.block_size ≠ 0)
    (loc : LocalLookupOutcome) {x : σ} (hx : I x) :
    ∃ outcome x', (run w X req loc).run x = (.ok outcome, x') ∧ I x' := by
  rw [run, MissingBlockPlanner.plan_eq hb]
  simp only [Exec.check_bind_run]
  by_cases hle : loc.matched_blocks.length % 2 ^ 32 ≤ fullBlocks req
  · exact resolve_returns hw hb (by omega) _ hx
  · rw [Nat.sub_eq_zero_of_le (by omega)]
    exact ⟨_, _, rfl, hx⟩

-- For every block that was fetched the coordinator had a reference.
theorem RemoteResolutionStage.Resolves.queried (hw : w.ReturnsOn I) {n bi : Nat} {x x' : σ}
    {candidates : List BlockCandidate} {stale : UInt32}
    (h : Resolves w X req bi n x candidates stale x') (hx : I x) {k : Nat}
    (hk : k < candidates.length) :
    ∃ y q y', I y ∧ (w.query (missingBlock X req (bi + k)).hash).run y = (.ok q, y') ∧
      q.refs ≠ [] := by
  induction h generalizing k with
  | @fetched bi n x x₁ x₂ x₃ x' q ref f candidates stale hq hsome hc hf hok hrest ih =>
      cases k with
      | zero => exact ⟨x, q, x₁, hx, hq, fun hnone => hsome (.inr hnone)⟩
      | succ k =>
          obtain ⟨q', y₁, hq', hx₁⟩ := hw.query (missingBlock X req bi).hash x hx
          cases hq.symm.trans hq'
          obtain ⟨chosen, y₂, hc', hx₂⟩ :=
            hw.chooseReplica ⟨(missingBlock X req bi).hash, 0, 0⟩ q.refs x₁ hx₁
          cases hc.symm.trans hc'
          obtain ⟨f', y₃, hf', hx₃⟩ :=
            RemoteBlockFetcher.fetch_returns hw ref (missingBlock X req bi).hash hx₂
          cases hf.symm.trans hf'
          have hlater := ih hx₃ (Nat.lt_of_succ_lt_succ hk)
          rwa [Nat.add_assoc, Nat.add_comm 1 k] at hlater
  | _ => exact absurd hk (Nat.not_lt_zero k)

end Returns

section Recorded

variable {w : Remote σ}

theorem logged_eq_ok {α : Type} {x : Exec Fault σ α} {call : α → List RemoteCall} {a : α}
    {s : σ × List RemoteCall} {t : σ × List RemoteCall}
    (h : (logged x call).run s = (.ok a, t)) :
    x.run s.1 = (.ok a, t.1) ∧ t.2 = s.2 ++ call a := by
  rcases hx : x.run s.1 with ⟨_ | b, s'⟩
  · simp only [logged, hx] at h
    cases h
  · simp only [logged, hx] at h
    cases h
    exact ⟨rfl, rfl⟩

-- A fetch makes one call that is on record.
theorem fetch_recorded {ref : GlobalBlockRef} {hash : ContentHash} {f : FetchRemoteResult}
    {s t : σ × List RemoteCall}
    (h : (RemoteBlockFetcher.fetch w.recorded ref hash).run s = (.ok f, t)) :
    ∃ resp, t.2 = s.2 ++ [.fetchBlock ref resp] ∧
      (f.status = .Ok ↔ resp.status = .Ok ∧ resp.hash = hash) ∧
      (f.status = .StaleGeneration ↔ resp.status = .StaleGeneration) := by
  rw [RemoteBlockFetcher.fetch] at h
  obtain ⟨⟨⟩, s₁, hstart, h⟩ := Exec.bind_eq_ok.mp h
  obtain ⟨resp, s₂, hresp, h⟩ := Exec.bind_eq_ok.mp h
  have hlog : s₂.2 = s.2 ++ [.fetchBlock ref resp] := by
    rw [(logged_eq_ok hresp).2, (logged_eq_ok hstart).2, List.append_nil]
  refine ⟨resp, ?_⟩
  rw [← hlog]
  cases hstatus : resp.status with
  | NotFound | StaleGeneration | TransportError =>
      simp only [hstatus] at h
      obtain ⟨⟨⟩, s₃, hrec, h⟩ := Exec.bind_eq_ok.mp h
      cases h
      simpa using (logged_eq_ok hrec).2
  | Ok =>
      simp only [hstatus] at h
      split at h
      · rename_i hne
        obtain ⟨⟨⟩, s₃, hrec, h⟩ := Exec.bind_eq_ok.mp h
        cases h
        simpa [hne] using (logged_eq_ok hrec).2
      · rename_i heq
        obtain ⟨ns, s₃, hns, h⟩ := Exec.bind_eq_ok.mp h
        obtain ⟨⟨⟩, s₄, hrec, h⟩ := Exec.bind_eq_ok.mp h
        cases h
        have hlog' : t.2 = s₂.2 := by
          rw [(logged_eq_ok hrec).2, (logged_eq_ok hns).2, List.append_nil, List.append_nil]
        simpa [not_not.mp heq] using hlog'

open RemoteResolutionStage in
-- The calls of the loop, round by round.
theorem Resolves.calls {bi n : Nat} {s t : σ × List RemoteCall} {candidates : List BlockCandidate}
    {stale : UInt32} (h : Resolves w.recorded X req bi n s candidates stale t)
    (hn : n = fullBlocks req - bi) :
    ∃ (rounds : List (List RemoteCall)) (last : List RemoteCall),
      t.2 = s.2 ++ (rounds.flatten ++ last) ∧ rounds.length = candidates.length ∧
      (∀ (k : Nat) round, rounds[k]? = some round →
        FetchedRound (missingBlock X req (bi + k)) round) ∧
      LastRound X req (bi + candidates.length) last stale := by
  induction h with
  | done => exact ⟨[], [], by simp, rfl, by simp, .exhausted (by simp; omega)⟩
  | @unavailable bi n s s₁ q hq hnone =>
      exact ⟨[], _, (logged_eq_ok hq).2, rfl, by simp, .unavailable (by simp; omega) hnone⟩
  | @unchosen bi n s s₁ s₂ q hq hsome hc =>
      have hlog := (logged_eq_ok hc).2
      rw [(logged_eq_ok hq).2] at hlog
      have hlast : LastRound X req bi
          [.query (missingBlock X req bi).hash q, .chooseReplica q.refs none] 0 :=
        .unchosen (by omega) hsome
      exact ⟨[], _, by simpa using hlog, rfl, by simp, hlast⟩
  | @failed bi n s s₁ s₂ s₃ q ref f hq hsome hc hf hstale hok =>
      obtain ⟨resp, hlog, hiff, hiff'⟩ := fetch_recorded hf
      rw [(logged_eq_ok hc).2, (logged_eq_ok hq).2] at hlog
      have hlast : LastRound X req bi [.query (missingBlock X req bi).hash q,
          .chooseReplica q.refs (some ref), .fetchBlock ref resp] 0 :=
        .failed (by omega) hsome (fun h => hstale (hiff'.mpr h)) (fun h => hok (hiff.mpr h))
      exact ⟨[], _, by simpa using hlog, rfl, by simp, hlast⟩
  | @stale bi n s s₁ s₂ s₃ s₄ s₅ q ref f hq hsome hc hf hstale hi he =>
      obtain ⟨resp, hlog, -, hiff'⟩ := fetch_recorded hf
      have hlog' := (logged_eq_ok he).2
      rw [(logged_eq_ok hi).2, hlog, (logged_eq_ok hc).2, (logged_eq_ok hq).2] at hlog'
      have hlast : LastRound X req bi [.query (missingBlock X req bi).hash q,
          .chooseReplica q.refs (some ref), .fetchBlock ref resp, .invalidate ref] 1 :=
        .stale (by omega) hsome (hiff'.mp hstale)
      exact ⟨[], _, by simpa using hlog', rfl, by simp, hlast⟩
  | @fetched bi n s s₁ s₂ s₃ t q ref f candidates stale hq hsome hc hf hok hrest ih =>
      obtain ⟨rounds, last, hlog, hlen, hrounds, hlast⟩ := ih (by omega)
      obtain ⟨resp, hlog', hiff, hiff'⟩ := fetch_recorded hf
      rw [(logged_eq_ok hc).2, (logged_eq_ok hq).2] at hlog'
      have hfirst : FetchedRound (missingBlock X req bi) [.query (missingBlock X req bi).hash q,
          .chooseReplica q.refs (some ref), .fetchBlock ref resp] := .mk hsome (hiff.mp hok)
      refine ⟨[.query (missingBlock X req bi).hash q, .chooseReplica q.refs (some ref),
        .fetchBlock ref resp] :: rounds, last, ?_, by rw [List.length_cons, List.length_cons, hlen],
        fun k round hk => ?_, ?_⟩
      · rw [hlog, hlog']
        simp
      · cases k with
        | zero =>
            obtain rfl := Option.some.inj hk
            exact hfirst
        | succ k =>
            rw [show bi + (k + 1) = bi + 1 + k by omega]
            exact hrounds k round (by simpa using hk)
      · rw [List.length_cons,
          show bi + (candidates.length + 1) = bi + 1 + candidates.length by omega]
        exact hlast

theorem FetchedRound.calls {mb : MissingBlockInfo} {round : List RemoteCall}
    (h : FetchedRound mb round) (ref : GlobalBlockRef) :
    .invalidate ref ∉ round ∧ ∀ resp, .fetchBlock ref resp ∈ round → resp.status = .Ok := by
  cases h with
  | mk hsome hok =>
      refine ⟨by simp, fun resp hmem => ?_⟩
      simp only [List.mem_cons, List.not_mem_nil, or_false, RemoteCall.fetchBlock.injEq,
        reduceCtorEq, false_or] at hmem
      rw [hmem.2]
      exact hok.1

theorem LastRound.invalidates {bi : Nat} {last : List RemoteCall} {stale : UInt32}
    (h : LastRound X req bi last stale) (ref : GlobalBlockRef) :
    .invalidate ref ∈ last ↔
      ∃ resp, .fetchBlock ref resp ∈ last ∧ resp.status = .StaleGeneration := by
  cases h with
  | exhausted h => simp
  | unavailable h hnone => simp
  | unchosen h hsome => simp
  | @failed q ref' resp h hsome hstale hfail =>
      simp only [List.mem_cons, List.not_mem_nil, or_false, RemoteCall.fetchBlock.injEq,
        reduceCtorEq, false_or, false_iff]
      rintro ⟨resp', ⟨rfl, rfl⟩, hstatus⟩
      exact hstale hstatus
  | @stale q ref' resp h hsome hstale =>
      simp only [List.mem_cons, List.not_mem_nil, or_false, RemoteCall.fetchBlock.injEq,
        RemoteCall.invalidate.injEq, reduceCtorEq, false_or]
      exact ⟨fun h => ⟨resp, ⟨h, rfl⟩, hstale⟩, fun ⟨_, ⟨h, _⟩, _⟩ => h⟩

-- The references that the stage invalidates are those whose fetch met another generation.
theorem RemoteResolutionStage.run_invalidates {loc : LocalLookupOutcome}
    {outcome : RemoteResolutionOutcome} {x : σ} {t : σ × List RemoteCall}
    (h : (RemoteResolutionStage.run w.recorded X req loc).run (x, []) = (.ok outcome, t))
    (ref : GlobalBlockRef) :
    .invalidate ref ∈ t.2 ↔
      ∃ resp, .fetchBlock ref resp ∈ t.2 ∧ resp.status = .StaleGeneration := by
  obtain ⟨-, hres, -⟩ := RemoteResolutionStage.run_cases h
  obtain ⟨rounds, last, hlog, hlen, hrounds, hlast⟩ := Resolves.calls hres rfl
  have hround : ∀ round ∈ rounds, .invalidate ref ∉ round ∧
      ∀ resp, .fetchBlock ref resp ∈ round → resp.status = .Ok := fun round hmem => by
    obtain ⟨k, hk⟩ := List.mem_iff_getElem?.mp hmem
    exact (hrounds k round hk).calls ref
  simp only [hlog, List.nil_append, List.mem_append, List.mem_flatten]
  constructor
  · rintro (⟨round, hmem, hinv⟩ | hinv)
    · exact absurd hinv (hround round hmem).1
    · obtain ⟨resp, hfetch, hstale⟩ := (hlast.invalidates ref).mp hinv
      exact ⟨resp, .inr hfetch, hstale⟩
  · rintro ⟨resp, ⟨round, hmem, hfetch⟩ | hfetch, hstale⟩
    · rw [(hround round hmem).2 resp hfetch] at hstale
      cases hstale
    · exact .inr ((hlast.invalidates ref).mpr ⟨resp, hfetch, hstale⟩)

end Recorded

-- A local hit of `m` blocks is extended block by block, up to the first that is not to be
-- had; no product wraps on the way, and no read leaves the tokens.
theorem resolution_extends (w : Remote σ) (X : XXH3) (req : RouteRequest) (loc : LocalLookupOutcome)
    (x : σ) (hb : req.context.block_size ≠ 0) (hn : req.tokens.length < 2 ^ 32)
    (hm : loc.matched_blocks.length < 2 ^ 32) :
    (∀ outcome x' log, (RemoteResolutionStage.run w.recorded X req loc).run (x, []) =
        (.ok outcome, (x', log)) → Extends X req loc.matched_blocks.length outcome log) ∧
      (w.Returns → ∃ outcome x', (RemoteResolutionStage.run w X req loc).run x =
        (.ok outcome, x')) ∧
      ∀ bi < req.tokens.length / req.context.block_size.toNat,
        (UInt32.ofNat bi * req.context.block_size).toNat = bi * req.context.block_size.toNat ∧
        ((UInt32.ofNat bi + 1) * req.context.block_size).toNat =
          (bi + 1) * req.context.block_size.toNat ∧
        (bi + 1) * req.context.block_size.toNat ≤ req.tokens.length := by
  have hfull := fullBlocks_eq hn
  refine ⟨fun outcome x' log h => ?_, fun hw => ?_, fun bi hbi => ?_⟩
  · obtain ⟨-, hres, hhits⟩ := RemoteResolutionStage.run_cases h
    rw [Nat.mod_eq_of_lt hm] at hres
    have hle := hres.length_le
    have hlt := fullBlocks_lt req
    refine ⟨fun k candidate hk => ?_, fun hm' => ?_, fun hm' => ?_, ?_, ?_⟩
    · obtain ⟨f, rfl, hhash⟩ := hres.getElem? hk
      have hk' := (List.getElem?_eq_some_iff.mp hk).1
      refine ⟨?_, rfl, rfl, hhash⟩
      simp only [fetchedCandidate, UInt32.toNat_ofNat']
      exact Nat.mod_eq_of_lt (by omega)
    · omega
    · rw [Nat.sub_eq_zero_of_le (by omega)] at hres
      obtain ⟨hnil, hsame⟩ := hres.nothing
      exact ⟨hnil, (Prod.mk.inj hsame).2.symm⟩
    · rw [hhits, UInt32.toNat_ofNat']
      exact Nat.mod_eq_of_lt (by omega)
    · obtain ⟨rounds, last, hlog, hcalls⟩ := Resolves.calls hres rfl
      exact ⟨rounds, last, by simpa using hlog, hcalls⟩
  · obtain ⟨outcome, x', hrun, -⟩ := RemoteResolutionStage.run_returns hw.on hb loc (x := x) trivial
    exact ⟨outcome, x', hrun⟩
  · rw [← hfull] at hbi
    exact ⟨(block_product hbi hb).1, (block_product hbi hb).2, block_end_le_length hbi⟩

private def oneBlock : RouteRequest where
  request_id := 0
  context := ⟨1, 1, 1, .FP16, 1, 1, 1, 0, 0⟩
  tokens := [7]

private def flatDigest : XXH3 where
  bits64 _ := 0
  bits128 _ := ⟨0, 0⟩

-- Collaborators that have every block.
private def everywhere : Remote Unit where
  query _ := pure { refs := [⟨0, 0, 1⟩] }
  invalidate _ _ _ := pure ()
  chooseReplica _ refs := pure refs.head?
  fetchBlock _ _ _ := pure { status := .Ok }
  networkFetchNs _ := pure 0
  record _ := pure ()

-- The count of matched blocks is taken in 32 bits: 2^32 of them count as none, and the
-- first block is fetched.
theorem resolution_wraps :
    ¬ ∀ (w : Remote Unit) (X : XXH3) (req : RouteRequest) (loc : LocalLookupOutcome),
      req.context.block_size ≠ 0 → req.tokens.length < 2 ^ 32 → ∀ outcome x' log,
        (RemoteResolutionStage.run w.recorded X req loc).run ((), []) = (.ok outcome, (x', log)) →
          Extends X req loc.matched_blocks.length outcome log := by
  intro hall
  have hb : oneBlock.context.block_size ≠ 0 := by decide
  obtain ⟨loc, hloc⟩ : ∃ loc : LocalLookupOutcome, loc.matched_blocks.length = 2 ^ 32 :=
    ⟨⟨List.replicate (2 ^ 32) ⟨0⟩, 0, 0, 0, 0⟩, List.length_replicate⟩
  have hfirst : loc.matched_blocks.length % 2 ^ 32 = 0 := hloc ▸ Nat.mod_self _
  have hrun : (RemoteResolutionStage.run everywhere.recorded flatDigest oneBlock loc).run
      ((), []) = (RemoteResolutionStage.resolve everywhere.recorded oneBlock
        ((List.range' 0 1).map (missingBlock flatDigest oneBlock)) {}).run ((), []) := by
    rw [RemoteResolutionStage.run, MissingBlockPlanner.plan_eq hb, hfirst]
    rfl
  have hone : ((RemoteResolutionStage.resolve everywhere.recorded oneBlock
      ((List.range' 0 1).map (missingBlock flatDigest oneBlock)) {}).run ((), [])).1.map
        (·.fetched_blocks.length) = .ok 1 := by decide +kernel
  rcases hres : (RemoteResolutionStage.resolve everywhere.recorded oneBlock
    ((List.range' 0 1).map (missingBlock flatDigest oneBlock)) {}).run ((), [])
    with ⟨_ | outcome, ⟨x', log⟩⟩
  · rw [hres] at hone
    cases hone
  · rw [hres] at hone hrun
    have hnothing := (hall _ _ _ _ hb (by decide) _ _ _ hrun).nothing (by
      rw [hloc]
      decide)
    rw [Except.map, hnothing.1] at hone
    cases hone

private def threeBlocks : RouteRequest := { oneBlock with tokens := [7, 8, 9] }

private abbrev firstHit : LocalLookupOutcome := ⟨[⟨0⟩], 1, 1, 0, 3⟩

-- Collaborators whose references are stale after the first fetch, which they count.
private def onceFetched : Remote Nat where
  query _ := pure { refs := [⟨0, 4, 1⟩] }
  invalidate _ _ _ := pure ()
  chooseReplica _ refs := pure refs.head?
  fetchBlock _ _ _ := Exec.modifyGet fun fetches =>
    ({ status := if fetches = 0 then .Ok else .StaleGeneration }, fetches + 1)
  networkFetchNs _ := pure 0
  record _ := pure ()

-- The second block is fetched, and the third one is not to be had.
theorem resolution_extends_stale : ∃ outcome log,
    (RemoteResolutionStage.run onceFetched.recorded flatDigest threeBlocks firstHit).run (0, []) =
        (.ok outcome, (2, log)) ∧
      (∃ candidate, outcome.fetched_blocks = [candidate] ∧ candidate.block_index.toNat = 1 ∧
        candidate.tokens = [7, 8]) ∧
      ∃ first last, log = first ++ last ∧
        FetchedRound (missingBlock flatDigest threeBlocks 1) first ∧
        LastRound flatDigest threeBlocks 2 last 1 ∧
        last.getLast? = some (.invalidate ⟨0, 4, 1⟩) := by
  have hreturns : onceFetched.recorded.Returns :=
    ⟨fun _ _ => ⟨_, _, rfl⟩, fun _ _ _ _ => ⟨_, rfl⟩, fun _ _ _ => ⟨_, _, rfl⟩,
      fun _ _ _ _ => ⟨_, _, rfl⟩, fun _ _ => ⟨_, _, rfl⟩, fun _ _ => ⟨_, rfl⟩⟩
  obtain ⟨outcome, ⟨fetches, log⟩, hrun⟩ := (resolution_extends onceFetched.recorded flatDigest
    threeBlocks firstHit (0, []) (by decide) (by decide) (by decide)).2.1 hreturns
  have hextends := (resolution_extends onceFetched flatDigest threeBlocks firstHit 0 (by decide)
    (by decide) (by decide)).1 outcome fetches log hrun
  have heval : ((RemoteResolutionStage.run onceFetched.recorded flatDigest threeBlocks firstHit).run
      (0, [])).1.map (fun outcome => (outcome.fetched_blocks.length, outcome.stale_ref_count)) =
        .ok (1, 1) := by
    decide +kernel
  have hlog : ((RemoteResolutionStage.run onceFetched.recorded flatDigest threeBlocks firstHit).run
      (0, [])).2.map (fun fetches => fetches) List.getLast? =
        (2, some (.invalidate ⟨0, 4, 1⟩)) := by
    decide +kernel
  rw [hrun] at heval hlog
  obtain ⟨hlen, hstale⟩ := Prod.mk.inj (Except.ok.inj heval)
  obtain ⟨rfl, hend⟩ := Prod.mk.inj hlog
  obtain ⟨candidate, hfetched⟩ := List.length_eq_one_iff.mp hlen
  obtain ⟨hindex, -, htokens, -⟩ := hextends.candidate 0 candidate (by rw [hfetched]; rfl)
  obtain ⟨rounds, last, hcalls, hrounds, hround, hlast⟩ := hextends.calls
  obtain ⟨round, rfl⟩ := List.length_eq_one_iff.mp (hrounds.trans hlen)
  rw [hlen, hstale] at hlast
  refine ⟨outcome, log, hrun, ⟨candidate, hfetched, hindex, htokens⟩, round, last,
    by simpa using hcalls, hround 0 round rfl, hlast, ?_⟩
  have hne : last ≠ [] := by
    rintro rfl
    cases hlast
  rw [← hend, hcalls, List.getLast?_append_of_ne_nil _ hne]

end KVCache.Pipeline
