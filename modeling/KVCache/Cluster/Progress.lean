import KVCache.Cluster.Consulted
import KVCache.Pipeline.PipelineCases

namespace KVCache

open Lib Controller Coordinator Pipeline Policy Sim

variable {π ρ : Type}

namespace Session

variable {env : Env π} {s s' : Session π}

-- Every handle variable has died or was moved from.
def Idle (s : Session π) : Prop := ∀ h ∈ s.handles, h = none

private theorem dropRange (env : Env π) (n j : Nat) (s : Session π)
    (h : j + n ≤ s.handles.length) :
    ((List.range' j n).foldl (fun s i => s.step env (.dropHandle i)) s).handles =
        s.handles.take j ++ List.replicate n none ++ s.handles.drop (j + n) ∧
      ((List.range' j n).foldl (fun s i => s.step env (.dropHandle i)) s).admissions =
        s.admissions := by
  induction n generalizing j s with
  | zero => simp
  | succ n ih =>
      have hlen : (s.step env (.dropHandle j)).handles = s.handles.set j none := rfl
      obtain ⟨hhandles, hadm⟩ := ih (j + 1) (s.step env (.dropHandle j)) (by
        rw [hlen, List.length_set]
        omega)
      rw [List.range'_succ, List.foldl_cons]
      refine ⟨?_, hadm⟩
      rw [hhandles, hlen, List.drop_set_of_lt (by omega), List.take_succ_eq_append_getElem (by
        rw [List.length_set]
        omega), List.getElem_set_self, List.take_set_of_le (le_refl j), List.replicate_succ]
      simp [Nat.add_right_comm, Nat.add_assoc]

-- The variables of a scope die, those before it live on.
theorem unwind_spec (env : Env π) (i : Nat) (s : Session π) (h : i ≤ s.handles.length) :
    (s.unwind env i).handles =
        s.handles.take i ++ List.replicate (s.handles.length - i) none ∧
      (s.unwind env i).admissions = s.admissions := by
  have hall := dropRange env (s.handles.length - i) i s (by omega)
  rwa [show i + (s.handles.length - i) = s.handles.length by omega, List.drop_length,
    List.append_nil] at hall

theorem Idle.unwind (h : s.Idle) (hpre : s.handles <+: s'.handles) :
    (s'.unwind env s.handles.length).Idle := by
  obtain ⟨hs, hall⟩ := hpre
  have hle : s.handles.length ≤ s'.handles.length := by
    rw [← hall, List.length_append]
    omega
  intro x hx
  rw [(unwind_spec env _ s' hle).1, ← hall, List.take_left] at hx
  rcases List.mem_append.mp hx with hx | hx
  · exact h x hx
  · exact List.eq_of_mem_replicate hx

-- An admission into a cache without tiers returns, with a handle if the block got in.
theorem admitBlock_returns (hpick : env.eviction.PicksCandidate) (hs : s.cache.manager.InStep)
    (hnone : s.cache.tier_manager = none) (candidate : BlockCandidate) :
    ∃ res, ((LocalCache.admitBlock env candidate).run s.cache).1 = .ok res ∧
      (res.handle.isSome ↔ res.status = .Admitted) := by
  have hcase := admitBlock_cases env hs candidate
  have hticked := s.cache.ticked_quiet
  generalize ((LocalCache.admitBlock env candidate).run s.cache).1 = res at hcase ⊢
  generalize (step env s (.admitBlock candidate)).cache = c at hcase
  cases hcase with
  | evictRefused e he hv hnot hq =>
      obtain ⟨r, hr, hready, href, -⟩ :=
        AdmissionController.admissionVictim_eligible hpick (hticked.inStep hs) hv
      have hpos := hnot r hr hready
      omega
  | evictStuck e he hv hq hr hready href hstuck =>
      exact absurd ((hticked.trans hq).tier_manager.trans hnone) hstuck.not_untiered
  | leaked e he hd hroom hfree hmis =>
      exact absurd (hroom.untiered (hticked.tier_manager.trans hnone)) hmis.not_untiered
  | _ => exact ⟨_, rfl, by simp⟩

-- The user of the cache knows about a block that got in.
theorem admission_noted {candidate : BlockCandidate} {handle : BlockHandle}
    (h : ((LocalCache.admitBlock env candidate).run s.cache).1 = .ok ⟨.Admitted, some handle⟩) :
    ⟨candidate, handle.slot, ((step env s (.admitBlock candidate)).cache.manager.store.records.getD
      handle.slot {}).generation⟩ ∈ (step env s (.admitBlock candidate)).admissions := by
  simp only [step, called]
  rcases hout : (LocalCache.admitBlock env candidate).run s.cache with ⟨res, cache⟩
  rw [hout] at h
  subst h
  exact List.mem_cons_self

end Session

namespace Pipeline

-- Block `bi` of a request, whoever makes it a candidate.
structure BlockAt (req : RouteRequest) (bi : Nat) (candidate : BlockCandidate) : Prop where
  context : candidate.context = req.context
  block_index : candidate.block_index = UInt32.ofNat bi
  tokens : candidate.tokens = req.tokens.take ((bi + 1) * req.context.block_size.toNat)

theorem fetchedCandidate_at (req : RouteRequest) (bi : Nat) (f : FetchRemoteResult) :
    BlockAt req bi (fetchedCandidate req bi f) := ⟨rfl, rfl, rfl⟩

section BlockAt

variable {req : RouteRequest} {bi : Nat} {candidate : BlockCandidate}

theorem BlockAt.index (h : BlockAt req bi candidate) (hbi : bi < fullBlocks req) :
    candidate.block_index.toNat = bi := by
  rw [h.block_index, UInt32.toNat_ofNat']
  exact Nat.mod_eq_of_lt (hbi.trans (fullBlocks_lt req))

theorem BlockAt.length (h : BlockAt req bi candidate) (hbi : bi < fullBlocks req) :
    candidate.tokens.length =
      (candidate.block_index.toNat + 1) * req.context.block_size.toNat := by
  rw [h.index hbi, h.tokens, List.length_take]
  exact Nat.min_eq_left (block_end_le_length hbi)

end BlockAt

section Served

variable {env : Env π} {s s' : Session π}

theorem served_handles (h : Served env s s') : s'.handles = s.handles := by
  refine Steps.invariant (I := fun s' : Session π => s'.handles = s.handles) ?_ h rfl
  rintro s' op hs' ⟨id, generation, rfl⟩
  rw [← hs', Session.step, Session.called]
  cases ((LocalCache.serveBlockFetch id generation).run s'.cache).1 <;> exact List.append_nil _

end Served

-- What is kept of a worker that collects the blocks of a request, from its session `s₀` on:
-- `K bi m s` where block `bi` is the next to be admitted and `m` blocks were found or admitted.
structure Collects (env : Env π) (req : RouteRequest) (s₀ : Session π)
    (K : Nat → Nat → Session π → Prop) : Prop where
  hits_le : (LocalCache.localHits env s₀.cache req.context req.tokens).length ≤ fullBlocks req
  start : K (LocalCache.localHits env s₀.cache req.context req.tokens).length
    (LocalCache.localHits env s₀.cache req.context req.tokens).length s₀
  looks : ∀ {bi m s op}, s.cache.manager.InStep → SessionOp.Looks op → K bi m s →
    K bi m (s.step env op)
  admits : ∀ {bi m s candidate res}, s.cache.manager.InStep → K bi m s → m ≤ bi →
    bi < fullBlocks req → BlockAt req bi candidate →
    ((LocalCache.admitBlock env candidate).run s.cache).1 = .ok res →
    K (bi + 1) (if res.status = .Admitted then m + 1 else m) (s.step env (.admitBlock candidate))
  restart : ∀ {bi m s}, K bi m s → K m m s

-- How far the worker has got.
structure Progress (env : Env π) (K : Nat → Nat → Session π → Prop) (s₀ : Session π)
    (bi m : Nat) (s : Session π) : Prop where
  run : Session.Run env (fun _ op => op.Public) s₀ s
  handles : s₀.handles <+: s.handles
  had : K bi m s
  le : m ≤ bi

theorem Collects.and {env : Env π} {req : RouteRequest} {s₀ : Session π}
    {K K' : Nat → Nat → Session π → Prop} (h : Collects env req s₀ K)
    (h' : Collects env req s₀ K') :
    Collects env req s₀ fun bi m s => K bi m s ∧ K' bi m s where
  hits_le := h.hits_le
  start := ⟨h.start, h'.start⟩
  looks hs hop hk := ⟨h.looks hs hop hk.1, h'.looks hs hop hk.2⟩
  admits hs hk hle hbi hat hres :=
    ⟨h.admits hs hk.1 hle hbi hat hres, h'.admits hs hk.2 hle hbi hat hres⟩
  restart hk := ⟨h.restart hk.1, h'.restart hk.2⟩

section Progress

variable {env : Env π} {req : RouteRequest} {s₀ s s' : Session π}
  {K : Nat → Nat → Session π → Prop} {bi m : Nat}

theorem Progress.restart (h : Progress env K s₀ bi m s) (hK : Collects env req s₀ K) :
    Progress env K s₀ m m s := ⟨h.run, h.handles, hK.restart h.had, le_refl m⟩

-- Looks at the cache do not set the worker back.
theorem Progress.looked (h : Progress env K s₀ bi m s) (hK : Collects env req s₀ K)
    (hs₀ : s₀.cache.manager.InStep) (hx : Session.Run env (fun _ op => op.Looks) s s')
    (hhandles : s₀.handles <+: s'.handles) : Progress env K s₀ bi m s' := by
  have hhad := Steps.invariant (I := fun s' : Session π => s'.cache.manager.InStep ∧ K bi m s') ?_
    hx ⟨(Session.run_inStep h.run hs₀).1, h.had⟩
  · exact ⟨h.run.trans (hx.mono fun _ _ hop => .inl hop), hhandles, hhad.2, h.le⟩
  · intro s op hs hop
    exact ⟨Session.step_inStep env hs.1 _, hK.looks hs.1 hop hs.2⟩

theorem Progress.served (h : Progress env K s₀ bi m s) (hK : Collects env req s₀ K)
    (hs₀ : s₀.cache.manager.InStep) (hx : Served env s s') : Progress env K s₀ bi m s' := by
  refine h.looked hK hs₀ (hx.mono fun _ op hop => ?_) (served_handles hx ▸ h.handles)
  obtain ⟨id, generation, rfl⟩ := hop
  trivial

theorem Progress.admitted (h : Progress env K s₀ bi m s) (hK : Collects env req s₀ K)
    (hpick : env.eviction.PicksCandidate) (hs₀ : s₀.cache.manager.InStep)
    (hnone₀ : s₀.cache.tier_manager = none) (hbi : bi < fullBlocks req)
    {candidate : BlockCandidate} (hat : BlockAt req bi candidate) :
    ∃ res, ((LocalCache.admitBlock env candidate).run s.cache).1 = .ok res ∧
      (res.handle.isSome ↔ res.status = .Admitted) ∧
      Progress env K s₀ (bi + 1) (if res.status = .Admitted then m + 1 else m)
        (s.step env (.admitBlock candidate)) := by
  have hs := (Session.run_inStep h.run hs₀).1
  obtain ⟨res, hres, hhandle⟩ := Session.admitBlock_returns hpick hs
    (Session.run_untiered hs₀ hnone₀ h.run) candidate
  have hle := h.le
  refine ⟨res, hres, hhandle, h.run.snoc _ (.inr ⟨candidate, rfl⟩),
    h.handles.trans (List.prefix_append _ _), hK.admits hs h.had hle hbi hat hres, ?_⟩
  split <;> omega

-- The loop over the fetched blocks hands out one handle for each block that got in, and it
-- counts at most as many hits as there were blocks.
theorem admitAll_returns (hK : Collects env req s₀ K) (hpick : env.eviction.PicksCandidate)
    (hs₀ : s₀.cache.manager.InStep) (hnone₀ : s₀.cache.tier_manager = none)
    (candidates : List BlockCandidate) (out : AdmissionOutcome)
    (h : Progress env K s₀ bi m s) (hlen : bi + candidates.length ≤ fullBlocks req)
    (hat : ∀ k candidate, candidates[k]? = some candidate → BlockAt req (bi + k) candidate) :
    ∃ out' s' count new, (AdmissionStage.admitAll env candidates out).run s = (.ok out', s') ∧
      new ≤ count ∧ count ≤ candidates.length ∧
      out'.admitted_count = out.admitted_count + UInt32.ofNat count ∧
      out'.admitted_handles.length = out.admitted_handles.length + new ∧
        Progress env K s₀ (bi + candidates.length) (m + new) s' := by
  induction candidates generalizing out s bi m with
  | nil => exact ⟨out, s, 0, 0, rfl, le_refl _, le_refl _, (UInt32.add_zero _).symm, rfl, h⟩
  | cons candidate rest ih =>
      rw [List.length_cons] at hlen
      obtain ⟨res, hres, hhandle, hnext⟩ := h.admitted hK hpick hs₀ hnone₀ (by omega)
        (hat 0 candidate rfl)
      obtain ⟨out', s', count, new, hrun, hle, hcount, hadmitted, hnew, hlast⟩ :=
        ih (AdmissionStage.admitOne out res) hnext (by omega) fun k candidate' hk => by
          rw [Nat.add_assoc, Nat.add_comm 1 k]
          exact hat (k + 1) candidate' (by simpa using hk)
      have hone : (Session.admitBlock env candidate).run s =
          (.ok res, s.step env (.admitBlock candidate)) := Prod.ext hres rfl
      rw [AdmissionStage.admitAll, Exec.bind_ok hone, hrun]
      refine ⟨out', s',
        if res.status = .Admitted ∨ res.status = .AlreadyPresent then 1 + count else count,
        if res.status = .Admitted then 1 + new else new, rfl, ?_, ?_, ?_, ?_, ?_⟩
      · by_cases hadm : res.status = .Admitted
        · rw [if_pos hadm, if_pos (.inl hadm)]
          omega
        · rw [if_neg hadm]
          split <;> omega
      · rw [List.length_cons]
        split <;> omega
      · rw [hadmitted]
        unfold AdmissionStage.admitOne
        split
        · rw [UInt32.ofNat_add, ← UInt32.add_assoc]
          rfl
        · rfl
      · rw [hnew]
        obtain ⟨status, handle⟩ := res
        cases handle with
        | none =>
            have hnot : ¬ status = .Admitted := by simpa using hhandle
            rw [if_neg hnot]
            unfold AdmissionStage.admitOne
            split <;> simp
        | some handle =>
            have hadm : status = .Admitted := by simpa using hhandle
            rw [if_pos hadm]
            simp [AdmissionStage.admitOne, hadm, Nat.add_assoc]
      · rw [List.length_cons, Nat.add_comm rest.length 1, ← Nat.add_assoc]
        convert hlast using 1
        split <;> omega

end Progress

end Pipeline

namespace Cluster

variable {E : ClusterEnv π ρ} {c x : Cluster π ρ} {n : NodeId} {req : RouteRequest}

theorem run_mono {c' : Cluster π ρ} {ok ok' : SessionOp → Prop} (hok : ∀ op, ok op → ok' op)
    (h : Run E ok c c') : Run E ok' c c' := by
  refine h.mono fun _ op hop => ?_
  cases op with
  | use node op => exact hok op hop
  | _ => exact hop

-- What the user of one worker does is a run of the cluster.
theorem run_setWorker {ok : SessionOp → Prop} {s : Session π}
    (h : Session.Run (E.env n) (fun _ op => ok op) (c.workers n) s) :
    Run E ok c (c.setWorker n s) := by
  induction h with
  | refl =>
      have hsame : c.setWorker n (c.workers n) = c := by
        simp only [setWorker, Function.update_eq_self]
      rw [hsame]
      exact Steps.refl c
  | @tail s s' _ hlast ih =>
      obtain ⟨op, hop, rfl⟩ := hlast
      have hone : (c.setWorker n s).step E (.use n op) =
          c.setWorker n (s.step (E.env n) op) := by
        simp only [step, setWorker, Function.update_self, Function.update_idem]
      rw [← hone]
      exact ih.snoc (.use n op) hop

-- Nothing happened to the workers but that blocks were fetched from them, and nothing was added
-- to the index.
structure Fetched (E : ClusterEnv π ρ) (c x : Cluster π ρ) : Prop where
  served : ∀ node, Served (E.env node) (c.workers node) (x.workers node)
  index : ∀ hash ref, ref ∈ x.index.query hash → ref ∈ c.index.query hash
  registered : x.registered = c.registered

theorem Fetched.moves (h : Fetched E c x) : Moves E SessionOp.Public c x :=
  fun node => (h.served node).public

theorem Fetched.start (E : ClusterEnv π ρ) (c : Cluster π ρ) : Fetched E c c :=
  ⟨fun _ => Steps.refl _, fun _ _ h => h, rfl⟩

-- No collaborator of a request throws, and none does more than fetch.
theorem fetched_returns (hc : c.Sound) (n : NodeId) :
    (wiring E n).toRemote.ReturnsOn (Fetched E c) where
  query hash x hx := ⟨_, _, rfl, hx⟩
  invalidate node block_id generation x hx := by
    refine ⟨_, rfl, hx.served, fun hash ref hmem => hx.index hash ref ?_, hx.registered⟩
    exact (GlobalIndex.mem_query_invalidate.mp hmem).1
  chooseReplica ctx refs x hx := ⟨_, _, rfl, hx.served, hx.index, hx.registered⟩
  fetchBlock node block_id generation x hx := by
    simp only [wiring, fetchBlock_run]
    split
    · exact ⟨_, _, rfl, hx⟩
    · obtain ⟨hs, hnone⟩ := hx.moves.sound hc node
      rw [LocalCache.serveBlockFetch_untiered hs hnone]
      refine ⟨_, _, rfl, fun m => ?_, hx.index, hx.registered⟩
      by_cases hm : m = node
      · subst hm
        rw [setWorker_self]
        exact (hx.served m).snoc (.serveBlockFetch block_id generation) ⟨_, _, rfl⟩
      · rw [setWorker_ne x _ hm]
        exact hx.served m
  networkFetchNs payload_bytes x hx := ⟨_, _, rfl, hx.served, hx.index, hx.registered⟩
  record e x hx := ⟨_, rfl, hx.served, hx.index, hx.registered⟩

-- What remote resolution comes to: candidates for the blocks from the first missing one on.
theorem remote_returns {d : Cluster π ρ} (hd : d.Sound) (hdc : Consulted d c) (hc : c.Sound)
    (hb : req.context.block_size ≠ 0) {loc : LocalLookupOutcome}
    (hloc : loc.matched_blocks.length ≤ fullBlocks req) :
    ∃ outcome x, (RemoteResolutionStage.run (wiring E n).toRemote (wiring E n).env.xxh3 req loc).run
        c = (.ok outcome, x) ∧ Fetched E c x ∧
      loc.matched_blocks.length + outcome.fetched_blocks.length ≤ fullBlocks req ∧
      (∀ k candidate, outcome.fetched_blocks[k]? = some candidate →
        BlockAt req (loc.matched_blocks.length + k) candidate) ∧
      (∀ k < outcome.fetched_blocks.length,
        c.index.query (missingBlock E.xxh3 req (loc.matched_blocks.length + k)).hash ≠ []) ∧
      (loc.matched_blocks.length + outcome.fetched_blocks.length < fullBlocks req →
        ∃ y, Consulted d y ∧ Stops (wiring E n).toRemote (missingBlock E.xxh3 req
          (loc.matched_blocks.length + outcome.fetched_blocks.length)).hash y) := by
  obtain ⟨outcome, x, hrun, hx⟩ := RemoteResolutionStage.run_returns (X := (wiring E n).env.xxh3)
    (fetched_returns (E := E) hc n) hb loc (.start E c)
  obtain ⟨-, hres, -⟩ := RemoteResolutionStage.run_cases hrun
  have hmod : loc.matched_blocks.length % 2 ^ 32 = loc.matched_blocks.length :=
    Nat.mod_eq_of_lt (lt_of_le_of_lt hloc (fullBlocks_lt req))
  rw [hmod] at hres
  have hlen := hres.length_le
  refine ⟨outcome, x, hrun, hx, by omega, fun k candidate hk => ?_, fun k hk => ?_,
    fun hlt => hres.stops (consulted_returns hd n) hdc (by omega)⟩
  · obtain ⟨f, rfl, -⟩ := hres.getElem? hk
    exact fetchedCandidate_at req _ f
  · obtain ⟨y, q, y', hy, hquery, hsome⟩ :=
      hres.queried (fetched_returns (E := E) hc n) (.start E c) hk
    cases hquery
    obtain ⟨ref, hmem⟩ := List.exists_mem_of_ne_nil _ hsome
    exact List.ne_nil_of_mem (hy.index _ ref hmem)

variable {K : Nat → Nat → Session π → Prop}

-- What a request of worker `n` in `c` comes to: by its local hits and the `count` blocks that it
-- fetched from others, of which the index knew, the worker gets as far as block `bi`, which was
-- not to be had. It has as many blocks as it hands out. The other workers serve blocks at most.
structure Answered (E : ClusterEnv π ρ) (c : Cluster π ρ) (n : NodeId) (req : RouteRequest)
    (K : Nat → Nat → Session π → Prop) (result : RouteResult) (count bi : Nat) : Prop where
  local_hits : result.local_hit_blocks = UInt32.ofNat
    (LocalCache.localHits (E.env n) (c.workers n).cache req.context req.tokens).length
  remote_hits : result.remote_hit_blocks = UInt32.ofNat count
  le_count : result.reusable_blocks.length ≤
    (LocalCache.localHits (E.env n) (c.workers n).cache req.context req.tokens).length + count
  count_le :
    (LocalCache.localHits (E.env n) (c.workers n).cache req.context req.tokens).length + count ≤ bi
  known : ∀ k < count, c.index.query (missingBlock E.xxh3 req ((LocalCache.localHits (E.env n)
    (c.workers n).cache req.context req.tokens).length + k)).hash ≠ []
  le : bi ≤ fullBlocks req
  stops : bi < fullBlocks req → ∃ y, Consulted c y ∧
    Stops (wiring E n).toRemote (missingBlock E.xxh3 req bi).hash y
  registered : (c.step E (.request n req)).registered = c.registered
  worker : Progress (E.env n) K (c.workers n) bi result.reusable_blocks.length
    ((c.step E (.request n req)).workers n)
  others : ∀ node, node ≠ n →
    Served (E.env node) (c.workers node) ((c.step E (.request n req)).workers node)

-- The first stage: the worker looks for the blocks that are there.
theorem lookup_returns (hc : c.Sound) (hsize : (c.workers n).cache.block_size ≠ 0)
    (hK : Collects (E.env n) req (c.workers n) K) :
    ∃ loc, ((wiring E n).onWorker (Session.lookupPrefix (wiring E n).env req.context
        req.tokens)).run c = (.ok loc, c.setWorker n ((c.workers n).step (E.env n)
          (.lookupPrefix req.context req.tokens))) ∧
      loc.matched_blocks.length =
        (LocalCache.localHits (E.env n) (c.workers n).cache req.context req.tokens).length ∧
      Progress (E.env n) K (c.workers n) loc.matched_blocks.length loc.matched_blocks.length
        ((c.workers n).step (E.env n) (.lookupPrefix req.context req.tokens)) := by
  obtain ⟨hs, -⟩ := hc n
  obtain ⟨loc, hloc, hslots⟩ := LocalCache.lookupPrefix_hits (E.env n) hs hsize req.context
    req.tokens
  have hhits : loc.matched_blocks.length =
      (LocalCache.localHits (E.env n) (c.workers n).cache req.context req.tokens).length := by
    rw [← hslots, List.length_map]
  have hstart := hK.start
  rw [← hhits] at hstart
  have hlooks : (SessionOp.lookupPrefix req.context req.tokens).Looks := trivial
  exact ⟨loc, Prod.ext hloc rfl, hhits, (Steps.refl _).snoc _ (.inl hlooks),
    List.prefix_append _ _, hK.looks hs hlooks hstart, le_refl _⟩

-- The pipeline, when its stages return.
theorem run_of_stages {c₁ x : Cluster π ρ} {s' : Session π} {loc : LocalLookupOutcome}
    {outcome : RemoteResolutionOutcome} {out : AdmissionOutcome}
    (hlocal : ((wiring E n).onWorker (Session.lookupPrefix (wiring E n).env req.context
      req.tokens)).run c = (.ok loc, c₁))
    (hremote : (RemoteResolutionStage.run (wiring E n).toRemote (wiring E n).env.xxh3 req loc).run
      c₁ = (.ok outcome, x))
    (hadmitted : (AdmissionStage.admitRemoteBlocks (E.env n) outcome).run (x.workers n) =
      (.ok out, s')) :
    (RequestPipeline.run (wiring E n) req).run c =
      (.ok (ResultAssembler.assemble req loc out), x.setWorker n s') := by
  have hadmission : ((wiring E n).onWorker (AdmissionStage.admitRemoteBlocks (wiring E n).env
      outcome)).run x = (.ok out, x.setWorker n s') := by
    simp only [Wiring.onWorker, Exec.on_run, wiring, hadmitted]
  have hstages : (RequestPipeline.stages (wiring E n) req).run c =
      (.ok (ResultAssembler.assemble req loc out), x.setWorker n s') := by
    rw [RequestPipeline.stages, Exec.bind_ok hlocal, Exec.bind_ok hremote, Exec.bind_ok hadmission]
    rfl
  simp only [RequestPipeline.run, Exec.onThrow, hstages]

-- A request returns.
theorem request_returns (hpick : (E.env n).eviction.PicksCandidate) (hc : c.Sound)
    (hsize : (c.workers n).cache.block_size ≠ 0) (hb : req.context.block_size ≠ 0)
    (hK : Collects (E.env n) req (c.workers n) K) :
    ∃ result count bi, (RequestPipeline.run (wiring E n) req).run c =
        (.ok result, c.step E (.request n req)) ∧ Answered E c n req K result count bi := by
  obtain ⟨hs, hnone⟩ := hc n
  obtain ⟨loc, hlocal, hhits, hfirst⟩ := lookup_returns hc hsize hK
  have hmoves : Moves E SessionOp.Public c (c.setWorker n ((c.workers n).step (E.env n)
      (.lookupPrefix req.context req.tokens))) := .setWorker hfirst.run
  have hlooks : (SessionOp.lookupPrefix req.context req.tokens).Looks := trivial
  have hle := hK.hits_le
  rw [← hhits] at hle
  obtain ⟨outcome, x, hremote, hx, hlen, hat, hknown, hstops⟩ :=
    remote_returns (E := E) (n := n) hc ((Consulted.start hc).looked hc hlooks) (hmoves.sound hc)
      hb hle
  have hserved := hx.served n
  rw [setWorker_self] at hserved
  obtain ⟨out, s', count, new, hadmit, hnewle, hcount, hadmitted, hnew, hlast⟩ :=
    admitAll_returns hK hpick hs hnone outcome.fetched_blocks {} (hfirst.served hK hs hserved)
      hlen hat
  have hrun := run_of_stages hlocal hremote hadmit
  have hstep : c.step E (.request n req) = x.setWorker n s' := by
    rw [step, hrun]
  have hreusable : (ResultAssembler.assemble req loc out).reusable_blocks.length =
      loc.matched_blocks.length + new := by
    simp [ResultAssembler.assemble, hnew]
  refine ⟨_, count, loc.matched_blocks.length + outcome.fetched_blocks.length,
    by rw [hstep, hrun], ?_⟩
  exact {
    local_hits := congrArg UInt32.ofNat hhits
    remote_hits := by simp [ResultAssembler.assemble, hadmitted]
    le_count := by
      rw [hreusable, ← hhits]
      omega
    count_le := by
      rw [← hhits]
      omega
    known := fun k hk => by
      rw [← hhits]
      exact hknown k (by omega)
    le := hlen
    stops := hstops
    registered := hstep ▸ hx.registered
    worker := by
      rw [hstep, setWorker_self, hreusable]
      exact hlast
    others := fun node hne => by
      have hother := hx.served node
      rw [setWorker_ne c _ hne] at hother
      rw [hstep, setWorker_ne x _ hne]
      exact hother }

end Cluster

end KVCache
