import KVCache.Pipeline.RemoteCalls
import KVCache.Pipeline.RequestPipeline
import KVCache.Session.Agreement

namespace KVCache.Pipeline

open Lib Policy Sim

variable {π σ : Type}

-- One call to a collaborator, however it ends.
inductive Remote.Calls (w : Remote σ) : σ → σ → Prop
  | query (hash : ContentHash) (x : σ) : Calls w x ((w.query hash).run x).2
  | invalidate (node : NodeId) (block_id : BlockId) (generation : Nat) (x : σ) :
      Calls w x ((w.invalidate node block_id generation).run x).2
  | chooseReplica (ctx : ReplicaSelectionContext) (refs : List GlobalBlockRef) (x : σ) :
      Calls w x ((w.chooseReplica ctx refs).run x).2
  | fetchBlock (node : NodeId) (block_id : BlockId) (generation : Nat) (x : σ) :
      Calls w x ((w.fetchBlock node block_id generation).run x).2
  | networkFetchNs (payload_bytes : Nat) (x : σ) :
      Calls w x ((w.networkFetchNs payload_bytes).run x).2
  | record (e : Event) (x : σ) : Calls w x ((w.record e).run x).2

section Calls

variable {w : Remote σ}

abbrev Remote.Makes {α : Type} (w : Remote σ) (x : Exec Fault σ α) : Prop :=
  Exec.Within (fun _ => True) w.Calls x

private theorem makes_bind {α β : Type} {x : Exec Fault σ α} {f : α → Exec Fault σ β}
    (hx : w.Makes x) (hf : ∀ a, w.Makes (f a)) : w.Makes (x >>= f) :=
  Exec.Within.bind (fun _ _ _ _ => trivial) hx hf

private theorem makes_check {α : Type} (f : σ → Except Fault α) : w.Makes (Exec.check f) :=
  fun _ _ => .refl

-- A call that asks a collaborator and invalidates nothing.
inductive Remote.Asks (w : Remote σ) : σ → σ → Prop
  | query (hash : ContentHash) (x : σ) : Asks w x ((w.query hash).run x).2
  | chooseReplica (ctx : ReplicaSelectionContext) (refs : List GlobalBlockRef) (x : σ) :
      Asks w x ((w.chooseReplica ctx refs).run x).2
  | fetchBlock (node : NodeId) (block_id : BlockId) (generation : Nat) (x : σ) :
      Asks w x ((w.fetchBlock node block_id generation).run x).2
  | networkFetchNs (payload_bytes : Nat) (x : σ) :
      Asks w x ((w.networkFetchNs payload_bytes).run x).2
  | record (e : Event) (x : σ) : Asks w x ((w.record e).run x).2

theorem Remote.Asks.calls {x x' : σ} (h : w.Asks x x') : w.Calls x x' := by
  cases h with
  | query hash => exact .query hash x
  | chooseReplica ctx refs => exact .chooseReplica ctx refs x
  | fetchBlock node block_id generation => exact .fetchBlock node block_id generation x
  | networkFetchNs payload_bytes => exact .networkFetchNs payload_bytes x
  | record e => exact .record e x

theorem RemoteBlockFetcher.fetch_asks (w : Remote σ) (ref : GlobalBlockRef)
    (hash : ContentHash) : Exec.Within (fun _ => True) w.Asks (fetch w ref hash) := by
  have hbind : ∀ {α β : Type} {x : Exec Fault σ α} {f : α → Exec Fault σ β},
      Exec.Within (fun _ => True) w.Asks x → (∀ a, Exec.Within (fun _ => True) w.Asks (f a)) →
      Exec.Within (fun _ => True) w.Asks (x >>= f) :=
    fun hx hf => Exec.Within.bind (fun _ _ _ _ => trivial) hx hf
  have hrec : ∀ e, Exec.Within (fun _ => True) w.Asks (w.record e) :=
    fun e x _ => .single (.record e x)
  refine hbind (hrec _) fun _ => hbind (fun x _ => .single (.fetchBlock _ _ _ x)) fun resp => ?_
  split
  · exact hbind (hrec _) fun _ => Exec.Within.pure _
  · exact hbind (hrec _) fun _ => Exec.Within.pure _
  · exact hbind (hrec _) fun _ => Exec.Within.pure _
  · split
    · exact hbind (hrec _) fun _ => Exec.Within.pure _
    · exact hbind (fun x _ => .single (.networkFetchNs _ x)) fun _ =>
        hbind (hrec _) fun _ => Exec.Within.pure _

theorem RemoteBlockFetcher.fetch_makes (w : Remote σ) (ref : GlobalBlockRef)
    (hash : ContentHash) : w.Makes (fetch w ref hash) := fun x hx =>
  Relation.ReflTransGen.mono (fun _ _ h => h.calls) _ _ (fetch_asks w ref hash x hx)

theorem RemoteResolutionStage.resolve_makes (w : Remote σ) (req : RouteRequest)
    (mbs : List MissingBlockInfo) (out : RemoteResolutionOutcome) :
    w.Makes (resolve w req mbs out) := by
  induction mbs generalizing out with
  | nil => exact Exec.Within.pure _
  | cons mb rest ih =>
      refine makes_bind (fun x _ => .single (.query _ x)) fun q => ?_
      split
      · exact Exec.Within.pure _
      · refine makes_bind (fun x _ => .single (.chooseReplica _ _ x)) fun chosen => ?_
        cases chosen with
        | none => exact Exec.Within.pure _
        | some ref =>
            refine makes_bind (RemoteBlockFetcher.fetch_makes w _ _) fun f => ?_
            cases f.status with
            | StaleGeneration =>
                exact makes_bind (fun x _ => .single (.invalidate _ _ _ x)) fun _ =>
                  makes_bind (fun x _ => .single (.record _ x)) fun _ => Exec.Within.pure _
            | Ok =>
                exact makes_bind (makes_check _) fun _ => ih _
            | NotFound | HashMismatch | TransportError =>
                exact Exec.Within.pure _

-- However the stage ends, it has made calls and nothing else.
theorem RemoteResolutionStage.run_makes (w : Remote σ) (X : XXH3) (req : RouteRequest)
    (loc : LocalLookupOutcome) : w.Makes (run w X req loc) :=
  makes_bind (makes_check _) fun missing => resolve_makes w req missing {}

-- Before a block is fetched the stage has asked for its hash, and before that it has asked
-- for other blocks only.
theorem RemoteResolutionStage.Resolves.round {X : XXH3} {req : RouteRequest} {bi n : Nat} {x x' : σ}
    {candidates : List BlockCandidate} {stale : UInt32}
    (h : Resolves w X req bi n x candidates stale x') {k : Nat} {candidate : BlockCandidate}
    (hk : candidates[k]? = some candidate) :
    ∃ y y₁ y₂ y₃ q ref f, Relation.ReflTransGen w.Asks x y ∧
      (w.query (missingBlock X req (bi + k)).hash).run y = (.ok q, y₁) ∧
      (w.chooseReplica ⟨(missingBlock X req (bi + k)).hash, 0, 0⟩ q.refs).run y₁ =
        (.ok (some ref), y₂) ∧
      (RemoteBlockFetcher.fetch w ref (missingBlock X req (bi + k)).hash).run y₂ = (.ok f, y₃) ∧
      f.status = .Ok ∧ candidate = fetchedCandidate req (bi + k) f := by
  induction h generalizing k with
  | @fetched bi n x x₁ x₂ x₃ x' q ref f candidates stale hq hsome hc hf hok hrest ih =>
      cases k with
      | zero =>
          obtain rfl : fetchedCandidate req bi f = candidate := by simpa using hk
          exact ⟨x, x₁, x₂, x₃, q, ref, f, .refl, hq, hc, hf, hok, rfl⟩
      | succ k =>
          obtain ⟨y, y₁, y₂, y₃, q', ref', f', hasks, hround⟩ := ih (by simpa using hk)
          have hquery := Remote.Asks.query (w := w) (missingBlock X req bi).hash x
          have hchoose := Remote.Asks.chooseReplica (w := w)
            ⟨(missingBlock X req bi).hash, 0, 0⟩ q.refs x₁
          have hfetch := RemoteBlockFetcher.fetch_asks w ref (missingBlock X req bi).hash x₂ trivial
          rw [hq] at hquery
          rw [hc] at hchoose
          rw [hf] at hfetch
          rw [show bi + 1 + k = bi + (k + 1) by omega] at hround
          exact ⟨y, y₁, y₂, y₃, q', ref', f',
            ((Relation.ReflTransGen.single hquery).tail hchoose).trans (hfetch.trans hasks), hround⟩
  | _ => cases hk

end Calls

-- What the collaborators may do to the worker: fetch blocks from it.
abbrev Served (env : Env π) : Session π → Session π → Prop :=
  Steps (Session.step env) fun _ op => ∃ id generation, op = .serveBlockFetch id generation

structure Wiring.Lawful (w : Wiring σ π) : Prop where
  worker_setWorker : ∀ x s, w.worker (w.setWorker x s) = s
  served : ∀ x x', w.toRemote.Calls x x' → Served w.env (w.worker x) (w.worker x')

theorem Wiring.Lawful.calls {w : Wiring σ π} (hw : w.Lawful) {x x' : σ}
    (h : Relation.ReflTransGen w.toRemote.Calls x x') :
    Served w.env (w.worker x) (w.worker x') := by
  induction h with
  | refl => exact Steps.refl _
  | tail _ hlast ih => exact ih.trans (hw.served _ _ hlast)

-- A run of `admitBlock` over the candidates, with the results.
inductive Admits (env : Env π) :
    List BlockCandidate → Session π → List AdmitResult → Session π → Prop
  | nil {s : Session π} : Admits env [] s [] s
  | cons {candidate : BlockCandidate} {rest : List BlockCandidate} {s s' : Session π}
      {result : AdmitResult} {results : List AdmitResult}
      (hentered : ((LocalCache.admitBlock env candidate).run s.cache).1 = .ok result)
      (hrest : Admits env rest (s.step env (.admitBlock candidate)) results s') :
      Admits env (candidate :: rest) s (result :: results) s'

section Admission

variable {env : Env π} {s s' : Session π}

theorem AdmissionStage.admitAll_cases {candidates : List BlockCandidate}
    {out out' : AdmissionOutcome}
    (h : (admitAll env candidates out).run s = (.ok out', s')) :
    ∃ results, Admits env candidates s results s' ∧ out' = results.foldl admitOne out := by
  induction candidates generalizing out s with
  | nil =>
      cases h
      exact ⟨[], .nil, rfl⟩
  | cons candidate rest ih =>
      obtain ⟨result, s₁, hentered, h⟩ := Exec.bind_eq_ok.mp h
      obtain ⟨results, hrest, rfl⟩ := ih h
      obtain ⟨hresult, rfl⟩ := Prod.mk.inj hentered
      exact ⟨result :: results, .cons hresult hrest, rfl⟩

theorem Admits.length_eq {candidates : List BlockCandidate} {results : List AdmitResult}
    (h : Admits env candidates s results s') : results.length = candidates.length := by
  induction h with
  | nil => rfl
  | cons _ _ ih => rw [List.length_cons, List.length_cons, ih]

-- The results that count as hits.
def hit (result : AdmitResult) : Bool :=
  result.status = .Admitted ∨ result.status = .AlreadyPresent

theorem AdmissionStage.foldl_admitOne (results : List AdmitResult) (out : AdmissionOutcome) :
    results.foldl admitOne out =
      { admitted_handles := out.admitted_handles ++
          (results.filter hit).flatMap fun r => r.handle.toList
        admitted_count := out.admitted_count + UInt32.ofNat (results.countP hit)
        rejected_count := out.rejected_count +
          UInt32.ofNat (results.countP fun r => !hit r) } := by
  induction results generalizing out with
  | nil => simp
  | cons r rs ih =>
      rw [List.foldl_cons, ih]
      by_cases h : hit r
      · have h' : r.status = .Admitted ∨ r.status = .AlreadyPresent := by simpa [hit] using h
        simp [admitOne, h, h', UInt32.add_assoc, UInt32.add_comm 1]
      · have h' : ¬ (r.status = .Admitted ∨ r.status = .AlreadyPresent) := by simpa [hit] using h
        simp [admitOne, h, h', UInt32.add_assoc, UInt32.add_comm 1]

end Admission

-- How a run of the pipeline goes when it returns: lookup, remote resolution, admissions.
theorem RequestPipeline.run_cases {w : Wiring σ π} {req : RouteRequest} {result : RouteResult}
    {x x' : σ} (h : (run w req).run x = (.ok result, x')) :
    ∃ loc remote x₂ results s',
      ((LocalCache.lookupPrefix w.env req.context req.tokens).run (w.worker x).cache).1 = .ok loc ∧
      (RemoteResolutionStage.run w.toRemote w.env.xxh3 req loc).run (w.setWorker x
        ((w.worker x).step w.env (.lookupPrefix req.context req.tokens))) = (.ok remote, x₂) ∧
      Admits w.env remote.fetched_blocks (w.worker x₂) results s' ∧ x' = w.setWorker x₂ s' ∧
      result = ResultAssembler.assemble req loc (results.foldl AdmissionStage.admitOne {}) := by
  have hstages : (stages w req).run x = (.ok result, x') := by
    rcases hrun : (stages w req).run x with ⟨_ | r, x₁⟩
    · simp only [run, Exec.onThrow, hrun] at h
      cases h
    · simp only [run, Exec.onThrow, hrun] at h
      exact h
  rw [stages] at hstages
  obtain ⟨loc, x₁, hloc, hstages⟩ := Exec.bind_eq_ok.mp hstages
  obtain ⟨hlookup, rfl⟩ := Prod.mk.inj hloc
  obtain ⟨remote, x₂, hremote, hstages⟩ := Exec.bind_eq_ok.mp hstages
  obtain ⟨admission, x₃, hadmission, hstages⟩ := Exec.bind_eq_ok.mp hstages
  obtain ⟨hadm, rfl⟩ := Prod.mk.inj hadmission
  cases hstages
  obtain ⟨results, hadmits, rfl⟩ := AdmissionStage.admitAll_cases (Prod.ext hadm rfl)
  exact ⟨loc, remote, x₂, results, _, hlookup, hremote, hadmits, rfl, rfl⟩

section Advance

variable {w : Wiring σ π}

-- However the shared state gets from `x` to `x'`, the worker makes public operations only.
abbrev Wiring.Advances (w : Wiring σ π) (x x' : σ) : Prop :=
  Session.Run w.env (fun _ op => op.Public) (w.worker x) (w.worker x')

theorem Served.public {env : Env π} {s s' : Session π} (h : Served env s s') :
    Session.Run env (fun _ op => op.Public) s s' := by
  refine h.mono fun _ op hop => ?_
  obtain ⟨id, generation, rfl⟩ := hop
  exact .inl trivial

theorem Wiring.Advances.of_steps {x x' : σ} (h : Relation.ReflTransGen w.Advances x x') :
    w.Advances x x' := by
  induction h with
  | refl => exact Steps.refl _
  | tail _ hlast ih => exact ih.trans hlast

theorem AdmissionStage.admitAll_run (env : Env π) {ok : SessionOp → Prop}
    (candidates : List BlockCandidate) (hok : ∀ candidate ∈ candidates, ok (.admitBlock candidate))
    (out : AdmissionOutcome) (s : Session π) :
    Session.Run env (fun _ op => ok op) s ((admitAll env candidates out).run s).2 := by
  induction candidates generalizing out s with
  | nil => exact Steps.refl s
  | cons candidate rest ih =>
      have hone : Session.Run env (fun _ op => ok op) s (s.step env (.admitBlock candidate)) :=
        Steps.snoc (Steps.refl s) _ (hok candidate List.mem_cons_self)
      rw [admitAll, Exec.bind_run]
      rcases hres : (Session.admitBlock env candidate).run s with ⟨_ | result, s₁⟩
      · obtain ⟨-, rfl⟩ := Prod.mk.inj hres
        exact hone
      · obtain ⟨-, rfl⟩ := Prod.mk.inj hres
        have hrest : ∀ candidate' ∈ rest, ok (.admitBlock candidate') :=
          fun candidate' hmem => hok candidate' (List.mem_cons_of_mem _ hmem)
        exact hone.trans (ih hrest _ _)

theorem Session.unwind_run (env : Env π) (i : Nat) (s : Session π) :
    Session.Run env (fun _ op => op.Looks) s (s.unwind env i) := by
  rw [Session.unwind]
  generalize List.range' i (s.handles.length - i) = vars
  induction vars generalizing s with
  | nil => exact Steps.refl s
  | cons j vars ih => exact (Steps.snoc (Steps.refl s) (.dropHandle j) trivial).trans (ih _)

section Within

variable {R : σ → σ → Prop} {ok : SessionOp → Prop} {req : RouteRequest}

-- However its stages end, a request makes calls to the collaborators, and between them its
-- worker looks blocks up and admits what was fetched.
theorem RequestPipeline.stages_within (hlooks : ∀ op : SessionOp, op.Looks → ok op)
    (hfetched : ∀ loc remote x x',
      (RemoteResolutionStage.run w.toRemote w.env.xxh3 req loc).run x = (.ok remote, x') →
        ∀ candidate ∈ remote.fetched_blocks, ok (.admitBlock candidate))
    (hcalls : ∀ x x', w.toRemote.Calls x x' → R x x')
    (huse : ∀ x s, Session.Run w.env (fun _ op => ok op) (w.worker x) s → R x (w.setWorker x s)) :
    Exec.Within (fun _ => True) R (stages w req) := by
  have hon : ∀ {α : Type} (y : Exec Fault (Session π) α),
      (∀ s, Session.Run w.env (fun _ op => ok op) s (y.run s).2) →
      Exec.Within (fun _ => True) R (w.onWorker y) :=
    fun y hy x _ => .single (huse x _ (hy (w.worker x)))
  refine Exec.Within.bind (fun _ _ _ _ => trivial) (hon _ fun s => ?_) fun loc => ?_
  · exact Steps.snoc (Steps.refl s) (SessionOp.lookupPrefix _ _) (hlooks _ trivial)
  · refine Exec.Within.bind_returned (fun _ _ _ _ => trivial) (fun x hx => ?_)
      fun remote x x' hremote => ?_
    · exact Relation.ReflTransGen.mono hcalls _ _
        (RemoteResolutionStage.run_makes w.toRemote w.env.xxh3 req loc x hx)
    · refine Exec.Within.bind (fun _ _ _ _ => trivial) (hon _ fun s => ?_) fun admission => ?_
      · exact AdmissionStage.admitAll_run w.env remote.fetched_blocks
          (hfetched loc remote x x' hremote) {} s
      · exact Exec.Within.pure _

theorem RequestPipeline.run_within (hlooks : ∀ op : SessionOp, op.Looks → ok op)
    (hfetched : ∀ loc remote x x',
      (RemoteResolutionStage.run w.toRemote w.env.xxh3 req loc).run x = (.ok remote, x') →
        ∀ candidate ∈ remote.fetched_blocks, ok (.admitBlock candidate))
    (hcalls : ∀ x x', w.toRemote.Calls x x' → R x x')
    (huse : ∀ x s, Session.Run w.env (fun _ op => ok op) (w.worker x) s → R x (w.setWorker x s))
    (x : σ) : Relation.ReflTransGen R x ((run w req).run x).2 := by
  have hstages := stages_within hlooks hfetched hcalls huse x trivial
  rcases hrun : (stages w req).run x with ⟨_ | result, x'⟩
  · rw [hrun] at hstages
    simp only [run, Exec.onThrow, hrun]
    exact .tail hstages (huse _ _ ((Session.unwind_run _ _ _).mono fun _ op hop => hlooks op hop))
  · rw [hrun] at hstages
    simp only [run, Exec.onThrow, hrun]
    exact hstages

end Within

-- Whether it returns or throws, a request is a sequence of public operations of the worker.
theorem RequestPipeline.run_advances (hw : w.Lawful) (req : RouteRequest) (x : σ) :
    w.Advances x ((run w req).run x).2 := by
  have hrun : ∀ x s, Session.Run w.env (fun _ op => op.Public) (w.worker x) s →
      w.Advances x (w.setWorker x s) := fun x s h => by
    simpa only [Wiring.Advances, hw.worker_setWorker] using h
  exact Wiring.Advances.of_steps (run_within (fun _ hop => Or.inl hop)
    (fun _ _ _ _ _ candidate _ => Or.inr ⟨candidate, rfl⟩)
    (fun x x' h => Served.public (hw.served x x' h)) hrun x)

-- What happens to a worker: its cache is used, it serves a request, or the others move and
-- at most fetch from it.
inductive Wiring.Step (w : Wiring σ π) : σ → σ → Prop
  | use {x : σ} {op : SessionOp} (hop : op.Public) :
      Step w x (w.setWorker x ((w.worker x).step w.env op))
  | request (req : RouteRequest) {x : σ} : Step w x ((RequestPipeline.run w req).run x).2
  | others {x x' : σ} (h : Served w.env (w.worker x) (w.worker x')) : Step w x x'

abbrev Wiring.Runs (w : Wiring σ π) : σ → σ → Prop := Relation.ReflTransGen w.Step

theorem Wiring.Step.advances (hw : w.Lawful) {x x' : σ} (h : w.Step x x') : w.Advances x x' := by
  cases h with
  | @use _ op hop =>
      simp only [Wiring.Advances, hw.worker_setWorker]
      exact Steps.snoc (Steps.refl _) op hop
  | request req => exact RequestPipeline.run_advances hw req x
  | others h => exact Served.public h

theorem Wiring.Runs.advances (hw : w.Lawful) {x x' : σ} (h : w.Runs x x') : w.Advances x x' :=
  Wiring.Advances.of_steps (Relation.ReflTransGen.mono (fun _ _ h => h.advances hw) _ _ h)

end Advance

end KVCache.Pipeline
