import KVCache.Pipeline.PipelineCases

namespace KVCache.Pipeline

open Lib

variable {π σ : Type}

-- The same worker among the same collaborators, with a record of what they are asked.
def Wiring.recorded (w : Wiring σ π) : Wiring (σ × List RemoteCall) π where
  toRemote := w.toRemote.recorded
  worker x := w.worker x.1
  setWorker x s := (w.setWorker x.1 s, x.2)
  env := w.env

-- A record that is kept of the calls changes nothing else.
section Over

variable {α : Type}

theorem logged_over (x : Exec Fault σ α) (call : α → List RemoteCall) :
    Exec.Over Prod.fst (logged x call) x := by
  intro t
  rcases hx : x.run t.1 with ⟨_ | a, s⟩ <;> simp [logged, hx]

private theorem check_over (f : Except Fault α) :
    Exec.Over (Prod.fst : σ × List RemoteCall → σ) (Exec.check fun _ => f)
      (Exec.check fun _ => f) :=
  fun _ => ⟨rfl, rfl⟩

theorem RemoteBlockFetcher.fetch_over (w : Remote σ) (ref : GlobalBlockRef) (hash : ContentHash) :
    Exec.Over Prod.fst (fetch w.recorded ref hash) (fetch w ref hash) := by
  refine Exec.Over.bind (logged_over _ _) fun _ => Exec.Over.bind (logged_over _ _) fun resp => ?_
  cases resp.status with
  | NotFound | StaleGeneration | TransportError =>
      exact Exec.Over.bind (logged_over _ _) fun _ => Exec.Over.pure _
  | Ok =>
      simp only
      split
      · exact Exec.Over.bind (logged_over _ _) fun _ => Exec.Over.pure _
      · exact Exec.Over.bind (logged_over _ _) fun _ =>
          Exec.Over.bind (logged_over _ _) fun _ => Exec.Over.pure _

theorem RemoteResolutionStage.resolve_over (w : Remote σ) (req : RouteRequest)
    (mbs : List MissingBlockInfo) (out : RemoteResolutionOutcome) :
    Exec.Over Prod.fst (resolve w.recorded req mbs out) (resolve w req mbs out) := by
  induction mbs generalizing out with
  | nil => exact Exec.Over.pure _
  | cons mb rest ih =>
      refine Exec.Over.bind (logged_over _ _) fun q => ?_
      split
      · exact Exec.Over.pure _
      · refine Exec.Over.bind (logged_over _ _) fun chosen => ?_
        cases chosen with
        | none => exact Exec.Over.pure _
        | some ref =>
            refine Exec.Over.bind (RemoteBlockFetcher.fetch_over w ref mb.hash) fun f => ?_
            cases f.status with
            | StaleGeneration =>
                exact Exec.Over.bind (logged_over _ _) fun _ =>
                  Exec.Over.bind (logged_over _ _) fun _ => Exec.Over.pure _
            | Ok => exact Exec.Over.bind (check_over _) fun candidate => ih _
            | NotFound | HashMismatch | TransportError => exact Exec.Over.pure _

theorem RemoteResolutionStage.run_over (w : Remote σ) (X : XXH3) (req : RouteRequest)
    (loc : LocalLookupOutcome) :
    Exec.Over Prod.fst (run w.recorded X req loc) (run w X req loc) :=
  Exec.Over.bind (check_over _) fun missing => resolve_over w req missing {}

theorem RequestPipeline.run_over (w : Wiring σ π) (req : RouteRequest) :
    Exec.Over Prod.fst (run w.recorded req) (run w req) := by
  have hon : ∀ {β : Type} (y : Exec Fault (Session π) β),
      Exec.Over Prod.fst (w.recorded.onWorker y) (w.onWorker y) := fun _ _ => ⟨rfl, rfl⟩
  have hstages : Exec.Over Prod.fst (stages w.recorded req) (stages w req) :=
    Exec.Over.bind (hon _) fun loc =>
      Exec.Over.bind (RemoteResolutionStage.run_over w.toRemote w.env.xxh3 req loc) fun remote =>
        Exec.Over.bind (hon _) fun admission => Exec.Over.pure _
  intro t
  obtain ⟨hres, hpart⟩ := hstages t
  rcases hy : (stages w.recorded req).run t with ⟨_ | a, t'⟩ <;>
    rcases hx : (stages w req).run t.1 with ⟨_ | b, s'⟩ <;>
    rw [hy, hx] at hres hpart <;> simp only [run, Exec.onThrow, hy, hx]
  · obtain rfl : t'.1 = s' := hpart
    exact ⟨hres, rfl⟩
  · cases hres
  · cases hres
  · exact ⟨hres, hpart⟩

end Over

end KVCache.Pipeline
