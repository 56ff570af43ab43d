import KVCache.Cluster.Cluster
import KVCache.Session.Incarnations

namespace KVCache.Cluster

open Lib Coordinator Pipeline Policy Sim

variable {π ρ : Type} {E : ClusterEnv π ρ} {c c' : Cluster π ρ} {ok : SessionOp → Prop}

@[simp] theorem setWorker_self (c : Cluster π ρ) (node : NodeId) (s : Session π) :
    (c.setWorker node s).workers node = s := Function.update_self ..

theorem setWorker_ne (c : Cluster π ρ) {node m : NodeId} (s : Session π) (h : m ≠ node) :
    (c.setWorker node s).workers m = c.workers m := Function.update_of_ne h ..

-- Every worker goes its own way, by operations with `ok`.
def Moves (E : ClusterEnv π ρ) (ok : SessionOp → Prop) (c c' : Cluster π ρ) : Prop :=
  ∀ node, Session.Run (E.env node) (fun _ op => ok op) (c.workers node) (c'.workers node)

namespace Moves

theorem of_eq (h : c'.workers = c.workers) : Moves E ok c c' := fun node => by
  rw [h]
  exact Steps.refl _

theorem trans {c'' : Cluster π ρ} (h : Moves E ok c c') (h' : Moves E ok c' c'') :
    Moves E ok c c'' := fun node => (h node).trans (h' node)

theorem of_steps (h : Relation.ReflTransGen (Moves E ok) c c') : Moves E ok c c' := by
  induction h with
  | refl => exact of_eq rfl
  | tail _ hlast ih => exact ih.trans hlast

theorem setWorker {node : NodeId} {s : Session π}
    (h : Session.Run (E.env node) (fun _ op => ok op) (c.workers node) s) :
    Moves E ok c (c.setWorker node s) := by
  intro m
  by_cases hm : m = node
  · subst hm
    rw [setWorker_self]
    exact h
  · rw [setWorker_ne c s hm]
    exact Steps.refl _

end Moves

-- What a fetch over the transport comes to: nothing, or an answer of the worker.
theorem fetchBlock_run (E : ClusterEnv π ρ) (n node : NodeId) (block : BlockId) (generation : Nat)
    (c : Cluster π ρ) :
    (fetchBlock E n node block generation).run c =
      if c.registered n node = false then (.ok { status := .TransportError }, c)
      else
        ((((LocalCache.serveBlockFetch block generation).run (c.workers node).cache).1).map
            response,
          c.setWorker node
            ((c.workers node).step (E.env node) (.serveBlockFetch block generation))) := by
  simp only [fetchBlock, Exec.read_bind_run]
  split
  · rfl
  · rw [Exec.bind_run, Exec.on_run]
    simp only [Session.serveBlockFetch]
    cases ((LocalCache.serveBlockFetch block generation).run (c.workers node).cache).1 <;> rfl

-- Collaborators look at the caches, and at most drop a reference from the index.
theorem calls_moves (hlooks : ∀ op : SessionOp, op.Looks → ok op) {n : NodeId}
    (h : (wiring E n).toRemote.Calls c c') : Moves E ok c c' := by
  cases h with
  | fetchBlock node block_id generation =>
      simp only [wiring, fetchBlock_run]
      split
      · exact .of_eq rfl
      · exact .setWorker (Steps.snoc (Steps.refl _) (SessionOp.serveBlockFetch _ _)
          (hlooks _ trivial))
  | _ => exact .of_eq rfl

-- What the candidates of a request are known to be.
def Fetches (E : ClusterEnv π ρ) (ok : SessionOp → Prop) : Prop :=
  ∀ (node : NodeId) (req : RouteRequest) (loc : LocalLookupOutcome)
    (remote : RemoteResolutionOutcome) (x x' : Cluster π ρ),
    (RemoteResolutionStage.run (wiring E node).toRemote E.xxh3 req loc).run x = (.ok remote, x') →
      ∀ candidate ∈ remote.fetched_blocks, ok (.admitBlock candidate)

theorem request_moves (hlooks : ∀ op : SessionOp, op.Looks → ok op) (hfetched : Fetches E ok)
    (node : NodeId) (req : RouteRequest) : Moves E ok c (c.step E (.request node req)) :=
  .of_steps (RequestPipeline.run_within hlooks (hfetched node req)
    (fun _ _ h => calls_moves hlooks h) (fun _ _ h => .setWorker h) c)

theorem step_moves (hlooks : ∀ op : SessionOp, op.Looks → ok op) (hfetched : Fetches E ok)
    {op : ClusterOp} (hop : Allowed ok c op) : Moves E ok c (c.step E op) := by
  cases op with
  | use node op => exact .setWorker (Steps.snoc (Steps.refl _) op hop)
  | request node req => exact request_moves hlooks hfetched node req
  | announce hash ref => exact .of_eq rfl
  | nodeLeave node => exact .of_eq rfl
  | registerWorker node other => exact .of_eq rfl

-- In a run of the cluster each worker makes a run of its own.
theorem run_moves (hlooks : ∀ op : SessionOp, op.Looks → ok op) (hfetched : Fetches E ok)
    (h : Run E ok c c') : Moves E ok c c' := by
  induction h with
  | refl => exact .of_eq rfl
  | tail _ hlast ih =>
      obtain ⟨op, hop, rfl⟩ := hlast
      exact ih.trans (step_moves hlooks hfetched hop)

-- Where any operation goes.
theorem run_moves_any (h : Run E (fun _ => True) c c') : Moves E (fun _ => True) c c' :=
  run_moves (fun _ _ => trivial) (fun _ _ _ _ _ _ _ _ _ => trivial) h

theorem run_moves_public (h : Run E SessionOp.Public c c') : Moves E SessionOp.Public c c' :=
  run_moves (fun _ h => .inl h) (fun _ _ _ _ _ _ _ candidate _ => .inr ⟨candidate, rfl⟩) h

-- Every cache is in step and has no tiers.
def Sound (c : Cluster π ρ) : Prop :=
  ∀ node, (c.workers node).cache.manager.InStep ∧ (c.workers node).cache.tier_manager = none

theorem Fresh.sound (h : c.Fresh) : c.Sound := fun node => by
  obtain ⟨capacity, block_size, clock, policy_state, hworker⟩ := h.workers node
  rw [hworker]
  exact ⟨BlockManager.new_inStep capacity clock, rfl⟩

theorem Moves.sound (h : Moves E ok c c') (hc : c.Sound) : c'.Sound := fun node => by
  obtain ⟨hs, hnone⟩ := hc node
  exact ⟨(Session.run_inStep (h node) hs).1, Session.run_untiered hs hnone (h node)⟩

-- Nothing is forgotten of what was admitted.
theorem Moves.truthful (h : Moves E ok c c') (hc : c.Sound) {hash : ContentHash}
    {ref : GlobalBlockRef} (ht : c.Truthful hash ref) : c'.Truthful hash ref := by
  obtain ⟨a, ha, hsame⟩ := ht
  exact ⟨a, Session.run_admissions (hc ref.node_id).1 (h ref.node_id) ha, hsame⟩

end KVCache.Cluster
