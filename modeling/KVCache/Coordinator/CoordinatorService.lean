import KVCache.Coordinator.GlobalIndex
import KVCache.Lib.Standing

namespace KVCache.Coordinator

open Lib

structure WorkerInfo where
  node_id : NodeId
  address : String
deriving DecidableEq, Repr

structure WorkerDirectory where
  workers : UnorderedMap NodeId WorkerInfo := ∅

namespace WorkerDirectory

def nodeJoin (dir : WorkerDirectory) (info : WorkerInfo) : WorkerDirectory where
  workers := dir.workers.insert info.node_id info

def nodeLeave (dir : WorkerDirectory) (node : NodeId) : WorkerDirectory where
  workers := dir.workers.erase node

end WorkerDirectory

namespace StaleReferenceCleaner

def reportStaleFetch (index : GlobalIndex) (node : NodeId) (block_id : BlockId)
    (generation : Nat) : GlobalIndex := index.invalidate node block_id generation

def cleanDeadNode (index : GlobalIndex) (node : NodeId) : GlobalIndex := index.removeNode node

end StaleReferenceCleaner

-- The cleaner works on the index of the service.
structure CoordinatorService where
  index : GlobalIndex := {}
  dir : WorkerDirectory := {}

inductive CoordinatorOp where
  | announce (hash : ContentHash) (ref : GlobalBlockRef)
  | invalidate (node : NodeId) (block_id : BlockId) (generation : Nat)
  | nodeJoin (info : WorkerInfo)
  | nodeLeave (node : NodeId)

namespace CoordinatorService

def query (s : CoordinatorService) (hash : ContentHash) : List GlobalBlockRef := s.index.query hash

def step (s : CoordinatorService) : CoordinatorOp → CoordinatorService
  | .announce hash ref => { s with index := s.index.announce hash ref }
  | .invalidate node block_id generation =>
      { s with index := StaleReferenceCleaner.reportStaleFetch s.index node block_id generation }
  | .nodeJoin info => { s with dir := s.dir.nodeJoin info }
  | .nodeLeave node =>
      { index := StaleReferenceCleaner.cleanDeadNode s.index node
        dir := s.dir.nodeLeave node }

-- The service after a history of calls.
abbrev after (H : List CoordinatorOp) : CoordinatorService := replay step {} H

end CoordinatorService

namespace CoordinatorOp

def Removes (ref : GlobalBlockRef) : CoordinatorOp → Prop
  | invalidate node block_id generation => ref = ⟨node, block_id, generation⟩
  | nodeLeave node => ref.node_id = node
  | _ => False

-- What a call means for the list of one hash.
def change (hash : ContentHash) : CoordinatorOp → Change GlobalBlockRef
  | announce hash' ref => if hash' = hash then .enter ref else .strike fun _ => false
  | invalidate node block_id generation => .strike fun r => r = ⟨node, block_id, generation⟩
  | nodeJoin _ => .strike fun _ => false
  | nodeLeave node => .strike fun r => r.node_id = node

end CoordinatorOp

-- Call `i` of the history announces `ref` under `hash`, and no later one removes it.
structure Announced (H : List CoordinatorOp) (hash : ContentHash) (ref : GlobalBlockRef) (i : Nat) :
    Prop where
  announced : H[i]? = some (.announce hash ref)
  kept : ∀ j op, i < j → H[j]? = some op → ¬ op.Removes ref

-- The refs of a hash by the history: those that are announced and not removed since, in
-- the order of their first announcements after their last removals, and each of them once.
structure QueryLaw (H : List CoordinatorOp) (hash : ContentHash) (refs : List GlobalBlockRef) :
    Prop where
  nodup : refs.Nodup
  mem : ∀ ref, ref ∈ refs ↔ ∃ i, Announced H hash ref i
  order : refs.Pairwise fun ref ref' => ∀ i j, IsLeast {i | Announced H hash ref i} i →
    IsLeast {j | Announced H hash ref' j} j → i < j

section

variable {H : List CoordinatorOp} {hash : ContentHash} {ref : GlobalBlockRef} {i : Nat}

theorem announced_iff :
    Announced H hash ref i ↔ Stands (H.map (CoordinatorOp.change hash)) ref i := by
  have henter : ∀ op : CoordinatorOp, op.change hash = .enter ref ↔ op = .announce hash ref := by
    intro op
    cases op with
    | announce hash' ref' =>
        simp only [CoordinatorOp.change]
        split
        · rename_i h
          simp [h]
        · rename_i h
          simp [h]
    | _ => simp [CoordinatorOp.change]
  have hstrike : ∀ op : CoordinatorOp, op.Removes ref ↔
      ∃ gone, op.change hash = .strike gone ∧ gone ref = true := by
    intro op
    cases op with
    | announce hash' ref' =>
        simp only [CoordinatorOp.change, CoordinatorOp.Removes]
        split <;> simp
    | _ => simp [CoordinatorOp.change, CoordinatorOp.Removes]
  constructor
  · rintro ⟨hann, hkept⟩
    refine ⟨by rw [List.getElem?_map, hann, Option.map_some, (henter _).mpr rfl],
      fun j gone hij hj => ?_⟩
    rw [List.getElem?_map, Option.map_eq_some_iff] at hj
    obtain ⟨op, hop, hchange⟩ := hj
    by_contra hgone
    exact hkept j op hij hop ((hstrike op).mpr ⟨gone, hchange, by simpa using hgone⟩)
  · rintro ⟨hentered, hkept⟩
    rw [List.getElem?_map, Option.map_eq_some_iff] at hentered
    obtain ⟨op, hop, hchange⟩ := hentered
    refine ⟨by rw [hop, (henter op).mp hchange], fun j op' hij hj hrem => ?_⟩
    obtain ⟨gone, hgone, htrue⟩ := (hstrike op').mp hrem
    have hfalse := hkept j gone hij (by rw [List.getElem?_map, hj, Option.map_some, hgone])
    rw [htrue] at hfalse
    cases hfalse

theorem queryLaw_iff {refs : List GlobalBlockRef} :
    QueryLaw H hash refs ↔ Registers (H.map (CoordinatorOp.change hash)) refs := by
  have hsets : ∀ ref, {i | Announced H hash ref i} =
      {i | Stands (H.map (CoordinatorOp.change hash)) ref i} :=
    fun ref => Set.ext fun i => announced_iff
  constructor
  · rintro ⟨hnodup, hmem, horder⟩
    refine ⟨hnodup, fun ref => (hmem ref).trans (exists_congr fun i => announced_iff), ?_⟩
    simpa only [hsets, Since] using horder
  · rintro ⟨hnodup, hmem, horder⟩
    refine ⟨hnodup, fun ref => (hmem ref).trans (exists_congr fun i => announced_iff.symm), ?_⟩
    simpa only [hsets, Since] using horder

namespace CoordinatorService

-- Each list goes its own way.
theorem query_step (s : CoordinatorService) (op : CoordinatorOp) (hash : ContentHash) :
    (s.step op).query hash = (op.change hash).apply (s.query hash) := by
  cases op with
  | announce hash' ref =>
      simp only [step, query, GlobalIndex.query_announce, CoordinatorOp.change]
      by_cases h : hash' = hash
      · subst h
        by_cases hmem : ref ∈ s.index.query hash' <;> simp [Change.apply, hmem]
      · simp [Change.apply, h, Ne.symm h]
  | invalidate node block_id generation =>
      simp [step, query, StaleReferenceCleaner.reportStaleFetch, GlobalIndex.invalidate,
        CoordinatorOp.change, Change.apply]
  | nodeJoin info => simp [step, query, CoordinatorOp.change, Change.apply]
  | nodeLeave node =>
      simp [step, query, StaleReferenceCleaner.cleanDeadNode, GlobalIndex.removeNode,
        CoordinatorOp.change, Change.apply]

theorem query_after (H : List CoordinatorOp) (hash : ContentHash) :
    (after H).query hash = replay Change.apply [] (H.map (CoordinatorOp.change hash)) := by
  induction H using List.reverseRecOn with
  | nil => rfl
  | append_singleton H op ih =>
      rw [List.map_append, List.map_singleton, replay_snoc, ← ih, ← query_step, after, replay_snoc]

end CoordinatorService

-- The entries are those of the hashes that have any.
theorem GlobalIndex.entryCount_eq (g : GlobalIndex) : ∃ hashes : Finset ContentHash,
    (∀ hash, hash ∉ hashes → g.query hash = []) ∧
      g.entryCount = ∑ hash ∈ hashes, (g.query hash).length := by
  refine ⟨g.index.keys.toFinset, fun hash hnot => ?_, ?_⟩
  · rw [List.mem_toFinset, ← AList.mem_keys, ← AList.lookup_eq_none] at hnot
    rw [query, hnot]
    rfl
  · rw [entryCount, sum_entries]
    refine Finset.sum_congr rfl fun hash _ => ?_
    rw [query]
    cases g.index.lookup hash <;> rfl

-- After any history of calls, the answers are those of the law; a removal goes through
-- all hashes and leaves the other refs in their order; and the count is that of the
-- lists.
theorem query_history (H : List CoordinatorOp) :
    (∀ hash refs, (CoordinatorService.after H).query hash = refs ↔ QueryLaw H hash refs) ∧
    (∀ node block_id generation hash,
      ((CoordinatorService.after H).step (.invalidate node block_id generation)).query hash =
        ((CoordinatorService.after H).query hash).filter fun r =>
          r ≠ ⟨node, block_id, generation⟩) ∧
    (∀ node hash, ((CoordinatorService.after H).step (.nodeLeave node)).query hash =
      ((CoordinatorService.after H).query hash).filter fun r => r.node_id ≠ node) ∧
    ∃ hashes : Finset ContentHash,
      (∀ hash, hash ∉ hashes → (CoordinatorService.after H).query hash = []) ∧
        (CoordinatorService.after H).index.entryCount =
          ∑ hash ∈ hashes, ((CoordinatorService.after H).query hash).length := by
  refine ⟨fun hash refs => ?_, fun node block_id generation hash => ?_, fun node hash => ?_,
    GlobalIndex.entryCount_eq _⟩
  · have hregisters := Registers.of_replay (H.map (CoordinatorOp.change hash))
    rw [← CoordinatorService.query_after] at hregisters
    rw [queryLaw_iff]
    exact ⟨fun h => h ▸ hregisters, fun h => hregisters.unique h⟩
  · rw [CoordinatorService.query_step]
    simp [CoordinatorOp.change, Change.apply]
  · rw [CoordinatorService.query_step]
    simp [CoordinatorOp.change, Change.apply]

-- A ref that comes back goes to the end.
example : (CoordinatorService.after [.announce ⟨1, 0⟩ ⟨1, 0, 1⟩, .announce ⟨1, 0⟩ ⟨2, 0, 1⟩,
    .invalidate 1 0 1, .announce ⟨1, 0⟩ ⟨1, 0, 1⟩]).query ⟨1, 0⟩ = [⟨2, 0, 1⟩, ⟨1, 0, 1⟩] := by
  decide

end

end KVCache.Coordinator
