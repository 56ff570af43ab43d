import KVCache.Core.BlockPool
import KVCache.Lib.FreeList
import KVCache.Lib.Steps
import Mathlib.Data.List.Nodup

namespace KVCache

open Lib

inductive PoolOp where
  | allocate
  | free (id : BlockId)

-- A pool with all that it has handed out, the earliest first, and with the frees that it
-- has carried out.
structure PoolHistory where
  pool : BlockPool
  allocated : List (BlockId × Nat) := []
  freed : List BlockId := []

namespace PoolHistory

def step (h : PoolHistory) : PoolOp → PoolHistory
  | .allocate =>
      { h with pool := h.pool.allocate.2, allocated := h.allocated ++ h.pool.allocate.1.toList }
  | .free id =>
      match h.pool.free id with
      | .ok pool => { h with pool := pool, freed := id :: h.freed }
      | .error _ => h

abbrev Run (capacity : Nat) (h : PoolHistory) : Prop :=
  Steps step (fun _ _ => True) { pool := .new capacity } h

-- The generations that a slot was handed out with.
def generations (h : PoolHistory) (id : BlockId) : List Nat :=
  (h.allocated.filter fun a => a.1 = id).map (·.2)

def inUse (h : PoolHistory) (id : BlockId) : Bool := h.pool.in_use.getD id false

def FewFrees (h : PoolHistory) : Prop := ∀ id, h.freed.count id < 2 ^ 64 - 1

-- What the pool keeps of a slot that was handed out `n` times. A slot that waits for its
-- next use has the generation of that use already, unless it was never used.
def SlotGeneration (h : PoolHistory) (id : BlockId) (n : Nat) : Prop :=
  if h.inUse id then h.freed.count id + 1 = n ∧ h.pool.generations.getD id 0 = n
  else h.freed.count id = n ∧ h.pool.generations.getD id 0 = if n = 0 then 0 else n + 1

structure Inv (capacity : Nat) (h : PoolHistory) : Prop where
  capacity_eq : h.pool.capacity = capacity
  generations_length : h.pool.generations.length = capacity
  in_use_length : h.pool.in_use.length = capacity
  dealt : DealtOut capacity h.pool.free_list fun id => if h.inUse id then some id else none
  slot : ∀ id, ∃ n, h.generations id = List.range' 1 n ∧ h.SlotGeneration id n

variable {capacity : Nat} {h : PoolHistory} {id : BlockId}

private theorem getD_set {α : Type} (l : List α) {i : Nat} (hi : i < l.length) (x d : α) (j : Nat) :
    (l.set i x).getD j d = if j = i then x else l.getD j d := by
  simp only [List.getD_eq_getElem?_getD, List.getElem?_set]
  by_cases hj : j = i
  · subst hj
    simp [hi]
  · simp [hj, Ne.symm hj]

theorem new_inv (capacity : Nat) : Inv capacity { pool := .new capacity } := by
  have hidle : ∀ id, (PoolHistory.mk (.new capacity) [] []).inUse id = false := by
    intro id
    simp only [inUse, BlockPool.new, List.getD_eq_getElem?_getD, List.getElem?_replicate]
    split <;> rfl
  refine ⟨rfl, List.length_replicate, List.length_replicate, ?_, fun id => ⟨0, rfl, ?_⟩⟩
  · exact (DealtOut.range capacity).congr fun id => by rw [hidle]; rfl
  · rw [SlotGeneration, hidle]
    refine ⟨rfl, ?_⟩
    simp only [BlockPool.new, List.getD_eq_getElem?_getD, List.getElem?_replicate]
    split <;> rfl

-- A slot is free exactly when it is there and not in use.
theorem Inv.mem_free (hi : h.Inv capacity) :
    id ∈ h.pool.free_list ↔ id < capacity ∧ h.inUse id = false := by
  constructor
  · intro hmem
    refine ⟨hi.dealt.free_lt hmem, ?_⟩
    by_contra huse
    exact hi.dealt.not_free (if_pos (by simpa using huse)) hmem
  · rintro ⟨hlt, huse⟩
    rcases hi.dealt.cover hlt with hmem | ⟨k, hk⟩
    · exact hmem
    · split at hk
      · rename_i hk'
        cases hk
        rw [huse] at hk'
        cases hk'
      · cases hk

-- From `h` to `h'` one slot changes its flag and its generation.
structure Changes (h h' : PoolHistory) (id : BlockId) (used : Bool) (generation : Nat) : Prop where
  capacity : h'.pool.capacity = h.pool.capacity
  in_use : h'.pool.in_use = h.pool.in_use.set id used
  pool_generations : h'.pool.generations = h.pool.generations.set id generation
  generations : ∀ j, j ≠ id → h'.generations j = h.generations j
  freed : ∀ j, j ≠ id → h'.freed.count j = h.freed.count j

theorem Changes.inUse {h' : PoolHistory} {used : Bool} {generation : Nat} (hi : h.Inv capacity)
    (hlt : id < capacity) (hc : Changes h h' id used generation) (j : BlockId) :
    h'.inUse j = if j = id then used else h.inUse j := by
  rw [PoolHistory.inUse, hc.in_use, getD_set _ (by rw [hi.in_use_length]; exact hlt)]
  rfl

-- The invariant is left to show for that slot.
theorem Inv.changed {h' : PoolHistory} {used : Bool} {generation : Nat} (hi : h.Inv capacity)
    (hlt : id < capacity) (hc : Changes h h' id used generation)
    (hdealt : DealtOut capacity h'.pool.free_list (Function.update
      (fun j => if h.inUse j then some j else none) id (if used then some id else none)))
    (hslot : ∃ n, h'.generations id = List.range' 1 n ∧
      if used then h'.freed.count id + 1 = n ∧ generation = n
      else h'.freed.count id = n ∧ generation = if n = 0 then 0 else n + 1) :
    h'.Inv capacity := by
  have huse := hc.inUse hi hlt
  have hgeneration : ∀ j, h'.pool.generations.getD j 0 =
      if j = id then generation else h.pool.generations.getD j 0 := by
    intro j
    rw [hc.pool_generations, getD_set _ (by rw [hi.generations_length]; exact hlt)]
  refine ⟨hc.capacity.trans hi.capacity_eq, ?_, ?_, hdealt.congr fun j => ?_, fun j => ?_⟩
  · rw [hc.pool_generations, List.length_set, hi.generations_length]
  · rw [hc.in_use, List.length_set, hi.in_use_length]
  · rw [huse]
    by_cases hj : j = id
    · simp [hj]
    · simp [hj]
  · by_cases hj : j = id
    · subst hj
      obtain ⟨n, hgens, hn⟩ := hslot
      refine ⟨n, hgens, ?_⟩
      rw [SlotGeneration, huse, if_pos rfl, hgeneration, if_pos rfl]
      exact hn
    · obtain ⟨n, hgens, hn⟩ := hi.slot j
      refine ⟨n, (hc.generations j hj).trans hgens, ?_⟩
      rw [SlotGeneration, huse, if_neg hj, hgeneration, if_neg hj, hc.freed j hj]
      exact hn

theorem allocate_inv (hi : h.Inv capacity) : (h.step .allocate).Inv capacity := by
  cases hfree : h.pool.free_list with
  | nil =>
      have hsame : h.step .allocate = h := by
        simp [step, BlockPool.allocate, hfree]
      rw [hsame]
      exact hi
  | cons id rest =>
      obtain ⟨hlt, hidle⟩ := hi.mem_free.mp (by rw [hfree]; exact List.mem_cons_self : id ∈ _)
      obtain ⟨n, hgens, hslot⟩ := hi.slot id
      rw [SlotGeneration, if_neg (by simp [hidle])] at hslot
      obtain ⟨hcount, hgen⟩ := hslot
      -- the generation that goes out
      have hnext : (if h.pool.generations.getD id 0 = 0 then 1
          else h.pool.generations.getD id 0) = n + 1 := by
        rw [hgen]
        by_cases hn : n = 0
        · simp [hn]
        · simp [hn]
      have hstep : h.step .allocate = { h with
          pool := { h.pool with
            free_list := rest
            generations := h.pool.generations.set id (n + 1)
            in_use := h.pool.in_use.set id true }
          allocated := h.allocated ++ [(id, n + 1)] } := by
        simp only [step, BlockPool.allocate, hfree, hnext, Option.toList_some]
      rw [hstep]
      refine hi.changed hlt ⟨rfl, rfl, rfl, fun j hj => ?_, fun _ _ => rfl⟩ ?_ ⟨n + 1, ?_, ?_⟩
      · simp [generations, Ne.symm hj]
      · have hdealt := hi.dealt
        rw [hfree] at hdealt
        exact hdealt.take (by simp [hidle])
      · rw [List.range'_concat, ← hgens]
        simp [generations, Nat.add_comm]
      · exact ⟨by rw [hcount], rfl⟩

theorem free_inv (hi : h.Inv capacity) (id : BlockId) (hfew : (h.step (.free id)).FewFrees) :
    (h.step (.free id)).Inv capacity := by
  by_cases hbad : h.pool.capacity ≤ id ∨ h.pool.in_use.getD id false = false
  · have hsame : h.step (.free id) = h := by
      simp only [step, BlockPool.free, if_pos hbad]
    rw [hsame]
    exact hi
  · have hlt : id < capacity := by
      rw [← hi.capacity_eq]
      exact Nat.not_le.mp fun hle => hbad (.inl hle)
    have hused : h.inUse id = true := by
      rw [← Bool.not_eq_false]
      exact fun hidle => hbad (.inr hidle)
    obtain ⟨n, hgens, hslot⟩ := hi.slot id
    rw [SlotGeneration, if_pos hused] at hslot
    obtain ⟨hcount, hgen⟩ := hslot
    have hfree := BlockPool.free_eq (hi.capacity_eq ▸ hlt) hused
    rw [hgen] at hfree
    have hsmall : n < 2 ^ 64 - 1 := by
      have hone := hfew id
      simp only [step, hfree, List.count_cons_self, hcount] at hone
      exact hone
    rw [Nat.mod_eq_of_lt (by omega)] at hfree
    have hstep : h.step (.free id) = { h with
        pool := { h.pool with
          in_use := h.pool.in_use.set id false
          generations := h.pool.generations.set id (n + 1)
          free_list := id :: h.pool.free_list }
        freed := id :: h.freed } := by
      simp only [step, hfree]
    rw [hstep]
    refine hi.changed hlt ⟨rfl, rfl, rfl, fun _ _ => rfl, fun j hj => ?_⟩
      (hi.dealt.give (if_pos hused)) ⟨n, hgens, ?_⟩
    · exact List.count_cons_of_ne (Ne.symm hj)
    · rw [if_neg Bool.false_ne_true, if_neg (by omega : n ≠ 0)]
      exact ⟨by rw [List.count_cons_self, hcount], rfl⟩

-- No free is taken back.
theorem step_freed (h : PoolHistory) (op : PoolOp) (id : BlockId) :
    h.freed.count id ≤ (h.step op).freed.count id := by
  cases op with
  | allocate => exact le_refl _
  | free id' =>
      simp only [step]
      cases h.pool.free id' with
      | error e => exact le_refl _
      | ok pool => exact List.count_le_count_cons

theorem run_inv (hrun : Run capacity h) (hfew : h.FewFrees) : h.Inv capacity := by
  have hinv := Steps.invariant (I := fun h : PoolHistory => h.FewFrees → h.Inv capacity) ?_ hrun
    fun _ => new_inv capacity
  · exact hinv hfew
  · intro h op hi _ hfew'
    have hi' := hi fun id => lt_of_le_of_lt (step_freed h op id) (hfew' id)
    cases op with
    | allocate => exact allocate_inv hi'
    | free id => exact free_inv hi' id hfew'

-- The slots in use and the free ones make up the pool.
theorem Inv.available_add (hi : h.Inv capacity) :
    h.pool.available + ((Finset.range capacity).filter fun id => h.inUse id).card = capacity := by
  refine hi.dealt.length_add_card fun id => ?_
  rw [Finset.mem_filter, Finset.mem_range]
  constructor
  · rintro ⟨-, huse⟩
    rw [if_pos huse]
    rfl
  · intro hsome
    split at hsome
    · rename_i huse
      exact ⟨hi.dealt.cell_lt (if_pos huse), huse⟩
    · cases hsome

-- Two allocations of a slot get two generations.
theorem Inv.allocated_nodup (hi : h.Inv capacity) : h.allocated.Nodup := by
  rw [List.nodup_iff_count_le_one]
  rintro ⟨id, generation⟩
  obtain ⟨n, hgens, -⟩ := hi.slot id
  have hcount : h.allocated.count (id, generation) = (h.generations id).count generation := by
    rw [List.count, List.count, generations, List.countP_map, List.countP_filter]
    refine List.countP_congr fun a _ => ?_
    simp [Prod.ext_iff, and_comm]
  rw [hcount, hgens]
  exact List.nodup_iff_count_le_one.mp (List.nodup_range' ..) generation

-- A pool deals out its slots and no slot twice with the same generation: the generations
-- of a slot are 1, 2, 3 and so on, whatever is freed in between, as long as none wraps.
theorem allocations_unique (hrun : Run capacity h) (hfew : h.FewFrees) :
    h.pool.free_list.Nodup ∧
    (∀ id, id ∈ h.pool.free_list ↔ id < capacity ∧ h.inUse id = false) ∧
    h.pool.available + ((Finset.range capacity).filter fun id => h.inUse id).card = capacity ∧
    (∀ id, (∃ e, h.pool.free id = .error e) ↔ capacity ≤ id ∨ h.inUse id = false) ∧
    (∀ id e, h.pool.free id = .error e → h.step (.free id) = h) ∧
    h.allocated.Nodup ∧
    ∀ id, ∃ n, h.generations id = List.range' 1 n ∧
      n = h.freed.count id + if h.inUse id then 1 else 0 := by
  have hi := run_inv hrun hfew
  refine ⟨hi.dealt.free_nodup, fun id => hi.mem_free, hi.available_add, fun id => ?_,
    fun id e he => ?_, hi.allocated_nodup, fun id => ?_⟩
  · rw [← hi.capacity_eq]
    exact BlockPool.free_error_iff
  · simp only [step, he]
  · obtain ⟨n, hgens, hslot⟩ := hi.slot id
    refine ⟨n, hgens, ?_⟩
    unfold SlotGeneration at hslot
    split at hslot
    · rw [if_pos ‹_›, hslot.1]
    · rw [if_neg ‹_›, Nat.add_zero, hslot.1]

-- One slot, handed out, given back twice and handed out again.
private abbrev reused : PoolHistory :=
  [.allocate, .free 0, .free 0, .allocate].foldl step { pool := .new 1 }

theorem allocations_unique_reused :
    reused.allocated = [(0, 1), (0, 2)] ∧ reused.allocated.Nodup := by
  have hstart : Run 1 { pool := .new 1 } := Steps.refl _
  have hrun : Run 1 reused :=
    (((hstart.snoc .allocate trivial).snoc (.free 0) trivial).snoc (.free 0) trivial).snoc
      .allocate trivial
  have hfew : reused.FewFrees := fun id =>
    lt_of_le_of_lt (List.count_le_length (a := id)) (by decide)
  exact ⟨by decide, (allocations_unique hrun hfew).2.2.2.2.2.1⟩

end PoolHistory

end KVCache
