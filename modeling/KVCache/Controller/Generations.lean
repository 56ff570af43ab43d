import KVCache.Controller.AdmissionCases
import KVCache.Core.LocalCache

namespace KVCache.Controller

open Lib Policy Prefix Sim Tier

variable {π : Type} {env : Env π} {ok : Multiset Nat → Prop} {s s' : Stack π}

namespace Stack

-- How often the slot `id` went back to the pool: without tiers, only an eviction frees one.
def frees (s : Stack π) (id : BlockId) : Nat := s.events.countP (Event.evicts id)

-- No generation counter has run over.
def FewFrees (s : Stack π) : Prop := ∀ id, s.frees id < 2 ^ 64 - 1

-- Without tiers the generations tell how often a slot was freed: a block that is there
-- has the number of its incarnation, and a free slot still shows that of its last block.
structure Generations (s : Stack π) : Prop where
  untiered : s.tier_manager = none
  record : ∀ {id r}, s.manager.store.records[id]? = some r →
    (r.state = .Ready ∧ r.generation = s.frees id + 1) ∨
      (r.state = .Free ∧ r.generation = s.frees id)
  pool : ∀ {id r}, s.manager.store.records[id]? = some r →
    BlockManager.nextGeneration s.manager.pool id = s.frees id + 1

theorem frees_append (events : List Event) (e : Event) (id : BlockId)
    (h : s'.events = events ++ [e]) :
    s'.frees id = events.countP (Event.evicts id) + if e.evicts id then 1 else 0 := by
  rw [frees, h, List.countP_append, List.countP_singleton]

-- Changes that neither the blocks nor the log see.
theorem Generations.same (h : s.Generations) (hblocks : s.manager.SameBlocks s'.manager)
    (htm : s'.tier_manager = s.tier_manager) (hevents : s'.events = s.events) :
    s'.Generations := by
  have hfrees : ∀ id, s'.frees id = s.frees id := fun id => by rw [frees, hevents, frees]
  refine ⟨htm.trans h.untiered, fun {id r'} hr' => ?_, fun {id r'} hr' => ?_⟩
  · obtain ⟨r, hr, hbody⟩ := hblocks.symm.record hr'
    obtain ⟨-, hgen, -, -, -, -, -, hstate⟩ := BlockRecord.fields_of_body hbody
    rw [hfrees, ← hgen, ← hstate]
    exact h.record hr
  · obtain ⟨r, hr, -⟩ := hblocks.symm.record hr'
    rw [hfrees, hblocks.pool]
    exact h.pool hr

theorem new_generations (capacity block_size : Nat) (clock : Clock) (policy_state : π) :
    Generations (LocalCache.new capacity block_size clock policy_state) := by
  refine ⟨rfl, fun {id r} hr => ?_, fun {id r} hr => ?_⟩
  · obtain ⟨-, rfl⟩ := BlockManager.new_getElem? hr
    exact .inr ⟨rfl, rfl⟩
  · obtain ⟨hlt, -⟩ := BlockManager.new_getElem? hr
    simp [LocalCache.new, BlockManager.new, BlockPool.new, BlockManager.nextGeneration, frees, hlt]

end Stack

open Stack

theorem Transition.frees_le {x x' : Held π} (h : Transition env ok x x') (id : BlockId) :
    x.stack.frees id ≤ x'.stack.frees id := by
  have hsnoc : ∀ {s s' : Stack π} {e : Event}, s'.events = s.events ++ [e] →
      s.frees id ≤ s'.frees id := fun he => by
    rw [frees_append _ _ id he, frees]
    omega
  cases h with
  | quiet h => rw [frees, frees, h.events]
  | access h => exact Nat.le_refl _
  | evict hr hready href hok hrem => exact hsnoc rfl
  | evictStuck hr hready href hok hstuck => exact Nat.le_refl _
  | leak hfree hmis => exact Nat.le_refl _
  | enter hfree hplace => exact hsnoc rfl
  | migrate htm hr ht hid ht' hcap he => exact hsnoc rfl

-- The generation that a slot gets next, after it went back to the pool.
theorem nextGeneration_freed {m : BlockManager} {id : BlockId}
    (hlt : id < m.pool.generations.length) (j : BlockId) :
    BlockManager.nextGeneration (m.freed id).pool j =
      if j = id then
        if (m.pool.generations.getD id 0 + 1) % 2 ^ 64 = 0 then 1
        else (m.pool.generations.getD id 0 + 1) % 2 ^ 64
      else BlockManager.nextGeneration m.pool j := by
  by_cases hj : j = id
  · subst hj
    simp [BlockManager.nextGeneration, BlockManager.freed, List.getD_eq_getElem?_getD, hlt]
  · simp [BlockManager.nextGeneration, BlockManager.freed, List.getD_eq_getElem?_getD, Ne.symm hj,
      hj]

-- Handing the slot out makes no difference.
theorem nextGeneration_taken {m : BlockManager} {id : BlockId}
    (hlt : id < m.pool.generations.length) (rest : List BlockId) (r : BlockRecord) (j : BlockId) :
    BlockManager.nextGeneration (m.taken id rest r).pool j =
      BlockManager.nextGeneration m.pool j := by
  by_cases hj : j = id
  · subst hj
    simp only [BlockManager.taken, BlockManager.nextGeneration, List.getD_eq_getElem?_getD,
      List.getElem?_set_self hlt, Option.getD_some]
    split <;> rfl
  · simp only [BlockManager.taken, BlockManager.nextGeneration, List.getD_eq_getElem?_getD,
      List.getElem?_set_ne (Ne.symm hj)]

theorem Stack.Generations.evicted (hg : s.Generations) (hs : s.manager.InStep) {id : BlockId}
    {r : BlockRecord} (hr : s.manager.store.records[id]? = some r) (hready : r.state = .Ready)
    {name : String} {ts : Nat} {tm : Option TierManager} (htm : tm = none)
    (hfew : (s.evicted id name ts tm).FewFrees) : (s.evicted id name ts tm).Generations := by
  have hfrees : ∀ j, (s.evicted id name ts tm).frees j =
      s.frees j + if j = id then 1 else 0 := fun j => by
    rw [frees_append _ _ j rfl, frees]
    simp [Event.evicts, eq_comm]
  obtain ⟨-, hgen, -⟩ := hs.identity hr (by simp [hready])
  have hown : r.generation = s.frees id + 1 :=
    (hg.record hr).elim (fun h => h.2) fun h => by rw [hready] at h; cases h.1
  refine ⟨htm, fun {j r'} hr' => ?_, fun {j r'} hr' => ?_⟩
  · rw [hfrees]
    rw [Stack.evicted_getElem?] at hr'
    by_cases hj : j = id
    · subst hj
      rw [if_pos rfl, hr, Option.map_some, Option.some.injEq] at hr'
      subst hr'
      exact .inr ⟨rfl, by rw [if_pos rfl]; exact hown⟩
    · rw [if_neg hj] at hr' ⊢
      exact hg.record hr'
  · rw [hfrees]
    rw [Stack.evicted_getElem?] at hr'
    have hlt : id < s.manager.pool.generations.length := by
      rw [hs.generations_length, ← hs.records_length]
      exact BlockManager.lt_of_getElem? hr
    refine (nextGeneration_freed hlt j).trans ?_
    by_cases hj : j = id
    · -- the counter has not run over
      subst hj
      have hbound := hfew j
      rw [hfrees, if_pos rfl] at hbound
      have hnext : (s.manager.pool.generations.getD j 0 + 1) % 2 ^ 64 = s.frees j + 2 := by
        rw [← hgen, hown]
        exact Nat.mod_eq_of_lt (by omega)
      rw [if_pos rfl, if_pos rfl, hnext, if_neg (Nat.succ_ne_zero _)]
    · rw [if_neg hj] at hr' ⊢
      rw [if_neg hj]
      exact hg.pool hr'

theorem Stack.Generations.admitted (hg : s.Generations) (hs : s.manager.InStep) {id : BlockId}
    {rest : List BlockId} (hfree : s.manager.pool.free_list = id :: rest) {r : BlockRecord}
    (hready : r.state = .Ready)
    (hgen : r.generation = BlockManager.nextGeneration s.manager.pool id)
    {tm : Option TierManager} (htm : tm = none) (ext : Option BlockStore) (index : PrefixIndex)
    {e : Event} (he : ∀ j, e.evicts j = false) :
    (s.admitted id rest r tm ext index e).Generations := by
  have hfrees : ∀ j, (s.admitted id rest r tm ext index e).frees j = s.frees j := fun j => by
    rw [frees_append _ _ j rfl, frees]
    simp [he]
  obtain ⟨r₀, hr₀, -⟩ := hs.next_free hfree
  refine ⟨htm, fun {j r'} hr' => ?_, fun {j r'} hr' => ?_⟩
  · rw [hfrees]
    rw [Stack.admitted_getElem?] at hr'
    by_cases hj : j = id
    · subst hj
      rw [if_pos rfl, hr₀, Option.map_some, Option.some.injEq] at hr'
      subst hr'
      exact .inl ⟨hready, hgen.trans (hg.pool hr₀)⟩
    · rw [if_neg hj] at hr'
      exact hg.record hr'
  · rw [hfrees]
    rw [Stack.admitted_getElem?] at hr'
    have hlt : id < s.manager.pool.generations.length := by
      rw [hs.generations_length, ← hs.records_length]
      exact BlockManager.lt_of_getElem? hr₀
    refine (nextGeneration_taken hlt rest r j).trans ?_
    by_cases hj : j = id
    · subst hj
      exact hg.pool hr₀
    · rw [if_neg hj] at hr'
      exact hg.pool hr'

theorem Transition.generations {x x' : Held π} (h : Transition env ok x x')
    (hs : x.stack.manager.InStep) (hg : x.stack.Generations) (hfew : x'.stack.FewFrees) :
    x'.stack.Generations := by
  have huntiered := h.untiered hg.untiered
  cases h with
  | quiet h => exact hg.same (.of_eq h.pool h.store) h.tier_manager h.events
  | access h => exact hg.same h.sameBlocks rfl rfl
  | evict hr hready href hok hrem => exact hg.evicted hs hr hready huntiered hfew
  | evictStuck hr hready href hok hstuck => exact absurd hg.untiered hstuck.not_untiered
  | leak hfree hmis => exact absurd hg.untiered hmis.not_untiered
  | enter hfree hplace => exact hg.admitted hs hfree rfl rfl huntiered _ _ fun _ => rfl
  | migrate htm hr ht hid ht' hcap he => exact absurd (htm.symm.trans hg.untiered) (by simp)

end KVCache.Controller
