import KVCache.Controller.EvictionCases
import KVCache.Lib.LeastFirst
import KVCache.Prefix.InsertLoop
import KVCache.Prefix.Lookup
import KVCache.Prefix.Remove

namespace KVCache.Controller

open Lib Policy Prefix Sim Tier

variable {π : Type} {env : Env π} {s s' : Stack π} {t : KVCache.Tier}

namespace EvictionController

-- The slots that may be evicted from a tier.
def eligible (s : Stack π) (t : KVCache.Tier) : Finset Nat :=
  (Finset.range s.manager.pool.capacity).filter fun id =>
    let record := s.manager.store.records.getD id {}
    record.state = .Ready ∧ record.refcount = 0 ∧ record.tier = t

def lastAccess (s : Stack π) (id : BlockId) : Nat :=
  (s.manager.store.records.getD id {}).last_access_ns

-- The order of LRU: by the last access, and then by the slot.
def Older (s : Stack π) (a b : BlockId) : Prop :=
  lastAccess s a < lastAccess s b ∨ (lastAccess s a = lastAccess s b ∧ a < b)

instance (s : Stack π) : DecidableRel (Older s) :=
  fun _ _ => inferInstanceAs (Decidable (_ ∨ _ ∧ _))

theorem mem_eligible (hs : s.manager.InStep) {id : Nat} :
    id ∈ eligible s t ↔ ∃ r, s.manager.store.records[id]? = some r ∧ r.state = .Ready ∧
      r.refcount = 0 ∧ r.tier = t := by
  simp only [eligible, Finset.mem_filter, Finset.mem_range, ← hs.records_length]
  constructor
  · rintro ⟨hlt, h⟩
    have hr := List.getElem?_eq_getElem hlt
    exact ⟨_, hr, by simpa [List.getD_eq_getElem?_getD, hr] using h⟩
  · rintro ⟨r, hr, h⟩
    exact ⟨BlockManager.lt_of_getElem? hr, by simpa [List.getD_eq_getElem?_getD, hr] using h⟩

-- The candidates are the eligible slots in ascending order.
theorem candidates_toFinset (hs : s.manager.InStep) : (candidates s t).toFinset = eligible s t := by
  ext id
  rw [List.mem_toFinset, mem_candidates hs, mem_eligible hs]

theorem findCandidates_sorted (hs : s.manager.InStep) :
    (findCandidates s.manager.store).Pairwise (· < ·) := by
  -- a record that is in use has the number of its slot
  have hids : ∀ (records : List BlockRecord) (k : Nat),
      (∀ (i : Nat) (r : BlockRecord), records[i]? = some r → r.state ≠ .Free → r.id = k + i) →
      ((records.filter fun r => r.state = .Ready ∧ r.refcount = 0).map (·.id)).Pairwise (· < ·) ∧
        ∀ id ∈ (records.filter fun r => r.state = .Ready ∧ r.refcount = 0).map (·.id), k ≤ id := by
    intro records
    induction records with
    | nil => exact fun k _ => ⟨List.Pairwise.nil, fun id h => absurd h List.not_mem_nil⟩
    | cons r rs ih =>
        intro k hid
        obtain ⟨hsorted, hle⟩ := ih (k + 1) fun i r' hr' hne =>
          (hid (i + 1) r' (by simpa using hr') hne).trans (by rw [Nat.add_assoc, Nat.add_comm 1])
        by_cases hr : r.state = .Ready ∧ r.refcount = 0
        · have hrid : r.id = k := hid 0 r rfl (by simp [hr.1])
          rw [List.filter_cons_of_pos (by simpa using hr), List.map_cons, hrid]
          refine ⟨List.pairwise_cons.mpr ⟨hle, hsorted⟩, fun id h => ?_⟩
          rcases List.mem_cons.mp h with rfl | h
          · exact le_refl _
          · exact Nat.le_of_succ_le (hle id h)
        · rw [List.filter_cons_of_neg (by simpa using hr)]
          exact ⟨hsorted, fun id h => Nat.le_of_succ_le (hle id h)⟩
  refine (hids s.manager.store.records 0 fun i r hr hne => ?_).1
  rw [Nat.zero_add]
  exact (hs.identity hr hne).1

theorem candidates_sorted (hs : s.manager.InStep) (t : KVCache.Tier) :
    (candidates s t).Pairwise (· < ·) := (findCandidates_sorted hs).filter _

-- LRU picks the oldest eligible block, as long as there is one.
theorem victim_lru (hlru : env.eviction = LruEvictionPolicy) (hs : s.manager.InStep)
    (request : MakeSpaceRequest) :
    (eligible s request.tier = ∅ ∧ victim env request s = none) ∨
      ∃ id, victim env request s = some id ∧ id ∈ eligible s request.tier ∧
        ∀ j ∈ eligible s request.tier, j ≠ id → Older s id j := by
  unfold victim
  rw [← candidates_toFinset hs]
  by_cases hnil : candidates s request.tier = []
  · rw [if_pos hnil, hnil]
    exact .inl ⟨rfl, rfl⟩
  · right
    have hvalid : ∀ id ∈ candidates s request.tier, ∃ r, s.manager.store.records[id]? = some r := by
      intro id hid
      obtain ⟨r, hr, -⟩ := (mem_candidates hs).mp hid
      exact ⟨r, hr⟩
    have hbuild := buildAll_eq_map s.manager.store s.index request.timestamp_ns hvalid
    simp only [if_neg hnil, hbuild, hlru, LruEvictionPolicy]
    cases hmin : minElement (fun a b => a.last_access_ns < b.last_access_ns)
        ((candidates s request.tier).map
          (featuresOf s.manager.store s.index request.timestamp_ns)) with
    | none =>
        cases hc : candidates s request.tier with
        | nil => exact absurd hc hnil
        | cons id ids =>
            rw [hc] at hmin
            cases hmin
    | some f =>
        obtain ⟨before, after, hsplit, hbefore, hafter⟩ :=
          minElement_split (fun f => f.last_access_ns) hmin
        obtain ⟨l, l', hids, hl, hl'⟩ := List.map_eq_append_iff.mp hsplit
        obtain ⟨id, ids, rfl, rfl, hids'⟩ := List.map_eq_cons_iff.mp hl'
        have hsorted := candidates_sorted hs request.tier
        rw [hids] at hsorted ⊢
        have hid : (featuresOf s.manager.store s.index request.timestamp_ns id).id = id := rfl
        refine ⟨id, by simp [hid], by simp, fun j hj hne => ?_⟩
        have hj : j ∈ l ++ id :: ids := List.mem_toFinset.mp hj
        obtain ⟨-, hrest, hcross⟩ := List.pairwise_append.mp hsorted
        rcases List.mem_append.mp hj with hj | hj
        · left
          have hmem : featuresOf s.manager.store s.index request.timestamp_ns j ∈ before :=
            hl ▸ List.mem_map_of_mem hj
          exact hbefore _ hmem
        · rcases List.mem_cons.mp hj with rfl | hj
          · exact absurd rfl hne
          · have hmem : featuresOf s.manager.store s.index request.timestamp_ns j ∈ after :=
              hids' ▸ List.mem_map_of_mem hj
            have hle : lastAccess s id ≤ lastAccess s j := hafter _ hmem
            have hlt : id < j := (List.pairwise_cons.mp hrest).1 j hj
            exact (Nat.lt_or_eq_of_le hle).imp_right fun heq => ⟨heq, hlt⟩

-- The stack after the blocks `ids` were evicted, in that order, from one without tiers.
structure Evicted (env : Env π) (request : MakeSpaceRequest) (s : Stack π) (ids : List BlockId)
    (s' : Stack π) : Prop where
  in_step : s'.manager.InStep
  tier_manager : s'.tier_manager = none
  capacity : s'.manager.pool.capacity = s.manager.pool.capacity
  records : ∀ j : Nat, s'.manager.store.records[j]? =
    if j ∈ ids then (s.manager.store.records[j]?).map fun r => { r with state := .Free }
    else s.manager.store.records[j]?
  index_length : s'.index.nodes.length = s.index.nodes.length
  index : ∀ M, s.index.Represents M → s.index.nodes.length < 2 ^ 32 →
    s'.index.Represents (ids.foldl PrefixMap.erase M)
  events : s'.events = s.events ++
    ids.map fun id => .BlockEvicted id env.eviction.name request.timestamp_ns

variable {request : MakeSpaceRequest} {ids : List BlockId}

namespace Evicted

theorem nil (hs : s.manager.InStep) (htier : s.tier_manager = none) (hq : Quiet s s') :
    Evicted env request s [] s' := by
  refine ⟨hq.inStep hs, hq.tier_manager.trans htier, by rw [hq.pool], fun j => ?_,
    by rw [hq.index], fun M hM _ => hq.index ▸ hM, ?_⟩
  · rw [hq.store]
    rfl
  · rw [hq.events]
    simp

-- First one block and then the others.
theorem cons {s₀ s₁ : Stack π} {id : Nat} (hq : Quiet s s₀)
    (hq' : Quiet (s₀.evicted id env.eviction.name request.timestamp_ns none) s₁)
    (h : Evicted env request s₁ ids s') : Evicted env request s (id :: ids) s' := by
  have hrecords₁ : ∀ j : Nat, s₁.manager.store.records[j]? =
      if j = id then (s.manager.store.records[j]?).map fun r => { r with state := .Free }
      else s.manager.store.records[j]? := by
    intro j
    rw [hq'.store, ← hq.store]
    exact BlockManager.freed_getElem? s₀.manager id j
  have hlen₁ : s₁.index.nodes.length = s.index.nodes.length := by
    rw [hq'.index]
    exact (PrefixIndex.remove_length _ _).trans (by rw [hq.index])
  refine ⟨h.in_step, h.tier_manager, ?_, fun j => ?_, h.index_length.trans hlen₁,
    fun M hM hlt => ?_, ?_⟩
  · rw [h.capacity, hq'.pool]
    change s₀.manager.pool.capacity = s.manager.pool.capacity
    rw [hq.pool]
  · rw [h.records, hrecords₁]
    by_cases hj : j ∈ ids <;> by_cases hji : j = id <;> simp [hj, hji, Function.comp_def]
  · refine h.index _ ?_ (hlen₁ ▸ hlt)
    rw [hq'.index]
    have hM₀ : s₀.index.Represents M := hq.index ▸ hM
    exact PrefixIndex.remove_represents hM₀ (hq.index ▸ hlt) id
  · rw [h.events, hq'.events]
    simp only [Stack.evicted, hq.events, List.map_cons, List.append_assoc, List.singleton_append]

end Evicted

-- One pass with LRU, in a stack without tiers: it evicts the oldest eligible block or, if
-- there is none, gives up.
theorem evictOne_lru (hlru : env.eviction = LruEvictionPolicy) (hs : s.manager.InStep)
    (htier : s.tier_manager = none) (request : MakeSpaceRequest) :
    (eligible s request.tier = ∅ ∧
        ∃ s', (evictOne env request).run s = (.ok false, s') ∧ Quiet s s') ∨
      ∃ id s₀ r s₁, id ∈ eligible s request.tier ∧
        (∀ j ∈ eligible s request.tier, j ≠ id → Older s id j) ∧
        (evictOne env request).run s = (.ok true, s₁) ∧ Quiet s s₀ ∧
        s₀.manager.store.records[id]? = some r ∧ r.state = .Ready ∧
        Quiet (s₀.evicted id env.eviction.name request.timestamp_ns none) s₁ := by
  have hcase := evictOne_cases env hs request
  rcases hrun : (evictOne env request).run s with ⟨res, s₁⟩
  rw [hrun] at hcase
  rcases victim_lru hlru hs request with ⟨hempty, hnone⟩ | ⟨id, hsome, hmem, hleast⟩
  · left
    refine ⟨hempty, ?_⟩
    cases hcase with
    | none hv hq => exact ⟨s₁, rfl, hq⟩
    | refused e hv hnot hq =>
        rw [hnone] at hv
        cases hv
    | stuck e hv hq hr hready href hstuck =>
        rw [hnone] at hv
        cases hv
    | evicted hv hq hr hready href hrem hq' =>
        rw [hnone] at hv
        cases hv
  · right
    obtain ⟨r, hr, hready, href, -⟩ := (mem_eligible hs).mp hmem
    cases hcase with
    | none hv hq =>
        rw [hsome] at hv
        cases hv
    | refused e hv hnot hq =>
        rw [hsome] at hv
        cases hv
        have := hnot r hr hready
        omega
    | stuck e hv hq hr' hready' href' hstuck =>
        exact absurd (hq.tier_manager.trans htier) hstuck.not_untiered
    | @evicted s₀ _ id' r' tm hv hq hr' hready' href' hrem hq' =>
        rw [hsome] at hv
        cases hv
        have htm : tm = none := hrem.none_of_untiered (hq.tier_manager.trans htier)
        subst htm
        exact ⟨id, s₀, r', s₁, hmem, hleast, rfl, hq, hr', hready', hq'⟩

-- After an eviction the other eligible blocks are eligible, in the same order.
theorem evicted_eligible (hs : s.manager.InStep) (hs' : s'.manager.InStep) {id : Nat}
    (hrecords : ∀ j : Nat, s'.manager.store.records[j]? =
      if j = id then (s.manager.store.records[j]?).map fun r => { r with state := .Free }
      else s.manager.store.records[j]?) :
    eligible s' t = (eligible s t).erase id ∧ Older s' = Older s := by
  constructor
  · ext j
    rw [Finset.mem_erase, mem_eligible hs', mem_eligible hs, hrecords]
    by_cases hj : j = id
    · subst hj
      simp only [if_true, ne_eq, not_true_eq_false, false_and, iff_false]
      rintro ⟨r, hr, hready, -⟩
      obtain ⟨r₀, -, rfl⟩ := Option.map_eq_some_iff.mp hr
      cases hready
    · rw [if_neg hj]
      exact (and_iff_right hj).symm
  · have hlast : lastAccess s' = lastAccess s := by
      funext j
      simp only [lastAccess, List.getD_eq_getElem?_getD, hrecords]
      split
      · cases s.manager.store.records[j]? <;> rfl
      · rfl
    funext a b
    simp only [Older, hlast]

-- The loop evicts the oldest eligible blocks, as many as are asked for or as there are.
theorem makeSpaceLoop_lru (hlru : env.eviction = LruEvictionPolicy) (hs : s.manager.InStep)
    (htier : s.tier_manager = none) (request : MakeSpaceRequest) (missing evicted : Nat) :
    ∃ ids s', (makeSpaceLoop env request missing evicted).run s =
        (.ok ⟨if missing ≤ (eligible s request.tier).card then .Success
          else .InsufficientCandidates, evicted + ids.length⟩, s') ∧
      ids.length = min missing (eligible s request.tier).card ∧
      LeastFirst (Older s) (eligible s request.tier) ids ∧ Evicted env request s ids s' := by
  induction missing generalizing evicted s with
  | zero =>
      refine ⟨[], s, ?_, by simp, .nil, .nil hs htier (Quiet.refl s)⟩
      simp [makeSpaceLoop]
  | succ missing ih =>
      rcases evictOne_lru hlru hs htier request with
        ⟨hempty, s', hrun, hq⟩ | ⟨id, s₀, r, s₁, hmem, hleast, hrun, hq, hr, hready, hq'⟩
      · refine ⟨[], s', ?_, by simp [hempty], .nil, .nil hs htier hq⟩
        rw [makeSpaceLoop, Exec.bind_ok hrun]
        simp [hempty]
      · have hs₁ : s₁.manager.InStep := by
          refine hq'.inStep ?_
          exact (hq.inStep hs).freed hr (by simp [hready])
        have htier₁ : s₁.tier_manager = none := hq'.tier_manager
        have hone : Evicted env request s [id] s₁ :=
          .cons hq hq' (.nil hs₁ htier₁ (Quiet.refl s₁))
        have hrecords : ∀ j : Nat, s₁.manager.store.records[j]? =
            if j = id then (s.manager.store.records[j]?).map fun r => { r with state := .Free }
            else s.manager.store.records[j]? := fun j => by simpa using hone.records j
        obtain ⟨helig, holder⟩ := evicted_eligible (t := request.tier) hs hs₁ hrecords
        have hcard : (eligible s₁ request.tier).card + 1 = (eligible s request.tier).card := by
          rw [helig, Finset.card_erase_add_one hmem]
        obtain ⟨ids, s', hrest, hlen, hfirst, hev⟩ := ih hs₁ htier₁ (evicted + 1)
        refine ⟨id :: ids, s', ?_, ?_, ?_, .cons hq hq' hev⟩
        · rw [makeSpaceLoop, Exec.bind_ok hrun]
          simp only [if_true, hrest, ← hcard, Nat.succ_le_succ_iff, List.length_cons]
          rw [Nat.add_assoc, Nat.add_comm 1]
        · rw [List.length_cons, hlen]
          omega
        · rw [helig, holder] at hfirst
          exact hfirst.cons hmem hleast

-- What LRU does for a stack without tiers: it evicts the oldest eligible blocks, as many
-- as are asked for or as there are, and leaves all else alone.
theorem makeSpace_lru (hlru : env.eviction = LruEvictionPolicy) (hs : s.manager.InStep)
    (htier : s.tier_manager = none) {M : PrefixMap CacheContextHash TokenId BlockId}
    (hM : s.index.Represents M) (hnodes : s.index.nodes.length < 2 ^ 32)
    (request : MakeSpaceRequest) :
    ∃ ids s', (makeSpace env request).run s =
        (.ok ⟨if request.blocks_needed ≤ (eligible s request.tier).card then .Success
          else .InsufficientCandidates, ids.length⟩, s') ∧
      ids.length = min request.blocks_needed (eligible s request.tier).card ∧
      LeastFirst (Older s) (eligible s request.tier) ids ∧
      s'.events = s.events ++
        ids.map (fun id => .BlockEvicted id env.eviction.name request.timestamp_ns) ∧
      (∀ id ∈ ids, (∃ r, s'.manager.store.records[id]? = some r ∧ r.state = .Free) ∧
        id ∈ s'.manager.pool.free_list ∧ ∀ c tokens, id ∉ (s'.index.lookup c tokens).blocks) ∧
      (∀ j, j ∉ ids → s'.manager.store.records[j]? = s.manager.store.records[j]?) ∧
      ∀ c p id, s'.index.Terminal c p id ↔ s.index.Terminal c p id ∧ id ∉ ids := by
  obtain ⟨ids, s', hrun, hlen, hfirst, hev⟩ :=
    makeSpaceLoop_lru hlru hs htier request request.blocks_needed 0
  have hrep := hev.index M hM hnodes
  have hterminal : ∀ c p id, s'.index.Terminal c p id ↔ s.index.Terminal c p id ∧ id ∉ ids := by
    intro c p id
    rw [hrep.terminal_iff, hM.terminal_iff, PrefixMap.foldl_erase_eq_some]
  refine ⟨ids, s', ?_, hlen, hfirst, hev.events, fun id hid => ?_, fun j hj => ?_, hterminal⟩
  · rw [makeSpace, hrun, Nat.zero_add]
  · obtain ⟨r, hr, -⟩ := (mem_eligible hs).mp (hfirst.subset id hid)
    have hfree : ∃ r, s'.manager.store.records[id]? = some r ∧ r.state = .Free := by
      refine ⟨{ r with state := .Free }, ?_, rfl⟩
      rw [hev.records, if_pos hid, hr]
      rfl
    refine ⟨hfree, hev.in_step.free.mpr hfree, fun c tokens hmem => ?_⟩
    obtain ⟨p, hp⟩ := PrefixIndex.mem_lookup_terminal hmem
    exact ((hterminal c p id).mp hp).2 hid
  · rw [hev.records, if_neg hj]

private def emptySlots : BlockManager := .new 3 { readings := id }

private def readyRecord (id last_access_ns : Nat) : BlockRecord :=
  { BlockManager.freshRecord id (BlockManager.nextGeneration emptySlots.pool id) ⟨0, 0⟩ 0 1 .GpuSim
      {} .Ready with last_access_ns }

private abbrev chainIndex : PrefixIndex :=
  ({ block_size := 1 } : PrefixIndex).insert 0 [7, 8, 9] [0, 1, 2]

-- A chain of three blocks, ready and unpinned. The last two were never used.
private def threeBlocks : Stack Unit where
  manager := ((emptySlots.taken 0 [1, 2] (readyRecord 0 5)).taken 1 [2] (readyRecord 1 0)).taken 2
    [] (readyRecord 2 0)
  index := chainIndex
  block_size := 1
  policy_state := ()

private def lruEnv : Env Unit where
  xxh3 := ⟨fun _ => 0, fun _ => ⟨0, 0⟩⟩
  admission := AlwaysAdmitPolicy
  eviction := LruEvictionPolicy
  placement := GpuFirstPlacementPolicy
  promotion := NoMigrationPolicy
  demotion := NoMigrationPolicy

-- The two that were never used go, the one with the lower slot first.
theorem makeSpace_lru_tie : ∃ s' : Stack Unit,
    (makeSpace lruEnv ⟨2, 9, .GpuSim⟩).run threeBlocks = (.ok ⟨.Success, 2⟩, s') ∧
      s'.events = [.BlockEvicted 1 lruEnv.eviction.name 9, .BlockEvicted 2 lruEnv.eviction.name 9] ∧
      (∀ c p, s'.index.Terminal c p 0 ↔ threeBlocks.index.Terminal c p 0) ∧
      ∀ c p, ¬ s'.index.Terminal c p 1 ∧ ¬ s'.index.Terminal c p 2 := by
  have hs : threeBlocks.manager.InStep :=
    (((BlockManager.new_inStep 3 _).taken rfl rfl rfl (by decide)).taken rfl rfl rfl
      (by decide)).taken rfl rfl rfl (by decide)
  have hM : chainIndex.Represents
      (PrefixMap.defineFrom 1 PrefixMap.empty 0 [7, 8, 9] 0 [0, 1, 2]) :=
    PrefixIndex.insert_represents (PrefixIndex.empty_represents 1) (by decide) 0 (by decide)
      (.of_fresh (by decide) (by simp [PrefixMap.empty])) (by decide +kernel)
  have hlru : lruEnv.eviction = LruEvictionPolicy := rfl
  obtain ⟨ids, s', hrun, hlen, hfirst, hevents, -, -, hterminal⟩ :=
    makeSpace_lru hlru hs rfl hM (by decide +kernel) ⟨2, 9, .GpuSim⟩
  have hall : eligible threeBlocks .GpuSim = {0, 1, 2} := by decide +kernel
  rw [hall] at hrun hlen hfirst
  have hids : ids = [1, 2] := by
    obtain ⟨a, b, rfl⟩ := List.length_eq_two.mp hlen
    have hpick : ∀ a ∈ ({0, 1, 2} : Finset Nat), ∀ b ∈ ({0, 1, 2} : Finset Nat),
        Older threeBlocks a b →
        (∀ c ∈ ({0, 1, 2} : Finset Nat), c ∉ [a, b] → Older threeBlocks b c) →
        [a, b] = [1, 2] := by
      decide +kernel
    exact hpick a (hfirst.subset a (by simp)) b (hfirst.subset b (by simp))
      (List.rel_of_pairwise_cons hfirst.sorted (by simp)) (hfirst.least b (by simp))
  subst hids
  refine ⟨s', hrun, hevents, fun c p => ?_, fun c p => ⟨fun h => ?_, fun h => ?_⟩⟩
  · simp [hterminal]
  · exact ((hterminal c p 1).mp h).2 (by simp)
  · exact ((hterminal c p 2).mp h).2 (by simp)

end EvictionController

end KVCache.Controller
