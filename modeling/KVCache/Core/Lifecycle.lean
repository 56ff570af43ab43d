import KVCache.Core.BlockManager

namespace KVCache

open Lib

-- Pool and store agree: slots in use are those whose record is not free, and the
-- record of such a slot carries the generation that the pool handed out.
structure BlockManager.InStep (m : BlockManager) : Prop where
  records_length : m.store.records.length = m.pool.capacity
  generations_length : m.pool.generations.length = m.pool.capacity
  in_use_length : m.pool.in_use.length = m.pool.capacity
  free_nodup : m.pool.free_list.Nodup
  free : ∀ {id}, id ∈ m.pool.free_list ↔
    ∃ r, m.store.records[id]? = some r ∧ r.state = .Free
  in_use : ∀ {id r}, m.store.records[id]? = some r →
    (m.pool.in_use.getD id false = true ↔ r.state ≠ .Free)
  identity : ∀ {id r}, m.store.records[id]? = some r → r.state ≠ .Free →
    r.id = id ∧ r.generation = m.pool.generations.getD id 0 ∧ 0 < r.generation

section Next

variable {m : BlockManager} {id : BlockId} {rest : List BlockId}

-- The slot that is handed out next has a free record.
theorem BlockManager.InStep.next_free (hm : m.InStep) (hfree : m.pool.free_list = id :: rest) :
    ∃ r, m.store.records[id]? = some r ∧ r.state = .Free :=
  hm.free.mp (by rw [hfree]; exact List.mem_cons_self)

theorem BlockManager.InStep.next_not_ready (hm : m.InStep)
    (hfree : m.pool.free_list = id :: rest) {r : BlockRecord}
    (hr : m.store.records[id]? = some r) : r.state ≠ .Ready := by
  obtain ⟨r', hr', hstate⟩ := hm.next_free hfree
  rw [hr] at hr'
  cases hr'
  simp [hstate]

end Next

namespace BlockManager

-- The generation that `allocate` hands out for a slot.
def nextGeneration (p : BlockPool) (id : BlockId) : Nat :=
  if p.generations.getD id 0 = 0 then 1 else p.generations.getD id 0

-- The record of a slot right after `createBlock`, but for its state and payload.
def freshRecord (id : BlockId) (generation : Nat) (hash : ContentHash) (block_index : UInt32)
    (token_count : UInt16) (tier : Tier) (payload : Tier.PayloadRef) (state : BlockState) :
    BlockRecord where
  id := id
  generation := generation
  hash := hash
  block_index := block_index
  token_count := token_count
  tier := tier
  payload := payload
  state := state

def withRecord (m : BlockManager) (id : BlockId) (f : BlockRecord → BlockRecord) : BlockManager :=
  { m with store := ⟨m.store.records.modify id f⟩ }

-- The manager after a successful `touch`.
def touched (m : BlockManager) (id : BlockId) : BlockManager :=
  { m.withRecord id fun r =>
      { r with
        last_access_ns := m.clock.nowNs.1
        access_count := (r.access_count + 1) % 2 ^ 64
        refcount := (r.refcount + 1) % 2 ^ 32 } with
    clock := m.clock.nowNs.2 }

-- The manager after the slot at the front of the free list was taken.
def taken (m : BlockManager) (id : BlockId) (rest : List BlockId) (r : BlockRecord) :
    BlockManager where
  pool :=
    { m.pool with
      free_list := rest
      generations := m.pool.generations.set id (nextGeneration m.pool id)
      in_use := m.pool.in_use.set id true }
  store := ⟨m.store.records.modify id fun _ => r⟩
  clock := m.clock

-- The manager after the slot went back to the free list.
def freed (m : BlockManager) (id : BlockId) : BlockManager where
  pool :=
    { m.pool with
      in_use := m.pool.in_use.set id false
      generations := m.pool.generations.set id ((m.pool.generations.getD id 0 + 1) % 2 ^ 64)
      free_list := id :: m.pool.free_list }
  store := ⟨m.store.records.modify id fun r => { r with state := .Free }⟩
  clock := m.clock

section Records

variable {m : BlockManager} {id j : BlockId}

@[simp] theorem withRecord_pool (m : BlockManager) (id : BlockId) (f : BlockRecord → BlockRecord) :
    (m.withRecord id f).pool = m.pool := rfl

@[simp] theorem withRecord_getElem? (m : BlockManager) (id j : BlockId)
    (f : BlockRecord → BlockRecord) :
    (m.withRecord id f).store.records[j]? =
      if j = id then m.store.records[j]?.map f else m.store.records[j]? :=
  BlockStore.getElem?_modify_eq _ _ _ _

@[simp] theorem withRecord_length (m : BlockManager) (id : BlockId)
    (f : BlockRecord → BlockRecord) :
    (m.withRecord id f).store.records.length = m.store.records.length := by
  simp [withRecord]

@[simp] theorem touched_pool (m : BlockManager) (id : BlockId) : (m.touched id).pool = m.pool := rfl

@[simp] theorem touched_getElem? (m : BlockManager) (id j : BlockId) :
    (m.touched id).store.records[j]? =
      if j = id then m.store.records[j]?.map fun r =>
        { r with
          last_access_ns := m.clock.nowNs.1
          access_count := (r.access_count + 1) % 2 ^ 64
          refcount := (r.refcount + 1) % 2 ^ 32 }
      else m.store.records[j]? :=
  BlockStore.getElem?_modify_eq _ _ _ _

@[simp] theorem taken_getElem? (m : BlockManager) (id j : BlockId) (rest : List BlockId)
    (r : BlockRecord) :
    (m.taken id rest r).store.records[j]? =
      if j = id then m.store.records[j]?.map fun _ => r else m.store.records[j]? :=
  BlockStore.getElem?_modify_eq _ _ _ _

@[simp] theorem freed_getElem? (m : BlockManager) (id j : BlockId) :
    (m.freed id).store.records[j]? =
      if j = id then m.store.records[j]?.map fun r => { r with state := .Free }
      else m.store.records[j]? :=
  BlockStore.getElem?_modify_eq _ _ _ _

theorem lt_of_getElem? {r : BlockRecord} (h : m.store.records[id]? = some r) :
    id < m.store.records.length := (List.getElem?_eq_some_iff.mp h).1

end Records

section Specs

variable {m : BlockManager} {id : BlockId} {r : BlockRecord}

theorem onStore_write {what : String} {f : BlockRecord → BlockRecord}
    (h : id < m.store.records.length) :
    (onStore fun st => st.write what id f).run m = (.ok (), m.withRecord id f) := by
  simp [onStore, Exec.update, BlockStore.write_of_lt h, withRecord]

theorem touch_eq (h : id < m.store.records.length) :
    (touch id).run m = (.ok ⟨id⟩, m.touched id) := by
  simp only [touch, nowNs, Exec.modifyGet_bind_run, BlockStore.markAccessed,
    BlockStore.createHandle]
  rw [Exec.bind_ok (onStore_write (by simpa using h)),
    Exec.bind_ok (onStore_write (by simpa using h))]
  simp [touched, withRecord, List.modify_modify_eq, Function.comp_def]

theorem acquire_eq (hm : m.InStep) (hr : m.store.records[id]? = some r)
    (hready : r.state = .Ready) :
    (acquire id).run m = (.ok (some ⟨id⟩), m.touched id) := by
  have hlt := lt_of_getElem? hr
  have hcap : ¬ m.pool.capacity ≤ id := Nat.not_le.mpr (hm.records_length ▸ hlt)
  have hgen : r.generation ≠ 0 := by
    have := (hm.identity hr (by simp [hready])).2.2
    omega
  simp only [acquire, Exec.read_bind_run, if_neg hcap]
  simp only [Exec.check_bind_run, BlockStore.get_eq_ok.mpr hr, hgen, hready, ne_eq,
    not_true_eq_false, or_self, if_false]
  rw [Exec.bind_ok (touch_eq hlt)]
  rfl

-- A block that is not ready is not acquired, and nothing changes.
theorem acquire_eq_none (hm : m.InStep)
    (h : ∀ r, m.store.records[id]? = some r → r.state ≠ .Ready) :
    (acquire id).run m = (.ok none, m) := by
  simp only [acquire, Exec.read_bind_run]
  by_cases hcap : m.pool.capacity ≤ id
  · rw [if_pos hcap]
    rfl
  · rw [if_neg hcap]
    have hlt : id < m.store.records.length := hm.records_length ▸ Nat.not_le.mp hcap
    have hr := List.getElem?_eq_getElem hlt
    simp only [Exec.check_bind_run, BlockStore.get_eq_ok.mpr hr]
    rw [if_pos (.inr (h _ hr))]
    rfl

theorem createBlock_eq_none (h : m.pool.free_list = []) (hash : ContentHash)
    (block_index : UInt32) (token_count : UInt16) (tier : Tier) :
    (createBlock hash block_index token_count tier).run m = (.ok none, m) := by
  simp [createBlock, BlockPool.allocate, h]

theorem createBlock_eq {rest : List BlockId} (hm : m.InStep) (h : m.pool.free_list = id :: rest)
    (hash : ContentHash) (block_index : UInt32) (token_count : UInt16) (tier : Tier) :
    (createBlock hash block_index token_count tier).run m =
      (.ok (some (id, nextGeneration m.pool id)),
        m.taken id rest (freshRecord id (nextGeneration m.pool id) hash block_index token_count tier
          {} .Admitting)) := by
  obtain ⟨r, hr, -⟩ := hm.next_free h
  have hlt := lt_of_getElem? hr
  simp only [createBlock, BlockPool.allocate, h, Exec.modifyGet_bind_run,
    BlockStore.initializeRecord]
  rw [Exec.bind_ok (onStore_write (by simpa using hlt))]
  rfl

theorem transitionState_eq {source target : BlockState} (hr : m.store.records[id]? = some r)
    (hs : r.state = source) (hlegal : isLegalTransition source target = true)
    (hguard : ¬ (source = .Ready ∧ target = .Evicting ∧ 0 < r.refcount)) (ht : target ≠ .Free) :
    (transitionState id source target).run m =
      (.ok (), m.withRecord id fun r => { r with state := target }) := by
  simp only [transitionState, Exec.check_bind_run, BlockStore.get_eq_ok.mpr hr]
  rw [if_neg (by simp [hs]), if_neg (by simp [hlegal]), if_neg hguard]
  simp only [BlockStore.setState, if_neg ht]
  rw [Exec.bind_ok (onStore_write (lt_of_getElem? hr))]
  rfl

-- Where the transition is refused, nothing changes.
theorem transitionState_refused {source target : BlockState}
    (h : ∀ r, m.store.records[id]? = some r → r.state = source →
      isLegalTransition source target = true →
      source = .Ready ∧ target = .Evicting ∧ 0 < r.refcount) :
    ∃ e, (transitionState id source target).run m = (.error e, m) := by
  simp only [transitionState, Exec.check_bind_run, BlockStore.get]
  cases hr : m.store.records[id]? with
  | none => exact ⟨_, rfl⟩
  | some r =>
      simp only
      split
      · exact ⟨_, rfl⟩
      · split
        · exact ⟨_, rfl⟩
        · rename_i h1 h2
          rw [if_pos (h r hr (not_not.mp h1) (by simpa using h2))]
          exact ⟨_, rfl⟩

-- A legal transition to `Free` gives the slot back to the pool.
theorem transitionState_free_eq (hm : m.InStep) (hr : m.store.records[id]? = some r)
    {source : BlockState} (hs : r.state = source) (hlegal : isLegalTransition source .Free = true) :
    (transitionState id source .Free).run m = (.ok (), m.freed id) := by
  have hlt := lt_of_getElem? hr
  have hne : source ≠ .Free := by
    rintro rfl
    simp [isLegalTransition] at hlegal
  have huse := (hm.in_use hr).mpr (by rw [hs]; exact hne)
  simp only [transitionState, Exec.check_bind_run, BlockStore.get_eq_ok.mpr hr]
  rw [if_neg (by simp [hs]), if_neg (by simp [hlegal]), if_neg (by simp)]
  simp only [BlockStore.setState, if_true]
  rw [Exec.bind_ok (onStore_write hlt)]
  simp only [onPool, Exec.update, withRecord_pool,
    BlockPool.free_eq (hm.records_length ▸ hlt) huse]
  rfl

theorem freeBlock_eq (hm : m.InStep) (hr : m.store.records[id]? = some r)
    (hs : r.state = .Evicting) : (freeBlock id).run m = (.ok (), m.freed id) :=
  transitionState_free_eq hm hr hs rfl

-- `freeBlock` refuses a block that is not being evicted.
theorem freeBlock_refused {m : BlockManager} (id : BlockId)
    (h : ∀ r, m.store.records[id]? = some r → r.state ≠ .Evicting) :
    ∃ e, (freeBlock id).run m = (.error e, m) :=
  transitionState_refused fun r hr hs => absurd hs (h r hr)

end Specs

section Invariant

variable {m : BlockManager} {id : BlockId} {r : BlockRecord}

theorem new_getElem? {capacity : Nat} {clock : Clock} {id : BlockId} {r : BlockRecord}
    (h : (new capacity clock).store.records[id]? = some r) : id < capacity ∧ r = {} := by
  simp only [new, BlockStore.new, List.getElem?_replicate] at h
  split at h
  · exact ⟨by assumption, (Option.some.inj h).symm⟩
  · cases h

theorem new_inStep (capacity : Nat) (clock : Clock) : (new capacity clock).InStep := by
  refine ⟨?_, ?_, ?_, ?_, ?_, ?_, ?_⟩
  · simp [new, BlockStore.new, BlockPool.new]
  · simp [new, BlockPool.new]
  · simp [new, BlockPool.new]
  · exact List.nodup_range
  · intro id
    constructor
    · intro h
      have hlt : id < capacity := List.mem_range.mp h
      exact ⟨{}, by simp [new, BlockStore.new, hlt], rfl⟩
    · rintro ⟨r, hr, -⟩
      exact List.mem_range.mpr (new_getElem? hr).1
  · intro id r hr
    obtain ⟨hlt, rfl⟩ := new_getElem? hr
    simp [new, BlockPool.new, List.getD_eq_getElem?_getD, hlt]
  · intro id r hr hs
    rw [(new_getElem? hr).2] at hs
    exact absurd rfl hs

-- Changes that keep the identity of a record and whether it is free.
theorem InStep.withRecord (hm : m.InStep) {f : BlockRecord → BlockRecord}
    (hf : ∀ r, m.store.records[id]? = some r →
      (f r).id = r.id ∧ (f r).generation = r.generation ∧ ((f r).state = .Free ↔ r.state = .Free)) :
    (m.withRecord id f).InStep := by
  have hback : ∀ {j : Nat} {r' : BlockRecord}, (m.withRecord id f).store.records[j]? = some r' →
      ∃ r : BlockRecord, m.store.records[j]? = some r ∧ r'.id = r.id ∧
        r'.generation = r.generation ∧ (r'.state = .Free ↔ r.state = .Free) := by
    intro j r' h
    rw [withRecord_getElem?] at h
    split at h
    · rename_i hj
      subst hj
      obtain ⟨r, hr, rfl⟩ := Option.map_eq_some_iff.mp h
      exact ⟨r, hr, hf r hr⟩
    · exact ⟨r', h, rfl, rfl, Iff.rfl⟩
  refine ⟨by simpa using hm.records_length, hm.generations_length, hm.in_use_length,
    hm.free_nodup, ?_, ?_, ?_⟩
  · intro j
    rw [withRecord_pool, hm.free]
    constructor
    · rintro ⟨r, hr, hs⟩
      have hsome : (m.withRecord id f).store.records[j]?.isSome := by
        rw [withRecord_getElem?]
        split <;> simp [hr]
      obtain ⟨r', hr'⟩ := Option.isSome_iff_exists.mp hsome
      obtain ⟨r₀, hr₀, -, -, h⟩ := hback hr'
      rw [hr] at hr₀
      cases hr₀
      exact ⟨r', hr', h.mpr hs⟩
    · rintro ⟨r', hr', hs⟩
      obtain ⟨r, hr, -, -, h⟩ := hback hr'
      exact ⟨r, hr, h.mp hs⟩
  · intro j r' hr'
    obtain ⟨r, hr, -, -, h⟩ := hback hr'
    rw [withRecord_pool, hm.in_use hr, ne_eq, ne_eq, h]
  · intro j r' hr' hs
    obtain ⟨r, hr, h1, h2, h3⟩ := hback hr'
    rw [h1, h2]
    exact hm.identity hr fun h => hs (h3.mpr h)

theorem InStep.of_eq {m' : BlockManager} (hm : m.InStep) (hp : m'.pool = m.pool)
    (hs : m'.store = m.store) : m'.InStep := by
  obtain ⟨h1, h2, h3, h4, h5, h6, h7⟩ := hm
  refine ⟨?_, ?_, ?_, ?_, ?_, ?_, ?_⟩ <;> rw [hp] <;> try rw [hs]
  · exact h1
  · exact h2
  · exact h3
  · exact h4
  · exact h5
  · exact h6
  · exact h7

theorem InStep.touched (hm : m.InStep) (id : BlockId) : (m.touched id).InStep := by
  have h : (m.withRecord id fun r =>
      { r with
        last_access_ns := m.clock.nowNs.1
        access_count := (r.access_count + 1) % 2 ^ 64
        refcount := (r.refcount + 1) % 2 ^ 32 }).InStep :=
    hm.withRecord fun _ _ => ⟨rfl, rfl, Iff.rfl⟩
  exact h.of_eq rfl rfl

theorem InStep.taken (hm : m.InStep) {rest : List BlockId} (h : m.pool.free_list = id :: rest)
    (hid : r.id = id) (hgen : r.generation = nextGeneration m.pool id) (hs : r.state ≠ .Free) :
    (m.taken id rest r).InStep := by
  obtain ⟨r₀, hr₀, hfree⟩ := hm.next_free h
  have hlt := lt_of_getElem? hr₀
  have hnodup : id ∉ rest ∧ rest.Nodup := List.nodup_cons.mp (h ▸ hm.free_nodup)
  have hpos : 0 < nextGeneration m.pool id := by
    unfold nextGeneration
    split
    · exact Nat.one_pos
    · exact Nat.pos_of_ne_zero (by assumption)
  have hrec : ∀ {j r'}, (m.taken id rest r).store.records[j]? = some r' →
      (j = id ∧ r' = r) ∨ (j ≠ id ∧ m.store.records[j]? = some r') := by
    intro j r' hj
    rw [taken_getElem?] at hj
    split at hj
    · rename_i hji
      subst hji
      rw [hr₀] at hj
      exact .inl ⟨rfl, (Option.some.inj hj).symm⟩
    · exact .inr ⟨by assumption, hj⟩
  refine ⟨?_, ?_, ?_, hnodup.2, ?_, ?_, ?_⟩
  · simpa [BlockManager.taken] using hm.records_length
  · simpa [BlockManager.taken] using hm.generations_length
  · simpa [BlockManager.taken] using hm.in_use_length
  · intro j
    have hold : j ∈ m.pool.free_list ↔ j = id ∨ j ∈ rest := by rw [h]; exact List.mem_cons
    constructor
    · intro hj
      have hji : j ≠ id := by rintro rfl; exact hnodup.1 hj
      obtain ⟨r', hr', hs'⟩ := hm.free.mp (hold.mpr (.inr hj))
      exact ⟨r', by rw [taken_getElem?, if_neg hji, hr'], hs'⟩
    · rintro ⟨r', hr', hs'⟩
      rcases hrec hr' with ⟨-, rfl⟩ | ⟨hji, hr'⟩
      · exact absurd hs' hs
      · rcases hold.mp (hm.free.mpr ⟨r', hr', hs'⟩) with rfl | hj
        · exact absurd rfl hji
        · exact hj
  · intro j r' hr'
    rcases hrec hr' with ⟨rfl, rfl⟩ | ⟨hji, hr'⟩
    · have huse : j < m.pool.in_use.length := by
        rw [hm.in_use_length, ← hm.records_length]; exact hlt
      simp [BlockManager.taken, List.getD_eq_getElem?_getD, huse, hs]
    · have hsame : (m.taken id rest r).pool.in_use.getD j false = m.pool.in_use.getD j false := by
        simp [BlockManager.taken, List.getD_eq_getElem?_getD, Ne.symm hji]
      rw [hsame, hm.in_use hr']
  · intro j r' hr' hs'
    rcases hrec hr' with ⟨rfl, rfl⟩ | ⟨hji, hr'⟩
    · have hlen : j < m.pool.generations.length := by
        rw [hm.generations_length, ← hm.records_length]; exact hlt
      refine ⟨hid, ?_, by rw [hgen]; exact hpos⟩
      rw [hgen]
      simp [BlockManager.taken, List.getD_eq_getElem?_getD, hlen]
    · have hsame : (m.taken id rest r).pool.generations.getD j 0 =
          m.pool.generations.getD j 0 := by
        simp [BlockManager.taken, List.getD_eq_getElem?_getD, Ne.symm hji]
      rw [hsame]
      exact hm.identity hr' hs'

theorem InStep.freed (hm : m.InStep) (hr : m.store.records[id]? = some r) (hs : r.state ≠ .Free) :
    (m.freed id).InStep := by
  have hlt := lt_of_getElem? hr
  have hnot : id ∉ m.pool.free_list := by
    intro h
    obtain ⟨r', hr', hs'⟩ := hm.free.mp h
    rw [hr] at hr'
    cases hr'
    exact hs hs'
  have hrec : ∀ {j r'}, (m.freed id).store.records[j]? = some r' →
      (j = id ∧ r'.state = .Free) ∨ (j ≠ id ∧ m.store.records[j]? = some r') := by
    intro j r' hj
    rw [freed_getElem?] at hj
    split at hj
    · obtain ⟨_, -, rfl⟩ := Option.map_eq_some_iff.mp hj
      exact .inl ⟨by assumption, rfl⟩
    · exact .inr ⟨by assumption, hj⟩
  refine ⟨?_, ?_, ?_, ?_, ?_, ?_, ?_⟩
  · simpa [BlockManager.freed] using hm.records_length
  · simpa [BlockManager.freed] using hm.generations_length
  · simpa [BlockManager.freed] using hm.in_use_length
  · exact List.nodup_cons.mpr ⟨hnot, hm.free_nodup⟩
  · intro j
    constructor
    · intro hj
      rcases List.mem_cons.mp hj with rfl | hmem
      · exact ⟨_, by rw [freed_getElem?, if_pos rfl, hr]; rfl, rfl⟩
      · have hji : j ≠ id := by rintro rfl; exact hnot hmem
        obtain ⟨r', hr', hs'⟩ := hm.free.mp hmem
        exact ⟨r', by rw [freed_getElem?, if_neg hji, hr'], hs'⟩
    · rintro ⟨r', hr', hs'⟩
      rcases hrec hr' with ⟨rfl, -⟩ | ⟨hji, hr'⟩
      · exact List.mem_cons_self
      · exact List.mem_cons_of_mem _ (hm.free.mpr ⟨r', hr', hs'⟩)
  · intro j r' hr'
    rcases hrec hr' with ⟨rfl, hs'⟩ | ⟨hji, hr'⟩
    · have huse : j < m.pool.in_use.length := by
        rw [hm.in_use_length, ← hm.records_length]; exact hlt
      simp [BlockManager.freed, List.getD_eq_getElem?_getD, huse, hs']
    · have hsame : (m.freed id).pool.in_use.getD j false = m.pool.in_use.getD j false := by
        simp [BlockManager.freed, List.getD_eq_getElem?_getD, Ne.symm hji]
      rw [hsame, hm.in_use hr']
  · intro j r' hr' hs'
    rcases hrec hr' with ⟨rfl, h⟩ | ⟨hji, hr'⟩
    · exact absurd h hs'
    · have hsame : (m.freed id).pool.generations.getD j 0 = m.pool.generations.getD j 0 := by
        simp [BlockManager.freed, List.getD_eq_getElem?_getD, Ne.symm hji]
      rw [hsame]
      exact hm.identity hr' hs'

end Invariant

end BlockManager

end KVCache
