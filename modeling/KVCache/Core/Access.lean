import KVCache.Core.Lifecycle
import Mathlib.Data.Multiset.AddSub

namespace KVCache

open Lib

-- A record but for its access data.
def BlockRecord.body (r : BlockRecord) : BlockRecord :=
  { r with refcount := 0, last_access_ns := 0, access_count := 0 }

theorem BlockRecord.fields_of_body {r r' : BlockRecord} (h : r'.body = r.body) :
    r'.id = r.id ∧ r'.generation = r.generation ∧ r'.hash = r.hash ∧
      r'.block_index = r.block_index ∧ r'.token_count = r.token_count ∧ r'.tier = r.tier ∧
      r'.payload = r.payload ∧ r'.state = r.state := by
  cases r
  cases r'
  simpa [BlockRecord.body] using h

-- Two managers with the same blocks: they differ in access data and the clock only.
structure BlockManager.SameBlocks (m m' : BlockManager) : Prop where
  pool : m'.pool = m.pool
  records : m'.store.records.map BlockRecord.body = m.store.records.map BlockRecord.body

namespace BlockManager

variable {m m' m'' : BlockManager} {id : BlockId}

namespace SameBlocks

theorem refl (m : BlockManager) : SameBlocks m m := ⟨rfl, rfl⟩

theorem symm (h : SameBlocks m m') : SameBlocks m' m := ⟨h.pool.symm, h.records.symm⟩

theorem trans (h : SameBlocks m m') (h' : SameBlocks m' m'') : SameBlocks m m'' :=
  ⟨h'.pool.trans h.pool, h'.records.trans h.records⟩

theorem of_eq (hp : m'.pool = m.pool) (hs : m'.store = m.store) : SameBlocks m m' :=
  ⟨hp, by rw [hs]⟩

-- The records of the two managers, one by one.
theorem record (h : SameBlocks m m') {r : BlockRecord} (hr : m.store.records[id]? = some r) :
    ∃ r', m'.store.records[id]? = some r' ∧ r'.body = r.body := by
  have hid := congrArg (fun l : List BlockRecord => l[id]?) h.records
  simp only [List.getElem?_map, hr, Option.map_some] at hid
  exact Option.map_eq_some_iff.mp hid

-- What a record says about its block, a slot without a record included.
theorem getD_body (h : SameBlocks m m') (id : BlockId) :
    (m'.store.records.getD id {}).body = (m.store.records.getD id {}).body := by
  have hid := congrArg (fun l : List BlockRecord => l[id]?) h.records
  simp only [List.getElem?_map] at hid
  rw [List.getD_eq_getElem?_getD, List.getD_eq_getElem?_getD]
  cases hr : m.store.records[id]? with
  | none =>
      rw [hr] at hid
      rw [Option.map_eq_none_iff.mp hid]
  | some r =>
      rw [hr] at hid
      obtain ⟨r', hr', hbody⟩ := Option.map_eq_some_iff.mp hid
      rw [hr']
      exact hbody

theorem of_modify {f : BlockRecord → BlockRecord} (hf : ∀ r, (f r).body = r.body) :
    SameBlocks m (m.withRecord id f) := by
  refine ⟨rfl, List.ext_getElem? fun j => ?_⟩
  rw [List.getElem?_map, List.getElem?_map, withRecord_getElem?]
  split
  · rw [Option.map_map]
    congr 1
    exact funext hf
  · rfl

theorem inStep (h : SameBlocks m m') (hm : m.InStep) : m'.InStep := by
  have hlen : m'.store.records.length = m.store.records.length := by
    simpa using congrArg List.length h.records
  have hback : ∀ {j : Nat} {r' : BlockRecord}, m'.store.records[j]? = some r' →
      ∃ r, m.store.records[j]? = some r ∧ r.id = r'.id ∧ r.generation = r'.generation ∧
        r.state = r'.state := by
    intro j r' hr'
    obtain ⟨r, hr, hbody⟩ := h.symm.record hr'
    obtain ⟨hid, hgen, -, -, -, -, -, hstate⟩ := BlockRecord.fields_of_body hbody
    exact ⟨r, hr, hid, hgen, hstate⟩
  refine ⟨?_, ?_, ?_, ?_, ?_, ?_, ?_⟩ <;> rw [h.pool]
  · rw [hlen]; exact hm.records_length
  · exact hm.generations_length
  · exact hm.in_use_length
  · exact hm.free_nodup
  · intro j
    rw [hm.free]
    constructor
    · rintro ⟨r, hr, hs⟩
      obtain ⟨r', hr', hbody⟩ := h.record hr
      obtain ⟨-, -, -, -, -, -, -, hstate⟩ := BlockRecord.fields_of_body hbody
      exact ⟨r', hr', hstate.trans hs⟩
    · rintro ⟨r', hr', hs⟩
      obtain ⟨r, hr, -, -, hstate⟩ := hback hr'
      exact ⟨r, hr, hstate.trans hs⟩
  · intro j r' hr'
    obtain ⟨r, hr, -, -, hstate⟩ := hback hr'
    rw [hm.in_use hr, hstate]
  · intro j r' hr' hs
    obtain ⟨r, hr, hid, hgen, hstate⟩ := hback hr'
    rw [← hid, ← hgen]
    exact hm.identity hr (hstate ▸ hs)

end SameBlocks

theorem touched_sameBlocks (m : BlockManager) (id : BlockId) : SameBlocks m (m.touched id) := by
  have h : SameBlocks m (m.withRecord id fun r =>
      { r with
        last_access_ns := m.clock.nowNs.1
        access_count := (r.access_count + 1) % 2 ^ 64
        refcount := (r.refcount + 1) % 2 ^ 32 }) :=
    .of_modify fun r => by simp only [BlockRecord.body]
  exact h.trans (.of_eq rfl rfl)

-- The manager after a handle on the slot `id` has died.
def released (m : BlockManager) (id : BlockId) : BlockManager :=
  m.withRecord id fun r => { r with refcount := (r.refcount + (2 ^ 32 - 1)) % 2 ^ 32 }

theorem dropHandle_run (m : BlockManager) (h : BlockHandle) :
    (dropHandle h).run m = (.ok (), m.released h.slot) := rfl

theorem released_sameBlocks (m : BlockManager) (id : BlockId) : SameBlocks m (m.released id) :=
  .of_modify fun r => by simp only [BlockRecord.body]

-- The slots that handles point to; a handle that was moved from is `none`.
def slots (handles : List (Option BlockHandle)) : Multiset Nat :=
  (handles.filterMap fun h => h.map (·.slot) : List Nat)

-- The handles that a call hands out, if it returns.
def handed {α : Type} (f : α → List (Option BlockHandle)) :
    Except Fault α → List (Option BlockHandle)
  | .ok a => f a
  | .error _ => []

@[simp] theorem slots_nil : slots [] = 0 := rfl

@[simp] theorem slots_none (hs : List (Option BlockHandle)) : slots (none :: hs) = slots hs := by
  simp [slots]

@[simp] theorem slots_some (h : BlockHandle) (hs : List (Option BlockHandle)) :
    slots (some h :: hs) = h.slot ::ₘ slots hs := by
  simp [slots]

theorem slots_append (hs hs' : List (Option BlockHandle)) :
    slots (hs ++ hs') = slots hs + slots hs' := by
  simp [slots]

theorem slots_perm {hs hs' : List (Option BlockHandle)} (h : hs.Perm hs') : slots hs = slots hs' :=
  Multiset.coe_eq_coe.mpr (h.filterMap _)

-- What an operation that looks blocks up can do to a manager and to the slots that
-- the live handles point to: read the clock, make a handle, or make one and let it die.
inductive Access : BlockManager × Multiset Nat → BlockManager × Multiset Nat → Prop
  | tick {m m' : BlockManager} {H : Multiset Nat} (hp : m'.pool = m.pool)
      (hs : m'.store = m.store) : Access (m, H) (m', H)
  | touch {m : BlockManager} {H : Multiset Nat} {id : Nat} {r : BlockRecord}
      (hr : m.store.records[id]? = some r) (hready : r.state = .Ready) :
      Access (m, H) (m.touched id, id ::ₘ H)
  | glance {m : BlockManager} {H : Multiset Nat} {id : Nat} {r : BlockRecord}
      (hr : m.store.records[id]? = some r) (hready : r.state = .Ready) :
      Access (m, H) ((m.touched id).released id, H)

abbrev Accesses : BlockManager × Multiset Nat → BlockManager × Multiset Nat → Prop :=
  Relation.ReflTransGen Access

theorem Access.sameBlocks {x x' : BlockManager × Multiset Nat} (h : Access x x') :
    SameBlocks x.1 x'.1 := by
  cases h with
  | tick hp hs => exact .of_eq hp hs
  | touch hr hready => exact touched_sameBlocks _ _
  | glance hr hready => exact (touched_sameBlocks _ _).trans (released_sameBlocks _ _)

theorem Access.inStep {x x' : BlockManager × Multiset Nat} (h : Access x x') (hx : x.1.InStep) :
    x'.1.InStep := h.sameBlocks.inStep hx

theorem Accesses.sameBlocks {x x' : BlockManager × Multiset Nat} (h : Accesses x x') :
    SameBlocks x.1 x'.1 := by
  induction h with
  | refl => exact .refl _
  | tail _ hlast ih => exact ih.trans hlast.sameBlocks

section FetchLocal

variable {r : BlockRecord}

-- What `fetchLocal` answers, by the record of the slot.
theorem fetchLocal_eq (hm : m.InStep) (id generation : Nat) :
    (fetchLocal id generation).run m =
      match m.store.records[id]? with
      | none => (.ok ⟨.NotFound, none⟩, m)
      | some r =>
          if r.generation = 0 then (.ok ⟨.NotFound, none⟩, m)
          else if r.generation ≠ generation then (.ok ⟨.StaleGeneration, none⟩, m)
          else if r.state ≠ .Ready then (.ok ⟨.NotFound, none⟩, m)
          else (.ok ⟨.Hit, some ⟨id⟩⟩, m.touched id) := by
  simp only [fetchLocal, Exec.read_bind_run]
  cases hr : m.store.records[id]? with
  | none =>
      have hcap : m.pool.capacity ≤ id := by
        rw [← hm.records_length]
        exact List.getElem?_eq_none_iff.mp hr
      rw [if_pos hcap]
      rfl
  | some r =>
      have hlt := lt_of_getElem? hr
      rw [if_neg (Nat.not_le.mpr (hm.records_length ▸ hlt))]
      simp only [Exec.check_bind_run, BlockStore.get_eq_ok.mpr hr]
      split
      · rfl
      · split
        · rfl
        · split
          · rfl
          · rw [Exec.bind_ok (touch_eq hlt)]
            rfl

-- A hit is on a ready block of the generation asked for.
theorem fetchLocal_hit (hm : m.InStep) (hr : m.store.records[id]? = some r)
    (hready : r.state = .Ready) :
    (fetchLocal id r.generation).run m = (.ok ⟨.Hit, some ⟨id⟩⟩, m.touched id) := by
  have hgen : r.generation ≠ 0 := by
    have := (hm.identity hr (by simp [hready])).2.2
    omega
  rw [fetchLocal_eq hm]
  simp [hr, hgen, hready]

-- Any other answer leaves everything as it was.
theorem fetchLocal_cases (hm : m.InStep) (id generation : Nat) :
    (∃ r, m.store.records[id]? = some r ∧ r.generation = generation ∧ r.state = .Ready ∧
        (fetchLocal id generation).run m = (.ok ⟨.Hit, some ⟨id⟩⟩, m.touched id)) ∨
      ∃ status, status ≠ .Hit ∧ (fetchLocal id generation).run m = (.ok ⟨status, none⟩, m) := by
  rw [fetchLocal_eq hm]
  cases hr : m.store.records[id]? with
  | none => exact .inr ⟨.NotFound, by simp, rfl⟩
  | some r =>
      simp only
      by_cases h0 : r.generation = 0
      · exact .inr ⟨.NotFound, by simp, by rw [if_pos h0]⟩
      · by_cases hgen : r.generation ≠ generation
        · exact .inr ⟨.StaleGeneration, by simp, by rw [if_neg h0, if_pos hgen]⟩
        · by_cases hready : r.state ≠ .Ready
          · exact .inr ⟨.NotFound, by simp, by rw [if_neg h0, if_neg hgen, if_pos hready]⟩
          · exact .inl ⟨r, rfl, not_not.mp hgen, not_not.mp hready,
              by rw [if_neg h0, if_neg hgen, if_neg hready]⟩

end FetchLocal

end BlockManager

end KVCache
