import KVCache.Lib.FreeList
import KVCache.Tier.Moves

namespace KVCache.Tier

open Lib

-- The buffers of a payload store are dealt out to the owners of `cell`.
structure PayloadStore.Backs (p : PayloadStore) (max_blocks bytes_per_block : Nat)
    (cell : Nat → Option Nat) : Prop where
  max_blocks_eq : p.max_blocks = max_blocks
  bytes_eq : p.bytes_per_block = bytes_per_block
  buffers : 0 < bytes_per_block → p.buffers.length = max_blocks
  dealt : 0 < bytes_per_block → DealtOut max_blocks p.free_list cell

namespace PayloadStore

variable {p p' : PayloadStore} {max_blocks bytes_per_block : Nat} {cell : Nat → Option Nat}
  {ref : PayloadRef} {id : Nat}

theorem new_backs (max_blocks bytes_per_block : Nat) :
    (new max_blocks bytes_per_block).Backs max_blocks bytes_per_block fun _ => none := by
  unfold new
  split
  · exact ⟨rfl, rfl, fun _ => by simp, fun _ => .range _⟩
  · rename_i h
    exact ⟨rfl, rfl, fun hpos => absurd hpos h, fun hpos => absurd hpos h⟩

theorem Backs.put {bytes : List UInt8} (h : p.Backs max_blocks bytes_per_block cell) (id : Nat)
    (hid : cell id = none) (hput : p.put bytes = .ok (ref, p')) :
    p'.Backs max_blocks bytes_per_block (Function.update cell id (some ref.index)) := by
  unfold PayloadStore.put at hput
  rw [h.bytes_eq] at hput
  split at hput
  · rename_i hzero
    cases hput
    exact ⟨h.max_blocks_eq, h.bytes_eq, fun hpos => absurd hzero (by omega),
      fun hpos => absurd hzero (by omega)⟩
  · split at hput
    · cases hput
    · rename_i slot rest hfree
      cases hput
      refine ⟨h.max_blocks_eq, rfl, fun hpos => ?_, fun hpos => ?_⟩
      · rw [List.length_modify]
        exact h.buffers hpos
      · have hdealt := h.dealt hpos
        rw [hfree] at hdealt
        exact hdealt.take hid

-- Only a store without a free buffer refuses a payload.
theorem put_error_iff (bytes : List UInt8) :
    (∃ e, p.put bytes = .error e) ↔ 0 < p.bytes_per_block ∧ p.free_list = [] := by
  unfold put
  split
  · rename_i hzero
    simp [hzero]
  · rename_i hpos
    split
    · rename_i hfree
      simp [hfree, Nat.pos_of_ne_zero hpos]
    · rename_i hfree
      simp [hfree]

variable (hmax : max_blocks < 2 ^ 32)

include hmax in
private theorem valid_of_cell (h : p.Backs max_blocks bytes_per_block cell)
    (hpos : 0 < bytes_per_block) (hid : cell id = some ref.index) :
    ref.valid = true ∧ ref.index < p.buffers.length := by
  have hlt := (h.dealt hpos).cell_lt hid
  refine ⟨?_, h.buffers hpos ▸ hlt⟩
  have hne : ref.index ≠ PayloadRef.INVALID := by
    unfold PayloadRef.INVALID
    omega
  exact decide_eq_true hne

include hmax in
-- A buffer that has an owner can be given back.
theorem Backs.remove_ok (h : p.Backs max_blocks bytes_per_block cell) (id : Nat) (ref : PayloadRef)
    (hid : cell id = some ref.index) : ∃ p', p.remove ref = .ok p' := by
  unfold PayloadStore.remove
  split
  · exact ⟨p, rfl⟩
  · rename_i hnot
    have hpos : 0 < bytes_per_block := Nat.pos_of_ne_zero fun h0 => hnot (.inr (h.bytes_eq ▸ h0))
    rw [if_neg (Nat.not_le.mpr (valid_of_cell hmax h hpos hid).2)]
    exact ⟨_, rfl⟩

include hmax in
theorem Backs.remove (h : p.Backs max_blocks bytes_per_block cell) (id : Nat)
    (hid : cell id = some ref.index) (hremove : p.remove ref = .ok p') :
    p'.Backs max_blocks bytes_per_block (Function.update cell id none) ∧
      (0 < bytes_per_block → p'.free_list = ref.index :: p.free_list) := by
  unfold PayloadStore.remove at hremove
  by_cases hpos : 0 < bytes_per_block
  · obtain ⟨hvalid, hlt⟩ := valid_of_cell hmax h hpos hid
    have hbytes : p.bytes_per_block ≠ 0 := h.bytes_eq ▸ Nat.pos_iff_ne_zero.mp hpos
    rw [if_neg (by simp [hvalid, hbytes]), if_neg (Nat.not_le.mpr hlt)] at hremove
    cases hremove
    exact ⟨⟨h.max_blocks_eq, h.bytes_eq, h.buffers, fun _ => (h.dealt hpos).give hid⟩, fun _ => rfl⟩
  · have hbytes : p.bytes_per_block = 0 := by rw [h.bytes_eq]; omega
    rw [if_pos (.inr hbytes)] at hremove
    cases hremove
    exact ⟨⟨h.max_blocks_eq, h.bytes_eq, h.buffers, fun h => absurd h hpos⟩, fun h => absurd h hpos⟩

include hmax in
-- What is used is what the owners have.
theorem Backs.bytesUsed (h : p.Backs max_blocks bytes_per_block cell) {owners : Finset Nat}
    (howners : ∀ id, id ∈ owners ↔ (cell id).isSome) (hpos : 0 < bytes_per_block) :
    p.bytesUsed = owners.card * bytes_per_block % 2 ^ 64 := by
  have hcard := (h.dealt hpos).length_add_card howners
  have hused : (p.max_blocks + (2 ^ 64 - p.free_list.length % 2 ^ 64)) % 2 ^ 64 = owners.card := by
    rw [h.max_blocks_eq]
    omega
  unfold PayloadStore.bytesUsed
  rw [if_neg (by rw [h.bytes_eq]; omega)]
  simp only [hused, h.bytes_eq]

end PayloadStore

-- What a tier manager is set up with; the counts of blocks have 32 bits.
structure TierConfig where
  capacities : KVCache.Tier → Option Nat
  max_blocks : Nat
  bytes_per_block : Nat
  max_blocks_lt : max_blocks < 2 ^ 32

namespace TierManager

-- A tier manager whose tiers are empty.
def new (config : TierConfig) (latency_model : LatencyModel) : TierManager where
  tiers tier := (config.capacities tier).map fun capacity => { capacity_blocks := capacity }
  payload_store := .new config.max_blocks config.bytes_per_block
  latency_model := latency_model

-- The tiers hold the blocks that `location` places, each in the tier it names, and the
-- buffers are those it names.
structure Accounts (tm : TierManager) (config : TierConfig)
    (location : Nat → Option (KVCache.Tier × PayloadRef)) : Prop where
  tiers : ∀ {tier id}, (∃ t, tm.tiers tier = some t ∧ id ∈ t.block_ids) ↔
    ∃ ref, location id = some (tier, ref)
  configured : ∀ tier, (tm.tiers tier).map (·.capacity_blocks) = config.capacities tier
  capacity : ∀ {tier t}, tm.tiers tier = some t → t.block_ids.card ≤ t.capacity_blocks
  backs : tm.payload_store.Backs config.max_blocks config.bytes_per_block fun id =>
    (location id).map (·.2.index)

-- The tiers hold the blocks that `place` puts there, each within its capacity.
structure Sorts (tm : TierManager) (config : TierConfig) (place : Nat → Option KVCache.Tier) :
    Prop where
  tiers : ∀ {tier id}, (∃ t, tm.tiers tier = some t ∧ id ∈ t.block_ids) ↔ place id = some tier
  configured : ∀ tier, (tm.tiers tier).map (·.capacity_blocks) = config.capacities tier
  capacity : ∀ {tier t}, tm.tiers tier = some t → t.block_ids.card ≤ t.capacity_blocks

namespace Sorts

variable {tm : TierManager} {config : TierConfig} {place place' : Nat → Option KVCache.Tier}
  {tier : KVCache.Tier} {t t' : TierStore} {id : Nat}

-- The payloads have no part in it.
theorem withPayloads (h : tm.Sorts config place) (p : PayloadStore) :
    Sorts { tm with payload_store := p } config place :=
  ⟨h.tiers, h.configured, h.capacity⟩

theorem mem (h : tm.Sorts config place) (ht : tm.tiers tier = some t) :
    id ∈ t.block_ids ↔ place id = some tier := by
  rw [← h.tiers, ht]
  simp

-- One tier is written back with the capacity it had, the others stay.
theorem write (h : tm.Sorts config place) (ht : tm.tiers tier = some t)
    (hcap : t'.capacity_blocks = t.capacity_blocks) (hle : t'.block_ids.card ≤ t'.capacity_blocks)
    (hin : ∀ id, id ∈ t'.block_ids ↔ place' id = some tier)
    (hother : ∀ id tier', tier' ≠ tier → (place' id = some tier' ↔ place id = some tier')) :
    (tm.setTierStore tier t').Sorts config place' := by
  refine ⟨fun {tier' id} => ?_, fun tier' => ?_, fun {tier' t''} ht'' => ?_⟩
  · by_cases htier : tier' = tier
    · subst htier
      simp [setTierStore, hin]
    · rw [hother id tier' htier, ← h.tiers]
      simp only [setTierStore, Function.update_of_ne htier]
  · rw [← h.configured tier']
    simp only [setTierStore]
    by_cases htier : tier' = tier
    · subst htier
      rw [Function.update_self, ht]
      exact congrArg some hcap
    · rw [Function.update_of_ne htier]
  · simp only [setTierStore] at ht''
    by_cases htier : tier' = tier
    · subst htier
      rw [Function.update_self] at ht''
      cases ht''
      exact hle
    · rw [Function.update_of_ne htier] at ht''
      exact h.capacity ht''

theorem enter (h : tm.Sorts config place) (hid : place id = none) (ht : tm.tiers tier = some t)
    (hcap : t.hasCapacity = true) :
    (tm.setTierStore tier { t with block_ids := insert id t.block_ids }).Sorts config
      (Function.update place id (some tier)) := by
  have hlt : t.block_ids.card < t.capacity_blocks := of_decide_eq_true hcap
  refine h.write ht rfl (le_trans (Finset.card_insert_le _ _) hlt) (fun id' => ?_)
    fun id' tier' htier => ?_
  · rw [Finset.mem_insert, h.mem ht]
    by_cases hid' : id' = id
    · subst hid'
      simp
    · simp [hid']
  · by_cases hid' : id' = id
    · subst hid'
      simp [hid, Ne.symm htier]
    · rw [Function.update_of_ne hid']

theorem leave (h : tm.Sorts config place) (hid : place id = some tier)
    (ht : tm.tiers tier = some t) :
    (tm.setTierStore tier (t.remove id)).Sorts config (Function.update place id none) := by
  refine h.write ht rfl (le_trans Finset.card_erase_le (h.capacity ht)) (fun id' => ?_)
    fun id' tier' htier => ?_
  · rw [TierStore.remove, Finset.mem_erase, h.mem ht]
    by_cases hid' : id' = id
    · subst hid'
      simp
    · simp [hid']
  · by_cases hid' : id' = id
    · subst hid'
      simp [hid, Ne.symm htier]
    · rw [Function.update_of_ne hid']

end Sorts

namespace Accounts

variable {tm : TierManager} {config : TierConfig}
  {location : Nat → Option (KVCache.Tier × PayloadRef)} {id : Nat} {ref : PayloadRef}

theorem new (config : TierConfig) (latency_model : LatencyModel) :
    (TierManager.new config latency_model).Accounts config fun _ => none := by
  refine ⟨fun {tier id} => ?_, fun tier => ?_, fun {tier t} ht => ?_, PayloadStore.new_backs _ _⟩
  · constructor
    · rintro ⟨t, ht, hid⟩
      obtain ⟨capacity, -, rfl⟩ := Option.map_eq_some_iff.mp ht
      cases hid
    · rintro ⟨ref, href⟩
      cases href
  · simp only [TierManager.new, Option.map_map]
    exact Option.map_id'
  · obtain ⟨capacity, -, rfl⟩ := Option.map_eq_some_iff.mp ht
    exact Nat.zero_le _

-- To account for the blocks is to sort them into their tiers and to back them with buffers.
theorem sorts (h : tm.Accounts config location) :
    tm.Sorts config fun id => (location id).map Prod.fst := by
  refine ⟨fun {tier id} => ?_, h.configured, h.capacity⟩
  rw [h.tiers, Option.map_eq_some_iff]
  simp

theorem of_sorts (h : tm.Sorts config fun id => (location id).map Prod.fst)
    (hback : tm.payload_store.Backs config.max_blocks config.bytes_per_block fun id =>
      (location id).map (·.2.index)) : tm.Accounts config location := by
  refine ⟨fun {tier id} => ?_, h.configured, h.capacity, hback⟩
  rw [h.tiers, Option.map_eq_some_iff]
  simp

-- What is read off a location changes where the location does.
private theorem map_update {α β : Type} (location : Nat → Option α) (id : Nat)
    (new : Option α) (f : α → β) :
    (fun k => (Function.update location id new k).map f) =
      Function.update (fun k => (location k).map f) id (new.map f) :=
  Function.comp_update (Option.map f) location id new

theorem placed (h : tm.Accounts config location) {tier : KVCache.Tier}
    {t : TierStore} {p : PayloadStore} {bytes : List UInt8} (hid : location id = none)
    (ht : tm.tiers tier = some t) (hcap : t.hasCapacity = true)
    (hput : tm.payload_store.put bytes = .ok (ref, p)) :
    (tm.placed tier t id p).Accounts config
      (Function.update location id (some (tier, ref))) := by
  refine of_sorts ?_ ?_
  · rw [map_update]
    exact (h.sorts.withPayloads p).enter (by rw [hid]; rfl) ht hcap
  · rw [map_update]
    exact h.backs.put id (by rw [hid]; rfl) hput

theorem removed (h : tm.Accounts config location) {tier : KVCache.Tier}
    {t : TierStore} {p : PayloadStore}
    (hid : location id = some (tier, ref)) (ht : tm.tiers tier = some t)
    (hp : tm.payload_store.remove ref = .ok p) :
    (tm.removed tier t id p).Accounts config
      (Function.update location id none) := by
  refine of_sorts ?_ ?_
  · rw [map_update]
    exact (h.sorts.withPayloads p).leave (by rw [hid]; rfl) ht
  · rw [map_update]
    exact (h.backs.remove config.max_blocks_lt id (by rw [hid]; rfl) hp).1

-- A block that moves leaves its tier, enters the other, and keeps its buffer.
theorem moved (h : tm.Accounts config location) {source target : KVCache.Tier}
    {t t' : TierStore} (hid : location id = some (source, ref)) (ht : tm.tiers source = some t)
    (ht' : (tm.setTierStore source (t.remove id)).tiers target = some t')
    (hcap : t'.hasCapacity = true) :
    (tm.moved source t target t' id).Accounts config
      (Function.update location id (some (target, ref))) := by
  refine of_sorts ?_ ?_
  · have hleft := h.sorts.leave (by rw [hid]; rfl) ht
    have hentered := hleft.enter (Function.update_self _ _ _) ht' hcap
    rw [Function.update_idem] at hentered
    rw [map_update]
    exact hentered
  · rw [map_update, Function.update_eq_self_iff.mpr (by rw [hid]; rfl)]
    exact h.backs

end Accounts

end TierManager

end KVCache.Tier

-- Tiers of `capacity` blocks each over a payload store of one buffer.
def KVCache.Sample.oneBuffer (capacity bytes_per_block : Nat) : KVCache.Tier.TierConfig where
  capacities _ := some capacity
  max_blocks := 1
  bytes_per_block
  max_blocks_lt := by decide
