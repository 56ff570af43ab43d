import KVCache.Tier.TierManager

namespace KVCache.Tier.TierManager

open Lib

variable {tm : TierManager} {st : BlockStore} {id : Nat} {target : KVCache.Tier}

-- The manager after `place` has put a block into the tier `t`.
def placed (tm : TierManager) (target : KVCache.Tier) (t : TierStore) (id : BlockId)
    (p : PayloadStore) : TierManager :=
  { tm with payload_store := p }.setTierStore target
    { t with block_ids := insert id t.block_ids }

-- The manager after `remove` has taken a block out of the tier `t`.
def removed (tm : TierManager) (tier : KVCache.Tier) (t : TierStore) (id : BlockId)
    (p : PayloadStore) : TierManager :=
  { tm with payload_store := p }.setTierStore tier (t.remove id)

-- The ways in which `place` can end.
inductive PlaceCase (tm : TierManager) (st : BlockStore) (id : BlockId) (target : KVCache.Tier)
    (bytes : List UInt8) : Except Fault TierOpResult → TierManager × BlockStore → Prop
  | unknown (e : Fault) (ht : tm.tiers target = none) :
      PlaceCase tm st id target bytes (.error e) (tm, st)
  | full {t : TierStore} (ht : tm.tiers target = some t) (hcap : t.hasCapacity = false) :
      PlaceCase tm st id target bytes (.ok { status := .CapacityExceeded }) (tm, st)
  | noPayload {t : TierStore} (e : Fault) (ht : tm.tiers target = some t)
      (hcap : t.hasCapacity = true) (hput : tm.payload_store.put bytes = .error e) :
      PlaceCase tm st id target bytes (.error e) (tm, st)
  | noRecord {t : TierStore} {ref : PayloadRef} {p : PayloadStore} (e : Fault)
      (ht : tm.tiers target = some t) (hput : tm.payload_store.put bytes = .ok (ref, p))
      (hid : st.records.length ≤ id) :
      PlaceCase tm st id target bytes (.error e) (tm.placed target t id p, st)
  | placed {t : TierStore} {ref : PayloadRef} {p : PayloadStore} {ns : Nat}
      (ht : tm.tiers target = some t) (hcap : t.hasCapacity = true)
      (hput : tm.payload_store.put bytes = .ok (ref, p)) (hid : id < st.records.length) :
      PlaceCase tm st id target bytes (.ok ⟨.Success, ns⟩)
        (tm.placed target t id p,
          ⟨st.records.modify id fun r => { r with tier := target, payload := ref }⟩)

theorem onStore_write {what : String} {f : BlockRecord → BlockRecord}
    (h : id < st.records.length) :
    (onStore fun st => st.write what id f).run (tm, st) =
      (.ok (), (tm, ⟨st.records.modify id f⟩)) := by
  simp [onStore, Exec.update, BlockStore.write_of_lt h]

theorem onStore_write_error {what : String} {f : BlockRecord → BlockRecord}
    (h : st.records.length ≤ id) :
    (onStore fun st => st.write what id f).run (tm, st) =
      (.error (.logic_error what), (tm, st)) := by
  simp [onStore, Exec.update, BlockStore.write, h]

theorem addTo_eq {t : TierStore} (hcap : t.hasCapacity = true) :
    (addTo target t id).run (tm, st) =
      (.ok (), (tm.setTierStore target { t with block_ids := insert id t.block_ids }, st)) := by
  simp [addTo, Exec.update, TierStore.add, hcap]

theorem place_cases (tm : TierManager) (st : BlockStore) (id : BlockId) (target : KVCache.Tier)
    (bytes : List UInt8) :
    PlaceCase tm st id target bytes ((place id target bytes).run (tm, st)).1
      ((place id target bytes).run (tm, st)).2 := by
  simp only [place, Exec.read_bind_run]
  cases ht : tm.tiers target with
  | none => exact .unknown _ ht
  | some t =>
      simp only
      cases hcap : t.hasCapacity with
      | false =>
          rw [if_pos rfl]
          exact .full ht hcap
      | true =>
          rw [if_neg (by simp)]
          cases hput : tm.payload_store.put bytes with
          | error e =>
              have hrun : (putPayload bytes).run (tm, st) = (.error e, (tm, st)) := by
                simp [putPayload, hput]
              rw [Exec.bind_error hrun]
              exact .noPayload e ht hcap hput
          | ok r =>
              obtain ⟨ref, p⟩ := r
              have hrun : (putPayload bytes).run (tm, st) =
                  (.ok ref, ({ tm with payload_store := p }, st)) := by
                simp [putPayload, hput]
              rw [Exec.bind_ok hrun, Exec.bind_ok (addTo_eq hcap)]
              simp only [BlockStore.setTier, BlockStore.setPayload]
              by_cases hid : id < st.records.length
              · rw [Exec.bind_ok (onStore_write hid),
                  Exec.bind_ok (onStore_write (by simpa using hid)), List.modify_modify_eq]
                exact .placed ht hcap hput hid
              · rw [Exec.bind_error (onStore_write_error (Nat.not_lt.mp hid))]
                exact .noRecord _ ht hput (Nat.not_lt.mp hid)

-- The ways in which `remove` can end.
inductive RemoveCase (tm : TierManager) (st : BlockStore) (id : BlockId) :
    Except Fault TierOpResult → TierManager × BlockStore → Prop
  | absent (h : ∀ tier t, tm.tiers tier = some t → id ∉ t.block_ids) :
      RemoveCase tm st id (.ok { status := .BlockNotFound }) (tm, st)
  | failed {tier : KVCache.Tier} {t : TierStore} (e : Fault) (ht : tm.tiers tier = some t)
      (hid : id ∈ t.block_ids)
      (hfail : ∀ r, st.records[id]? = some r → tm.payload_store.remove r.payload = .error e) :
      RemoveCase tm st id (.error e) (tm, st)
  | removed {tier : KVCache.Tier} {t : TierStore} {r : BlockRecord} {p : PayloadStore} {ns : Nat}
      (ht : tm.tiers tier = some t) (hid : id ∈ t.block_ids) (hr : st.records[id]? = some r)
      (hp : tm.payload_store.remove r.payload = .ok p) :
      RemoveCase tm st id (.ok ⟨.Success, ns⟩) (tm.removed tier t id p, st)

private theorem removeFrom_cases (order : List KVCache.Tier)
    (hrest : ∀ tier t, tm.tiers tier = some t → id ∈ t.block_ids → tier ∈ order) :
    RemoveCase tm st id ((removeFrom id order).run (tm, st)).1
      ((removeFrom id order).run (tm, st)).2 := by
  -- the tiers already passed do not have the block
  induction order with
  | nil =>
      refine .absent fun tier t ht hid => ?_
      cases hrest tier t ht hid
  | cons tier order ih =>
      simp only [removeFrom, Exec.read_bind_run]
      cases ht : tm.tiers tier with
      | none =>
          refine ih fun tier' t' ht' hid' => ?_
          rcases List.mem_cons.mp (hrest tier' t' ht' hid') with rfl | h
          · rw [ht] at ht'
            cases ht'
          · exact h
      | some t =>
          simp only
          by_cases hid : id ∈ t.block_ids
          · rw [if_neg (by simp [TierStore.contains, hid])]
            simp only [Exec.check_bind_run, BlockStore.get]
            cases hr : st.records[id]? with
            | none => exact .failed _ ht hid (by simp [hr])
            | some r =>
                simp only
                cases hp : tm.payload_store.remove r.payload with
                | error e =>
                    have hrun : (removePayload r.payload).run (tm, st) =
                        (.error e, (tm, st)) := by
                      simp [removePayload, Exec.update, hp]
                    rw [Exec.bind_error hrun]
                    refine .failed e ht hid fun r' hr' => ?_
                    rw [hr] at hr'
                    cases hr'
                    exact hp
                | ok p =>
                    have hrun : (removePayload r.payload).run (tm, st) =
                        (.ok (), ({ tm with payload_store := p }, st)) := by
                      simp [removePayload, Exec.update, hp]
                    rw [Exec.bind_ok hrun]
                    exact .removed ht hid hr hp
          · rw [if_pos (by simp [TierStore.contains, hid])]
            refine ih fun tier' t' ht' hid' => ?_
            rcases List.mem_cons.mp (hrest tier' t' ht' hid') with rfl | h
            · rw [ht] at ht'
              cases ht'
              exact absurd hid' hid
            · exact h

theorem remove_cases (tm : TierManager) (st : BlockStore) (id : BlockId) :
    RemoveCase tm st id ((remove id).run (tm, st)).1 ((remove id).run (tm, st)).2 :=
  removeFrom_cases tierOrder fun tier _ _ _ => by cases tier <;> simp [tierOrder]

-- The manager after `migrate` has moved a block from the tier `source` to `target`.
def moved (tm : TierManager) (source : KVCache.Tier) (t : TierStore) (target : KVCache.Tier)
    (t' : TierStore) (id : BlockId) : TierManager :=
  (tm.setTierStore source (t.remove id)).setTierStore target
    { t' with block_ids := insert id t'.block_ids }

-- The ways in which `promote` and `demote` can end. The tier `t'` that takes the block
-- is the one found after the block has left its own.
inductive MigrateCase (tm : TierManager) (st : BlockStore) (id : BlockId)
    (target : KVCache.Tier) : Except Fault TierOpResult → TierManager × BlockStore → Prop
  | failed (e : Fault) : MigrateCase tm st id target (.error e) (tm, st)
  | refused (res : TierOpResult) (hres : res.status ≠ .Success) :
      MigrateCase tm st id target (.ok res) (tm, st)
  | moved {r : BlockRecord} {t t' : TierStore} {ns : Nat} (hr : st.records[id]? = some r)
      (ht : tm.tiers r.tier = some t) (hid : id ∈ t.block_ids)
      (ht' : (tm.setTierStore r.tier (t.remove id)).tiers target = some t')
      (hcap : t'.hasCapacity = true) :
      MigrateCase tm st id target (.ok ⟨.Success, ns⟩)
        (tm.moved r.tier t target t' id, ⟨st.records.modify id fun r => { r with tier := target }⟩)

theorem hasCapacity_remove {t : TierStore} (h : t.hasCapacity = true) (id : BlockId) :
    (t.remove id).hasCapacity = true := by
  have hle : (t.block_ids.erase id).card ≤ t.block_ids.card := Finset.card_erase_le
  exact decide_eq_true (lt_of_le_of_lt hle (of_decide_eq_true h))

-- A block that its tier has moves to a tier with room.
theorem migrate_moves {r : BlockRecord} {t t' : TierStore} (what : String)
    {target : KVCache.Tier} (hr : st.records[id]? = some r) (ht : tm.tiers r.tier = some t)
    (hid : id ∈ t.block_ids) (ht' : tm.tiers target = some t') (hcap : t'.hasCapacity = true) :
    ∃ t'' ns, (tm.setTierStore r.tier (t.remove id)).tiers target = some t'' ∧
      t''.hasCapacity = true ∧ (migrate what id target).run (tm, st) =
        (.ok ⟨.Success, ns⟩, (tm.moved r.tier t target t'' id,
          ⟨st.records.modify id fun r => { r with tier := target }⟩)) := by
  have hagain : ∃ t'', (tm.setTierStore r.tier (t.remove id)).tiers target = some t'' ∧
      t''.hasCapacity = true := by
    by_cases hne : r.tier = target
    · rw [← hne, ht] at ht'
      cases ht'
      exact ⟨t.remove id, by simp [setTierStore, hne], hasCapacity_remove hcap id⟩
    · exact ⟨t', by simp [setTierStore, Ne.symm hne, ht'], hcap⟩
  obtain ⟨t'', hagain, hcap'⟩ := hagain
  refine ⟨t'', tm.latency_model.migrationNs r.tier target tm.payload_store.bytes_per_block,
    hagain, hcap', ?_⟩
  have hlt := (List.getElem?_eq_some_iff.mp hr).1
  simp only [migrate, Exec.check_bind_run, BlockStore.get, hr, Exec.read_bind_run, ht, ht']
  rw [if_neg (by simp [TierStore.contains, hid]), if_neg (by simp [hcap])]
  simp only [Exec.modify_bind_run, Exec.read_bind_run, hagain, Option.getD_some]
  rw [Exec.bind_ok (addTo_eq hcap')]
  simp only [BlockStore.setTier]
  rw [Exec.bind_ok (onStore_write hlt)]
  rfl

theorem migrate_cases (tm : TierManager) (st : BlockStore) (id : BlockId) (what : String)
    (target : KVCache.Tier) :
    MigrateCase tm st id target ((migrate what id target).run (tm, st)).1
      ((migrate what id target).run (tm, st)).2 := by
  cases hr : st.records[id]? with
  | none =>
      simp only [migrate, Exec.check_bind_run, BlockStore.get, hr]
      exact .failed _
  | some r =>
      cases ht : tm.tiers r.tier with
      | none =>
          simp only [migrate, Exec.check_bind_run, BlockStore.get, hr, Exec.read_bind_run, ht]
          exact .refused _ (by simp)
      | some t =>
          by_cases hid : id ∈ t.block_ids
          · cases ht' : tm.tiers target with
            | none =>
                simp only [migrate, Exec.check_bind_run, BlockStore.get, hr, Exec.read_bind_run,
                  ht, ht']
                rw [if_neg (by simp [TierStore.contains, hid])]
                exact .failed _
            | some t' =>
                cases hcap : t'.hasCapacity with
                | false =>
                    simp only [migrate, Exec.check_bind_run, BlockStore.get, hr,
                      Exec.read_bind_run, ht, ht']
                    rw [if_neg (by simp [TierStore.contains, hid]), if_pos hcap]
                    exact .refused _ (by simp)
                | true =>
                    obtain ⟨t'', ns, hagain, hcap', hrun⟩ := migrate_moves what hr ht hid ht' hcap
                    rw [hrun]
                    exact .moved hr ht hid hagain hcap'
          · simp only [migrate, Exec.check_bind_run, BlockStore.get, hr, Exec.read_bind_run, ht]
            rw [if_pos (by simp [TierStore.contains, hid])]
            exact .refused _ (by simp)

end KVCache.Tier.TierManager
