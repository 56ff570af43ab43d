import KVCache.Session.Recency

namespace KVCache

open Lib Controller Policy Prefix Sim Tier

variable {π : Type} {env : Env π} {b C n t : Nat} {m : BlockManager} {id : Nat}

namespace BlockManager

-- The clock stands still at `t`, and every block in the cache was accessed at that time.
structure Frozen (t : Nat) (m : BlockManager) : Prop where
  clock : ∀ k, m.clock.readings k = t
  stamp : ∀ id, (∃ r, m.store.records[id]? = some r ∧ r.state = .Ready) → m.stamp id = t

namespace Frozen

theorem later {m' : BlockManager} (h : Frozen t m) (hstore : m'.store = m.store)
    (hclock : m.clock.Later m'.clock) : Frozen t m' := by
  refine ⟨fun k => ?_, fun id hid => ?_⟩
  · rw [hclock.readings]
    exact h.clock k
  · rw [hstore] at hid
    rw [BlockManager.stamp, hstore]
    exact h.stamp id hid

theorem touched (h : Frozen t m) (hid : ∃ r, m.store.records[id]? = some r) :
    Frozen t (m.touched id) := by
  refine ⟨h.clock, fun j hj => ?_⟩
  rw [Recent.stamp_touched hid]
  split
  · exact h.clock _
  · apply h.stamp
    exact (Recent.ready_iff (touched_sameBlocks m id) j).mp hj

theorem released (h : Frozen t m) (id : BlockId) : Frozen t (m.released id) := by
  have hstamp : (m.released id).stamp = m.stamp :=
    Recent.stamp_withRecord m id fun r => by simp only
  refine ⟨h.clock, fun j hj => ?_⟩
  rw [hstamp]
  apply h.stamp
  exact (Recent.ready_iff (released_sameBlocks m id) j).mp hj

theorem freed (h : Frozen t m) (id : BlockId) : Frozen t (m.freed id) := by
  refine ⟨h.clock, fun j hj => ?_⟩
  obtain ⟨r, hr, hready⟩ := hj
  rw [freed_getElem?] at hr
  split at hr
  · obtain ⟨_, -, rfl⟩ := Option.map_eq_some_iff.mp hr
    cases hready
  · rename_i hne
    have hsame := h.stamp j ⟨r, hr, hready⟩
    rwa [BlockManager.stamp, List.getD_eq_getElem?_getD, freed_getElem?, if_neg hne,
      ← List.getD_eq_getElem?_getD]

theorem entered (h : Frozen t m) {rest : List BlockId} {r : BlockRecord}
    (hid : ∃ r₀, m.store.records[id]? = some r₀) :
    Frozen t ((m.taken id rest r).touched id) := by
  obtain ⟨r₀, hr₀⟩ := hid
  have hself : (m.taken id rest r).store.records[id]? = some r := by
    rw [taken_getElem?, if_pos rfl, hr₀]
    rfl
  refine ⟨h.clock, fun j hj => ?_⟩
  rw [Recent.stamp_touched ⟨r, hself⟩]
  split
  · exact h.clock _
  · rename_i hne
    obtain ⟨r', hr', hready⟩ := hj
    rw [touched_getElem?, if_neg hne, taken_getElem?, if_neg hne] at hr'
    have hsame := h.stamp j ⟨r', hr', hready⟩
    rwa [BlockManager.stamp, List.getD_eq_getElem?_getD, taken_getElem?, if_neg hne,
      ← List.getD_eq_getElem?_getD]

theorem touchedAll (h : Frozen t m) {ids : List BlockId}
    (hids : ∀ id ∈ ids, ∃ r, m.store.records[id]? = some r) :
    Frozen t (ids.foldl BlockManager.touched m) := by
  induction ids generalizing m with
  | nil => exact h
  | cons id ids ih =>
      apply ih (h.touched (hids id List.mem_cons_self))
      intro j hj
      obtain ⟨r, hr⟩ := hids j (List.mem_cons_of_mem _ hj)
      obtain ⟨r', hr', -⟩ := (touched_sameBlocks m id).record hr
      exact ⟨r', hr'⟩

end Frozen

end BlockManager

namespace Session

open AdmissionController

variable {s : Session π} {clock : Clock} {policy_state : π}

private theorem admitted_frozen (hs : s.cache.Settled C n) (h : s.cache.manager.Frozen t)
    {ctx : AdmissionContext} {candidate : BlockCandidate} {res : Except Fault AdmitResult}
    {c : Stack π} (hcase : AdmitCase env ctx candidate s.cache.ticked res c)
    (hclock : s.cache.ticked.manager.clock.Later c.manager.clock) : c.manager.Frozen t := by
  have hticked := hs.quiet s.cache.ticked_quiet
  have hticks : s.cache.manager.clock.Later s.cache.ticked.manager.clock :=
    s.cache.manager.clock.nowNs_later
  have hquiet : ∀ {c' : Stack π}, Quiet s.cache.ticked c' →
      s.cache.ticked.manager.clock.Later c'.manager.clock → c'.manager.Frozen t :=
    fun hq hlater => h.later hq.store (hticks.trans hlater)
  cases hcase with
  | badLength hlen => exact hquiet (Quiet.refl _) hclock
  | present htokens hfull => exact hquiet (Quiet.refl _) hclock
  | noParent htokens habsent hparent => exact hquiet (Quiet.refl _) hclock
  | rejected he hd hq => exact hquiet hq hclock
  | noSpace he hd hroom hv hq => exact hquiet hq hclock
  | evictRefused e he hv hnot hq => exact hquiet hq hclock
  | evictStuck e he hv hq hr hready href hstuck =>
      exact absurd (hticked.quiet hq).untiered hstuck.not_untiered
  | leaked e he hd hroom hfree hmis =>
      exact absurd (Room.cleared hticked hroom).untiered hmis.not_untiered
  | @admitted s₁ s₂ id rest tm ext ref he hd hroom hfree hplace hs₂ =>
      subst hs₂
      obtain ⟨hs₁, -⟩ := hroom.spec hticked.inStep
      obtain ⟨r₀, hr₀, -⟩ := hs₁.next_free hfree
      -- the handle of the new block has read the clock once after `s₁`
      have hlater : s.cache.manager.clock.Later s₁.manager.clock :=
        ⟨hclock.readings, Nat.le_of_succ_le_succ hclock.reads⟩
      suffices hfrozen : s₁.manager.Frozen t from hfrozen.entered ⟨r₀, hr₀⟩
      cases hroom with
      | free hroom hq => exact h.later hq.store hlater
      | @evicted s₀ _ victim r tm hroom hv hq hr hready href hrem hq' =>
          have hstore : s₁.manager.store = (s.cache.manager.freed victim).store := by
            rw [hq'.store]
            simp only [Stack.evicted, BlockManager.freed, hq.store]
            rfl
          exact (h.freed victim).later hstore hlater

theorem step_frozen {op : SessionOp} (hop : op.Public) (hs : s.cache.Settled C n)
    (h : s.cache.manager.Frozen t) : (step env s op).cache.manager.Frozen t := by
  rcases hop with hop | ⟨candidate, rfl⟩
  · obtain ⟨hused, hrun⟩ := step_used env hs hop
    apply hrun _ fun m id hm => hm.released id
    apply h.touchedAll
    intro id hid
    obtain ⟨r, hr, -⟩ := hused id hid
    exact ⟨r, hr⟩
  · exact admitted_frozen hs h (admitBlock_cases env hs.inStep candidate)
      (AdmissionController.admitCandidate_readsClock env candidate
        (LocalCache.admitContext env candidate s.cache) s.cache.ticked)

-- With a clock that nobody advances, as that of the benchmark's workers, the LRU policy does
-- not see what was used when: in every run, what the next operation evicts is the first slot
-- that has no handle.
theorem lru_frozen (hlru : env.eviction = LruEvictionPolicy) (hclock : ∀ k, clock.readings k = t)
    (hrun : Run env (fun s op => op.Public ∧ FewHandles s.live)
      { cache := .new C b clock policy_state } s) (hfew : FewHandles s.live) {op : SessionOp}
    (hop : op.Public) :
    ∃ es, (step env s op).cache.events = s.cache.events ++ es ∧
      ∀ victim name ns, .BlockEvicted victim name ns ∈ es →
        victim < C ∧ victim ∉ s.live ∧ ∀ slot < C, slot ∉ s.live → victim ≤ slot := by
  have hfrozen : s.cache.Settled C s.admissions.length ∧ s.cache.manager.Frozen t :=
    Steps.invariant
      (I := fun s : Session π => s.cache.Settled C s.admissions.length ∧ s.cache.manager.Frozen t)
      (fun _ _ h hop => ⟨step_settled hop.1 h.1, step_frozen hop.1 h.1 h.2⟩) hrun
      ⟨new_settled C b clock policy_state, hclock, fun id ⟨r, hr, hready⟩ => by
        rw [(BlockManager.new_getElem? hr).2] at hready
        cases hready⟩
  obtain ⟨hs, h⟩ := hfrozen
  obtain ⟨-, hx⟩ := run_counted (.untiered C b clock policy_state) (hrun.mono fun _ _ h => h.2)
  obtain ⟨es, hes, hevicts⟩ := step_evicts env hs hop
  refine ⟨es, hes, fun victim name ns hmem => ?_⟩
  obtain ⟨candidate, -, hv⟩ := hevicts victim name ns hmem
  obtain ⟨⟨hready, hnot⟩, hleast⟩ := victim_oldest hlru hs hx hfew hv
  have hfull : C ≤ s.admissions.length := by
    rw [admissionVictim] at hv
    split at hv
    · rename_i hroom
      exact (noRoom_iff (hs.quiet s.cache.ticked_quiet) _).mp hroom
    · cases hv
  refine ⟨?_, hnot, fun slot hslot hslot' => ?_⟩
  · obtain ⟨r, hr, -⟩ := hready
    exact lt_of_lt_of_eq (BlockManager.lt_of_getElem? hr) hs.slots
  · obtain rfl | hne := eq_or_ne slot victim
    · exact Nat.le_refl _
    · have hslot_ready := hs.full hfull hslot
      have holder := hleast slot hslot_ready hslot' hne
      rw [h.stamp victim hready, h.stamp slot hslot_ready] at holder
      omega

private abbrev frozenOps : List SessionOp :=
  [.admitBlock (Sample.candidate 1 [7] []), .dropHandle 0,
    .admitBlock (Sample.candidate 1 [8] []), .dropHandle 1, .getBlock 0 1, .dropHandle 2]

private abbrev frozenStart : Session Unit := { cache := .new 2 1 ⟨fun _ => 5, 0⟩ () }

private def frozenSession : Session Unit := frozenOps.foldl (step Sample.lruEnv) frozenStart

private def thirdSession : Session Unit :=
  step Sample.lruEnv frozenSession (.admitBlock (Sample.candidate 1 [9] []))

private theorem frozenOps_run : Run Sample.lruEnv (fun s op => op.Public ∧ FewHandles s.live)
    frozenStart frozenSession := by
  have hfew : ∀ s : Session Unit, s.live.card < 2 ^ 32 → FewHandles s.live :=
    fun s h id => lt_of_le_of_lt (Multiset.count_le_card id s.live) h
  exact ((((((Steps.refl _).snoc (SessionOp.admitBlock (Sample.candidate 1 [7] []))
    ⟨.inr ⟨_, rfl⟩, hfew _ (by decide)⟩).snoc (.dropHandle 0)
    ⟨.inl trivial, hfew _ (by decide +kernel)⟩).snoc (.admitBlock (Sample.candidate 1 [8] []))
    ⟨.inr ⟨_, rfl⟩, hfew _ (by decide +kernel)⟩).snoc (.dropHandle 1)
    ⟨.inl trivial, hfew _ (by decide +kernel)⟩).snoc (.getBlock 0 1)
    ⟨.inl trivial, hfew _ (by decide +kernel)⟩).snoc (.dropHandle 2)
    ⟨.inl trivial, hfew _ (by decide +kernel)⟩

-- The block in slot 0 was used last, and is given up all the same.
theorem lru_frozen_first :
    ∃ es, thirdSession.cache.events = frozenSession.cache.events ++ es ∧
      .BlockEvicted 0 Sample.lruEnv.eviction.name 5 ∈ es ∧
      ∀ victim name ns, .BlockEvicted victim name ns ∈ es → victim = 0 := by
  obtain ⟨es, hes, hevicts⟩ := lru_frozen (C := 2) rfl (fun _ => rfl) frozenOps_run
    (fun id => lt_of_le_of_lt (Multiset.count_le_card id _)
      (by decide +kernel : frozenSession.live.card < 2 ^ 32))
    (.inr ⟨Sample.candidate 1 [9] [], rfl⟩)
  have hnew : .BlockEvicted 0 Sample.lruEnv.eviction.name 5 ∈
      thirdSession.cache.events.drop frozenSession.cache.events.length := by
    decide +kernel
  have hdrop : thirdSession.cache.events.drop frozenSession.cache.events.length = es :=
    (congrArg (List.drop _) hes).trans List.drop_left
  refine ⟨es, hes, hdrop ▸ hnew, fun victim name ns hmem => ?_⟩
  obtain ⟨-, -, hleast⟩ := hevicts victim name ns hmem
  exact Nat.le_zero.mp (hleast 0 (by decide) (by decide +kernel))

end Session

end KVCache
