import KVCache.Controller.ClockReads
import KVCache.Controller.LruEviction
import KVCache.Lib.Recency
import KVCache.Session.Occupancy

namespace KVCache

open Lib Controller Policy Prefix Sim Tier

variable {π : Type} {env : Env π} {b : Nat} {q : List BlockId} {m : BlockManager} {id : Nat}

namespace BlockManager

-- When the block in a slot was last accessed.
def stamp (m : BlockManager) (id : BlockId) : Nat := (m.store.records.getD id {}).last_access_ns

-- `q` lists the slots with a ready block, the last accessed first, and the clock is past all
-- of their accesses.
structure Recent (q : List BlockId) (m : BlockManager) : Prop where
  clock : StrictMono m.clock.readings
  nodup : q.Nodup
  mem : ∀ id, id ∈ q ↔ ∃ r, m.store.records[id]? = some r ∧ r.state = .Ready
  newest : NewestFirst m.stamp q
  past : ∀ id ∈ q, m.stamp id < m.clock.readings m.clock.reads

namespace Recent

theorem later {m' : BlockManager} (h : Recent q m) (hstore : m'.store = m.store)
    (hclock : m.clock.Later m'.clock) : Recent q m' := by
  have hstamp : m'.stamp = m.stamp := by
    funext id
    rw [stamp, hstore, stamp]
  refine ⟨hclock.readings ▸ h.clock, h.nodup, fun id => ?_, hstamp ▸ h.newest, fun id hid => ?_⟩
  · rw [hstore]
    exact h.mem id
  · rw [hstamp, hclock.readings]
    exact lt_of_lt_of_le (h.past id hid) (h.clock.monotone hclock.reads)

theorem stamp_touched (hid : ∃ r, m.store.records[id]? = some r) (j : Nat) :
    (m.touched id).stamp j = if j = id then m.clock.readings m.clock.reads else m.stamp j := by
  obtain ⟨r, hr⟩ := hid
  rw [stamp, List.getD_eq_getElem?_getD, touched_getElem?]
  by_cases hj : j = id
  · subst hj
    rw [if_pos rfl, if_pos rfl, hr]
    rfl
  · rw [if_neg hj, if_neg hj, stamp, List.getD_eq_getElem?_getD]

theorem ready_iff {m' : BlockManager} (h : m.SameBlocks m') (j : Nat) :
    (∃ r, m'.store.records[j]? = some r ∧ r.state = .Ready) ↔
      ∃ r, m.store.records[j]? = some r ∧ r.state = .Ready := by
  constructor
  · rintro ⟨r', hr', hready⟩
    obtain ⟨r, hr, hbody⟩ := h.symm.record hr'
    obtain ⟨-, -, -, -, -, -, -, hstate⟩ := BlockRecord.fields_of_body hbody
    exact ⟨r, hr, hstate.trans hready⟩
  · rintro ⟨r, hr, hready⟩
    obtain ⟨r', hr', hbody⟩ := h.record hr
    obtain ⟨-, -, -, -, -, -, -, hstate⟩ := BlockRecord.fields_of_body hbody
    exact ⟨r', hr', hstate.trans hready⟩

-- The block that is accessed comes to the front.
theorem touched (h : Recent q m) (hid : id ∈ q) :
    Recent (moveToFront id q) (m.touched id) := by
  obtain ⟨r, hr, hready⟩ := (h.mem id).mp hid
  have hstamp := stamp_touched ⟨r, hr⟩
  have hnext : m.clock.readings m.clock.reads < m.clock.readings (m.clock.reads + 1) :=
    h.clock (Nat.lt_succ_self _)
  refine ⟨h.clock, nodup_moveToFront h.nodup, fun j => ?_, ?_, fun j hj => ?_⟩
  · rw [mem_moveToFront h.nodup, ready_iff (touched_sameBlocks m id), ← h.mem]
    constructor
    · rintro (rfl | hj)
      · exact hid
      · exact hj
    · exact .inr
  · refine h.newest.moveToFront h.nodup (fun j _ hne => ?_) fun j hj => ?_
    · rw [hstamp, if_neg hne]
    · rw [hstamp, if_pos rfl]
      exact h.past j hj
  · rw [hstamp]
    split
    · exact hnext
    · rename_i hne
      have hj' : j ∈ q := ((mem_moveToFront h.nodup).mp hj).resolve_left hne
      exact (h.past j hj').trans hnext

theorem stamp_withRecord (m : BlockManager) (id : BlockId) {f : BlockRecord → BlockRecord}
    (hf : ∀ r, (f r).last_access_ns = r.last_access_ns) :
    (m.withRecord id f).stamp = m.stamp := by
  funext j
  rw [stamp, stamp, List.getD_eq_getElem?_getD, List.getD_eq_getElem?_getD, withRecord_getElem?]
  split
  · cases m.store.records[j]? with
    | none => rfl
    | some r => exact hf r
  · rfl

-- The end of a handle is no access.
theorem released (h : Recent q m) (id : BlockId) : Recent q (m.released id) := by
  have hstamp : (m.released id).stamp = m.stamp := stamp_withRecord m id fun r => by simp only
  refine ⟨h.clock, h.nodup, fun j => ?_, hstamp ▸ h.newest, fun j hj => ?_⟩
  · rw [ready_iff (released_sameBlocks m id), ← h.mem]
  · rw [hstamp]
    exact h.past j hj

theorem freed (h : Recent q m) (id : BlockId) : Recent (q.erase id) (m.freed id) := by
  have hother : ∀ j, j ≠ id → (m.freed id).store.records[j]? = m.store.records[j]? :=
    fun j hj => by rw [freed_getElem?, if_neg hj]
  have hgone : ∀ r, (m.freed id).store.records[id]? = some r → r.state ≠ .Ready := by
    intro r hr
    rw [freed_getElem?, if_pos rfl] at hr
    obtain ⟨_, -, rfl⟩ := Option.map_eq_some_iff.mp hr
    simp
  have hstamp : ∀ j, j ≠ id → (m.freed id).stamp j = m.stamp j := fun j hj => by
    rw [stamp, List.getD_eq_getElem?_getD, hother j hj, stamp, List.getD_eq_getElem?_getD]
  refine ⟨h.clock, h.nodup.erase id, fun j => ?_, (h.newest.erase id).congr fun j hj => ?_,
    fun j hj => ?_⟩
  · rw [h.nodup.mem_erase_iff, h.mem]
    by_cases hj : j = id
    · subst hj
      constructor
      · exact fun h => absurd rfl h.1
      · rintro ⟨r, hr, hready⟩
        exact absurd hready (hgone r hr)
    · rw [hother j hj]
      exact ⟨fun h => h.2, fun h => ⟨hj, h⟩⟩
  · exact hstamp j (h.nodup.mem_erase_iff.mp hj).1
  · obtain ⟨hne, hmem⟩ := h.nodup.mem_erase_iff.mp hj
    rw [hstamp j hne]
    exact h.past j hmem

-- A new block is the last accessed.
theorem entered (h : Recent q m) (hm : m.InStep) {rest : List BlockId} {r : BlockRecord}
    (hfree : m.pool.free_list = id :: rest) (hready : r.state = .Ready) :
    Recent (id :: q) ((m.taken id rest r).touched id) := by
  obtain ⟨r₀, hr₀, -⟩ := hm.next_free hfree
  have hnot : id ∉ q := fun hmem => by
    obtain ⟨r', hr', hready'⟩ := (h.mem id).mp hmem
    exact hm.next_not_ready hfree hr' hready'
  have hother : ∀ j, j ≠ id →
      ((m.taken id rest r).touched id).store.records[j]? = m.store.records[j]? := fun j hj => by
    rw [touched_getElem?, if_neg hj, taken_getElem?, if_neg hj]
  have hself : ((m.taken id rest r).touched id).store.records[id]? = some
      { r with
        last_access_ns := m.clock.readings m.clock.reads
        access_count := (r.access_count + 1) % 2 ^ 64
        refcount := (r.refcount + 1) % 2 ^ 32 } := by
    rw [touched_getElem?, if_pos rfl, taken_getElem?, if_pos rfl, hr₀]
    rfl
  have hstamp : ∀ j, j ≠ id → ((m.taken id rest r).touched id).stamp j = m.stamp j :=
    fun j hj => by
      rw [stamp, List.getD_eq_getElem?_getD, hother j hj, stamp, List.getD_eq_getElem?_getD]
  have hstamp_self : ((m.taken id rest r).touched id).stamp id =
      m.clock.readings m.clock.reads := by
    rw [stamp, List.getD_eq_getElem?_getD, hself]
    rfl
  have hnext : m.clock.readings m.clock.reads < m.clock.readings (m.clock.reads + 1) :=
    h.clock (Nat.lt_succ_self _)
  have hne : ∀ j ∈ q, j ≠ id := fun j hj heq => hnot (heq ▸ hj)
  refine ⟨h.clock, List.nodup_cons.mpr ⟨hnot, h.nodup⟩, fun j => ?_,
    List.pairwise_cons.mpr ⟨fun j hj => ?_, h.newest.congr fun j hj => hstamp j (hne j hj)⟩,
    fun j hj => ?_⟩
  · rw [List.mem_cons]
    by_cases hj : j = id
    · subst hj
      exact ⟨fun _ => ⟨_, hself, hready⟩, fun _ => .inl rfl⟩
    · rw [hother j hj, ← h.mem]
      exact ⟨fun h => h.resolve_left hj, .inr⟩
  · rw [hstamp j (hne j hj), hstamp_self]
    exact h.past j hj
  · rcases List.mem_cons.mp hj with rfl | hj
    · rw [hstamp_self]
      exact hnext
    · rw [hstamp j (hne j hj)]
      exact (h.past j hj).trans hnext

-- A call that accesses some of the blocks, one after the other.
theorem touchedAll (h : Recent q m) {ids : List BlockId} (hids : ∀ id ∈ ids, id ∈ q) :
    Recent (ids.foldl (fun q id => moveToFront id q) q) (ids.foldl BlockManager.touched m) ∧
      (ids.foldl (fun q id => moveToFront id q) q).length = q.length := by
  induction ids generalizing q m with
  | nil => exact ⟨h, rfl⟩
  | cons id ids ih =>
      have hid := hids id List.mem_cons_self
      obtain ⟨hrest, hlen⟩ := ih (h.touched hid) fun j hj =>
        (mem_moveToFront h.nodup).mpr (.inr (hids j (List.mem_cons_of_mem _ hj)))
      exact ⟨hrest, hlen.trans (length_moveToFront hid)⟩

end Recent

end BlockManager

namespace Session

variable {C : Nat} {s : Session π}

-- The block that a cache under LRU gives up: of those without a handle, the one that was
-- used longest ago.
def leastRecent (live : Multiset Nat) (q : List BlockId) : Option BlockId :=
  (q.filter fun id => id ∉ live).getLast?

-- The slots that an answer gives access to, in the order of the accesses.
def used (env : Env π) (s : Session π) : SessionOp → List BlockId
  | .lookupPrefix ctx tokens =>
      match ((LocalCache.lookupPrefix env ctx tokens).run s.cache).1 with
      | .ok out => out.matched_blocks.map (·.slot)
      | .error _ => []
  | .getBlock id generation =>
      match ((LocalCache.getBlock id generation).run s.cache).1 with
      | .ok res => (res.handle.map (·.slot)).toList
      | .error _ => []
  | .serveBlockFetch id generation =>
      match ((LocalCache.serveBlockFetch id generation).run s.cache).1 with
      | .ok res => if res.status = .Ok then [id] else []
      | .error _ => []
  | _ => []

-- A block that is admitted to a full cache takes the place of the least recent one.
def lruAdmit (C : Nat) (live : Multiset Nat) (q : List BlockId) :
    Except Fault AdmitResult → List BlockId
  | .ok ⟨.Admitted, some handle⟩ =>
      handle.slot ::
        if q.length < C then q
        else
          match leastRecent live q with
          | some victim => q.erase victim
          | none => q
  | _ => q

-- LRU as it is meant, without a clock: a list of the blocks, the last used first.
def lruNext (env : Env π) (C : Nat) (s : Session π) (q : List BlockId) :
    SessionOp → List BlockId
  | .admitBlock candidate =>
      lruAdmit C s.live q ((LocalCache.admitBlock env candidate).run s.cache).1
  | op => (used env s op).foldl (fun q id => moveToFront id q) q

def stepLru (env : Env π) (C : Nat) (x : Session π × List BlockId) (op : SessionOp) :
    Session π × List BlockId := (x.1.step env op, lruNext env C x.1 x.2 op)

-- The list is that of the blocks in the cache by their last accesses.
structure Lists (C : Nat) (s : Session π) (q : List BlockId) : Prop where
  settled : s.cache.Settled C s.admissions.length
  counted : s.held.Counted
  recent : s.cache.manager.Recent q
  length : q.length = min C s.admissions.length

theorem new_lists (C b : Nat) {clock : Clock} (hclock : StrictMono clock.readings)
    (policy_state : π) : Lists C { cache := .new C b clock policy_state } [] := by
  refine ⟨new_settled C b clock policy_state, fresh_counted (.untiered C b clock policy_state),
    ⟨hclock, List.nodup_nil, fun id => ⟨by simp, ?_⟩, List.Pairwise.nil, by simp⟩, by simp⟩
  rintro ⟨r, hr, hready⟩
  rw [(BlockManager.new_getElem? hr).2] at hready
  cases hready

-- A look accesses the blocks that it gives access to, one after the other, and perhaps ends
-- a handle.
theorem step_used (env : Env π) {n : Nat} (hs : s.cache.Settled C n) {op : SessionOp}
    (hop : op.Looks) :
    (∀ id ∈ used env s op, ∃ r, s.cache.manager.store.records[id]? = some r ∧
      r.state = .Ready) ∧
    ∀ P : BlockManager → Prop, (∀ m id, P m → P (m.released id)) →
      P ((used env s op).foldl BlockManager.touched s.cache.manager) →
        P (step env s op).cache.manager := by
  have hrelease : ∀ (handle : Option BlockHandle) (P : BlockManager → Prop),
      (∀ m id, P m → P (m.released id)) → P s.cache.manager →
        P (release s.cache handle).manager := by
    intro handle P hP hm
    cases handle with
    | none => exact hm
    | some handle => exact hP _ _ hm
  cases op with
  | lookupPrefix ctx tokens =>
      by_cases hb : s.cache.block_size = 0
      · obtain ⟨e, hrun⟩ := LocalCache.lookupPrefix_zero env hb ctx tokens
        simp only [used, step, called, hrun]
        exact ⟨by simp, fun P _ hP => hP⟩
      · obtain ⟨handles, ⟨out, hout, hmatched⟩, hacq⟩ := LocalCache.lookupPrefix_touched env
          hs.inStep hb (fun hr hready => by
            rcases hs.state hr with hfree | ⟨-, -, hcount⟩
            · rw [hready] at hfree
              cases hfree
            · exact hcount) ctx tokens
        simp only [used, step, called, hout, hmatched, List.foldl_map]
        refine ⟨fun id hid => ?_, fun P _ hP => hP⟩
        obtain ⟨handle, hmem, rfl⟩ := List.mem_map.mp hid
        obtain ⟨r, hr, hready, -⟩ := hacq handle hmem
        exact ⟨r, hr, hready⟩
  | getBlock id generation =>
      rcases BlockManager.fetchLocal_cases hs.inStep id generation with
        ⟨r, hr, -, hready, hrun⟩ | ⟨status, -, hrun⟩
      · simp only [used, step, called, LocalCache.getBlock, Stack.onManager_ok hrun]
        refine ⟨fun j hj => ?_, fun P _ hP => hP⟩
        obtain rfl : j = id := by simpa using hj
        exact ⟨r, hr, hready⟩
      · simp only [used, step, called, LocalCache.getBlock, Stack.onManager_ok hrun]
        exact ⟨by simp, fun P _ hP => hP⟩
  | serveBlockFetch id generation =>
      rcases LocalCache.serveBlockFetch_cases hs.inStep id generation with
        ⟨r, hr, rfl, hready⟩ | ⟨status, hne, hrun⟩
      · simp only [used, step, called, LocalCache.serveBlockFetch_hit hs.inStep hr hready,
          LocalCache.payloadBytes, hs.untiered, if_true]
        refine ⟨fun j hj => ?_, fun P hrel hP => hrel _ _ hP⟩
        obtain rfl := List.mem_singleton.mp hj
        exact ⟨r, hr, hready⟩
      · simp only [used, step, called, hrun, if_neg hne]
        exact ⟨by simp, fun P _ hP => hP⟩
  | moveHandle i => exact ⟨by simp [used], fun P _ hP => hP⟩
  | assignHandle i j =>
      refine ⟨by simp [used], fun P hrel hP => ?_⟩
      simp only [step]
      split
      · exact hP
      · exact hrelease _ P hrel hP
  | dropHandle i => exact ⟨by simp [used], fun P hrel hP => hrelease _ P hrel hP⟩
  | _ => exact absurd hop id

section Admit

open AdmissionController

variable {ctx : AdmissionContext} {candidate : BlockCandidate}

-- Of the blocks that could be evicted, LRU gives up the one with the oldest stamp.
theorem victim_oldest (hlru : env.eviction = LruEvictionPolicy) {n : Nat}
    (hs : s.cache.Settled C n) (hx : s.held.Counted) (hfew : FewHandles s.live) {victim : Nat}
    (hv : admissionVictim env ctx candidate s.cache.ticked = some victim) :
    ((∃ r, s.cache.manager.store.records[victim]? = some r ∧ r.state = .Ready) ∧
      victim ∉ s.live) ∧
    ∀ j, (∃ r, s.cache.manager.store.records[j]? = some r ∧ r.state = .Ready) → j ∉ s.live →
      j ≠ victim → s.cache.manager.stamp victim < s.cache.manager.stamp j ∨
        (s.cache.manager.stamp victim = s.cache.manager.stamp j ∧ victim < j) := by
  have hticked := hs.quiet s.cache.ticked_quiet
  have hq := planned_quiet env ctx candidate s.cache.ticked
  have hstamp : ∀ id, EvictionController.lastAccess (planned env ctx candidate s.cache.ticked).2
      id = s.cache.manager.stamp id := fun id => by
    rw [EvictionController.lastAccess, hq.store]
    rfl
  have hvictim : EvictionController.victim env ⟨1, ctx.timestamp_ns, .GpuSim⟩
      (planned env ctx candidate s.cache.ticked).2 = some victim := by
    unfold admissionVictim at hv
    split at hv
    · rwa [planned_untiered hticked.untiered] at hv
    · cases hv
  rcases EvictionController.victim_lru hlru (hq.inStep hticked.inStep)
    ⟨1, ctx.timestamp_ns, .GpuSim⟩ with ⟨-, hnone⟩ | ⟨id, hsome, hmem, hleast⟩
  · rw [hnone] at hvictim
    cases hvictim
  · obtain rfl : id = victim := Option.some.inj (hsome.symm.trans hvictim)
    refine ⟨(mem_eligible_iff hs hx hfew).mp hmem, fun j hready hnot hne => ?_⟩
    have holder := hleast j ((mem_eligible_iff hs hx hfew).mpr ⟨hready, hnot⟩) hne
    rwa [EvictionController.Older, hstamp, hstamp] at holder

-- That is the least recent block.
private theorem victim_leastRecent (hlru : env.eviction = LruEvictionPolicy) (h : Lists C s q)
    (hfew : FewHandles s.live) {victim : Nat}
    (hv : admissionVictim env ctx candidate s.cache.ticked = some victim) :
    leastRecent s.live q = some victim := by
  obtain ⟨⟨hready, hnot⟩, hleast⟩ := victim_oldest hlru h.settled h.counted hfew hv
  refine h.recent.newest.getLast?_filter h.recent.nodup ((h.recent.mem victim).mpr hready)
    (by simpa using hnot) fun j hj hjnot hne hlt => ?_
  have holder := hleast j ((h.recent.mem j).mp hj) (by simpa using hjnot) hne
  omega

private theorem admitted_recent (hlru : env.eviction = LruEvictionPolicy) (h : Lists C s q)
    (hfew : FewHandles s.live) {res : Except Fault AdmitResult} {c : Stack π}
    (hcase : AdmitCase env ctx candidate s.cache.ticked res c)
    (hclock : s.cache.ticked.manager.clock.Later c.manager.clock) :
    c.manager.Recent (lruAdmit C s.live q res) ∧ (lruAdmit C s.live q res).length =
      min C (s.admissions.length + (admitted candidate (res, c)).length) := by
  have hticked := h.settled.quiet s.cache.ticked_quiet
  have hticks : s.cache.manager.clock.Later s.cache.ticked.manager.clock :=
    s.cache.manager.clock.nowNs_later
  have hlength := h.length
  have hquiet : ∀ {c' : Stack π}, Quiet s.cache.ticked c' →
      s.cache.ticked.manager.clock.Later c'.manager.clock → c'.manager.Recent q :=
    fun hq hlater => h.recent.later hq.store (hticks.trans hlater)
  cases hcase with
  | badLength hlen => exact ⟨hquiet (Quiet.refl _) hclock, hlength⟩
  | present htokens hfull => exact ⟨hquiet (Quiet.refl _) hclock, hlength⟩
  | noParent htokens habsent hparent => exact ⟨hquiet (Quiet.refl _) hclock, hlength⟩
  | rejected he hd hq => exact ⟨hquiet hq hclock, hlength⟩
  | noSpace he hd hroom hv hq => exact ⟨hquiet hq hclock, hlength⟩
  | evictRefused e he hv hnot hq => exact ⟨hquiet hq hclock, hlength⟩
  | evictStuck e he hv hq hr hready href hstuck =>
      exact absurd (hticked.quiet hq).untiered hstuck.not_untiered
  | leaked e he hd hroom hfree hmis =>
      exact absurd (Room.cleared hticked hroom).untiered hmis.not_untiered
  | @admitted s₁ s₂ id rest tm ext ref he hd hroom hfree hplace hs₂ =>
      subst hs₂
      obtain ⟨hs₁, -⟩ := hroom.spec hticked.inStep
      -- the handle of the new block has read the clock once after `s₁`
      have hlater : s.cache.manager.clock.Later s₁.manager.clock :=
        ⟨hclock.readings, Nat.le_of_succ_le_succ hclock.reads⟩
      simp only [lruAdmit, admitted, List.length_singleton]
      cases hroom with
      | free hroom hq =>
          have hlt : q.length < C := by
            have hle := mt (noRoom_iff hticked _).mpr (by rw [hroom]; simp)
            omega
          rw [if_pos hlt, List.length_cons]
          exact ⟨(h.recent.later hq.store hlater).entered hs₁ hfree rfl, by omega⟩
      | @evicted s₀ _ victim r tm hroom hv hq hr hready href hrem hq' =>
          have hle := (noRoom_iff hticked _).mp hroom
          have hmem : victim ∈ q := by
            refine (h.recent.mem victim).mpr ⟨r, ?_, hready⟩
            rw [← hr, hq.store]
            rfl
          have hstore : s₁.manager.store = (s.cache.manager.freed victim).store := by
            rw [hq'.store]
            simp only [Stack.evicted, BlockManager.freed, hq.store]
            rfl
          have herase := List.length_erase_of_mem hmem
          have hpos := List.length_pos_of_mem hmem
          rw [if_neg (by omega), victim_leastRecent hlru h hfew hv]
          simp only [List.length_cons]
          exact ⟨((h.recent.freed victim).later hstore hlater).entered hs₁ hfree rfl,
            by omega⟩

end Admit

theorem step_lists (hlru : env.eviction = LruEvictionPolicy) (h : Lists C s q)
    (hfew : FewHandles s.live) {op : SessionOp} (hop : op.Public) :
    Lists C (step env s op) (lruNext env C s q op) := by
  have hs := h.settled.inStep
  suffices hrecent : (step env s op).cache.manager.Recent (lruNext env C s q op) ∧
      (lruNext env C s q op).length = min C (step env s op).admissions.length from
    ⟨step_settled hop h.settled, step_counted hs h.counted hfew op, hrecent.1, hrecent.2⟩
  rcases hop with hop | ⟨candidate, rfl⟩
  · obtain ⟨hused, hrun⟩ := step_used env h.settled hop
    obtain ⟨hall, hlen⟩ := h.recent.touchedAll fun id hid => (h.recent.mem id).mpr (hused id hid)
    obtain ⟨m, hm, -, hadm⟩ := step_looks env hs hop
    have hnext : lruNext env C s q op =
        (used env s op).foldl (fun q id => moveToFront id q) q := by
      cases op with
      | admitBlock candidate => exact absurd hop id
      | _ => rfl
    rw [hnext, hadm, hlen]
    exact ⟨hrun _ (fun m id hm => hm.released id) hall, h.length⟩
  · have hcase := admitBlock_cases env hs candidate
    have hclock := AdmissionController.admitCandidate_readsClock env candidate
      (LocalCache.admitContext env candidate s.cache) s.cache.ticked
    obtain ⟨hrecent, hlen⟩ := admitted_recent hlru h hfew hcase hclock
    refine ⟨hrecent, hlen.trans ?_⟩
    rw [step, List.length_append, Nat.add_comm]
    rfl

variable {clock : Clock} {policy_state : π}

-- With a clock that moves between any two readings, a cache under the LRU policy is an LRU
-- cache: in every run its blocks are those of the list that is kept without a clock, their
-- stamps are in the order of the list, and what the next operation evicts is the last block
-- of the list that has no handle.
theorem lru_recency (hlru : env.eviction = LruEvictionPolicy)
    (hclock : StrictMono clock.readings)
    (hrun : Steps (stepLru env C) (fun x op => op.Public ∧ FewHandles x.1.live)
      ({ cache := .new C b clock policy_state }, []) (s, q)) :
    q.Nodup ∧
    (∀ id, id ∈ q ↔ ∃ r, s.cache.manager.store.records[id]? = some r ∧ r.state = .Ready) ∧
    NewestFirst s.cache.manager.stamp q ∧
    ∀ op : SessionOp, op.Public → FewHandles s.live →
      ∃ es, (step env s op).cache.events = s.cache.events ++ es ∧
        ∀ victim name ns, .BlockEvicted victim name ns ∈ es →
          leastRecent s.live q = some victim := by
  have hlists : Lists C s q := Steps.invariant
    (I := fun x : Session π × List BlockId => Lists C x.1 x.2)
    (fun x op h hop => step_lists hlru h hop.2 hop.1) hrun (new_lists C b hclock policy_state)
  refine ⟨hlists.recent.nodup, hlists.recent.mem, hlists.recent.newest, fun op hop hfew => ?_⟩
  obtain ⟨es, hes, hevicts⟩ := step_evicts env hlists.settled hop
  refine ⟨es, hes, fun victim name ns hmem => ?_⟩
  obtain ⟨candidate, -, hv⟩ := hevicts victim name ns hmem
  exact victim_leastRecent hlru hlists hfew hv

private abbrev usedOps : List SessionOp :=
  [.admitBlock (Sample.candidate 1 [7] []), .dropHandle 0,
    .admitBlock (Sample.candidate 1 [8] []), .dropHandle 1, .getBlock 0 1, .dropHandle 2]

private abbrev usedStates : Session Unit × List BlockId :=
  usedOps.foldl (stepLru Sample.lruEnv 2) ({ cache := .new 2 1 Sample.clock () }, [])

private theorem usedStates_run : Steps (stepLru Sample.lruEnv 2)
    (fun x op => op.Public ∧ FewHandles x.1.live)
    ({ cache := .new 2 1 Sample.clock () }, []) usedStates := by
  have hfew : ∀ x : Session Unit × List BlockId, x.1.live.card < 2 ^ 32 →
      FewHandles x.1.live :=
    fun x h id => lt_of_le_of_lt (Multiset.count_le_card id x.1.live) h
  exact ((((((Steps.refl _).snoc (SessionOp.admitBlock (Sample.candidate 1 [7] []))
    ⟨.inr ⟨_, rfl⟩, hfew _ (by decide)⟩).snoc (.dropHandle 0)
    ⟨.inl trivial, hfew _ (by decide +kernel)⟩).snoc (.admitBlock (Sample.candidate 1 [8] []))
    ⟨.inr ⟨_, rfl⟩, hfew _ (by decide +kernel)⟩).snoc (.dropHandle 1)
    ⟨.inl trivial, hfew _ (by decide +kernel)⟩).snoc (.getBlock 0 1)
    ⟨.inl trivial, hfew _ (by decide +kernel)⟩).snoc (.dropHandle 2)
    ⟨.inl trivial, hfew _ (by decide +kernel)⟩

-- The first block was used again after the second was admitted.
theorem lru_recency_used : usedStates.2 = [0, 1] ∧
    NewestFirst usedStates.1.cache.manager.stamp [0, 1] := by
  have hq : usedStates.2 = [0, 1] := by decide +kernel
  have hrun := usedStates_run
  rw [show usedStates = (usedStates.1, [0, 1]) from Prod.ext rfl hq] at hrun
  exact ⟨hq, (lru_recency rfl strictMono_id hrun).2.2.1⟩

end Session

end KVCache
