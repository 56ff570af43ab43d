import KVCache.Controller.LruEviction
import KVCache.Core.ManagerClient
import KVCache.Session.Incarnations
import KVCache.Session.Pinned

namespace KVCache

open Lib Controller Policy Prefix Sim Tier

variable {π : Type} {env : Env π} {C n : Nat}

-- A policy that finds a victim wherever there is a candidate.
def Policy.EvictionPolicy.AlwaysPicks (p : EvictionPolicy π) : Prop :=
  ∀ ctx candidates st, candidates ≠ [] → (p.chooseVictim ctx candidates st).1.isSome

theorem Policy.LruEvictionPolicy.alwaysPicks :
    (LruEvictionPolicy : EvictionPolicy π).AlwaysPicks := by
  intro ctx candidates st hne
  cases candidates with
  | nil => exact absurd rfl hne
  | cons f fs => rfl

namespace Controller

-- A stack without tiers and with `C` slots after `n` admissions: a slot is free or holds a
-- ready block, the first `C` blocks got a free slot, and each later one that of a block
-- that was evicted for it.
structure Stack.Settled (C n : Nat) (s : Stack π) : Prop where
  inStep : s.manager.InStep
  untiered : s.tier_manager = none
  slots : s.manager.store.records.length = C
  state : ∀ {id : Nat} {r : BlockRecord}, s.manager.store.records[id]? = some r →
    r.state = .Free ∨
      r.state = .Ready ∧ r.tier = .GpuSim ∧ r.token_count = UInt16.ofNat s.block_size
  room : s.manager.pool.free_list.length = C - n
  entered : s.events.countP Event.isAdmitted = n
  evicted : s.events.countP Event.isEvicted = n - C

namespace Stack.Settled

variable {s s' : Stack π}

theorem same (h : s.Settled C n) (hblocks : s.manager.SameBlocks s'.manager)
    (hsize : s'.block_size = s.block_size) (htm : s'.tier_manager = s.tier_manager)
    (hevents : s'.events = s.events) : s'.Settled C n := by
  have hlen := congrArg List.length hblocks.records
  simp only [List.length_map] at hlen
  refine ⟨hblocks.inStep h.inStep, htm.trans h.untiered, hlen.trans h.slots, fun {id r} hr => ?_,
    ?_, hevents ▸ h.entered, hevents ▸ h.evicted⟩
  · obtain ⟨r₀, hr₀, hbody⟩ := hblocks.symm.record hr
    obtain ⟨-, -, -, -, hcount, htier, -, hstate⟩ := BlockRecord.fields_of_body hbody
    rw [← hstate, ← htier, ← hcount, hsize]
    exact h.state hr₀
  · rw [hblocks.pool]
    exact h.room

theorem quiet (h : s.Settled C n) (hq : Quiet s s') : s'.Settled C n :=
  h.same (.of_eq hq.pool hq.store) hq.block_size hq.tier_manager hq.events

-- As many blocks are ready as were admitted, up to the number of slots.
theorem ready (h : s.Settled C n) :
    s.manager.store.records.countP (fun r => r.state = .Ready) = min C n := by
  have hsplit := List.length_eq_countP_add_countP (fun r : BlockRecord => decide (r.state = .Free))
    (l := s.manager.store.records)
  have hbusy : s.manager.store.records.countP (fun r => ¬ decide (r.state = .Free) = true) =
      s.manager.store.records.countP fun r => r.state = .Ready := by
    apply List.countP_congr
    intro r hmem
    obtain ⟨id, hr⟩ := List.mem_iff_getElem?.mp hmem
    rcases h.state hr with hfree | ⟨hready, -⟩
    · simp [hfree]
    · simp [hready]
  have hfree := h.inStep.available
  rw [BlockManager.available, BlockPool.available, h.room] at hfree
  rw [h.slots, hbusy] at hsplit
  omega

-- Once as many blocks were admitted as there are slots, every slot is in use.
theorem full (h : s.Settled C n) (hfull : C ≤ n) {id : Nat} (hid : id < C) :
    ∃ r, s.manager.store.records[id]? = some r ∧ r.state = .Ready := by
  have hr := List.getElem?_eq_getElem (lt_of_lt_of_eq hid h.slots.symm)
  rcases h.state hr with hfree | ⟨hready, -⟩
  · have hpos := List.length_pos_of_mem (h.inStep.free.mpr ⟨_, hr, hfree⟩)
    have hnone := h.room
    omega
  · exact ⟨_, hr, hready⟩

-- The slots that are neither free nor ready do not count in a snapshot: there are none.
theorem snapshot (h : s.Settled C n) : LocalCache.snapshot s =
    ⟨UInt32.ofNat C, UInt32.ofNat (min C n), UInt32.ofNat (min C n)⟩ := by
  have hused : s.manager.store.records.countP (fun r => 0 < r.generation ∧ r.state ≠ .Free) =
      s.manager.store.records.countP fun r => r.state = .Ready := by
    apply List.countP_congr
    intro r hmem
    obtain ⟨id, hr⟩ := List.mem_iff_getElem?.mp hmem
    rcases h.state hr with hfree | ⟨hready, -⟩
    · simp [hfree]
    · have hpos := (h.inStep.identity hr (by simp [hready])).2.2
      simp [hready, hpos]
  simp only [LocalCache.snapshot, hused, h.ready, h.slots]

end Stack.Settled

namespace AdmissionController

variable {ctx : AdmissionContext} {candidate : BlockCandidate} {s s₁ s' : Stack π}
  {res : Except Fault AdmitResult}

-- The stack with room for a block: one free slot is spoken for, and the events count the
-- eviction that made the room.
structure Cleared (C n : Nat) (s₁ : Stack π) : Prop where
  inStep : s₁.manager.InStep
  untiered : s₁.tier_manager = none
  slots : s₁.manager.store.records.length = C
  state : ∀ {id : Nat} {r : BlockRecord}, s₁.manager.store.records[id]? = some r →
    r.state = .Free ∨
      r.state = .Ready ∧ r.tier = .GpuSim ∧ r.token_count = UInt16.ofNat s₁.block_size
  room : s₁.manager.pool.free_list.length = C - (n + 1) + 1
  entered : s₁.events.countP Event.isAdmitted = n
  evicted : s₁.events.countP Event.isEvicted = n + 1 - C

theorem noRoom_iff (h : s.Settled C n) (target : KVCache.Tier) :
    noRoom s target = true ↔ C ≤ n := by
  simp only [noRoom, tierFull, h.untiered, BlockManager.available, BlockPool.available, h.room,
    Bool.or_false, beq_iff_eq]
  omega

theorem Room.cleared (hs : s.Settled C n) (hroom : Room env ctx candidate s s₁) :
    Cleared C n s₁ := by
  cases hroom with
  | free hroom hq =>
      have hlt : ¬ C ≤ n := fun h => by
        rw [(noRoom_iff hs _).mpr h] at hroom
        cases hroom
      have hs₁ := hs.quiet hq
      have hlen := hs₁.room
      have hleft := hs₁.evicted
      exact ⟨hs₁.inStep, hs₁.untiered, hs₁.slots, hs₁.state, by omega, hs₁.entered, by omega⟩
  | @evicted s₀ _ id r tm hroom hv hq hr hready href hrem hq' =>
      have hle := (noRoom_iff hs _).mp hroom
      have hs₀ := hs.quiet hq
      have hinStep : (s₀.evicted id env.eviction.name ctx.timestamp_ns tm).manager.InStep :=
        hs₀.inStep.freed hr (by simp [hready])
      have hlen := hs₀.room
      have hleft := hs₀.evicted
      refine ⟨hq'.inStep hinStep, hq'.tier_manager.trans (hrem.none_of_untiered hs₀.untiered), ?_,
        fun {j r'} hr' => ?_, ?_, ?_, ?_⟩
      · rw [hq'.store]
        simpa [Stack.evicted, BlockManager.freed] using hs₀.slots
      · rw [hq'.store, Stack.evicted_getElem?] at hr'
        split at hr'
        · obtain ⟨_, -, rfl⟩ := Option.map_eq_some_iff.mp hr'
          exact .inl rfl
        · rw [hq'.block_size]
          exact hs₀.state hr'
      · rw [hq'.pool]
        simp only [Stack.evicted, BlockManager.freed, List.length_cons]
        omega
      · rw [hq'.events]
        simpa [Stack.evicted, Event.isAdmitted] using hs₀.entered
      · rw [hq'.events]
        simp only [Stack.evicted, List.countP_append, List.countP_singleton, Event.isEvicted,
          if_true]
        omega

private theorem Cleared.settled (h : Cleared C n s₁) {id : Nat} {rest : List BlockId}
    (hfree : s₁.manager.pool.free_list = id :: rest) {ref : PayloadRef}
    {ext : Option BlockStore} {index : PrefixIndex} {ctx_hash : CacheContextHash} {ns : Nat} :
    Stack.Settled C (n + 1) { s₁.admitted id rest (admittedRecord s₁ candidate .GpuSim id ref
        .Ready) none ext index (.BlockAdmitted id ctx_hash .GpuSim candidate.origin ns) with
      manager := (s₁.manager.taken id rest
        (admittedRecord s₁ candidate .GpuSim id ref .Ready)).touched id } := by
  have hlen := h.room
  rw [hfree, List.length_cons] at hlen
  have htaken := h.inStep.taken (r := admittedRecord s₁ candidate .GpuSim id ref .Ready) hfree rfl
    rfl (by simp [admittedRecord, BlockManager.freshRecord])
  refine ⟨htaken.touched id, rfl, ?_, fun {j r} hr => ?_, ?_, ?_, ?_⟩
  · simpa [BlockManager.touched, BlockManager.withRecord, BlockManager.taken] using h.slots
  · rw [BlockManager.touched_getElem?, BlockManager.taken_getElem?] at hr
    split at hr
    · obtain ⟨r₁, hr₁, rfl⟩ := Option.map_eq_some_iff.mp hr
      obtain ⟨_, -, rfl⟩ := Option.map_eq_some_iff.mp hr₁
      exact .inr ⟨rfl, rfl, rfl⟩
    · exact h.state hr
  · rw [BlockManager.touched_pool]
    exact Nat.succ_injective hlen
  · have hentered := h.entered
    simp only [Stack.admitted, List.countP_append, List.countP_singleton, Event.isAdmitted, if_true]
    omega
  · simpa [Stack.admitted, Event.isEvicted] using h.evicted

theorem planned_untiered (hs : s.tier_manager = none) :
    (planned env ctx candidate s).1 = .GpuSim := by
  simp only [planned, hs]

-- An admission that succeeds is one more, the others leave the blocks alone.
theorem AdmitCase.settled (h : AdmitCase env ctx candidate s res s') (hs : s.Settled C n) :
    s'.Settled C (n + (Session.admitted candidate (res, s')).length) := by
  cases h with
  | badLength h => exact hs
  | present htokens h => exact hs
  | noParent htokens habsent h => exact hs
  | rejected he hd hq => exact hs.quiet hq
  | noSpace he hd hroom hv hq => exact hs.quiet hq
  | evictRefused e he hv hnot hq => exact hs.quiet hq
  | evictStuck e he hv hq hr hready href hstuck =>
      exact absurd (hs.quiet hq).untiered hstuck.not_untiered
  | leaked e he hd hroom hfree hmis =>
      exact absurd (Room.cleared hs hroom).untiered hmis.not_untiered
  | admitted he hd hroom hfree hplace hs₂ =>
      have hclear := Room.cleared hs hroom
      obtain rfl := hplace.none_of_untiered hclear.untiered
      rw [planned_untiered hs.untiered] at hs₂
      subst hs₂
      exact hclear.settled hfree

end AdmissionController

end Controller

namespace Session

variable {s : Session π} {b : Nat} {clock : Clock} {policy_state : π}

theorem new_settled (C b : Nat) (clock : Clock) (policy_state : π) :
    (LocalCache.new C b clock policy_state).Settled C 0 := by
  refine ⟨BlockManager.new_inStep C clock, rfl, ?_, fun {id r} hr => ?_, ?_, rfl, ?_⟩
  · simp [LocalCache.new, BlockManager.new, BlockStore.new]
  · rw [(BlockManager.new_getElem? hr).2]
    exact .inl rfl
  · simp [LocalCache.new, BlockManager.new, BlockPool.new]
  · simp [LocalCache.new]

theorem step_settled {op : SessionOp} (hop : op.Public)
    (hs : s.cache.Settled C s.admissions.length) :
    (step env s op).cache.Settled C (step env s op).admissions.length := by
  rcases hop with hop | ⟨candidate, rfl⟩
  · obtain ⟨m, hm, hsame, hadm⟩ := step_looks env hs.inStep hop
    rw [hm, hadm]
    exact hs.same hsame rfl rfl rfl
  · have hone := (admitBlock_cases env hs.inStep candidate).settled (hs.quiet s.cache.ticked_quiet)
    have hlen : (step env s (.admitBlock candidate)).admissions.length = s.admissions.length +
        (admitted candidate ((LocalCache.admitBlock env candidate).run s.cache)).length := by
      rw [step, List.length_append, Nat.add_comm]
    rw [hlen]
    exact hone

-- The operations that evict are admissions, and they evict their victims.
theorem step_evicts (env : Env π) (hs : s.cache.Settled C n) {op : SessionOp} (hop : op.Public) :
    ∃ es, (step env s op).cache.events = s.cache.events ++ es ∧
      ∀ victim name ns, .BlockEvicted victim name ns ∈ es → ∃ candidate,
        op = .admitBlock candidate ∧
        AdmissionController.admissionVictim env (LocalCache.admitContext env candidate s.cache)
          candidate s.cache.ticked = some victim := by
  have hsame : ∀ {c : LocalCache π}, c.events = s.cache.events → ∃ es,
      c.events = s.cache.events ++ es ∧ ∀ victim name ns, .BlockEvicted victim name ns ∈ es →
        ∃ candidate, op = .admitBlock candidate ∧
          AdmissionController.admissionVictim env (LocalCache.admitContext env candidate s.cache)
            candidate s.cache.ticked = some victim :=
    fun hevents => ⟨[], by simpa using hevents, by simp⟩
  rcases hop with hop | ⟨candidate, rfl⟩
  · obtain ⟨m, hm, -⟩ := step_looks env hs.inStep hop
    rw [hm]
    exact hsame rfl
  · have hcase := admitBlock_cases env hs.inStep candidate
    generalize ((LocalCache.admitBlock env candidate).run s.cache).1 = res at hcase
    generalize (step env s (.admitBlock candidate)).cache = c at hcase
    have hticked := hs.quiet s.cache.ticked_quiet
    cases hcase with
    | badLength hlen => exact hsame rfl
    | present htokens hfull => exact hsame rfl
    | noParent htokens habsent hparent => exact hsame rfl
    | rejected he hd hq => exact hsame hq.events
    | noSpace he hd hroom hv hq => exact hsame hq.events
    | evictRefused e he hv hnot hq => exact hsame hq.events
    | evictStuck e he hv hq hr hready href hstuck =>
        exact absurd (hticked.quiet hq).untiered hstuck.not_untiered
    | leaked e he hd hroom hfree hmis =>
        exact absurd (AdmissionController.Room.cleared hticked hroom).untiered hmis.not_untiered
    | admitted he hd hroom hfree hplace hs₂ =>
        subst hs₂
        cases hroom with
        | free hroom hq =>
            refine ⟨[_], congrArg (· ++ [_]) hq.events, fun victim name ns hmem => ?_⟩
            cases List.mem_singleton.mp hmem
        | @evicted s₀ _ v r tm hroom hv hq hr hready href hrem hq' =>
            refine ⟨[_, _], (congrArg (· ++ [_]) (hq'.events.trans
              (congrArg (· ++ [_]) hq.events))).trans (List.append_assoc _ _ _),
              fun victim name ns hmem => ⟨candidate, rfl, ?_⟩⟩
            rcases List.mem_cons.mp hmem with heq | hmem
            · obtain rfl : victim = v := by
                injection heq
              exact hv
            · cases List.mem_singleton.mp hmem

theorem run_settled (hrun : Run env (fun _ op => op.Public)
    { cache := .new C b clock policy_state } s) : s.cache.Settled C s.admissions.length :=
  Steps.invariant (I := fun s : Session π => s.cache.Settled C s.admissions.length)
    (fun _ _ hs hop => step_settled hop hs) hrun (new_settled C b clock policy_state)

-- A cache without tiers fills up to its capacity and stays full: whatever the policies and
-- whichever handles are held, the number of blocks, of free slots and of evictions follow
-- from the number of admissions.
theorem occupancy_law (hrun : Run env (fun _ op => op.Public)
    { cache := .new C b clock policy_state } s) :
    s.cache.snapshot = ⟨UInt32.ofNat C, UInt32.ofNat (min C s.admissions.length),
        UInt32.ofNat (min C s.admissions.length)⟩ ∧
      s.cache.manager.available = C - min C s.admissions.length ∧
      s.cache.events.countP Event.isAdmitted = s.admissions.length ∧
      s.cache.events.countP Event.isEvicted =
        s.admissions.length - min C s.admissions.length := by
  have hs := run_settled hrun
  have hroom := hs.room
  have hleft := hs.evicted
  refine ⟨hs.snapshot, ?_, hs.entered, ?_⟩
  · rw [BlockManager.available, BlockPool.available, hroom]
    omega
  · omega

private abbrev fullOps : List SessionOp :=
  [.admitBlock (Sample.candidate 1 [7] []), .dropHandle 0,
    .admitBlock (Sample.candidate 1 [8] [])]

private abbrev filledSession : Session Unit :=
  fullOps.foldl (step Sample.lruEnv) { cache := .new 1 1 Sample.clock () }

private theorem filledSession_run : Run Sample.lruEnv (fun _ op => op.Public)
    { cache := .new 1 1 Sample.clock () } filledSession :=
  (((Steps.refl _).snoc (SessionOp.admitBlock (Sample.candidate 1 [7] [])) (.inr ⟨_, rfl⟩)).snoc
    (.dropHandle 0) (.inl trivial)).snoc
      (.admitBlock (Sample.candidate 1 [8] [])) (.inr ⟨_, rfl⟩)

-- The second block takes the slot of the first.
theorem occupancy_law_full : filledSession.admissions.length = 2 ∧
    filledSession.cache.snapshot = ⟨1, 1, 1⟩ ∧
      filledSession.cache.events.countP Event.isEvicted = 1 := by
  have hlen : filledSession.admissions.length = 2 := by decide +kernel
  obtain ⟨hsnap, -, -, hleft⟩ := occupancy_law filledSession_run
  rw [hlen] at hsnap hleft
  exact ⟨hlen, hsnap, hleft⟩

section Verdict

open AdmissionController

-- What a cache of `C` slots answers to an admission. Its checks come first; a block that
-- passes them is turned away only where every slot has a live handle.
def verdict (env : Env π) (C : Nat) (s : Session π) (candidate : BlockCandidate) : AdmitStatus :=
  if candidate.tokens.length ≠ (candidate.block_index.toNat + 1) * s.cache.block_size then
    .InvalidBlock
  else if (fullBlocks env s.cache candidate).length = candidate.block_index.toNat + 1 then
    .AlreadyPresent
  else if (parentBlocks env s.cache candidate).length ≠ candidate.block_index.toNat then
    .InvalidBlock
  else if decision env (LocalCache.admitContext env candidate s.cache) candidate s.cache =
      .Reject then
    .Rejected
  else if ∀ slot < C, slot ∈ s.live then .CapacityExceeded
  else .Admitted

variable {candidate : BlockCandidate}

private theorem verdict_of_eligible (he : Eligible env s.cache.ticked candidate)
    (hd : decision env (LocalCache.admitContext env candidate s.cache) candidate s.cache.ticked =
      .Admit) :
    s.verdict env C candidate =
      if ∀ slot < C, slot ∈ s.live then .CapacityExceeded else .Admitted := by
  have hnot : ¬ decision env (LocalCache.admitContext env candidate s.cache) candidate s.cache =
      .Reject := by
    intro h
    have hsame := hd.symm.trans h
    cases hsame
  unfold verdict
  exact (if_neg (not_not.mpr he.tokens)).trans ((if_neg he.absent).trans
    ((if_neg (not_not.mpr he.parent)).trans (if_neg hnot)))

-- A slot that is free, or ready and unpinned, has no handle.
theorem not_live (hx : s.held.Counted) (hfew : FewHandles s.live) {id : Nat}
    {r : BlockRecord} (hr : s.cache.manager.store.records[id]? = some r)
    (h : r.state = .Free ∨ r.refcount = 0) : id ∉ s.live := by
  intro hid
  rcases h with hfree | hzero
  · obtain ⟨r', hr', hready⟩ := hx.ready hid
    have hr'' : s.cache.manager.store.records[id]? = some r' := hr'
    rw [hr] at hr''
    cases hr''
    rw [hfree] at hready
    cases hready
  · have hcount : r.refcount = s.live.count id % 2 ^ 32 := hx.refcount hr
    have hpos := Multiset.count_pos.mpr hid
    have hlt := hfew id
    rw [hzero, Nat.mod_eq_of_lt hlt] at hcount
    omega

private theorem slot_lt (hs : s.cache.Settled C n) {id : Nat} {r : BlockRecord}
    (hr : s.cache.manager.store.records[id]? = some r) : id < C := by
  have hlt := BlockManager.lt_of_getElem? hr
  rwa [hs.slots] at hlt

-- The blocks that an admission could evict are those without a handle.
theorem mem_eligible_iff (hs : s.cache.Settled C n) (hx : s.held.Counted)
    (hfew : FewHandles s.live) {ctx : AdmissionContext} {id : Nat} :
    id ∈ EvictionController.eligible (planned env ctx candidate s.cache.ticked).2 .GpuSim ↔
      (∃ r, s.cache.manager.store.records[id]? = some r ∧ r.state = .Ready) ∧ id ∉ s.live := by
  have hq := planned_quiet env ctx candidate s.cache.ticked
  have hstore : (planned env ctx candidate s.cache.ticked).2.manager.store =
      s.cache.manager.store := hq.store
  rw [EvictionController.mem_eligible (hq.inStep (s.cache.ticked_quiet.inStep hs.inStep)), hstore]
  constructor
  · rintro ⟨r, hr, hready, href, -⟩
    exact ⟨⟨r, hr, hready⟩, not_live hx hfew hr (.inr href)⟩
  · rintro ⟨⟨r, hr, hready⟩, hnot⟩
    have hcount : r.refcount = s.live.count id % 2 ^ 32 := hx.refcount hr
    rw [Multiset.count_eq_zero_of_notMem hnot] at hcount
    rcases hs.state hr with hfree | ⟨-, htier, -⟩
    · rw [hready] at hfree
      cases hfree
    · exact ⟨r, hr, hready, hcount, htier⟩

-- Room for a block is a slot without a handle.
private theorem exists_unpinned (hs : s.cache.Settled C n) (hx : s.held.Counted)
    (hfew : FewHandles s.live) {ctx : AdmissionContext} {s₁ : Stack π} {id : Nat}
    {rest : List BlockId} (hroom : Room env ctx candidate s.cache.ticked s₁)
    (hfree : s₁.manager.pool.free_list = id :: rest) : ∃ slot < C, slot ∉ s.live := by
  cases hroom with
  | free hroom hq =>
      have hpool : s.cache.manager.pool.free_list = id :: rest := by
        rw [← hfree, hq.pool]
        rfl
      obtain ⟨r, hr, hstate⟩ := hs.inStep.next_free hpool
      exact ⟨id, slot_lt hs hr, not_live hx hfew hr (.inl hstate)⟩
  | @evicted s₀ _ victim r tm hroom hv hq hr hready href hrem hq' =>
      have hr' : s.cache.manager.store.records[victim]? = some r := by
        rw [← hr, hq.store]
        rfl
      exact ⟨victim, slot_lt hs hr', not_live hx hfew hr' (.inr href)⟩

-- Where the policy has nothing to choose from, every slot has a handle.
private theorem all_pinned (halways : env.eviction.AlwaysPicks) (hs : s.cache.Settled C n)
    (hx : s.held.Counted) (hfew : FewHandles s.live) {ctx : AdmissionContext}
    (hroom : noRoom s.cache.ticked (planned env ctx candidate s.cache.ticked).1 = true)
    (hv : admissionVictim env ctx candidate s.cache.ticked = none) :
    ∀ slot < C, slot ∈ s.live := by
  have hticked := hs.quiet s.cache.ticked_quiet
  have hplanned := hticked.quiet (planned_quiet env ctx candidate s.cache.ticked)
  have hcands : EvictionController.candidates (planned env ctx candidate s.cache.ticked).2
      .GpuSim = [] := by
    rw [admissionVictim, if_pos hroom, planned_untiered hticked.untiered] at hv
    by_contra hne
    obtain ⟨fs, hfs, hids⟩ := buildAll_eq _ (planned env ctx candidate s.cache.ticked).2.index
      ctx.timestamp_ns fun id hid => by
        obtain ⟨r, hr, -⟩ := (EvictionController.mem_candidates hplanned.inStep).mp hid
        exact ⟨r, hr⟩
    have hsome := halways ⟨.GpuSim, 0, ctx.timestamp_ns⟩ fs
      (planned env ctx candidate s.cache.ticked).2.policy_state fun h => by
        rw [h] at hids
        exact hne hids.symm
    simp only [EvictionController.victim, if_neg hne, hfs] at hv
    rw [hv] at hsome
    cases hsome
  intro slot hlt
  have hready := hs.full ((noRoom_iff hticked _).mp hroom) hlt
  by_contra hnot
  have hmem : slot ∈ EvictionController.eligible
      (planned env ctx candidate s.cache.ticked).2 .GpuSim :=
    (mem_eligible_iff hs hx hfew).mpr ⟨hready, hnot⟩
  rw [← EvictionController.candidates_toFinset hplanned.inStep, hcands] at hmem
  cases hmem

-- Whatever was done with the cache before, an admission returns, and it returns what the
-- checks say; space is wanting only where every slot has a live handle.
theorem admitBlock_verdict (hpick : env.eviction.PicksCandidate)
    (halways : env.eviction.AlwaysPicks)
    (hrun : Run env (fun s op => op.Public ∧ FewHandles s.live)
      { cache := .new C b clock policy_state } s) (hfew : FewHandles s.live)
    (candidate : BlockCandidate) :
    ∃ res, ((LocalCache.admitBlock env candidate).run s.cache).1 = .ok res ∧
      res.status = s.verdict env C candidate ∧ (res.handle.isSome ↔ res.status = .Admitted) := by
  have hs := run_settled (hrun.mono fun _ _ h => h.1)
  obtain ⟨-, hx⟩ := run_counted (.untiered C b clock policy_state) (hrun.mono fun _ _ h => h.2)
  have hcase := admitBlock_cases env hs.inStep candidate
  generalize ((LocalCache.admitBlock env candidate).run s.cache).1 = res at hcase ⊢
  generalize (step env s (.admitBlock candidate)).cache = s' at hcase
  cases hcase with
  | badLength hlen => exact ⟨_, rfl, (if_pos hlen).symm, by simp⟩
  | present hlen hfull =>
      refine ⟨_, rfl, ?_, by simp⟩
      unfold verdict
      exact ((if_neg (not_not.mpr hlen)).trans (if_pos hfull)).symm
  | noParent hlen habsent hparent =>
      refine ⟨_, rfl, ?_, by simp⟩
      unfold verdict
      exact ((if_neg (not_not.mpr hlen)).trans ((if_neg habsent).trans (if_pos hparent))).symm
  | rejected he hd hq =>
      refine ⟨_, rfl, ?_, by simp⟩
      unfold verdict
      exact ((if_neg (not_not.mpr he.tokens)).trans ((if_neg he.absent).trans
        ((if_neg (not_not.mpr he.parent)).trans (if_pos hd)))).symm
  | noSpace he hd hroom hv hq =>
      refine ⟨_, rfl, ?_, by simp⟩
      rw [verdict_of_eligible he hd, if_pos (all_pinned halways hs hx hfew hroom hv)]
  | evictRefused e he hv hnot hq =>
      obtain ⟨r, hr, hready, href, -⟩ := admissionVictim_eligible hpick
        (s.cache.ticked_quiet.inStep hs.inStep) hv
      have hpos := hnot r hr hready
      omega
  | evictStuck e he hv hq hr hready href hstuck =>
      exact absurd (hs.quiet (s.cache.ticked_quiet.trans hq)).untiered hstuck.not_untiered
  | leaked e he hd hroom hfree hmis =>
      have hclear := Room.cleared (hs.quiet s.cache.ticked_quiet) hroom
      exact absurd hclear.untiered hmis.not_untiered
  | admitted he hd hroom hfree hplace hs₂ =>
      obtain ⟨slot, hlt, hnot⟩ := exists_unpinned hs hx hfew hroom hfree
      refine ⟨_, rfl, ?_, by simp⟩
      rw [verdict_of_eligible he hd, if_neg fun h => hnot (h slot hlt)]

-- The one slot is held, so that the second block finds no room.
theorem admitBlock_verdict_pinned : ∃ res, ((LocalCache.admitBlock Sample.lruEnv
      (Sample.candidate 1 [8] [])).run (step Sample.lruEnv
        { cache := LocalCache.new 1 1 Sample.clock () }
        (.admitBlock (Sample.candidate 1 [7] []))).cache).1 = .ok res ∧
    res.status = .CapacityExceeded := by
  have hfew : ∀ s : Session Unit, s.live.card < 2 ^ 32 → FewHandles s.live :=
    fun s h id => lt_of_le_of_lt (Multiset.count_le_card id s.live) h
  have hstart : Run Sample.lruEnv (fun s op => op.Public ∧ FewHandles s.live)
      { cache := LocalCache.new 1 1 Sample.clock () }
      { cache := LocalCache.new 1 1 Sample.clock () } := Steps.refl _
  have hrun := hstart.snoc (.admitBlock (Sample.candidate 1 [7] []))
    ⟨.inr ⟨_, rfl⟩, hfew _ (by decide)⟩
  obtain ⟨res, hres, hstatus, -⟩ := admitBlock_verdict LruEvictionPolicy.picksCandidate
    LruEvictionPolicy.alwaysPicks hrun (hfew _ (by decide +kernel)) (Sample.candidate 1 [8] [])
  exact ⟨res, hres, hstatus.trans (by decide +kernel)⟩

end Verdict

end Session

end KVCache
