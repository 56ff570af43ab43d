import KVCache.Session.Session

namespace KVCache

open Lib Controller Policy Prefix Sim Tier

variable {π : Type}

-- What a record says about which block its slot holds.
def BlockRecord.identity (r : BlockRecord) : BlockId × Nat × ContentHash × UInt32 × UInt16 :=
  (r.id, r.generation, r.hash, r.block_index, r.token_count)

-- The event is the end or the start of a block in the slot.
def Sim.Event.Recycles (id : BlockId) : Event → Prop
  | .BlockEvicted id' _ _ => id' = id
  | .BlockAdmitted id' _ _ _ _ => id' = id
  | _ => False

namespace Controller

-- No record has as many handles as its counter has values.
def FewHandles (H : Multiset Nat) : Prop := ∀ id, H.count id < 2 ^ 32

-- The reference counts are the numbers of live handles, and a block with a live handle
-- is ready.
structure Held.Counted (x : Held π) : Prop where
  refcount : ∀ {id r}, x.stack.manager.store.records[id]? = some r →
    r.refcount = x.held.count id % 2 ^ 32
  ready : ∀ {id}, id ∈ x.held → ∃ r, x.stack.manager.store.records[id]? = some r ∧ r.state = .Ready

-- From `s` to `s'`, the slot `id` holds the same block in the same state.
structure Stack.KeepsBlock (id : Nat) (s s' : Stack π) : Prop where
  record : ∀ {r}, s.manager.store.records[id]? = some r →
    ∃ r', s'.manager.store.records[id]? = some r' ∧ r'.state = r.state ∧ r'.identity = r.identity
  events : ∃ es, s'.events = s.events ++ es ∧ ∀ e ∈ es, ¬ e.Recycles id

-- From `x` to `x'`, handles only come, and blocks with handles stay what they are.
structure Held.Keeps (x x' : Held π) : Prop where
  held : x.held ≤ x'.held
  block : ∀ {id}, id ∈ x.held → x.stack.KeepsBlock id x'.stack

namespace Stack.KeepsBlock

variable {s s' s'' : Stack π} {id : Nat}

theorem refl (id : Nat) (s : Stack π) : s.KeepsBlock id s :=
  ⟨fun hr => ⟨_, hr, rfl, rfl⟩, [], by simp, by simp⟩

theorem trans (h : s.KeepsBlock id s') (h' : s'.KeepsBlock id s'') : s.KeepsBlock id s'' := by
  refine ⟨fun hr => ?_, ?_⟩
  · obtain ⟨r', hr', hstate, hident⟩ := h.record hr
    obtain ⟨r'', hr'', hstate', hident'⟩ := h'.record hr'
    exact ⟨r'', hr'', hstate'.trans hstate, hident'.trans hident⟩
  · obtain ⟨es, hes, hno⟩ := h.events
    obtain ⟨es', hes', hno'⟩ := h'.events
    refine ⟨es ++ es', by rw [hes', hes, List.append_assoc], fun e he => ?_⟩
    rcases List.mem_append.mp he with he | he
    · exact hno e he
    · exact hno' e he

-- Where the blocks stay the same, each is kept.
theorem of_sameBlocks (h : s.manager.SameBlocks s'.manager) (he : s'.events = s.events) (id : Nat) :
    s.KeepsBlock id s' := by
  refine ⟨fun {r} hr => ?_, [], by simp [he], by simp⟩
  obtain ⟨r', hr', hbody⟩ := h.record hr
  obtain ⟨h1, h2, h3, h4, h5, -, -, hstate⟩ := BlockRecord.fields_of_body hbody
  exact ⟨r', hr', hstate, by simp only [BlockRecord.identity, h1, h2, h3, h4, h5]⟩

end Stack.KeepsBlock

namespace Held

variable {x x' x'' : Held π}

theorem Keeps.refl (x : Held π) : x.Keeps x := ⟨le_refl _, fun _ => .refl _ _⟩

theorem Keeps.trans (h : x.Keeps x') (h' : x'.Keeps x'') : x.Keeps x'' :=
  ⟨h.held.trans h'.held,
    fun hid => (h.block hid).trans (h'.block (Multiset.mem_of_le h.held hid))⟩

theorem Keeps.of_sameBlocks {s s' : Stack π} {H H' : Multiset Nat}
    (h : s.manager.SameBlocks s'.manager) (hle : H ≤ H') (he : s'.events = s.events) :
    Keeps ⟨s, H⟩ ⟨s', H'⟩ := ⟨hle, fun {id} _ => .of_sameBlocks h he id⟩

end Held

section Access

variable {m : BlockManager} {H : Multiset Nat}

-- The change of one counter.
private theorem counted_modify {s : Stack π} {m : BlockManager} {H H' : Multiset Nat} {slot : Nat}
    {f : BlockRecord → BlockRecord} (hx : Held.Counted ⟨s, H⟩)
    (hm : ∀ j, m.store.records[j]? =
      if j = slot then s.manager.store.records[j]?.map f else s.manager.store.records[j]?)
    (hstate : ∀ r, (f r).state = r.state)
    (hcount : ∀ r, r.refcount = H.count slot % 2 ^ 32 → (f r).refcount = H'.count slot % 2 ^ 32)
    (hother : ∀ id, id ≠ slot → H'.count id = H.count id)
    (hready : ∀ id ∈ H', id ∈ H ∨ ∃ r, s.manager.store.records[id]? = some r ∧ r.state = .Ready) :
    Held.Counted ⟨{ s with manager := m }, H'⟩ := by
  refine ⟨fun {id r} hr => ?_, fun {id} hid => ?_⟩
  · simp only [hm] at hr
    split at hr
    · rename_i h
      subst h
      obtain ⟨r₀, hr₀, rfl⟩ := Option.map_eq_some_iff.mp hr
      exact hcount r₀ (hx.refcount hr₀)
    · rename_i h
      rw [hother id h]
      exact hx.refcount hr
  · have hold : ∃ r, s.manager.store.records[id]? = some r ∧ r.state = .Ready := by
      rcases hready id hid with h | h
      · exact hx.ready h
      · exact h
    obtain ⟨r, hr, hs⟩ := hold
    simp only [hm]
    split
    · exact ⟨f r, by rw [hr]; rfl, (hstate r).trans hs⟩
    · exact ⟨r, hr, hs⟩

private theorem counted_touched {s : Stack π} {id : Nat} {r : BlockRecord}
    (hx : Held.Counted ⟨s, H⟩) (hr : s.manager.store.records[id]? = some r)
    (hready : r.state = .Ready) :
    Held.Counted ⟨{ s with manager := s.manager.touched id }, id ::ₘ H⟩ := by
  refine counted_modify hx (BlockManager.touched_getElem? s.manager id) (fun _ => rfl) ?_ ?_ ?_
  · intro r hr
    simp only [hr, Multiset.count_cons_self]
    omega
  · intro j hj
    exact Multiset.count_cons_of_ne hj H
  · intro j hj
    rcases Multiset.mem_cons.mp hj with rfl | hj
    · exact .inr ⟨r, hr, hready⟩
    · exact .inl hj

theorem counted_released {s : Stack π} {id : Nat} (hx : Held.Counted ⟨s, H⟩) (hid : id ∈ H) :
    Held.Counted ⟨{ s with manager := s.manager.released id }, H.erase id⟩ := by
  refine counted_modify hx (BlockManager.withRecord_getElem? s.manager id · _) (fun _ => rfl)
    ?_ ?_ ?_
  · intro r hr
    have hpos := Multiset.count_pos.mpr hid
    simp only [hr, Multiset.count_erase_self]
    omega
  · intro j hj
    exact Multiset.count_erase_of_ne hj H
  · intro j hj
    exact .inl (Multiset.mem_of_mem_erase hj)

end Access

section Transition

variable {env : Env π} {x x' : Held π}

-- A block without a handle is replaced: all that has one stays as it is.
private theorem replaced {s s' : Stack π} {H : Multiset Nat} {id : Nat}
    {f : BlockRecord → BlockRecord} (hid : id ∉ H) (hx : Held.Counted ⟨s, H⟩)
    (hm : ∀ j, s'.manager.store.records[j]? =
      if j = id then s.manager.store.records[j]?.map f else s.manager.store.records[j]?)
    (hzero : ∀ r, s.manager.store.records[id]? = some r → (f r).refcount = 0)
    (es : List Event) (hes : s'.events = s.events ++ es)
    (hrec : ∀ e ∈ es, ∀ j, e.Recycles j → j = id) :
    Held.Counted ⟨s', H⟩ ∧ Held.Keeps ⟨s, H⟩ ⟨s', H⟩ := by
  have hsame : ∀ j, j ≠ id → s'.manager.store.records[j]? = s.manager.store.records[j]? :=
    fun j hj => by rw [hm, if_neg hj]
  have hne : ∀ j ∈ H, j ≠ id := fun j hj h => hid (h ▸ hj)
  refine ⟨⟨fun {j r} hr => ?_, fun {j} hj => ?_⟩, le_refl _,
    fun {j} hj => ⟨fun {r} hr => ?_, es, hes, fun e he hrecycle => ?_⟩⟩
  · by_cases hji : j = id
    · subst hji
      simp only [hm, if_pos] at hr
      obtain ⟨r₀, hr₀, rfl⟩ := Option.map_eq_some_iff.mp hr
      rw [hzero r₀ hr₀, Multiset.count_eq_zero_of_notMem hid, Nat.zero_mod]
    · simp only [hsame j hji] at hr
      exact hx.refcount hr
  · obtain ⟨r, hr, hs⟩ := hx.ready hj
    exact ⟨r, by rw [hsame j (hne j hj), hr], hs⟩
  · exact ⟨r, by rw [hsame j (hne j hj)]; exact hr, rfl, rfl⟩
  · exact hne j hj (hrec e he j hrecycle)

private theorem counted_migrated {s : Stack π} {H : Multiset Nat} (hx : Held.Counted ⟨s, H⟩)
    (id : BlockId) (target : KVCache.Tier) (tm : TierManager) (e : Event) :
    Held.Counted ⟨s.migrated id target tm e, H⟩ := by
  have hrec := s.migrated_getElem? id target tm e
  refine ⟨fun {j r'} hr' => ?_, fun {j} hj => ?_⟩
  · rcases hrec j with h | h
    · exact hx.refcount (h ▸ hr')
    · simp only [h] at hr'
      obtain ⟨r₀, hr₀, rfl⟩ := Option.map_eq_some_iff.mp hr'
      exact hx.refcount (r := r₀) hr₀
  · obtain ⟨r₀, hr₀, hready⟩ := hx.ready hj
    rcases hrec j with h | h
    · exact ⟨r₀, h.trans hr₀, hready⟩
    · exact ⟨{ r₀ with tier := target }, by simp only [h, hr₀]; rfl, hready⟩

private theorem keepsBlock_migrated (s : Stack π) (id : BlockId) (target : KVCache.Tier)
    (tm : TierManager) {e : Event} {j : Nat} (he : ¬ e.Recycles j) :
    s.KeepsBlock j (s.migrated id target tm e) := by
  refine ⟨fun {r₀} hr₀ => ?_, [e], ?_, fun e' he' => ?_⟩
  · rcases s.migrated_getElem? id target tm e j with h | h
    · exact ⟨r₀, h.trans hr₀, rfl, rfl⟩
    · exact ⟨{ r₀ with tier := target }, by simp only [h, hr₀]; rfl, rfl, rfl⟩
  · unfold Stack.migrated Stack.setTierStore
    split <;> rfl
  · rw [List.mem_singleton.mp he']
    exact he

-- A block that the eviction guard lets through has no handle.
private theorem not_held {s : Stack π} {H : Multiset Nat} (hx : Held.Counted ⟨s, H⟩)
    (hok : FewHandles H) {id : Nat} {r : BlockRecord} (hr : s.manager.store.records[id]? = some r)
    (href : r.refcount = 0) : id ∉ H := by
  intro hid
  have hcount : r.refcount = H.count id % 2 ^ 32 := hx.refcount hr
  have hpos := Multiset.count_pos.mpr hid
  have hlt := hok id
  rw [href, Nat.mod_eq_of_lt hlt] at hcount
  omega

-- Neither has a free slot.
private theorem not_held_of_free {s : Stack π} {H : Multiset Nat} (hs : s.manager.InStep)
    (hx : Held.Counted ⟨s, H⟩) {id : Nat} {rest : List BlockId}
    (hfree : s.manager.pool.free_list = id :: rest) : id ∉ H := by
  intro hid
  obtain ⟨r, hr, hready⟩ := hx.ready hid
  exact hs.next_not_ready hfree hr hready

-- An access moves one counter together with its handles.
private theorem counted_access {s : Stack π} {m : BlockManager} {H H' : Multiset Nat}
    (hx : Held.Counted ⟨s, H⟩) (h : BlockManager.Access (s.manager, H) (m, H')) :
    Held.Counted ⟨{ s with manager := m }, H'⟩ ∧
      Held.Keeps ⟨s, H⟩ ⟨{ s with manager := m }, H'⟩ := by
  have hsame := h.sameBlocks
  cases h with
  | tick hp hst =>
      refine ⟨⟨fun hr => ?_, fun hid => ?_⟩, .of_sameBlocks hsame (le_refl _) rfl⟩
      · exact hx.refcount (hst ▸ hr)
      · rw [hst]
        exact hx.ready hid
  | @touch _ _ id r hr hready =>
      exact ⟨counted_touched hx hr hready, .of_sameBlocks hsame (Multiset.le_cons_self H id) rfl⟩
  | @glance _ _ id r hr hready =>
      have hdone := counted_released (counted_touched hx hr hready) (Multiset.mem_cons_self id H)
      rw [Multiset.erase_cons_head] at hdone
      exact ⟨hdone, .of_sameBlocks hsame (le_refl _) rfl⟩

-- What one transition does to the counts and to the blocks with live handles.
theorem Transition.counted (hs : x.stack.manager.InStep) (hx : x.Counted)
    (h : Transition env FewHandles x x') : x'.Counted ∧ x.Keeps x' := by
  cases h with
  | quiet h =>
      have hsame := BlockManager.SameBlocks.of_eq h.pool h.store
      refine ⟨⟨fun hr => ?_, fun hid => ?_⟩, .of_sameBlocks hsame (le_refl _) h.events⟩
      · exact hx.refcount (h.store ▸ hr)
      · rw [h.store]
        exact hx.ready hid
  | access h => exact counted_access hx h
  | @evict s H id r ts tm hr hready href hok hrem =>
      refine replaced (not_held hx hok hr href) hx
        (s.evicted_getElem? id · env.eviction.name ts tm) (fun r' hr' => ?_) _ rfl ?_
      · rw [hr] at hr'
        cases hr'
        exact href
      · intro e he j hj
        rw [List.mem_singleton.mp he] at hj
        exact hj.symm
  | @evictStuck s H id r hr hready href hok hstuck =>
      refine replaced (not_held hx hok hr href) hx (s.evictStuck_getElem? id ·)
        (fun r' hr' => ?_) [] (by simp [Stack.evictStuck]) (by simp)
      rw [hr] at hr'
      cases hr'
      exact href
  | @leak s H id rest candidate target tm hfree hmis =>
      exact replaced (not_held_of_free hs hx hfree) hx
        (s.leaked_getElem? id · rest _ tm) (fun r' hr' => rfl) []
        (by simp [Stack.leaked]) (by simp)
  | @enter s H id rest candidate ctx_hash existing target ts tm ext ref hfree hplace =>
      refine replaced (not_held_of_free hs hx hfree) hx
        (s.admitted_getElem? id · rest _ tm ext _ _) (fun r' hr' => rfl) _ rfl ?_
      intro e he j hj
      rw [List.mem_singleton.mp he] at hj
      exact hj.symm
  | @migrate s H id r tm t t' target e ts htm hr ht hid ht' hcap he =>
      refine ⟨counted_migrated hx id target _ e, le_refl _,
        fun {j} hj => keepsBlock_migrated s id target _ ?_⟩
      rcases he with ⟨-, rfl⟩ | ⟨-, rfl⟩ <;> exact fun h => h

theorem Transitions.counted (hs : x.stack.manager.InStep) (hx : x.Counted)
    (h : Transitions env FewHandles x x') : x'.Counted ∧ x.Keeps x' := by
  induction h with
  | refl => exact ⟨hx, .refl x⟩
  | tail hrest hlast ih =>
      obtain ⟨hmid, hkeep⟩ := ih
      obtain ⟨hdone, hkeep'⟩ := hlast.counted (Transitions.inStep hrest hs) hmid
      exact ⟨hdone, hkeep.trans hkeep'⟩

end Transition

end Controller

namespace Session

variable {env : Env π} {c : LocalCache π} {s : Session π}

theorem fresh_counted (hc : c.Constructed) : (Session.held { cache := c }).Counted := by
  obtain ⟨capacity, clock, hm⟩ := hc.manager_eq
  refine ⟨fun {id r} hr => ?_, fun {id} hid => ?_⟩
  · simp only [held, hm] at hr
    rw [(BlockManager.new_getElem? hr).2]
    simp [held, live]
  · simp [held, live] at hid

private theorem released_counted {x x' : Held π} (hx : x.Counted) (h : Released x x') :
    x'.Counted := by
  obtain ⟨slot, hslot, rfl⟩ := h
  exact counted_released hx hslot

-- In a run in which no record collects `2 ^ 32` handles, the counts are right.
theorem run_counted (hc : c.Constructed)
    (hrun : Run env (fun s _ => FewHandles s.live) { cache := c } s) :
    s.cache.manager.InStep ∧ s.held.Counted := by
  refine run_invariant FewHandles (fun _ _ h => h) (fun _ _ hs hx h => (h.counted hs hx).1)
    (fun _ _ _ hx h => released_counted hx h) hrun ?_ (fresh_counted hc)
  obtain ⟨capacity, clock, hm⟩ := hc.manager_eq
  exact hm ▸ BlockManager.new_inStep capacity clock

theorem step_counted (hs : s.cache.manager.InStep) (hx : s.held.Counted)
    (hfew : FewHandles s.live) (op : SessionOp) : (step env s op).held.Counted := by
  rcases step_cases env hs hfew op with h | h
  · exact (h.counted hs hx).1
  · exact released_counted hx h

-- One operation keeps a block that has a live handle before it.
private theorem step_keeps (hs : s.cache.manager.InStep) (hx : s.held.Counted)
    (hfew : FewHandles s.live) (op : SessionOp) {id : Nat} (hid : id ∈ s.live) :
    s.cache.KeepsBlock id (step env s op).cache := by
  rcases step_cases env hs hfew op with h | ⟨slot, -, h⟩
  · exact (h.counted hs hx).2.block hid
  · have hcache := congrArg Held.stack h
    simp only [held] at hcache
    rw [hcache]
    refine .of_sameBlocks ?_ ?_ id
    · exact BlockManager.released_sameBlocks s.cache.manager slot
    · rfl

private theorem run_keeps {s' : Session π} {id : Nat} (hs : s.cache.manager.InStep)
    (hx : s.held.Counted)
    (hrun : Run env (fun s _ => FewHandles s.live ∧ id ∈ s.live) s s') :
    s.cache.KeepsBlock id s'.cache := by
  have hinv : (s'.cache.manager.InStep ∧ s'.held.Counted) ∧ s.cache.KeepsBlock id s'.cache := by
    refine Steps.invariant (I := fun s' : Session π => (s'.cache.manager.InStep ∧ s'.held.Counted) ∧
      s.cache.KeepsBlock id s'.cache) ?_ hrun ⟨⟨hs, hx⟩, .refl id _⟩
    rintro s₁ op ⟨⟨hs₁, hx₁⟩, hkeep⟩ ⟨hfew, hid⟩
    have hone : Run env (fun _ _ => True) s₁ (step env s₁ op) := (Steps.refl s₁).snoc op trivial
    exact ⟨⟨(run_inStep hone hs₁).1, step_counted hs₁ hx₁ hfew op⟩,
      hkeep.trans (step_keeps hs₁ hx₁ hfew op hid)⟩
  exact hinv.2

-- Pinned blocks are stable: every reference count is the number of live handles, and
-- as long as a block has one, its slot stays ready with the same block in it; no event
-- tells of an eviction of it or of another admission into its slot.
theorem pinned_blocks_stable (hc : c.Constructed)
    (hrun : Run env (fun s _ => FewHandles s.live) { cache := c } s) (hfew : FewHandles s.live) :
    (∀ id r, s.cache.manager.store.records[id]? = some r → r.refcount = s.live.count id) ∧
    ∀ id ∈ s.live, ∃ r, s.cache.manager.store.records[id]? = some r ∧ r.state = .Ready ∧
      ∀ s', Run env (fun s _ => FewHandles s.live ∧ id ∈ s.live) s s' →
        (∃ r', s'.cache.manager.store.records[id]? = some r' ∧ r'.state = .Ready ∧
          r'.identity = r.identity) ∧
        ∃ es, s'.cache.events = s.cache.events ++ es ∧ ∀ e ∈ es, ¬ e.Recycles id := by
  obtain ⟨hs, hx⟩ := run_counted hc hrun
  refine ⟨fun id r hr => ?_, fun id hid => ?_⟩
  · rw [← Nat.mod_eq_of_lt (hfew id)]
    exact hx.refcount hr
  · obtain ⟨r, hr, hready⟩ := hx.ready hid
    refine ⟨r, hr, hready, fun s' hrun' => ?_⟩
    have hkeep := run_keeps hs hx hrun'
    obtain ⟨r', hr', hstate, hident⟩ := hkeep.record hr
    exact ⟨⟨r', hr', hstate.trans hready, hident⟩, hkeep.events⟩

-- Two blocks in a cache of two slots, of which the second one has lost its handle.
private abbrev pinnedSession : Session Unit :=
  [.admitBlock (Sample.candidate 1 [7] []), .admitBlock (Sample.candidate 1 [8] []),
    .dropHandle 1].foldl (step Sample.lruEnv) { cache := LocalCache.new 2 1 Sample.clock () }

-- A third block has to get in, and both slots are taken.
private abbrev pressedSession : Session Unit :=
  step Sample.lruEnv pinnedSession (.admitBlock (Sample.candidate 1 [9] []))

-- The block without a handle goes, the other one stays.
theorem pinned_blocks_stable_full :
    pressedSession.cache.events.countP (Event.evicts 1) = 1 ∧
      (∀ r, pinnedSession.cache.manager.store.records[0]? = some r → r.refcount = 1) ∧
      (∃ r r', pinnedSession.cache.manager.store.records[0]? = some r ∧
        pressedSession.cache.manager.store.records[0]? = some r' ∧ r'.state = .Ready ∧
          r'.identity = r.identity) ∧
      ∃ es, pressedSession.cache.events = pinnedSession.cache.events ++ es ∧
        ∀ e ∈ es, ¬ e.Recycles 0 := by
  have hfew : ∀ s : Session Unit, s.live.card < 2 ^ 32 → FewHandles s.live :=
    fun s h id => lt_of_le_of_lt (Multiset.count_le_card id s.live) h
  have hstart : Run Sample.lruEnv (fun s _ => FewHandles s.live)
      { cache := LocalCache.new 2 1 Sample.clock () }
      { cache := LocalCache.new 2 1 Sample.clock () } := Steps.refl _
  have hrun : Run Sample.lruEnv (fun s _ => FewHandles s.live)
      { cache := LocalCache.new 2 1 Sample.clock () } pinnedSession :=
    ((hstart.snoc (.admitBlock (Sample.candidate 1 [7] [])) (hfew _ (by decide +kernel))).snoc
      (.admitBlock (Sample.candidate 1 [8] [])) (hfew _ (by decide +kernel))).snoc
      (.dropHandle 1) (hfew _ (by decide +kernel))
  have hlive : pinnedSession.live = {0} := by decide +kernel
  have hmem : 0 ∈ pinnedSession.live := hlive ▸ Multiset.mem_singleton_self 0
  have hend : FewHandles pinnedSession.live := hfew _ (by decide +kernel)
  obtain ⟨hcount, hstable⟩ := pinned_blocks_stable (.untiered 2 1 Sample.clock ()) hrun hend
  obtain ⟨r, hr, -, hkeeps⟩ := hstable 0 hmem
  obtain ⟨⟨r', hr', hready, hsame⟩, es, hes, hno⟩ :=
    hkeeps pressedSession ((Steps.refl _).snoc _ ⟨hend, hmem⟩)
  refine ⟨by decide +kernel, fun r hr => ?_, ⟨r, r', hr, hr', hready, hsame⟩, es, hes, hno⟩
  rw [hcount 0 r hr, hlive]
  rfl

end Session

end KVCache
