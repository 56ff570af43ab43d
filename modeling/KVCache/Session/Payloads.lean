import KVCache.Session.Session

namespace KVCache

open Lib Controller Policy Prefix Sim Tier

variable {π : Type}

namespace Controller

-- The tier manager works on a block store of its own, and no record of the manager has
-- a payload reference.
structure Stack.Apart (s : Stack π) : Prop where
  apart : s.tier_block_store.isSome
  payload : ∀ {id : Nat} {r : BlockRecord}, s.manager.store.records[id]? = some r → r.payload = {}

variable {env : Env π} {ok : Multiset Nat → Prop} {s s' : Stack π}

private theorem apart_of_records (ha : s.Apart) (hext : s'.tier_block_store.isSome)
    (hrec : ∀ {id : Nat} {r' : BlockRecord}, s'.manager.store.records[id]? = some r' →
      r'.payload = {} ∨ ∃ r, s.manager.store.records[id]? = some r ∧ r'.payload = r.payload) :
    s'.Apart := by
  refine ⟨hext, fun hr' => ?_⟩
  rcases hrec hr' with h | ⟨r, hr, h⟩
  · exact h
  · exact h.trans (ha.payload hr)

theorem Stack.Apart.sameBlocks (ha : s.Apart) (h : s.manager.SameBlocks s'.manager)
    (hext : s'.tier_block_store = s.tier_block_store) : s'.Apart := by
  refine apart_of_records ha (hext ▸ ha.apart) fun hr' => .inr ?_
  obtain ⟨r, hr, hbody⟩ := h.symm.record hr'
  obtain ⟨-, -, -, -, -, -, hpayload, -⟩ := BlockRecord.fields_of_body hbody
  exact ⟨r, hr, hpayload.symm⟩

theorem Transition.apart {x x' : Held π} (h : Transition env ok x x') (ha : x.stack.Apart) :
    x'.stack.Apart := by
  cases h with
  | quiet h => exact ha.sameBlocks (.of_eq h.pool h.store) h.tier_block_store
  | access h => exact ha.sameBlocks h.sameBlocks rfl
  | @evict s H id r ts tm hr hready href hok hrem =>
      refine apart_of_records ha ha.apart fun {j r'} hr' => .inr ?_
      rw [Stack.evicted_getElem?] at hr'
      split at hr'
      · obtain ⟨r₀, hr₀, rfl⟩ := Option.map_eq_some_iff.mp hr'
        exact ⟨r₀, hr₀, rfl⟩
      · exact ⟨r', hr', rfl⟩
  | @evictStuck s H id r hr hready href hok hstuck =>
      refine apart_of_records ha ha.apart fun {j r'} hr' => .inr ?_
      rw [Stack.evictStuck_getElem?] at hr'
      split at hr'
      · obtain ⟨r₀, hr₀, rfl⟩ := Option.map_eq_some_iff.mp hr'
        exact ⟨r₀, hr₀, rfl⟩
      · exact ⟨r', hr', rfl⟩
  | @leak s H id rest candidate target tm hfree hmis =>
      refine apart_of_records ha ha.apart fun {j r'} hr' => ?_
      rw [Stack.leaked_getElem?] at hr'
      split at hr'
      · obtain ⟨r₀, -, rfl⟩ := Option.map_eq_some_iff.mp hr'
        exact .inl rfl
      · exact .inr ⟨r', hr', rfl⟩
  | @enter s H id rest candidate ctx_hash existing target ts tm ext ref hfree hplace =>
      -- on a store of its own, `place` does not reach the record
      have hplaced : ext.isSome ∧ ref = {} := by
        cases hplace with
        | untiered h => exact ⟨ha.apart, rfl⟩
        | shared h hext =>
            have hsome := ha.apart
            simp only [hext] at hsome
            cases hsome
        | apart h hext => exact ⟨rfl, rfl⟩
      refine apart_of_records ha hplaced.1 fun {j r'} hr' => ?_
      rw [Stack.admitted_getElem?] at hr'
      split at hr'
      · obtain ⟨r₀, -, rfl⟩ := Option.map_eq_some_iff.mp hr'
        exact .inl hplaced.2
      · exact .inr ⟨r', hr', rfl⟩
  | @migrate s H id r tm t t' target e ts htm hr ht hid ht' hcap he =>
      refine apart_of_records ha ?_ fun {j r'} hr' => .inr ?_
      · unfold Stack.migrated Stack.setTierStore
        obtain ⟨st, hst⟩ := Option.isSome_iff_exists.mp ha.apart
        simp only at hst
        simp only [hst, Option.isSome_some]
      · rcases s.migrated_getElem? id target (tm.moved r.tier t target t' id) e j with h | h
        · exact ⟨r', h ▸ hr', rfl⟩
        · simp only [h] at hr'
          obtain ⟨r₀, hr₀, rfl⟩ := Option.map_eq_some_iff.mp hr'
          exact ⟨r₀, hr₀, rfl⟩

end Controller

namespace Session

variable {env : Env π} {s : Session π} {capacity block_size : Nat} {clock : Clock}
  {policy_state : π} {tm : TierManager} {st : BlockStore}

theorem run_apart {allowed : Session π → SessionOp → Prop}
    (hrun : Run env allowed
      { cache := .newTiered capacity block_size clock policy_state tm st } s) :
    s.cache.manager.InStep ∧ s.cache.Apart := by
  refine run_invariant (J := fun x => x.stack.Apart) (fun _ => True) (fun _ _ _ => trivial)
    (fun _ _ _ ha h => h.apart ha) ?_ hrun (BlockManager.new_inStep capacity clock)
    ⟨rfl, fun {id r} hr => ?_⟩
  · rintro x x' - ha ⟨slot, -, rfl⟩
    exact ha.sameBlocks (BlockManager.released_sameBlocks _ slot) rfl
  · rw [(BlockManager.new_getElem? hr).2]

-- The answer starts with as much of the candidate's payload as a buffer of `n` bytes takes.
def Survives (n : Nat) (candidate : BlockCandidate) (res : ServeBlockResult) : Prop :=
  res.payload.take (min candidate.payload.length n) =
    candidate.payload.take (min candidate.payload.length n)

-- A cache with tiers serves no payload at all.
private theorem served_empty (hs : s.cache.manager.InStep) (ha : s.cache.Apart)
    {id generation : Nat} {res : ServeBlockResult}
    (hserved : ((LocalCache.serveBlockFetch id generation).run s.cache).1 = .ok res) :
    res.payload = [] := by
  rcases LocalCache.serveBlockFetch_cases hs id generation with
    ⟨r, hr, rfl, hready⟩ | ⟨status, -, hrun⟩
  · have hbytes : s.cache.payloadBytes r = .ok [] := by
      unfold LocalCache.payloadBytes
      rw [ha.payload hr]
      split <;> rfl
    rw [LocalCache.serveBlockFetch_hit hs hr hready, hbytes] at hserved
    exact (congrArg ServeBlockResult.payload (Except.ok.inj hserved)).symm
  · rw [hrun] at hserved
    exact (congrArg ServeBlockResult.payload (Except.ok.inj hserved)).symm

-- What was admitted with a payload is never served with it: a served block has the
-- payload of its candidate exactly where that payload is empty.
theorem payload_survives_iff {allowed : Session π → SessionOp → Prop}
    (hrun : Run env allowed
      { cache := .newTiered capacity block_size clock policy_state tm st } s)
    (hn : 0 < tm.payload_store.bytes_per_block) :
    ∀ a ∈ s.admissions, ∀ res,
      ((LocalCache.serveBlockFetch a.block_id a.generation).run s.cache).1 = .ok res →
      res.status = .Ok →
        (Survives tm.payload_store.bytes_per_block a.candidate res ↔
          a.candidate.payload = []) := by
  intro a _ res hserved _
  obtain ⟨hs, ha⟩ := run_apart hrun
  rw [Survives, served_empty hs ha hserved, List.take_nil, eq_comm, List.take_eq_nil_iff,
    or_iff_right_iff_imp]
  intro hmin
  have hlen : a.candidate.payload.length = 0 := by omega
  exact List.length_eq_zero_iff.mp hlen

private abbrev hostTier : TierManager where
  tiers _ := some { capacity_blocks := 1 }
  payload_store := .new 1 2
  latency_model := ⟨fun _ _ => 0, fun _ _ _ => 0⟩

-- One block with the payload `[5, 6]`, in a cache with tiers.
private abbrev payloadSession : Session Unit :=
  step Sample.lruEnv { cache := .newTiered 1 1 Sample.clock () hostTier (.new 1) }
    (.admitBlock (Sample.candidate 1 [7] [5, 6]))

private theorem payloadSession_run : Run Sample.lruEnv (fun _ _ => True)
    { cache := .newTiered 1 1 Sample.clock () hostTier (.new 1) } payloadSession :=
  (Steps.refl _).snoc _ trivial

theorem payload_lost :
    Run Sample.lruEnv (fun _ _ => True)
        { cache := .newTiered 1 1 Sample.clock () hostTier (.new 1) } payloadSession ∧
      ∃ a ∈ payloadSession.admissions, ∃ res,
        ((LocalCache.serveBlockFetch a.block_id a.generation).run payloadSession.cache).1 =
            .ok res ∧
          res.status = .Ok ∧ ¬ Survives 2 a.candidate res := by
  refine ⟨payloadSession_run, ⟨Sample.candidate 1 [7] [5, 6], 0, 1⟩, by decide +kernel,
    ⟨.Ok, [], (Sample.candidate 1 [7] [5, 6]).hash, 1⟩, by decide +kernel, rfl, ?_⟩
  unfold Survives
  decide

theorem payload_survives_iff_lost :
    ¬ (Survives 2 (Sample.candidate 1 [7] [5, 6])
      ⟨.Ok, [], (Sample.candidate 1 [7] [5, 6]).hash, 1⟩) := by
  have hiff := payload_survives_iff payloadSession_run (by decide)
    ⟨Sample.candidate 1 [7] [5, 6], 0, 1⟩ (by decide +kernel)
    ⟨.Ok, [], (Sample.candidate 1 [7] [5, 6]).hash, 1⟩ (by decide +kernel) rfl
  exact fun h => nomatch hiff.mp h

end Session

end KVCache
