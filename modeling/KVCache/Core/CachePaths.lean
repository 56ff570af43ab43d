import KVCache.Controller.AdmissionCases
import KVCache.Controller.MigrationCases
import KVCache.Core.LocalCache

namespace KVCache.LocalCache

open Lib Controller Policy Prefix Tier

variable {π : Type} {env : Env π} {s : LocalCache π}

theorem Constructed.manager_eq {c : LocalCache π} (h : Constructed c) :
    ∃ capacity clock, c.manager = .new capacity clock := by
  cases h with
  | untiered capacity block_size clock policy_state => exact ⟨capacity, clock, rfl⟩
  | tiered capacity block_size clock policy_state tm st => exact ⟨capacity, clock, rfl⟩

-- The cache after one reading of its clock.
def ticked (s : LocalCache π) : LocalCache π :=
  { s with manager := { s.manager with clock := s.manager.clock.nowNs.2 } }

-- What `admitBlock` tells the policies about the call.
def admitContext (env : Env π) (candidate : BlockCandidate) (s : LocalCache π) :
    AdmissionContext where
  request_id := 0
  context_hash := computeContextHash env.xxh3 candidate.context
  missing_blocks := 0
  timestamp_ns := s.manager.clock.nowNs.1

-- The handles that a call of `lookupPrefix` hands out.
def LocalLookupOutcome.handles (out : LocalLookupOutcome) : List (Option BlockHandle) :=
  out.matched_blocks.map some

-- `lookupPrefix` makes handles and changes nothing else.
theorem lookupPrefix_spec (env : Env π) (hs : s.manager.InStep) (hb : s.block_size ≠ 0)
    (ctx : CacheKeyContext) (tokens : List TokenId) :
    ∃ handles m', (lookupPrefix env ctx tokens).run s =
        (.ok {
          matched_blocks := handles
          matched_tokens := handles.length * s.block_size % 2 ^ 32
          miss_token_offset := handles.length * s.block_size % 2 ^ 32
          context_hash := computeContextHash env.xxh3 ctx
          total_full_blocks_in_request := tokens.length / s.block_size % 2 ^ 32 },
          { s with manager := m' }) ∧
      (∀ H, BlockManager.Accesses (s.manager, H)
        (m', BlockManager.slots (handles.map some) + H)) ∧
      handles.map (·.slot) <+:
        (s.index.lookup (computeContextHash env.xxh3 ctx) tokens).blocks ∧
      ((∀ id ∈ (s.index.lookup (computeContextHash env.xxh3 ctx) tokens).blocks,
          PrefixLookupEngine.Acquirable s.manager s.block_size id) →
        handles.map (·.slot) =
          (s.index.lookup (computeContextHash env.xxh3 ctx) tokens).blocks) := by
  obtain ⟨handles, m', hrun, hacc, hpre, hall⟩ := PrefixLookupEngine.acquireAll_spec
    s.block_size (s.index.lookup (computeContextHash env.xxh3 ctx) tokens).blocks hs
  refine ⟨handles, m', ?_, hacc, hpre, hall⟩
  have hlookup : (PrefixLookupEngine.lookup s.index (computeContextHash env.xxh3 ctx) tokens
      s.block_size).run s.manager =
      (.ok ⟨handles, handles.length * s.block_size % 2 ^ 32⟩, m') := by
    rw [PrefixLookupEngine.lookup, Exec.bind_ok hrun]
    rfl
  simp only [lookupPrefix, Exec.read_bind_run, if_neg hb]
  rw [Exec.bind_ok (Stack.onManager_ok hlookup)]
  rfl

-- The blocks that a lookup hits: those on the path of the tokens, as long as they are to
-- be had.
def localHits (env : Env π) (s : LocalCache π) (ctx : CacheKeyContext) (tokens : List TokenId) :
    List BlockId :=
  PrefixLookupEngine.hits s.manager s.block_size
    (s.index.lookup (computeContextHash env.xxh3 ctx) tokens).blocks

theorem lookupPrefix_hits (env : Env π) (hs : s.manager.InStep) (hb : s.block_size ≠ 0)
    (ctx : CacheKeyContext) (tokens : List TokenId) :
    ∃ out, ((lookupPrefix env ctx tokens).run s).1 = .ok out ∧
      out.matched_blocks.map (·.slot) = localHits env s ctx tokens := by
  obtain ⟨handles, m', hrun, -⟩ := PrefixLookupEngine.acquireAll_spec
    s.block_size (s.index.lookup (computeContextHash env.xxh3 ctx) tokens).blocks hs
  have hlookup : (PrefixLookupEngine.lookup s.index (computeContextHash env.xxh3 ctx) tokens
      s.block_size).run s.manager =
      (.ok ⟨handles, handles.length * s.block_size % 2 ^ 32⟩, m') := by
    rw [PrefixLookupEngine.lookup, Exec.bind_ok hrun]
    rfl
  simp only [lookupPrefix, Exec.read_bind_run, if_neg hb]
  rw [Exec.bind_ok (Stack.onManager_ok hlookup)]
  exact ⟨_, rfl, PrefixLookupEngine.acquireAll_hits s.block_size _ hs hrun⟩

-- Where every ready block has the cache's block size, it touches the blocks of its handles.
theorem lookupPrefix_touched (env : Env π) (hs : s.manager.InStep) (hb : s.block_size ≠ 0)
    (hsize : ∀ {id : Nat} {r : BlockRecord}, s.manager.store.records[id]? = some r →
      r.state = .Ready → r.token_count = UInt16.ofNat s.block_size)
    (ctx : CacheKeyContext) (tokens : List TokenId) :
    ∃ handles, (∃ out, (lookupPrefix env ctx tokens).run s = (.ok out,
        { s with manager := handles.foldl (fun m h => m.touched h.slot) s.manager }) ∧
        out.matched_blocks = handles) ∧
      ∀ h ∈ handles, PrefixLookupEngine.Acquirable s.manager s.block_size h.slot := by
  obtain ⟨handles, hrun, hacq⟩ := PrefixLookupEngine.acquireAll_touched hs hsize
    (s.index.lookup (computeContextHash env.xxh3 ctx) tokens).blocks
  have hlookup : (PrefixLookupEngine.lookup s.index (computeContextHash env.xxh3 ctx) tokens
      s.block_size).run s.manager = (.ok ⟨handles, handles.length * s.block_size % 2 ^ 32⟩,
        handles.foldl (fun m h => m.touched h.slot) s.manager) := by
    rw [PrefixLookupEngine.lookup, Exec.bind_ok hrun]
    rfl
  simp only [lookupPrefix, Exec.read_bind_run, if_neg hb]
  rw [Exec.bind_ok (Stack.onManager_ok hlookup)]
  exact ⟨handles, ⟨_, rfl, rfl⟩, hacq⟩

theorem lookupPrefix_zero (env : Env π) (hb : s.block_size = 0) (ctx : CacheKeyContext)
    (tokens : List TokenId) : ∃ e, (lookupPrefix env ctx tokens).run s = (.error e, s) := by
  simp only [lookupPrefix, Exec.read_bind_run, if_pos hb]
  exact ⟨_, rfl⟩

-- `serveBlockFetch` of a ready block of the generation asked for: its handle dies
-- before the answer is out.
theorem serveBlockFetch_hit (hs : s.manager.InStep) {id : Nat} {r : BlockRecord}
    (hr : s.manager.store.records[id]? = some r) (hready : r.state = .Ready) :
    (serveBlockFetch id r.generation).run s =
      ((match payloadBytes s r with
        | .error e => .error e
        | .ok payload => .ok ⟨.Ok, payload, r.hash, r.generation⟩),
        { s with manager := (s.manager.touched id).released id }) := by
  obtain ⟨r', hr', hbody⟩ := (BlockManager.touched_sameBlocks s.manager id).record hr
  obtain ⟨-, hgen, hhash, -, -, -, hpayload, -⟩ := BlockRecord.fields_of_body hbody
  have hget : (s.manager.touched id).store.records.getD id {} = r' := by
    rw [List.getD_eq_getElem?_getD, hr', Option.getD_some]
  have hbytes : payloadBytes { s with manager := s.manager.touched id } r' = payloadBytes s r := by
    simp only [payloadBytes, hpayload]
  have hfetch := Stack.onManager_ok (BlockManager.fetchLocal_hit hs hr hready)
  have hdrop := Stack.onManager_ok (s := { s with manager := s.manager.touched id })
    (BlockManager.dropHandle_run (s.manager.touched id) ⟨id⟩)
  rw [serveBlockFetch, Exec.bind_ok hfetch]
  simp only [Exec.read_bind_run, hget]
  rw [Exec.bind_ok hdrop, hbytes, hhash, hgen]
  cases payloadBytes s r <;> rfl

-- `serveBlockFetch` of anything else.
theorem serveBlockFetch_cases (hs : s.manager.InStep) (id generation : Nat) :
    (∃ r, s.manager.store.records[id]? = some r ∧ r.generation = generation ∧ r.state = .Ready) ∨
      ∃ status, status ≠ .Ok ∧
        (serveBlockFetch id generation).run s = (.ok { status := status }, s) := by
  rcases BlockManager.fetchLocal_cases hs id generation with
    ⟨r, hr, hgen, hready, -⟩ | ⟨status, hne, hrun⟩
  · exact .inl ⟨r, hr, hgen, hready⟩
  · right
    rw [serveBlockFetch, Exec.bind_ok (Stack.onManager_ok hrun)]
    cases status with
    | Hit => exact absurd rfl hne
    | NotFound => exact ⟨.NotFound, by simp, rfl⟩
    | StaleGeneration => exact ⟨.StaleGeneration, by simp, rfl⟩

-- What `serveBlockFetch` of an untiered cache answers, by the record of the slot.
def served (m : BlockManager) (id generation : Nat) : ServeBlockResult :=
  match m.store.records[id]? with
  | none => { status := .NotFound }
  | some r =>
      if r.generation = 0 then { status := .NotFound }
      else if r.generation ≠ generation then { status := .StaleGeneration }
      else if r.state ≠ .Ready then { status := .NotFound }
      else ⟨.Ok, [], r.hash, r.generation⟩

theorem serveBlockFetch_untiered (hs : s.manager.InStep) (htier : s.tier_manager = none)
    (id generation : Nat) :
    ((serveBlockFetch id generation).run s).1 = .ok (served s.manager id generation) := by
  have hmissed : ∀ status, (BlockManager.fetchLocal id generation).run s.manager =
      (.ok ⟨status, none⟩, s.manager) → status ≠ .Hit →
      ((serveBlockFetch id generation).run s).1 = .ok { status :=
        match status with
        | .StaleGeneration => .StaleGeneration
        | _ => .NotFound } := by
    intro status hrun hne
    rw [serveBlockFetch, Exec.bind_ok (Stack.onManager_ok hrun)]
    cases status with
    | Hit => exact absurd rfl hne
    | NotFound | StaleGeneration => rfl
  have hfetch := BlockManager.fetchLocal_eq hs id generation
  unfold served
  cases hr : s.manager.store.records[id]? with
  | none =>
      rw [hr] at hfetch
      exact hmissed _ hfetch (by simp)
  | some r =>
      simp only [hr] at hfetch ⊢
      split
      · rename_i hzero
        rw [if_pos hzero] at hfetch
        exact hmissed _ hfetch (by simp)
      · rename_i hzero
        rw [if_neg hzero] at hfetch
        split
        · rename_i hgen
          rw [if_pos hgen] at hfetch
          exact hmissed _ hfetch (by simp)
        · rename_i hgen
          rw [if_neg hgen] at hfetch
          split
          · rename_i hready
            rw [if_pos hready] at hfetch
            exact hmissed _ hfetch (by simp)
          · rename_i hready
            obtain rfl := not_not.mp hgen
            rw [serveBlockFetch_hit hs hr (not_not.mp hready)]
            simp only [payloadBytes, htier]

-- It answers with the block exactly when that is ready and of the generation asked for.
theorem served_ok {m : BlockManager} {id generation : Nat} :
    (served m id generation).status = .Ok ↔ ∃ r, m.store.records[id]? = some r ∧
      r.state = .Ready ∧ r.generation = generation ∧
      served m id generation = ⟨.Ok, [], r.hash, r.generation⟩ := by
  refine ⟨fun hok => ?_, fun ⟨_, _, _, _, h⟩ => h ▸ rfl⟩
  unfold served at hok ⊢
  cases hr : m.store.records[id]? with
  | none => simp [hr] at hok
  | some r =>
      simp only [hr] at hok ⊢
      refine ⟨r, rfl, ?_⟩
      split at hok
      · cases hok
      · split at hok
        · cases hok
        · split at hok
          · cases hok
          · rename_i hzero hgen hready
            rw [if_neg hzero, if_neg hgen, if_neg hready]
            exact ⟨not_not.mp hready, not_not.mp hgen, rfl⟩

theorem served_ready {m : BlockManager} (hm : m.InStep) {id : Nat} {r : BlockRecord}
    (hr : m.store.records[id]? = some r) (hready : r.state = .Ready) :
    served m id r.generation = ⟨.Ok, [], r.hash, r.generation⟩ := by
  have hpos := (hm.identity hr (by simp [hready])).2.2
  simp [served, hr, hready, Nat.pos_iff_ne_zero.mp hpos]

theorem served_sameBlocks {m m' : BlockManager} (h : m.SameBlocks m') (id generation : Nat) :
    served m' id generation = served m id generation := by
  unfold served
  cases hr : m.store.records[id]? with
  | none =>
      cases hr' : m'.store.records[id]? with
      | none => rfl
      | some r' =>
          obtain ⟨r, hr₂, -⟩ := h.symm.record hr'
          rw [hr] at hr₂
          cases hr₂
  | some r =>
      obtain ⟨r', hr', hbody⟩ := h.record hr
      obtain ⟨-, hgen, hhash, -, -, -, -, hstate⟩ := BlockRecord.fields_of_body hbody
      simp only [hr', hgen, hhash, hstate]

section Transitions

variable {ok : Multiset Nat → Prop} {H : Multiset Nat}

theorem accesses_transitions {m : BlockManager} {H' : Multiset Nat}
    (h : BlockManager.Accesses (s.manager, H) (m, H')) :
    Transitions env ok ⟨s, H⟩ ⟨{ s with manager := m }, H'⟩ := by
  suffices hgen : ∀ x, BlockManager.Accesses (s.manager, H) x →
      Transitions env ok ⟨s, H⟩ ⟨{ s with manager := x.1 }, x.2⟩ from hgen (m, H') h
  intro x hx
  induction hx with
  | refl => exact .refl
  | tail _ hlast ih => exact .tail ih (.access hlast)

theorem lookupPrefix_transitions (hs : s.manager.InStep) (ctx : CacheKeyContext)
    (tokens : List TokenId) :
    Transitions env ok ⟨s, H⟩ ⟨((lookupPrefix env ctx tokens).run s).2, BlockManager.slots
      (BlockManager.handed LocalLookupOutcome.handles
        ((lookupPrefix env ctx tokens).run s).1) + H⟩ := by
  by_cases hb : s.block_size = 0
  · obtain ⟨e, hrun⟩ := lookupPrefix_zero env hb ctx tokens
    rw [hrun]
    simpa [BlockManager.handed] using .refl
  · obtain ⟨handles, m', hrun, hacc, -, -⟩ := lookupPrefix_spec env hs hb ctx tokens
    rw [hrun]
    exact accesses_transitions (hacc H)

theorem getBlock_transitions (hs : s.manager.InStep) (id generation : Nat) :
    Transitions env ok ⟨s, H⟩ ⟨((getBlock id generation).run s).2, BlockManager.slots
      (BlockManager.handed (fun res : FetchLocalResult => [res.handle])
        ((getBlock id generation).run s).1) + H⟩ := by
  rcases BlockManager.fetchLocal_cases hs id generation with
    ⟨r, hr, -, hready, hrun⟩ | ⟨status, -, hrun⟩ <;>
    rw [getBlock, Stack.onManager_ok hrun]
  · simpa [BlockManager.handed] using .single (.access (.touch hr hready))
  · simpa [BlockManager.handed] using .refl

theorem serveBlockFetch_transitions (hs : s.manager.InStep) (id generation : Nat) :
    Transitions env ok ⟨s, H⟩ ⟨((serveBlockFetch id generation).run s).2, H⟩ := by
  rcases serveBlockFetch_cases hs id generation with ⟨r, hr, rfl, hready⟩ | ⟨status, -, hrun⟩
  · rw [serveBlockFetch_hit hs hr hready]
    exact .single (.access (.glance hr hready))
  · rw [hrun]

-- `admitBlock` reads the clock and admits.
theorem admitBlock_run (env : Env π) (candidate : BlockCandidate) (s : LocalCache π) :
    (admitBlock env candidate).run s =
      (AdmissionController.admitCandidate env candidate (admitContext env candidate s)).run
        s.ticked := rfl

theorem ticked_quiet (s : LocalCache π) : Quiet s s.ticked := ⟨rfl, rfl, rfl, rfl, rfl, rfl, rfl⟩

theorem admitBlock_transitions (hs : s.manager.InStep) (hok : ok H) (candidate : BlockCandidate) :
    Transitions env ok ⟨s, H⟩ ⟨((admitBlock env candidate).run s).2, BlockManager.slots
      (BlockManager.handed (fun res : AdmitResult => [res.handle])
        ((admitBlock env candidate).run s).1) + H⟩ := by
  rw [admitBlock_run]
  exact .head (.quiet s.ticked_quiet)
    (AdmissionController.admit_transitions env (s.ticked_quiet.inStep hs) hok candidate _)

end Transitions

end KVCache.LocalCache
