import KVCache.Controller.Agreement
import KVCache.Session.Session

namespace KVCache

open Lib Controller Policy Prefix Sim Tier

variable {π : Type} {env : Env π}

-- The operations of the cache itself and of handles, but for `admitBlock`.
def SessionOp.Looks : SessionOp → Prop
  | .lookupPrefix _ _ | .getBlock _ _ | .serveBlockFetch _ _ => True
  | .moveHandle _ | .assignHandle _ _ | .dropHandle _ => True
  | _ => False

def SessionOp.Public (op : SessionOp) : Prop :=
  op.Looks ∨ ∃ candidate, op = .admitBlock candidate

namespace Session

variable {s : Session π} {b : Nat}

-- The candidate that the block in a slot was last admitted for.
def lastCandidate (s : Session π) (id : Nat) : Option BlockCandidate :=
  (s.lastAdmission id).map (·.candidate)

theorem lastCandidate_admitted {s' : Session π} (candidate : BlockCandidate)
    (out : Except Fault AdmitResult × LocalCache π)
    (h : s'.admissions = admitted candidate out ++ s.admissions) :
    s'.lastCandidate = admittedLast candidate s.lastCandidate out.1 := by
  funext id
  unfold lastCandidate lastAdmission
  rw [h]
  obtain ⟨res, cache⟩ := out
  cases res with
  | error e => rfl
  | ok res =>
      obtain ⟨status, handle⟩ := res
      cases status with
      | Admitted =>
          cases handle with
          | none => rfl
          | some h' =>
              simp only [admitted, admittedLast, List.cons_append, List.nil_append,
                List.find?_cons]
              by_cases hid : h'.slot = id
              · subst hid
                simp
              · rw [Function.update_of_ne (Ne.symm hid)]
                simp [hid]
      | _ => rfl

-- A look at the cache leaves index and blocks alone.
theorem step_looks (env : Env π) (hs : s.cache.manager.InStep) {op : SessionOp} (hop : op.Looks) :
    ∃ m, (step env s op).cache = { s.cache with manager := m } ∧ s.cache.manager.SameBlocks m ∧
      (step env s op).admissions = s.admissions := by
  have hrelease : ∀ h : Option BlockHandle, ∃ m, release s.cache h = { s.cache with manager := m } ∧
      s.cache.manager.SameBlocks m := by
    intro h
    cases h with
    | none => exact ⟨s.cache.manager, rfl, .refl _⟩
    | some h => exact ⟨_, rfl, BlockManager.released_sameBlocks _ h.slot⟩
  cases op with
  | lookupPrefix ctx tokens =>
      by_cases hb : s.cache.block_size = 0
      · obtain ⟨e, hrun⟩ := LocalCache.lookupPrefix_zero env hb ctx tokens
        exact ⟨s.cache.manager, by rw [step, called, hrun], .refl _, rfl⟩
      · obtain ⟨handles, m, hrun, hacc, -⟩ := LocalCache.lookupPrefix_spec env hs hb ctx tokens
        exact ⟨m, by rw [step, called, hrun], (hacc 0).sameBlocks, rfl⟩
  | getBlock id generation =>
      rcases BlockManager.fetchLocal_cases hs id generation with
        ⟨r, hr, -, hready, hrun⟩ | ⟨status, -, hrun⟩
      · exact ⟨_, by rw [step, called, LocalCache.getBlock, Stack.onManager_ok hrun],
          BlockManager.touched_sameBlocks _ id, rfl⟩
      · exact ⟨_, by rw [step, called, LocalCache.getBlock, Stack.onManager_ok hrun], .refl _, rfl⟩
  | serveBlockFetch id generation =>
      rcases LocalCache.serveBlockFetch_cases hs id generation with
        ⟨r, hr, rfl, hready⟩ | ⟨status, -, hrun⟩
      · exact ⟨_, by rw [step, called, LocalCache.serveBlockFetch_hit hs hr hready],
          (BlockManager.touched_sameBlocks _ id).trans (BlockManager.released_sameBlocks _ id), rfl⟩
      · exact ⟨s.cache.manager, by rw [step, called, hrun], .refl _, rfl⟩
  | moveHandle i => exact ⟨s.cache.manager, rfl, .refl _, rfl⟩
  | assignHandle i j =>
      simp only [step]
      split
      · exact ⟨s.cache.manager, rfl, .refl _, rfl⟩
      · obtain ⟨m, hm, hsame⟩ := hrelease (s.handleAt i)
        exact ⟨m, hm, hsame, rfl⟩
  | dropHandle i =>
      obtain ⟨m, hm, hsame⟩ := hrelease (s.handleAt i)
      exact ⟨m, hm, hsame, rfl⟩
  | _ => exact absurd hop id

def EvictsAncestor (env : Env π) (s : Session π) : SessionOp → Prop
  | .admitBlock candidate =>
      AdmissionController.EvictsAncestor env (LocalCache.admitContext env candidate s.cache)
        candidate s.cache.ticked
  | _ => False

theorem admitBlock_cases (env : Env π) (hs : s.cache.manager.InStep) (candidate : BlockCandidate) :
    AdmissionController.AdmitCase env (LocalCache.admitContext env candidate s.cache) candidate
      s.cache.ticked ((LocalCache.admitBlock env candidate).run s.cache).1
      (step env s (.admitBlock candidate)).cache := by
  have hcase := AdmissionController.admit_cases env (s.cache.ticked_quiet.inStep hs) candidate
    (LocalCache.admitContext env candidate s.cache)
  rwa [← LocalCache.admitBlock_run] at hcase

theorem step_nodes_le (hs : s.cache.manager.InStep) {op : SessionOp} (hop : op.Public) :
    s.cache.index.nodes.length ≤ (step env s op).cache.index.nodes.length := by
  rcases hop with hop | ⟨candidate, rfl⟩
  · obtain ⟨m, hm, -⟩ := step_looks env hs hop
    rw [hm]
  · exact (admitBlock_cases env hs candidate).nodes_le

theorem step_agrees (hb : 0 < b) (hs : s.cache.manager.InStep)
    {M : PrefixMap CacheContextHash TokenId BlockId} (ha : s.cache.Agrees env b M s.lastCandidate)
    {op : SessionOp} (hop : op.Public) (hsafe : ¬ EvictsAncestor env s op)
    (hnodes : (step env s op).cache.index.nodes.length < 2 ^ 32) :
    ∃ M', (step env s op).cache.Agrees env b M' (step env s op).lastCandidate := by
  have hle : s.cache.index.nodes.length ≤ (step env s op).cache.index.nodes.length :=
    step_nodes_le hs hop
  rcases hop with hop | ⟨candidate, rfl⟩
  · obtain ⟨m, hm, hsame, hadm⟩ := step_looks env hs hop
    have hlast : (step env s op).lastCandidate = s.lastCandidate := by
      funext id
      unfold lastCandidate lastAdmission
      rw [hadm]
    rw [hm, hlast]
    exact ⟨M, ha.sameBlocks hsame rfl rfl⟩
  · rw [lastCandidate_admitted candidate ((LocalCache.admitBlock env candidate).run s.cache) rfl]
    exact (admitBlock_cases env hs candidate).agrees (ha.quiet s.cache.ticked_quiet) hb
      (s.cache.ticked_quiet.inStep hs) hsafe (lt_of_le_of_lt hle hnodes) hnodes

theorem step_inStep (env : Env π) (hs : s.cache.manager.InStep) (op : SessionOp) :
    (step env s op).cache.manager.InStep := by
  have hcases : Transitions env (fun _ => True) s.held (step env s op).held ∨
      Released s.held (step env s op).held := step_cases env hs trivial op
  rcases hcases with h | h
  · exact Transitions.inStep h hs
  · exact h.inStep hs

theorem new_agrees (env : Env π) (capacity b : Nat) (clock : Clock) (policy_state : π) :
    (LocalCache.new capacity b clock policy_state).Agrees env b PrefixMap.empty fun _ => none := by
  refine ⟨rfl, rfl, PrefixIndex.empty_represents b, (fun h => nomatch h),
    fun hr hready => ?_⟩
  rw [(BlockManager.new_getElem? hr).2] at hready
  cases hready

variable {capacity : Nat} {clock : Clock} {policy_state : π}

theorem run_agrees (hb : 0 < b)
    (hrun : Run env (fun s op => op.Public ∧ ¬ EvictsAncestor env s op)
      { cache := .new capacity b clock policy_state } s)
    (hnodes : s.cache.index.nodes.length < 2 ^ 32) :
    s.cache.manager.InStep ∧ ∃ M, s.cache.Agrees env b M s.lastCandidate := by
  have hinv : s.cache.manager.InStep ∧ (s.cache.index.nodes.length < 2 ^ 32 →
      ∃ M, s.cache.Agrees env b M s.lastCandidate) := by
    refine Steps.invariant (I := fun s : Session π => s.cache.manager.InStep ∧
      (s.cache.index.nodes.length < 2 ^ 32 → ∃ M, s.cache.Agrees env b M s.lastCandidate)) ?_ hrun
      ⟨BlockManager.new_inStep capacity clock, fun _ => ⟨_, new_agrees env _ _ _ _⟩⟩
    rintro s op ⟨hs, hagree⟩ ⟨hop, hsafe⟩
    refine ⟨step_inStep env hs op, fun hnodes => ?_⟩
    obtain ⟨M, ha⟩ := hagree (lt_of_le_of_lt (step_nodes_le hs hop) hnodes)
    exact step_agrees hb hs ha hop hsafe hnodes
  exact ⟨hinv.1, hinv.2 hnodes⟩

-- Index and store agree, as far as the tree, the records and `lookupPrefix` show it.
structure IndexAgrees (env : Env π) (b : Nat) (s : Session π) : Prop where
  indexed : ∀ (id : BlockId) (r : BlockRecord), s.cache.manager.store.records[id]? = some r →
    r.state = .Ready → ∃ candidate, s.lastCandidate id = some candidate ∧
      (∀ c p, s.cache.index.Terminal c p id ↔
        c = computeContextHash env.xxh3 candidate.context ∧ p = candidate.tokens) ∧
      candidate.tokens.length = (r.block_index.toNat + 1) * b
  ready : ∀ c p id, s.cache.index.Terminal c p id →
    ∃ r, s.cache.manager.store.records[id]? = some r ∧ r.state = .Ready
  lookup : ∀ ctx tokens out, ((LocalCache.lookupPrefix env ctx tokens).run s.cache).1 = .ok out →
    ∀ (i : Nat) (h : BlockHandle), out.matched_blocks[i]? = some h →
      ∃ r candidate, s.cache.manager.store.records[h.slot]? = some r ∧ r.block_index.toNat = i ∧
        s.lastCandidate h.slot = some candidate ∧ r.hash = candidate.hash ∧
        computeContextHash env.xxh3 candidate.context = computeContextHash env.xxh3 ctx ∧
        candidate.tokens = tokens.take ((i + 1) * b)

-- Every block that the index returns is to be had.
theorem agrees_acquirable {M : PrefixMap CacheContextHash TokenId BlockId}
    {last : Nat → Option BlockCandidate} {c : LocalCache π} (ha : c.Agrees env b M last)
    (hb : 0 < b)
    (ctx_hash : CacheContextHash) (tokens : List TokenId) :
    ∀ id ∈ (c.index.lookup ctx_hash tokens).blocks,
      PrefixLookupEngine.Acquirable c.manager c.block_size id := by
  intro id hid
  rw [ha.lookup_blocks hb] at hid
  obtain ⟨k, hk⟩ := List.mem_iff_getElem?.mp hid
  obtain ⟨r, hr, hready⟩ := ha.ready (chain_getElem? hk)
  obtain ⟨candidate, -, -, hshow⟩ := ha.admitted hr hready
  exact ⟨r, hr, hready, by rw [hshow.token_count, ha.block_size]⟩

-- A mapped key names a block that was admitted for it.
theorem agrees_shows {M : PrefixMap CacheContextHash TokenId BlockId} {c : LocalCache π}
    {last : Nat → Option BlockCandidate} (ha : c.Agrees env b M last) {ctx_hash : CacheContextHash}
    {p : List TokenId} {id : Nat} (hp : M ctx_hash p = some id) :
    ∃ r candidate, c.manager.store.records[id]? = some r ∧ r.state = .Ready ∧
      last id = some candidate ∧ Shows candidate b r ∧ keyHash env candidate = ctx_hash ∧
      candidate.tokens = p := by
  obtain ⟨r, hr, hready⟩ := ha.ready hp
  obtain ⟨candidate, hlast, hkey, hshow⟩ := ha.admitted hr hready
  obtain ⟨hc, ht⟩ := ha.represents.injective _ _ _ _ _ hp hkey
  exact ⟨r, candidate, hr, hready, hlast, hshow, hc, ht⟩

theorem indexAgrees_of_agrees (hb : 0 < b) (hs : s.cache.manager.InStep)
    {M : PrefixMap CacheContextHash TokenId BlockId}
    (ha : s.cache.Agrees env b M s.lastCandidate) : IndexAgrees env b s := by
  refine ⟨fun id r hr hready => ?_, fun c p id ht => ha.ready (ha.represents.terminal_iff.mp ht),
    fun ctx tokens out hout i h hi => ?_⟩
  · obtain ⟨candidate, hlast, hkey, hshow⟩ := ha.admitted hr hready
    refine ⟨candidate, hlast, fun c p => ?_, hshow.tokens⟩
    rw [ha.represents.terminal_iff]
    constructor
    · intro hp
      exact ha.represents.injective _ _ _ _ _ hkey hp
    · rintro ⟨rfl, rfl⟩
      exact hkey
  · have hsize : s.cache.block_size ≠ 0 := by
      rw [ha.block_size]
      omega
    obtain ⟨handles, m, hrun, -, -, hall⟩ := LocalCache.lookupPrefix_spec env hs hsize ctx tokens
    have hslots := hall (agrees_acquirable ha hb _ tokens)
    rw [ha.lookup_blocks hb] at hslots
    rw [hrun] at hout
    cases hout
    have hslot : (chain b (M (computeContextHash env.xxh3 ctx)) tokens)[i]? = some h.slot := by
      rw [← hslots, List.getElem?_map, hi]
      rfl
    obtain ⟨r, candidate, hr, -, hlast, hshow, hc, ht⟩ := agrees_shows ha (chain_getElem? hslot)
    refine ⟨r, candidate, hr, ?_, hlast, hshow.hash, hc, ht⟩
    -- the prefix has `i + 1` blocks, and so many the record shows
    have hi' : i < tokens.length / b :=
      (lt_chain_length.mp (List.getElem?_eq_some_iff.mp hslot).1).1
    have hlen : (i + 1) * b ≤ tokens.length :=
      (Nat.mul_le_mul_right b hi').trans (Nat.div_mul_le_self _ _)
    have htokens := hshow.tokens
    rw [ht, List.length_take, Nat.min_eq_left hlen] at htokens
    have := Nat.eq_of_mul_eq_mul_right hb htokens
    omega

-- As long as no admission evicts an ancestor of its own block, index and store agree in
-- every state of every run.
theorem index_store_agreement (hb : 0 < b)
    (hrun : Run env (fun s op => op.Public ∧ ¬ EvictsAncestor env s op)
      { cache := .new capacity b clock policy_state } s)
    (hnodes : s.cache.index.nodes.length < 2 ^ 32) : IndexAgrees env b s := by
  obtain ⟨hs, M, ha⟩ := run_agrees hb hrun hnodes
  exact indexAgrees_of_agrees hb hs ha

private abbrev emptySession : Session Unit := { cache := .new 1 1 Sample.clock () }

-- A block, unpinned, and then its child, in a cache of one slot.
private abbrev parentOps : List SessionOp :=
  [.admitBlock (Sample.candidate 1 [1] []), .dropHandle 0]

private abbrev parentSession : Session Unit := parentOps.foldl (step Sample.lruEnv) emptySession

private abbrev childSession : Session Unit :=
  step Sample.lruEnv parentSession (.admitBlock (Sample.candidate 1 [1, 2] []))

-- The child evicts its parent, takes over its slot, and its id becomes the terminal of
-- both prefixes.
theorem ancestor_evicted :
    Sample.lruEnv.eviction.PicksCandidate ∧
      Run Sample.lruEnv (fun _ op => op.Public) emptySession childSession ∧
      ¬ IndexAgrees Sample.lruEnv 1 childSession := by
  have hparentRun : Run Sample.lruEnv (fun _ op => op.Public) emptySession parentSession := by
    have hstart : Run Sample.lruEnv (fun _ op => op.Public) emptySession emptySession :=
      Steps.refl _
    exact (hstart.snoc (.admitBlock (Sample.candidate 1 [1] [])) (.inr ⟨_, rfl⟩)).snoc
      (.dropHandle 0) (.inl trivial)
  refine ⟨LruEvictionPolicy.picksCandidate, hparentRun.snoc _ (.inr ⟨_, rfl⟩), fun h => ?_⟩
  have hready : (childSession.cache.manager.store.records[0]?.map (·.state)) = some .Ready := by
    decide +kernel
  obtain ⟨r, hr, hstate⟩ := Option.map_eq_some_iff.mp hready
  obtain ⟨candidate, -, hkeys, -⟩ := h.indexed 0 r hr hstate
  have hroot : childSession.cache.index.Spells
      (computeContextHash Sample.xxh3 (Sample.context 1)) [] 0 := .root (by decide +kernel)
  have hfirst := hroot.child (t := 1) (m := 2) (by decide +kernel)
  have hedge : (childSession.cache.index.node 2).edge_tokens = [1] := by decide +kernel
  rw [hedge] at hfirst
  have hsecond := hfirst.child (t := 2) (m := 3) (by decide +kernel)
  have hedge' : (childSession.cache.index.node 3).edge_tokens = [2] := by decide +kernel
  rw [hedge'] at hsecond
  have hparent : childSession.cache.index.Terminal
      (computeContextHash Sample.xxh3 (Sample.context 1)) [1] 0 := ⟨2, hfirst, by decide +kernel⟩
  have hchild : childSession.cache.index.Terminal
      (computeContextHash Sample.xxh3 (Sample.context 1)) [1, 2] 0 :=
    ⟨3, hsecond, by decide +kernel⟩
  have hone := ((hkeys _ _).mp hparent).2
  rw [← ((hkeys _ _).mp hchild).2] at hone
  cases hone

-- Two blocks, unpinned, in a cache of two slots, and then a child of the second one, for which
-- the first one has to go.
private abbrev rootOps : List SessionOp :=
  [.admitBlock (Sample.candidate 1 [1] []), .dropHandle 0,
    .admitBlock (Sample.candidate 1 [2] []), .dropHandle 1]

private abbrev rootSession : Session Unit :=
  rootOps.foldl (step Sample.lruEnv) { cache := .new 2 1 Sample.clock () }

private abbrev siblingSession : Session Unit :=
  step Sample.lruEnv rootSession (.admitBlock (Sample.candidate 1 [2, 3] []))

theorem index_store_agreement_evicted :
    siblingSession.cache.events.countP (Event.evicts 0) = 1 ∧
      IndexAgrees Sample.lruEnv 1 siblingSession := by
  have hstart : Run Sample.lruEnv (fun s op => op.Public ∧ ¬ EvictsAncestor Sample.lruEnv s op)
      { cache := .new 2 1 Sample.clock () } { cache := .new 2 1 Sample.clock () } := Steps.refl _
  have hroots := (((hstart.snoc (.admitBlock (Sample.candidate 1 [1] []))
    ⟨.inr ⟨_, rfl⟩, AdmissionController.not_evictsAncestor_of_ne (by decide +kernel)⟩).snoc
    (.dropHandle 0) ⟨.inl trivial, id⟩).snoc (.admitBlock (Sample.candidate 1 [2] []))
    ⟨.inr ⟨_, rfl⟩, AdmissionController.not_evictsAncestor_of_ne (by decide +kernel)⟩).snoc
    (.dropHandle 1) ⟨.inl trivial, id⟩
  have hrun : Run Sample.lruEnv (fun s op => op.Public ∧ ¬ EvictsAncestor Sample.lruEnv s op)
      { cache := .new 2 1 Sample.clock () } siblingSession :=
    hroots.snoc (.admitBlock (Sample.candidate 1 [2, 3] []))
      ⟨.inr ⟨_, rfl⟩, AdmissionController.not_evictsAncestor_of_ne (by decide +kernel)⟩
  exact ⟨by decide +kernel, index_store_agreement (by decide) hrun (by decide +kernel)⟩

end Session

end KVCache
