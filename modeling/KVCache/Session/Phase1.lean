import KVCache.Lib.BoundedPrefixMap
import KVCache.Session.Agreement

namespace KVCache

open Lib Controller Policy Prefix Sim Tier

variable {π : Type} {C b : Nat}

-- What the cache of the first constructor is for: the hashes of the admitted blocks, by
-- context hash and token prefix.
abbrev PrefixStore (C b : Nat) := BoundedPrefixMap CacheContextHash TokenId ContentHash C b

def AdmitStatus.ofAdd : AddOutcome → AdmitStatus
  | .misfit => .InvalidBlock
  | .present => .AlreadyPresent
  | .orphan => .InvalidBlock
  | .full => .CapacityExceeded
  | .added => .Admitted

namespace PrefixStore

def addBlock (X : XXH3) (K : PrefixStore C b) (candidate : BlockCandidate) :
    AddOutcome × PrefixStore C b :=
  K.add (computeContextHash X candidate.context) candidate.tokens candidate.block_index.toNat
    candidate.hash

-- Only an admission changes the store.
def step (X : XXH3) (K : PrefixStore C b) : SessionOp → PrefixStore C b
  | .admitBlock candidate => (K.addBlock X candidate).2
  | _ => K

end PrefixStore

namespace Session

-- A session next to the store that it stands for.
def stepPhase1 (X : XXH3) (x : Session π × PrefixStore C b) (op : SessionOp) :
    Session π × PrefixStore C b :=
  (step (LocalCache.phase1Env X) x.1 op, x.2.step X op)

def hashAt (s : Session π) (id : Nat) : ContentHash :=
  (s.cache.manager.store.records.getD id {}).hash

-- The session stands for the store `K`: each key of the index has the hash in its record,
-- and what is not free is a key.
structure StandsFor (X : XXH3) (s : Session π) (K : PrefixStore C b)
    (M : PrefixMap CacheContextHash TokenId BlockId) : Prop where
  inStep : s.cache.manager.InStep
  agrees : s.cache.Agrees (LocalCache.phase1Env X) b M s.lastCandidate
  untiered : s.cache.tier_manager = none
  count : s.cache.manager.pool.free_list.length + K.keys.card = C
  entries : ∀ c p, K.entries c p = (M c p).map s.hashAt

variable {X : XXH3} {s s' : Session π} {K : PrefixStore C b}
  {M : PrefixMap CacheContextHash TokenId BlockId}

theorem new_standsFor (X : XXH3) (C b : Nat) (clock : Clock) (policy_state : π) :
    StandsFor X { cache := .new C b clock policy_state } (.empty _ _ _ C b) PrefixMap.empty :=
  ⟨BlockManager.new_inStep C clock, new_agrees _ C b clock policy_state, rfl,
    by simp [LocalCache.new, BlockManager.new, BlockPool.new, BoundedPrefixMap.empty],
    fun _ _ => rfl⟩

theorem StandsFor.chain_eq (h : StandsFor X s K M) (c : CacheContextHash) (t : List TokenId) :
    chain b (K.entries c) t = (chain b (M c) t).map s.hashAt :=
  chain_map _ (h.entries c) t

-- Index, blocks and the candidates of the slots stay.
theorem StandsFor.same (h : StandsFor X s K M) (hsame : s.cache.manager.SameBlocks s'.cache.manager)
    (hindex : s'.cache.index = s.cache.index) (hsize : s'.cache.block_size = s.cache.block_size)
    (htm : s'.cache.tier_manager = s.cache.tier_manager)
    (hlast : s'.lastCandidate = s.lastCandidate) : StandsFor X s' K M := by
  refine ⟨hsame.inStep h.inStep, ?_, htm.trans h.untiered, ?_, fun c p => ?_⟩
  · rw [hlast]
    exact h.agrees.sameBlocks hsame hindex hsize
  · rw [hsame.pool]
    exact h.count
  · rw [h.entries c p]
    congr 1
    funext id
    obtain ⟨-, -, hhash, -⟩ := BlockRecord.fields_of_body (hsame.getD_body id)
    exact hhash.symm

theorem StandsFor.quiet (h : StandsFor X s K M) (hq : Quiet s.cache s'.cache)
    (hlast : s'.lastCandidate = s.lastCandidate) : StandsFor X s' K M :=
  h.same (.of_eq hq.pool hq.store) hq.index hq.block_size hq.tier_manager hlast

section Admit

open AdmissionController

variable {candidate : BlockCandidate} {ctx : AdmissionContext}

private theorem phase1_no_victim (X : XXH3) (ctx : AdmissionContext) (candidate : BlockCandidate)
    (c : Stack π) : admissionVictim (LocalCache.phase1Env X) ctx candidate c = none := by
  unfold admissionVictim EvictionController.victim
  split
  · split
    · rfl
    · split <;> rfl
  · rfl

-- Without tiers, room is a free slot.
private theorem noRoom_untiered {c : Stack π} (h : c.tier_manager = none) (target : KVCache.Tier) :
    noRoom c target = (c.manager.pool.free_list.length == 0) := by
  simp [noRoom, tierFull, h, BlockManager.available, BlockPool.available]

-- The lookups of `admit` in terms of the keys.
private theorem full_iff (hb : 0 < b) (h : StandsFor X s K M)
    (hlen : candidate.tokens.length = (candidate.block_index.toNat + 1) * b) :
    (fullBlocks (LocalCache.phase1Env X) s.cache.ticked candidate).length =
        candidate.block_index.toNat + 1 ↔
      (computeContextHash X candidate.context, candidate.tokens) ∈ K.keys := by
  rw [← BoundedPrefixMap.chain_length_iff hb hlen, h.chain_eq, List.length_map, fullBlocks]
  exact iff_of_eq (congrArg (· = _)
    (congrArg List.length ((h.agrees.quiet s.cache.ticked_quiet).lookup_blocks hb _ _)))

private theorem parent_iff (hb : 0 < b) (h : StandsFor X s K M)
    (hlen : candidate.tokens.length = (candidate.block_index.toNat + 1) * b) :
    (parentBlocks (LocalCache.phase1Env X) s.cache.ticked candidate).length =
        candidate.block_index.toNat ↔
      ¬ (0 < candidate.block_index.toNat ∧ (computeContextHash X candidate.context,
        candidate.tokens.take (candidate.block_index.toNat * b)) ∉ K.keys) := by
  have ha := h.agrees.quiet s.cache.ticked_quiet
  rw [← BoundedPrefixMap.parent_chain_length_iff hb hlen, h.chain_eq, List.length_map,
    parentBlocks, existingBlocks, ha.block_size]
  exact iff_of_eq (congrArg (· = _) (congrArg List.length (ha.lookup_blocks hb _ _)))

-- The store takes up the key of a block that got a free slot.
private theorem StandsFor.insert (h : StandsFor X s K M) {id : Nat} {rest : List BlockId}
    (hfree : s.cache.manager.pool.free_list = id :: rest) {r : BlockRecord}
    {candidate : BlockCandidate} (hid : r.id = id)
    (hgen : r.generation = BlockManager.nextGeneration s.cache.manager.pool id)
    (hstate : r.state ≠ .Free) (hhash : r.hash = candidate.hash)
    {K' : PrefixStore C b}
    (hnew : (computeContextHash X candidate.context, candidate.tokens) ∉ K.keys)
    (hkeys : K'.keys =
      Insert.insert (computeContextHash X candidate.context, candidate.tokens) K.keys)
    (hentries : K'.entries =
      K.entries.define (computeContextHash X candidate.context) candidate.tokens candidate.hash)
    (hmanager : s'.cache.manager = (s.cache.manager.taken id rest r).touched id)
    (huntiered : s'.cache.tier_manager = none)
    (hagrees : s'.cache.Agrees (LocalCache.phase1Env X) b
      (M.define (computeContextHash X candidate.context) candidate.tokens id) s'.lastCandidate) :
    StandsFor X s' K' (M.define (computeContextHash X candidate.context) candidate.tokens id) := by
  have hMnone : M (computeContextHash X candidate.context) candidate.tokens = none := by
    have hnone := mt K.mem_keys.mpr hnew
    rw [h.entries] at hnone
    simpa using hnone
  have hKnone : K.entries (computeContextHash X candidate.context) candidate.tokens = none := by
    rw [h.entries, hMnone]
    rfl
  obtain ⟨r₀, hr₀, -⟩ := h.inStep.next_free hfree
  have hhashAt : ∀ j, s'.hashAt j = if j = id then candidate.hash else s.hashAt j := by
    intro j
    obtain ⟨-, -, hbody, -⟩ := BlockRecord.fields_of_body
      ((BlockManager.touched_sameBlocks (s.cache.manager.taken id rest r) id).getD_body j)
    rw [hashAt, hmanager, hbody, List.getD_eq_getElem?_getD, BlockManager.taken_getElem?]
    by_cases hj : j = id
    · subst hj
      rw [if_pos rfl, if_pos rfl, hr₀]
      exact hhash
    · rw [if_neg hj, if_neg hj, hashAt, List.getD_eq_getElem?_getD]
  refine ⟨?_, hagrees, huntiered, ?_, fun c p => ?_⟩
  · rw [hmanager]
    exact (h.inStep.taken hfree hid hgen hstate).touched id
  · have hcount := h.count
    rw [hfree, List.length_cons] at hcount
    rw [hmanager, hkeys, Finset.card_insert_of_notMem hnew]
    simp only [BlockManager.touched_pool, BlockManager.taken]
    omega
  · rw [hentries, PrefixMap.define_of_none _ hKnone, PrefixMap.define_of_none _ hMnone]
    split
    · simp [hhashAt]
    · rw [h.entries]
      cases hMp : M c p with
      | none => rfl
      | some j =>
          -- what the map names is ready, and so not the slot that was free
          have hj : j ≠ id := by
            rintro rfl
            obtain ⟨r', hr', hready⟩ := h.agrees.ready hMp
            exact h.inStep.next_not_ready hfree hr' hready
          simp [hhashAt, hj]

-- What the lookups of `admit` let through is a new key below one of the store.
private theorem eligible_keys (hb : 0 < b) (h : StandsFor X s K M)
    (he : Eligible (LocalCache.phase1Env X) s.cache.ticked candidate) :
    candidate.tokens.length = (candidate.block_index.toNat + 1) * b ∧
      (computeContextHash X candidate.context, candidate.tokens) ∉ K.keys ∧
      ¬ (0 < candidate.block_index.toNat ∧ (computeContextHash X candidate.context,
        candidate.tokens.take (candidate.block_index.toNat * b)) ∉ K.keys) := by
  obtain ⟨hlen, habsent, hparent⟩ := he
  rw [(h.agrees.quiet s.cache.ticked_quiet).block_size] at hlen
  exact ⟨hlen, fun hmem => habsent ((full_iff hb h hlen).mpr hmem),
    (parent_iff hb h hlen).mp hparent⟩

-- `admit` answered what adding to the store answers, and left a cache that stands for the
-- new store.
private def Answered (X : XXH3) (K : PrefixStore C b) (candidate : BlockCandidate) (s' : Session π)
    (res : Except Fault AdmitResult) : Prop :=
  (∃ x, res = .ok x ∧ x.status = .ofAdd (K.addBlock X candidate).1 ∧
    (x.handle.isSome ↔ x.status = .Admitted)) ∧
  (s'.cache.index.nodes.length < 2 ^ 32 → ∃ M', StandsFor X s' (K.addBlock X candidate).2 M')

-- An answer without a handle leaves the store as it is.
private theorem answered_unchanged (h : StandsFor X s K M) {out : AddOutcome} (hout : out ≠ .added)
    (hadd : K.addBlock X candidate = (out, K)) (hquiet : Quiet s.cache s'.cache)
    (hlast : s'.lastCandidate = admittedLast candidate s.lastCandidate
      (.ok { status := .ofAdd out })) :
    Answered X K candidate s' (.ok { status := .ofAdd out }) := by
  rw [Answered, hadd]
  refine ⟨⟨_, rfl, rfl, ?_⟩, fun _ => ⟨M, h.quiet hquiet ?_⟩⟩
  · cases out <;> simp_all [AdmitStatus.ofAdd]
  · rw [hlast]
    cases out <;> rfl

-- A block that got a free slot is the new key of the store.
private theorem answered_admitted (hb : 0 < b) (h : StandsFor X s K M)
    (hnodes : s.cache.index.nodes.length < 2 ^ 32)
    (he : Eligible (LocalCache.phase1Env X) s.cache.ticked candidate) {s₁ s₂ : Stack π}
    (hroom : noRoom s.cache.ticked (planned (LocalCache.phase1Env X) ctx candidate
      s.cache.ticked).1 = false)
    (hquiet : Quiet s.cache.ticked s₁) {id : Nat} {rest : List BlockId}
    (hfree : s₁.manager.pool.free_list = id :: rest) {target : KVCache.Tier}
    {tm : Option TierManager} {ext : Option BlockStore} {ref : PayloadRef}
    (hplace : Placement s₁ id target candidate.payload tm ext ref) {e : Event}
    (hs₂ : s₂ = s₁.admitted id rest (admittedRecord s₁ candidate target id ref .Ready) tm ext
      (s₁.index.insert (computeContextHash X candidate.context) candidate.tokens
        (parentBlocks (LocalCache.phase1Env X) s.cache.ticked candidate ++ [id])) e)
    (hc' : s'.cache = { s₂ with manager := s₂.manager.touched id })
    (hlast : s'.lastCandidate = admittedLast candidate s.lastCandidate
      (.ok ⟨.Admitted, some ⟨id⟩⟩)) :
    Answered X K candidate s' (.ok ⟨.Admitted, some ⟨id⟩⟩) := by
  have hq := s.cache.ticked_quiet
  obtain ⟨hlen, hnew, hparent⟩ := eligible_keys hb h he
  have h₁ : StandsFor X { s with cache := s₁ } K M := h.quiet (hq.trans hquiet) rfl
  have huntiered := hplace.none_of_untiered h₁.untiered
  have hcard : K.keys.card ≠ C := by
    have hcount := h₁.count
    rw [hfree, List.length_cons] at hcount
    omega
  have hadd : K.addBlock X candidate = _ := BoundedPrefixMap.add_of_room hlen hnew hparent hcard
  rw [Answered, hadd]
  refine ⟨⟨_, rfl, rfl, by simp⟩, fun hnodes' => ?_⟩
  rw [hc'] at hnodes'
  obtain ⟨M₁, hM, -, -, hagrees⟩ := (Room.free hroom hquiet).entered (h.agrees.quiet hq) hb
    (hq.inStep h.inStep) (hq.index ▸ hnodes) he rfl
    (not_evictsAncestor_of_ne fun v _ => by
      rw [phase1_no_victim]
      exact nofun) hfree hs₂ hnodes'
  rw [hM hroom] at hagrees
  refine ⟨_, h₁.insert (r := admittedRecord s₁ candidate target id ref .Ready) hfree rfl rfl
    (fun hfree' => nomatch hfree') rfl hnew rfl rfl ?_ ?_ ?_⟩
  · rw [hc', hs₂]
    rfl
  · rw [hc', hs₂]
    exact huntiered
  · rw [hc', hlast]
    exact hagrees

-- `admitBlock` answers what adding the key answers, and does to the cache what adding
-- does to the store.
theorem admitBlock_refines (hb : 0 < b) (h : StandsFor X s K M)
    (hnodes : s.cache.index.nodes.length < 2 ^ 32) (candidate : BlockCandidate) :
    (∃ res, ((LocalCache.admitBlock (LocalCache.phase1Env X) candidate).run s.cache).1 = .ok res ∧
      res.status = .ofAdd (K.addBlock X candidate).1 ∧
      (res.handle.isSome ↔ res.status = .Admitted)) ∧
    ((step (LocalCache.phase1Env X) s (.admitBlock candidate)).cache.index.nodes.length < 2 ^ 32 →
      ∃ M', StandsFor X (step (LocalCache.phase1Env X) s (.admitBlock candidate))
        (K.addBlock X candidate).2 M') := by
  have hq := s.cache.ticked_quiet
  have ha := h.agrees.quiet hq
  have hcase := admitBlock_cases (LocalCache.phase1Env X) h.inStep candidate
  have hvictim := phase1_no_victim X (LocalCache.admitContext (LocalCache.phase1Env X) candidate
    s.cache) candidate s.cache.ticked
  have hlast : (step (LocalCache.phase1Env X) s (.admitBlock candidate)).lastCandidate =
      admittedLast candidate s.lastCandidate
        ((LocalCache.admitBlock (LocalCache.phase1Env X) candidate).run s.cache).1 :=
    lastCandidate_admitted candidate _ rfl
  change Answered X K candidate _ _
  generalize (step (LocalCache.phase1Env X) s (.admitBlock candidate)) = s' at hcase hlast ⊢
  generalize ((LocalCache.admitBlock (LocalCache.phase1Env X) candidate).run s.cache).1 = res
    at hcase hlast ⊢
  obtain ⟨c', hc'⟩ : ∃ c', s'.cache = c' := ⟨_, rfl⟩
  rw [hc'] at hcase
  cases hcase with
  | badLength hlen =>
      rw [ha.block_size] at hlen
      exact answered_unchanged h (by decide) (BoundedPrefixMap.add_of_misfit hlen) (hc' ▸ hq) hlast
  | present hlen hfull =>
      rw [ha.block_size] at hlen
      exact answered_unchanged h (by decide)
        (BoundedPrefixMap.add_of_present hlen ((full_iff hb h hlen).mp hfull)) (hc' ▸ hq) hlast
  | noParent hlen hfull hparent =>
      rw [ha.block_size] at hlen
      exact answered_unchanged h (by decide) (BoundedPrefixMap.add_of_orphan hlen
        (fun hmem => hfull ((full_iff hb h hlen).mpr hmem))
        (not_not.mp fun hno => hparent ((parent_iff hb h hlen).mpr hno))) (hc' ▸ hq) hlast
  | rejected he hd hquiet => cases hd
  | noSpace he hd hroom _ hquiet =>
      obtain ⟨hlen, habsent, hparent⟩ := eligible_keys hb h he
      rw [noRoom_untiered (hq.tier_manager.trans h.untiered)] at hroom
      have hcount := h.count
      have hzero : s.cache.manager.pool.free_list.length = 0 := eq_of_beq hroom
      exact answered_unchanged h (by decide)
        (BoundedPrefixMap.add_of_full hlen habsent hparent (by omega)) (hc' ▸ hq.trans hquiet) hlast
  | evictRefused e he hv hnot hquiet => rw [hvictim] at hv; cases hv
  | evictStuck e he hv hquiet hr hready href hstuck => rw [hvictim] at hv; cases hv
  | leaked e he hd hroom hfree hmis =>
      cases hroom with
      | evicted hroom hv hquiet hr hready href hrem hquiet' => rw [hvictim] at hv; cases hv
      | free hroom hquiet =>
          have huntiered := (hq.trans hquiet).tier_manager.trans h.untiered
          exact absurd huntiered hmis.not_untiered
  | admitted he hd hroom hfree hplace hs₂ =>
      cases hroom with
      | evicted hroom hv hquiet hr hready href hrem hquiet' => rw [hvictim] at hv; cases hv
      | free hroom hquiet =>
          exact answered_admitted hb h hnodes he hroom hquiet hfree hplace hs₂ hc' hlast

end Admit

-- `lookupPrefix` returns the longest chain of keys, with the hashes of their admissions.
theorem lookupPrefix_refines (hb : 0 < b) (h : StandsFor X s K M) (ctx : CacheKeyContext)
    (tokens : List TokenId) (hlen : tokens.length < 2 ^ 32) :
    ∃ out, ((LocalCache.lookupPrefix (LocalCache.phase1Env X) ctx tokens).run s.cache).1 = .ok out ∧
      out.matched_blocks.map (fun handle =>
          (step (LocalCache.phase1Env X) s (.lookupPrefix ctx tokens)).hashAt handle.slot) =
        chain b (K.entries (computeContextHash X ctx)) tokens ∧
      out.matched_tokens = out.matched_blocks.length * b ∧
      out.miss_token_offset = out.matched_blocks.length * b := by
  have hsize : s.cache.block_size ≠ 0 := by
    rw [h.agrees.block_size]
    omega
  obtain ⟨handles, m, hrun, hacc, -, hall⟩ :=
    LocalCache.lookupPrefix_spec (LocalCache.phase1Env X) h.inStep hsize ctx tokens
  have hslots := hall (agrees_acquirable h.agrees hb _ tokens)
  rw [h.agrees.lookup_blocks hb] at hslots
  change handles.map (·.slot) = chain b (M (computeContextHash X ctx)) tokens at hslots
  have hhash : ∀ id, (step (LocalCache.phase1Env X) s (.lookupPrefix ctx tokens)).hashAt id =
      s.hashAt id := by
    intro id
    obtain ⟨-, -, hbody, -⟩ := BlockRecord.fields_of_body ((hacc 0).sameBlocks.getD_body id)
    rw [hashAt, step, called, hrun]
    exact hbody
  have hfits : handles.length * s.cache.block_size % 2 ^ 32 = handles.length * b := by
    have hchain := chain_length_mul_le b (M (computeContextHash X ctx)) tokens
    have hcount := congrArg List.length hslots
    rw [List.length_map] at hcount
    rw [h.agrees.block_size, hcount]
    exact Nat.mod_eq_of_lt (by omega)
  rw [hrun]
  refine ⟨_, rfl, ?_, hfits, hfits⟩
  rw [h.chain_eq, ← hslots, List.map_map]
  exact List.map_congr_left fun handle _ => hhash handle.slot

theorem getBlock_ok (hs : s.cache.manager.InStep) (id : BlockId) (generation : Nat) :
    ∃ res, ((LocalCache.getBlock id generation).run s.cache).1 = .ok res := by
  rcases BlockManager.fetchLocal_cases hs id generation with
    ⟨r, -, -, -, hrun⟩ | ⟨status, -, hrun⟩ <;>
    rw [LocalCache.getBlock, Stack.onManager_ok hrun]
  · exact ⟨_, rfl⟩
  · exact ⟨_, rfl⟩

theorem serveBlockFetch_ok (h : StandsFor X s K M) (id : BlockId) (generation : Nat) :
    ∃ res, ((LocalCache.serveBlockFetch id generation).run s.cache).1 = .ok res :=
  ⟨_, LocalCache.serveBlockFetch_untiered h.inStep h.untiered id generation⟩

theorem step_refines (hb : 0 < b) (h : StandsFor X s K M) {op : SessionOp} (hop : op.Public)
    (hnodes : (step (LocalCache.phase1Env X) s op).cache.index.nodes.length < 2 ^ 32) :
    ∃ M', StandsFor X (step (LocalCache.phase1Env X) s op) (K.step X op) M' := by
  have hle : s.cache.index.nodes.length ≤
      (step (LocalCache.phase1Env X) s op).cache.index.nodes.length := step_nodes_le h.inStep hop
  rcases hop with hop | ⟨candidate, rfl⟩
  · obtain ⟨m, hm, hsame, hadm⟩ := step_looks (LocalCache.phase1Env X) h.inStep hop
    have hK : K.step X op = K := by
      cases op with
      | admitBlock candidate => exact absurd hop id
      | _ => rfl
    rw [hK]
    refine ⟨M, h.same (by rw [hm]; exact hsame) (by rw [hm]) (by rw [hm]) (by rw [hm]) ?_⟩
    funext id
    unfold lastCandidate lastAdmission
    rw [hadm]
  · exact (admitBlock_refines hb h (lt_of_le_of_lt hle hnodes) candidate).2 hnodes

theorem run_refines (hb : 0 < b) {clock : Clock} {policy_state : π}
    (hrun : Steps (stepPhase1 X) (fun _ op => op.Public)
      ({ cache := .new C b clock policy_state }, .empty _ _ _ C b) (s, K))
    (hnodes : s.cache.index.nodes.length < 2 ^ 32) : ∃ M, StandsFor X s K M := by
  have hinv := Steps.invariant (I := fun x : Session π × PrefixStore C b =>
    x.1.cache.manager.InStep ∧
      (x.1.cache.index.nodes.length < 2 ^ 32 → ∃ M, StandsFor X x.1 x.2 M)) ?_ hrun
    ⟨BlockManager.new_inStep C clock, fun _ => ⟨_, new_standsFor X C b clock policy_state⟩⟩
  · exact hinv.2 hnodes
  · rintro ⟨s, K⟩ op ⟨hs, hstands⟩ hop
    refine ⟨step_inStep _ hs op, fun hnodes => ?_⟩
    obtain ⟨M, h⟩ := hstands (lt_of_le_of_lt (step_nodes_le hs hop) hnodes)
    exact step_refines hb h hop hnodes

-- The cache of the first constructor is a bounded, prefix-closed map: in every state of
-- every run its calls answer from the store next to it, and none of them throws.
theorem phase1_refines (hb : 0 < b) {clock : Clock} {policy_state : π}
    (hrun : Steps (stepPhase1 X) (fun _ op => op.Public)
      ({ cache := .new C b clock policy_state }, .empty _ _ _ C b) (s, K))
    (hnodes : s.cache.index.nodes.length < 2 ^ 32) :
    (∀ candidate, ∃ res,
      ((LocalCache.admitBlock (LocalCache.phase1Env X) candidate).run s.cache).1 = .ok res ∧
        res.status = .ofAdd (K.addBlock X candidate).1 ∧
        (res.handle.isSome ↔ res.status = .Admitted)) ∧
    (∀ ctx tokens, tokens.length < 2 ^ 32 → ∃ out,
      ((LocalCache.lookupPrefix (LocalCache.phase1Env X) ctx tokens).run s.cache).1 = .ok out ∧
        out.matched_blocks.map (fun handle =>
            (step (LocalCache.phase1Env X) s (.lookupPrefix ctx tokens)).hashAt handle.slot) =
          chain b (K.entries (computeContextHash X ctx)) tokens ∧
        out.matched_tokens = out.matched_blocks.length * b ∧
        out.miss_token_offset = out.matched_blocks.length * b) ∧
    (∀ id generation,
      (∃ res, ((LocalCache.getBlock id generation).run s.cache).1 = .ok res) ∧
      ∃ res, ((LocalCache.serveBlockFetch id generation).run s.cache).1 = .ok res) := by
  obtain ⟨M, h⟩ := run_refines hb hrun hnodes
  exact ⟨fun candidate => (admitBlock_refines hb h hnodes candidate).1,
    fun ctx tokens hlen => lookupPrefix_refines hb h ctx tokens hlen,
    fun id generation => ⟨getBlock_ok h.inStep id generation, serveBlockFetch_ok h id generation⟩⟩

-- A full cache of one block refuses the next one.
theorem phase1_refines_full :
    let x := stepPhase1 Sample.xxh3 ({ cache := .new 1 1 Sample.clock () },
      .empty CacheContextHash TokenId ContentHash 1 1) (.admitBlock (Sample.candidate 1 [1] []))
    ∃ res, ((LocalCache.admitBlock (LocalCache.phase1Env Sample.xxh3)
        (Sample.candidate 1 [1, 2] [])).run x.1.cache).1 = .ok res ∧
      res.status = .ofAdd (x.2.addBlock Sample.xxh3 (Sample.candidate 1 [1, 2] [])).1 ∧
      (res.handle.isSome ↔ res.status = .Admitted) := by
  intro x
  have hrun : Steps (stepPhase1 Sample.xxh3) (fun _ op => op.Public)
      ({ cache := .new 1 1 Sample.clock () }, .empty _ _ _ 1 1) x :=
    Steps.snoc (Steps.refl _) (SessionOp.admitBlock (Sample.candidate 1 [1] [])) (Or.inr ⟨_, rfl⟩)
  exact (phase1_refines (s := x.1) (K := x.2) (by decide) hrun (by decide +kernel)).1 _

end Session

end KVCache
