import KVCache.Controller.AdmissionCases
import KVCache.Prefix.Refinement

namespace KVCache.Controller

open Lib Policy Prefix Sim Tier

variable {π : Type} {env : Env π} {s s' : Stack π} {b : Nat} {ctx : AdmissionContext}
  {candidate : BlockCandidate}

-- The key under which a candidate is entered into the index.
abbrev keyHash (env : Env π) (candidate : BlockCandidate) : CacheContextHash :=
  computeContextHash env.xxh3 candidate.context

-- The record shows the block of the candidate.
structure Shows (candidate : BlockCandidate) (b : Nat) (r : BlockRecord) : Prop where
  tokens : candidate.tokens.length = (r.block_index.toNat + 1) * b
  hash : r.hash = candidate.hash
  block_index : r.block_index = candidate.block_index
  token_count : r.token_count = UInt16.ofNat b

-- Index and records agree: the index stands for `M`, its values are the ready slots, and
-- each of these is there for the candidate that `last` says it was admitted for.
structure Stack.Agrees (env : Env π) (s : Stack π) (b : Nat)
    (M : PrefixMap CacheContextHash TokenId BlockId) (last : Nat → Option BlockCandidate) :
    Prop where
  block_size : s.block_size = b
  index_block_size : s.index.block_size = b
  represents : s.index.Represents M
  ready : ∀ {c p id}, M c p = some id →
    ∃ r, s.manager.store.records[id]? = some r ∧ r.state = .Ready
  admitted : ∀ {id : Nat} {r : BlockRecord}, s.manager.store.records[id]? = some r →
    r.state = .Ready → ∃ candidate, last id = some candidate ∧
      M (keyHash env candidate) candidate.tokens = some id ∧ Shows candidate b r

namespace Stack.Agrees

variable {M : PrefixMap CacheContextHash TokenId BlockId} {last : Nat → Option BlockCandidate}

theorem sameBlocks (ha : s.Agrees env b M last) (h : s.manager.SameBlocks s'.manager)
    (hindex : s'.index = s.index) (hsize : s'.block_size = s.block_size) :
    s'.Agrees env b M last := by
  refine ⟨hsize.trans ha.block_size, hindex ▸ ha.index_block_size, hindex ▸ ha.represents,
    fun hp => ?_, fun hr' hready' => ?_⟩
  · obtain ⟨r, hr, hready⟩ := ha.ready hp
    obtain ⟨r', hr', hbody⟩ := h.record hr
    obtain ⟨-, -, -, -, -, -, -, hstate⟩ := BlockRecord.fields_of_body hbody
    exact ⟨r', hr', hstate.trans hready⟩
  · obtain ⟨r, hr, hbody⟩ := h.symm.record hr'
    obtain ⟨-, -, hhash, hindex, hcount, -, -, hstate⟩ := BlockRecord.fields_of_body hbody
    obtain ⟨candidate, hlast, hp, hshow⟩ := ha.admitted hr (hstate.trans hready')
    exact ⟨candidate, hlast, hp, hindex ▸ hshow.tokens, hhash ▸ hshow.hash,
      hindex ▸ hshow.block_index, hcount ▸ hshow.token_count⟩

theorem quiet (ha : s.Agrees env b M last) (hq : Quiet s s') : s'.Agrees env b M last :=
  ha.sameBlocks (.of_eq hq.pool hq.store) hq.index hq.block_size

-- Slots that are not ready before nor after may change.
theorem of_not_ready (ha : s.Agrees env b M last) {id : Nat}
    (hindex : s'.index = s.index) (hsize : s'.block_size = s.block_size)
    (hsame : ∀ j, j ≠ id → s'.manager.store.records[j]? = s.manager.store.records[j]?)
    (hnot : ∀ r, s.manager.store.records[id]? = some r → r.state ≠ .Ready)
    (hnot' : ∀ r, s'.manager.store.records[id]? = some r → r.state ≠ .Ready) :
    s'.Agrees env b M last := by
  refine ⟨hsize.trans ha.block_size, hindex ▸ ha.index_block_size, hindex ▸ ha.represents,
    fun {c p j} hp => ?_, fun {j r'} hr' hready' => ?_⟩
  · obtain ⟨r, hr, hready⟩ := ha.ready hp
    have hj : j ≠ id := by
      rintro rfl
      exact hnot r hr hready
    exact ⟨r, (hsame j hj).trans hr, hready⟩
  · have hj : j ≠ id := by
      rintro rfl
      exact hnot' r' hr' hready'
    exact ha.admitted ((hsame j hj).symm.trans hr') hready'

-- A ready block leaves the index and stops being ready.
theorem removed (ha : s.Agrees env b M last) {id : Nat}
    (hroom : s.index.nodes.length < 2 ^ 32) (hindex : s'.index = s.index.remove id)
    (hsize : s'.block_size = s.block_size)
    (hsame : ∀ j, j ≠ id → s'.manager.store.records[j]? = s.manager.store.records[j]?)
    (hnot' : ∀ r, s'.manager.store.records[id]? = some r → r.state ≠ .Ready) :
    s'.Agrees env b (M.erase id) last := by
  refine ⟨hsize.trans ha.block_size, ?_, ?_, fun {c p j} hp => ?_, fun {j r'} hr' hready' => ?_⟩
  · rw [hindex, PrefixIndex.remove_block_size]
    exact ha.index_block_size
  · rw [hindex]
    exact PrefixIndex.remove_represents ha.represents hroom id
  · obtain ⟨hp, hj⟩ := PrefixMap.erase_eq_some.mp hp
    obtain ⟨r, hr, hready⟩ := ha.ready hp
    exact ⟨r, (hsame j hj).trans hr, hready⟩
  · have hj : j ≠ id := by
      rintro rfl
      exact hnot' r' hr' hready'
    obtain ⟨candidate, hlast, hp, hshow⟩ := ha.admitted ((hsame j hj).symm.trans hr') hready'
    exact ⟨candidate, hlast, PrefixMap.erase_eq_some.mpr ⟨hp, hj⟩, hshow⟩

theorem evicted (ha : s.Agrees env b M last) (hroom : s.index.nodes.length < 2 ^ 32) (id : Nat)
    (name : String) (ts : Nat) (tm : Option TierManager) :
    (s.evicted id name ts tm).Agrees env b (M.erase id) last := by
  refine ha.removed hroom rfl rfl (fun j hj => ?_) fun _ => Stack.evicted_not_ready
  rw [Stack.evicted_getElem?, if_neg hj]

theorem evictStuck (ha : s.Agrees env b M last) (hroom : s.index.nodes.length < 2 ^ 32)
    (id : Nat) : (s.evictStuck id).Agrees env b (M.erase id) last := by
  refine ha.removed hroom rfl rfl (fun j hj => ?_) fun _ => Stack.evictStuck_not_ready
  rw [Stack.evictStuck_getElem?, if_neg hj]

theorem leaked (ha : s.Agrees env b M last) (hs : s.manager.InStep) {id : Nat}
    {rest : List BlockId} (hfree : s.manager.pool.free_list = id :: rest) {r : BlockRecord}
    (hstate : r.state ≠ .Ready) (tm : Option TierManager) :
    (s.leaked id rest r tm).Agrees env b M last := by
  refine ha.of_not_ready rfl rfl (fun j hj => ?_) (fun _ => hs.next_not_ready hfree)
    fun _ => Stack.leaked_not_ready hstate
  rw [Stack.leaked_getElem?, if_neg hj]

-- The blocks that the index returns are those that `M` chains.
theorem lookup_blocks (ha : s.Agrees env b M last) (hb : 0 < b) (c : CacheContextHash)
    (t : List TokenId) : (s.index.lookup c t).blocks = chain b (M c) t := by
  rw [PrefixIndex.lookup_eq ha.represents (ha.index_block_size ▸ hb), ha.index_block_size]

open AdmissionController in
-- What the checks of `admit` say about the map.
theorem eligible (ha : s.Agrees env b M last) (hb : 0 < b) (he : Eligible env s candidate) :
    candidate.tokens.length = (candidate.block_index.toNat + 1) * b ∧
      M (keyHash env candidate) candidate.tokens = none ∧
      ∀ j < candidate.block_index.toNat, ∃ id, (parentBlocks env s candidate)[j]? = some id ∧
        M (keyHash env candidate) (candidate.tokens.take ((j + 1) * b)) = some id := by
  obtain ⟨htokens, habsent, hparent⟩ := he
  rw [ha.block_size] at htokens
  have hparents : parentBlocks env s candidate = chain b (M (keyHash env candidate))
      (candidate.tokens.take (candidate.block_index.toNat * b)) := by
    rw [parentBlocks, existingBlocks, ha.block_size, ha.lookup_blocks hb]
  have hkeys : ∀ j < candidate.block_index.toNat, ∃ id,
      (parentBlocks env s candidate)[j]? = some id ∧
        M (keyHash env candidate) (candidate.tokens.take ((j + 1) * b)) = some id := by
    intro j hj
    have hlt : j < (parentBlocks env s candidate).length := by omega
    obtain ⟨id, hid⟩ : ∃ id, (parentBlocks env s candidate)[j]? = some id :=
      ⟨_, List.getElem?_eq_getElem hlt⟩
    have hval := hid
    rw [hparents] at hval
    have hval := chain_getElem? hval
    rw [List.take_take, Nat.min_eq_left (Nat.mul_le_mul_right b (by omega))] at hval
    exact ⟨id, hid, hval⟩
  refine ⟨htokens, ?_, hkeys⟩
  -- were the last key defined as well, the block would be present
  by_contra hsome
  apply habsent
  rw [fullBlocks, ha.lookup_blocks hb]
  refine (chain_length_eq ?_).mpr fun j hj => ?_
  · rw [htokens, Nat.mul_div_cancel _ hb]
  · rcases Nat.lt_succ_iff_lt_or_eq.mp hj with hj | rfl
    · obtain ⟨id, -, hid⟩ := hkeys j hj
      rw [hid]
      rfl
    · rw [← htokens, List.take_length]
      exact Option.isSome_iff_ne_none.mpr hsome

-- A new block below its parents is the only new value of the index.
theorem inserted (ha : s.Agrees env b M last) (hb : 0 < b) {id : Nat} {parents : List BlockId}
    (hfresh : ∀ c p, M c p ≠ some id)
    (htokens : candidate.tokens.length = (parents.length + 1) * b)
    (hparents : ∀ j < parents.length, ∃ x,
      M (keyHash env candidate) (candidate.tokens.take ((j + 1) * b)) = some x)
    (hnodes : (s.index.insert (keyHash env candidate) candidate.tokens
      (parents ++ [id])).nodes.length < 2 ^ 32) :
    (s.index.insert (keyHash env candidate) candidate.tokens (parents ++ [id])).Represents
      (M.define (keyHash env candidate) candidate.tokens id) := by
  have hmap : PrefixMap.defineFrom s.index.block_size M (keyHash env candidate) candidate.tokens 0
      (parents ++ [id]) = M.define (keyHash env candidate) candidate.tokens id := by
    rw [ha.index_block_size, PrefixMap.defineFrom_append id fun j hj => ?_, Nat.zero_add,
      ← htokens, List.take_length]
    obtain ⟨x, hx⟩ := hparents j hj
    rw [Nat.zero_add, hx]
    rfl
  have hinj : (M.define (keyHash env candidate) candidate.tokens id).Injective :=
    ha.represents.injective.define fun _ => hfresh
  have hrep : (s.index.insert (keyHash env candidate) candidate.tokens
      (parents ++ [id])).Represents _ :=
    PrefixIndex.insert_represents ha.represents (ha.index_block_size ▸ hb) _
      (by rw [ha.index_block_size, htokens]; simp)
      (PrefixMap.DefineOk.of_injective (hmap ▸ hinj)) hnodes
  rwa [hmap] at hrep

-- A block that enters the index as the only new value, in a slot that was free.
theorem entered (ha : s.Agrees env b M last) (hb : 0 < b) (hs : s.manager.InStep) {id : Nat}
    {rest parents : List BlockId} (hfree : s.manager.pool.free_list = id :: rest)
    {r : BlockRecord} (hready : r.state = .Ready) (hshow : Shows candidate b r)
    (hnew : M (keyHash env candidate) candidate.tokens = none)
    (hlen : parents.length = candidate.block_index.toNat)
    (hparents : ∀ j < candidate.block_index.toNat, ∃ x, parents[j]? = some x ∧
      M (keyHash env candidate) (candidate.tokens.take ((j + 1) * b)) = some x)
    (tm : Option TierManager) (ext : Option BlockStore) (e : Event)
    (hnodes : (s.index.insert (keyHash env candidate) candidate.tokens
      (parents ++ [id])).nodes.length < 2 ^ 32) :
    (s.admitted id rest r tm ext
        (s.index.insert (keyHash env candidate) candidate.tokens (parents ++ [id])) e).Agrees env b
      (M.define (keyHash env candidate) candidate.tokens id)
      (Function.update last id (some candidate)) := by
  have hfresh : ∀ c p, M c p ≠ some id := by
    intro c p hp
    obtain ⟨r', hr', hready'⟩ := ha.ready hp
    exact hs.next_not_ready hfree hr' hready'
  have htokens : candidate.tokens.length = (parents.length + 1) * b := by
    rw [hlen, ← hshow.block_index]
    exact hshow.tokens
  have hrep := ha.inserted hb hfresh htokens (fun j hj => by
    obtain ⟨x, -, hx⟩ := hparents j (hlen ▸ hj)
    exact ⟨x, hx⟩) hnodes
  have hsame : ∀ j, j ≠ id → (s.manager.taken id rest r).store.records[j]? =
      s.manager.store.records[j]? := fun j hj => by
    rw [BlockManager.taken_getElem?, if_neg hj]
  obtain ⟨r₀, hr₀, -⟩ := hs.next_free hfree
  have hself : (s.manager.taken id rest r).store.records[id]? = some r := by
    rw [BlockManager.taken_getElem?, if_pos rfl, hr₀]
    rfl
  refine ⟨ha.block_size, ?_, hrep, fun {c p j} hp => ?_, fun {j r'} hr' hready' => ?_⟩
  · simp only [Stack.admitted, PrefixIndex.insert_block_size]
    exact ha.index_block_size
  · rw [PrefixMap.define_of_none _ hnew] at hp
    split at hp
    · cases hp
      exact ⟨r, hself, hready⟩
    · have hj : j ≠ id := fun h => hfresh c p (h ▸ hp)
      obtain ⟨r', hr', hready'⟩ := ha.ready hp
      exact ⟨r', (hsame j hj).trans hr', hready'⟩
  · by_cases hj : j = id
    · subst hj
      simp only [Stack.admitted] at hr'
      rw [hself] at hr'
      cases hr'
      refine ⟨candidate, Function.update_self .., ?_, hshow⟩
      rw [PrefixMap.define_of_none _ hnew, if_pos ⟨rfl, rfl⟩]
    · obtain ⟨candidate', hlast, hp, hshow'⟩ := ha.admitted ((hsame j hj).symm.trans hr') hready'
      exact ⟨candidate', by rw [Function.update_of_ne hj, hlast],
        PrefixMap.define_eq_some_of_eq_some id hp, hshow'⟩

end Stack.Agrees

-- What each slot was last admitted for, after an admission of `candidate`.
def admittedLast (candidate : BlockCandidate) (last : Nat → Option BlockCandidate) :
    Except Fault AdmitResult → Nat → Option BlockCandidate
  | .ok ⟨.Admitted, some h⟩ => Function.update last h.slot (some candidate)
  | _ => last

namespace AdmissionController

variable {M : PrefixMap CacheContextHash TokenId BlockId} {last : Nat → Option BlockCandidate}

-- The map that the index stands for when `candidate` enters it.
theorem Room.agrees (ha : s.Agrees env b M last) (hb : 0 < b)
    (hnodes : s.index.nodes.length < 2 ^ 32) (he : Eligible env s candidate)
    (hd : decision env ctx candidate s = .Admit) (hsafe : ¬ EvictsAncestor env ctx candidate s)
    {s₁ : Stack π} (hroom : Room env ctx candidate s s₁) :
    ∃ M₁, s₁.Agrees env b M₁ last ∧ (noRoom s (planned env ctx candidate s).1 = false → M₁ = M) ∧
      M₁ (keyHash env candidate) candidate.tokens = none ∧
      ∀ j < candidate.block_index.toNat, ∃ x, (parentBlocks env s candidate)[j]? = some x ∧
        M₁ (keyHash env candidate) (candidate.tokens.take ((j + 1) * b)) = some x := by
  obtain ⟨-, hnone, hkeys⟩ := ha.eligible hb he
  cases hroom with
  | free hroom hq => exact ⟨M, ha.quiet hq, fun _ => rfl, hnone, hkeys⟩
  | @evicted s₀ _ id r tm hroom hvictim hq hr hready href hrem hq' =>
      have hev := (ha.quiet hq).evicted (hq.index ▸ hnodes) id env.eviction.name ctx.timestamp_ns tm
      refine ⟨M.erase id, hev.quiet hq', fun h => ?_, ?_, fun j hj => ?_⟩
      · rw [hroom] at h
        cases h
      · simp [PrefixMap.erase, hnone]
      · obtain ⟨x, hx, hp⟩ := hkeys j hj
        have hne : x ≠ id := by
          rintro rfl
          exact hsafe ⟨he, hd, x, List.mem_of_getElem? hx, hvictim, r, hq.store ▸ hr, hready, href⟩
        exact ⟨x, hx, PrefixMap.erase_eq_some.mpr ⟨hp, hne⟩⟩

-- A block that finds room enters the index.
theorem Room.entered (ha : s.Agrees env b M last) (hb : 0 < b) (hs : s.manager.InStep)
    (hnodes : s.index.nodes.length < 2 ^ 32) (he : Eligible env s candidate)
    (hd : decision env ctx candidate s = .Admit) (hsafe : ¬ EvictsAncestor env ctx candidate s)
    {s₁ s₂ : Stack π}
    (hroom : Room env ctx candidate s s₁) {id : Nat} {rest : List BlockId}
    (hfree : s₁.manager.pool.free_list = id :: rest) {target : KVCache.Tier} {ref : PayloadRef}
    {tm : Option TierManager} {ext : Option BlockStore} {e : Event}
    (hs₂ : s₂ = s₁.admitted id rest (admittedRecord s₁ candidate target id ref .Ready) tm ext
      (s₁.index.insert (keyHash env candidate) candidate.tokens
        (parentBlocks env s candidate ++ [id])) e)
    (hnodes' : s₂.index.nodes.length < 2 ^ 32) :
    ∃ M₁, (noRoom s (planned env ctx candidate s).1 = false → M₁ = M) ∧
      M₁ (keyHash env candidate) candidate.tokens = none ∧
      (∀ j < candidate.block_index.toNat, ∃ x, (parentBlocks env s candidate)[j]? = some x ∧
        M₁ (keyHash env candidate) (candidate.tokens.take ((j + 1) * b)) = some x) ∧
      ({ s₂ with manager := s₂.manager.touched id } : Stack π).Agrees env b
        (M₁.define (keyHash env candidate) candidate.tokens id)
        (Function.update last id (some candidate)) := by
  obtain ⟨M₁, ha₁, hsame, hnone, hkeys⟩ := hroom.agrees ha hb hnodes he hd hsafe
  have hshow : Shows candidate b (admittedRecord s₁ candidate target id ref .Ready) :=
    ⟨(ha.eligible hb he).1, rfl, rfl, congrArg UInt16.ofNat ha₁.block_size⟩
  subst hs₂
  refine ⟨M₁, hsame, hnone, hkeys, ?_⟩
  exact (ha₁.entered hb (hroom.spec hs).1 hfree rfl hshow hnone he.parent hkeys tm ext e
    hnodes').sameBlocks (BlockManager.touched_sameBlocks _ id) rfl rfl

theorem Room.nodes_eq {s₁ : Stack π} (h : Room env ctx candidate s s₁) :
    s₁.index.nodes.length = s.index.nodes.length := by
  cases h with
  | free hroom hq => rw [hq.index]
  | evicted hroom hv hq hr hready href hrem hq' =>
      rw [hq'.index]
      exact (PrefixIndex.remove_length _ _).trans (by rw [hq.index])

-- The node vector of the index only grows.
theorem AdmitCase.nodes_le {res : Except Fault AdmitResult}
    (hcase : AdmitCase env ctx candidate s res s') :
    s.index.nodes.length ≤ s'.index.nodes.length := by
  cases hcase with
  | badLength h => exact le_refl _
  | present htokens h => exact le_refl _
  | noParent htokens habsent h => exact le_refl _
  | rejected he hd hq => rw [hq.index]
  | noSpace he hd hroom hvictim hq => rw [hq.index]
  | evictRefused e he hvictim hnot hq => rw [hq.index]
  | evictStuck e he hvictim hq hr hready href hstuck =>
      rw [← hq.index]
      exact (PrefixIndex.remove_length _ _).ge
  | leaked e he hd hroom hfree hmis => exact hroom.nodes_eq.ge
  | admitted he hd hroom hfree hplace hs₂ =>
      subst hs₂
      rw [← hroom.nodes_eq]
      exact PrefixIndex.insert_length_le _ _ _ _

-- An admission that evicts no ancestor of its block keeps index and records in agreement.
theorem AdmitCase.agrees (ha : s.Agrees env b M last) (hb : 0 < b) (hs : s.manager.InStep)
    (hsafe : ¬ EvictsAncestor env ctx candidate s) {res : Except Fault AdmitResult}
    (hcase : AdmitCase env ctx candidate s res s') (hnodes : s.index.nodes.length < 2 ^ 32)
    (hnodes' : s'.index.nodes.length < 2 ^ 32) :
    ∃ M', s'.Agrees env b M' (admittedLast candidate last res) := by
  cases hcase with
  | badLength h => exact ⟨M, ha⟩
  | present htokens h => exact ⟨M, ha⟩
  | noParent htokens habsent h => exact ⟨M, ha⟩
  | rejected he hd hq => exact ⟨M, ha.quiet hq⟩
  | noSpace he hd hroom hvictim hq => exact ⟨M, ha.quiet hq⟩
  | evictRefused e he hvictim hnot hq => exact ⟨M, ha.quiet hq⟩
  | evictStuck e he hvictim hq hr hready href hstuck =>
      exact ⟨_, (ha.quiet hq).evictStuck (hq.index ▸ hnodes) _⟩
  | leaked e he hd hroom hfree hmis =>
      obtain ⟨M₁, ha₁, -⟩ := hroom.agrees ha hb hnodes he hd hsafe
      refine ⟨M₁, ha₁.leaked (hroom.spec hs).1 hfree ?_ _⟩
      simp [admittedRecord, BlockManager.freshRecord]
  | admitted he hd hroom hfree hplace hs₂ =>
      obtain ⟨M₁, -, -, -, ha'⟩ := hroom.entered ha hb hs hnodes he hd hsafe hfree hs₂ hnodes'
      exact ⟨_, ha'⟩

end AdmissionController

end KVCache.Controller
