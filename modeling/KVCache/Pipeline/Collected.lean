import KVCache.Pipeline.PipelineCases
import KVCache.Session.Pinned

namespace KVCache.Pipeline

open Lib Controller Policy Prefix AdmissionController

variable {π σ : Type} {env : Env π} {req : RouteRequest} {s s' : Session π}

-- The index has the block of the candidate already, as `admitBlock` checks it.
def Present (env : Env π) (s : Session π) (candidate : BlockCandidate) : Prop :=
  (AdmissionController.fullBlocks env s.cache.ticked candidate).length =
    candidate.block_index.toNat + 1

-- `admitBlock` finds the block absent, and if it gets as far as an eviction, that is not
-- of a block which precedes the new one.
structure Undisturbed (env : Env π) (s : Session π) (candidate : BlockCandidate) : Prop where
  absent : ¬ Present env s candidate
  ancestors : ¬ Session.EvictsAncestor env s (.admitBlock candidate)

-- `P` holds of each of the candidates when its turn comes to be admitted.
def InTurn (env : Env π) (P : Session π → BlockCandidate → Prop) :
    List BlockCandidate → Session π → Prop
  | [], _ => True
  | candidate :: rest, s => P s candidate ∧ InTurn env P rest (s.step env (.admitBlock candidate))

-- A request up to where the admissions begin.
def RequestPipeline.resolved (w : Wiring σ π) (req : RouteRequest) :
    Exec Fault σ RemoteResolutionOutcome := do
  let loc ← w.onWorker (Session.lookupPrefix w.env req.context req.tokens)
  RemoteResolutionStage.run w.toRemote w.env.xxh3 req loc

theorem InTurn.mono {P Q : Session π → BlockCandidate → Prop} {candidates : List BlockCandidate}
    (h : InTurn env P candidates s) (hPQ : ∀ s candidate, P s candidate → Q s candidate) :
    InTurn env Q candidates s := by
  induction candidates generalizing s with
  | nil => trivial
  | cons candidate rest ih => exact ⟨hPQ _ _ h.1, ih h.2⟩

def RequestPipeline.InTurn (w : Wiring σ π) (req : RouteRequest) (x : σ)
    (P : Session π → BlockCandidate → Prop) : Prop :=
  ∀ remote x₂, (resolved w req).run x = (.ok remote, x₂) →
    Pipeline.InTurn w.env P remote.fetched_blocks (w.worker x₂)

-- The blocks that the request has got when the turn of block `k` comes.
structure Collected (M : PrefixMap CacheContextHash TokenId BlockId) (c : CacheContextHash)
    (t : List TokenId) (b : Nat) (slots : List Nat) (k : Nat) : Prop where
  le : slots.length ≤ k
  keys : ∀ i id, slots[i]? = some id → M c (t.take ((i + 1) * b)) = some id
  stop : slots.length < k → M c (t.take ((slots.length + 1) * b)) = none

namespace Collected

variable {M M' : PrefixMap CacheContextHash TokenId BlockId} {c : CacheContextHash}
  {t : List TokenId} {b k : Nat} {slots : List Nat}

-- All blocks up to `k` are there if the index has them.
theorem length_eq (h : Collected M c t b slots k)
    (hkeys : ∀ j < k, (M c (t.take ((j + 1) * b))).isSome) : slots.length = k := by
  by_contra hne
  have hlt : slots.length < k := lt_of_le_of_ne h.le hne
  have hsome := hkeys _ hlt
  rw [h.stop hlt] at hsome
  cases hsome

-- Block `k` is not to be had.
theorem skip (h : Collected M c t b slots k) (hnone : slots.length = k →
    M c (t.take ((k + 1) * b)) = none) : Collected M c t b slots (k + 1) := by
  refine ⟨h.le.trans (Nat.le_succ k), h.keys, fun _ => ?_⟩
  rcases Nat.lt_or_eq_of_le h.le with hlt | heq
  · exact h.stop hlt
  · rw [heq]
    exact hnone heq

theorem append_nil (h : Collected M c t b slots k) : Collected M c t b (slots ++ []) k := by
  rwa [List.append_nil]

theorem snoc (h : Collected M c t b slots k) (hlen : slots.length = k) {id : Nat}
    (hkeys : ∀ i x, slots[i]? = some x → M' c (t.take ((i + 1) * b)) = some x)
    (hnew : M' c (t.take ((k + 1) * b)) = some id) :
    Collected M' c t b (slots ++ [id]) (k + 1) := by
  have hlen' : (slots ++ [id]).length = k + 1 := by rw [List.length_append, hlen]; rfl
  refine ⟨hlen'.le, fun i x hx => ?_, fun hlt => absurd hlt (by omega)⟩
  by_cases hi : i < slots.length
  · rw [List.getElem?_append_left hi] at hx
    exact hkeys i x hx
  · have hieq : i = k := by
      have hlt := (List.getElem?_eq_some_iff.mp hx).1
      omega
    subst hieq
    rw [List.getElem?_append_right (by omega), hlen, Nat.sub_self] at hx
    cases hx
    exact hnew

end Collected

abbrev CollectedFor (env : Env π) (req : RouteRequest)
    (M : PrefixMap CacheContextHash TokenId BlockId) (slots : List Nat) (k : Nat) : Prop :=
  Collected M (computeContextHash env.xxh3 req.context) req.tokens req.context.block_size.toNat
    slots k

section Admit

variable {M : PrefixMap CacheContextHash TokenId BlockId} {last : Nat → Option BlockCandidate}
  {slots : List Nat} {k : Nat} {f : FetchRemoteResult} {result : AdmitResult}

-- Where a block is eligible, those before it have been collected.
theorem eligible_collected (hb : 0 < req.context.block_size.toNat)
    (ha : s.cache.Agrees env req.context.block_size.toNat M last) (hk : k < fullBlocks req)
    (hcol : CollectedFor env req M slots k)
    (he : Eligible env s.cache.ticked (fetchedCandidate req k f)) :
    slots.length = k ∧ parentBlocks env s.cache.ticked (fetchedCandidate req k f) = slots ∧
      M (computeContextHash env.xxh3 req.context)
        (req.tokens.take ((k + 1) * req.context.block_size.toNat)) = none := by
  obtain ⟨-, hnone, hkeys⟩ := (ha.quiet s.cache.ticked_quiet).eligible hb he
  have hparent := he.parent
  rw [fetched_block_index hk] at hkeys hparent
  have hkey : ∀ j < k, ∃ id, (parentBlocks env s.cache.ticked (fetchedCandidate req k f))[j]? =
      some id ∧ M (computeContextHash env.xxh3 req.context)
        (req.tokens.take ((j + 1) * req.context.block_size.toNat)) = some id := by
    intro j hj
    obtain ⟨id, hid, hM⟩ := hkeys j hj
    rw [fetched_take f hj.le] at hM
    exact ⟨id, hid, hM⟩
  have hlen : slots.length = k := hcol.length_eq fun j hj => by
    obtain ⟨id, -, hM⟩ := hkey j hj
    rw [hM]
    rfl
  refine ⟨hlen, ?_, hnone⟩
  refine List.ext_getElem? fun j => ?_
  by_cases hj : j < k
  · obtain ⟨id, hid, hM⟩ := hkey j hj
    have hslot := List.getElem?_eq_getElem (hlen ▸ hj : j < slots.length)
    have hM' := hcol.keys j _ hslot
    rw [hM] at hM'
    rw [hid, hslot, hM']
  · rw [List.getElem?_eq_none (by omega), List.getElem?_eq_none (by omega)]

-- One admission that is not disturbed: what was collected stays, and the new block joins
-- it or is the first one that is missing.
theorem admit_collected (hb : 0 < req.context.block_size.toNat) (hs : s.cache.manager.InStep)
    (ha : s.cache.Agrees env req.context.block_size.toNat M last) (hk : k < fullBlocks req)
    (hcol : CollectedFor env req M slots k)
    (hun : Undisturbed env s (fetchedCandidate req k f))
    (hres : ((LocalCache.admitBlock env (fetchedCandidate req k f)).run s.cache).1 = .ok result)
    (hnodes : (s.step env (.admitBlock (fetchedCandidate req k f))).cache.index.nodes.length <
      2 ^ 32) :
    result.status ≠ .AlreadyPresent ∧ ∃ M' last',
      (s.step env (.admitBlock (fetchedCandidate req k f))).cache.Agrees env
        req.context.block_size.toNat M' last' ∧
      CollectedFor env req M' (slots ++ result.handle.toList.map (·.slot)) (k + 1) := by
  have hcase := Session.admitBlock_cases env hs (fetchedCandidate req k f)
  have hle := hcase.nodes_le
  rw [hres] at hcase
  have hq := s.cache.ticked_quiet
  have ha' := ha.quiet hq
  have hparent : ∀ {c' : LocalCache π}, Eligible env s.cache.ticked (fetchedCandidate req k f) →
      Quiet s.cache.ticked c' → ∃ M' last', c'.Agrees env req.context.block_size.toNat M' last' ∧
        CollectedFor env req M' (slots ++ []) (k + 1) := by
    intro c' he hquiet
    obtain ⟨-, -, hnone⟩ := eligible_collected hb ha hk hcol he
    exact ⟨M, last, ha'.quiet hquiet, hcol.append_nil.skip fun _ => hnone⟩
  generalize (s.step env (.admitBlock (fetchedCandidate req k f))).cache = c' at *
  cases hcase with
  | badLength hlen =>
      rw [ha'.block_size] at hlen
      exact absurd (fetched_length hk f) hlen
  | present hlen hfull => exact absurd hfull hun.absent
  | noParent hlen habsent hno =>
      refine ⟨by simp, M, last, ha', ?_⟩
      rw [fetched_block_index hk] at hno
      refine hcol.append_nil.skip fun hall => absurd ?_ hno
      rw [parentBlocks, existingBlocks, ha'.block_size, ha'.lookup_blocks hb,
        fetched_block_index hk]
      have htake : (fetchedCandidate req k f).tokens.take (k * req.context.block_size.toNat) =
          req.tokens.take (k * req.context.block_size.toNat) := by
        simp only [fetchedCandidate, List.take_take]
        rw [Nat.min_eq_left (Nat.mul_le_mul_right _ (Nat.le_succ k))]
      have hlong : k * req.context.block_size.toNat ≤ req.tokens.length :=
        (Nat.mul_le_mul_right _ (Nat.le_succ k)).trans (block_end_le_length hk)
      rw [htake]
      refine (chain_length_eq ?_).mpr fun j hj => ?_
      · rw [List.length_take, Nat.min_eq_left hlong, Nat.mul_div_cancel _ hb]
      · rw [List.take_take, Nat.min_eq_left (Nat.mul_le_mul_right _ hj)]
        rw [List.append_nil] at hall
        have hslot := List.getElem?_eq_getElem (show j < slots.length by omega)
        exact Option.isSome_iff_exists.mpr ⟨_, hcol.keys j _ hslot⟩
  | rejected he hd hquiet => exact ⟨by simp, hparent he hquiet⟩
  | noSpace he hd hroom hv hquiet => exact ⟨by simp, hparent he hquiet⟩
  | @admitted s₁ s₂ id rest tm ext ref he hd hroom hfree hplace hs₂ =>
      obtain ⟨hlen, hparents, -⟩ := eligible_collected hb ha hk hcol he
      obtain ⟨M₁, -, hnone, hkeys, hagrees⟩ := hroom.entered ha' hb (hq.inStep hs)
        (lt_of_le_of_lt hle hnodes) he hd hun.ancestors hfree hs₂ hnodes
      refine ⟨by simp, _, _, hagrees, hcol.snoc hlen (fun i x hx => ?_) ?_⟩
      · have hi : i < k := hlen ▸ (List.getElem?_eq_some_iff.mp hx).1
        obtain ⟨y, hy, hM⟩ := hkeys i (by rw [fetched_block_index hk]; exact hi)
        rw [hparents, hx] at hy
        cases hy
        rw [fetched_take f hi.le] at hM
        exact PrefixMap.define_eq_some_of_eq_some id hM
      · rw [PrefixMap.define_of_none _ hnone, if_pos ⟨rfl, rfl⟩]

end Admit

-- The slots of the handles that admissions returned.
def newSlots (results : List AdmitResult) : List Nat :=
  results.flatMap fun r => r.handle.toList.map (·.slot)

-- The candidates are those of the blocks from `k` on.
def Fetched (req : RouteRequest) (k : Nat) (candidates : List BlockCandidate) : Prop :=
  k + candidates.length ≤ Pipeline.fullBlocks req ∧
    ∀ j candidate, candidates[j]? = some candidate → ∃ f, candidate = fetchedCandidate req (k + j) f

theorem Fetched.head {k : Nat} {candidate : BlockCandidate} {rest : List BlockCandidate}
    (h : Fetched req k (candidate :: rest)) :
    k < Pipeline.fullBlocks req ∧ (∃ f, candidate = fetchedCandidate req k f) ∧
      Fetched req (k + 1) rest := by
  obtain ⟨hle, hall⟩ := h
  rw [List.length_cons] at hle
  refine ⟨by omega, ?_, by omega, fun j c hj => ?_⟩
  · simpa using hall 0 candidate rfl
  · have hj' := hall (j + 1) c (by simpa using hj)
    rwa [show k + (j + 1) = k + 1 + j by omega] at hj'

theorem Admits.nodes_le {candidates : List BlockCandidate} {results : List AdmitResult}
    (h : Admits env candidates s results s') (hs : s.cache.manager.InStep) :
    s'.cache.manager.InStep ∧ s.cache.index.nodes.length ≤ s'.cache.index.nodes.length := by
  induction h with
  | nil => exact ⟨hs, Nat.le_refl _⟩
  | cons hentered hrest ih =>
      obtain ⟨hs', hle⟩ := ih (Session.step_inStep env hs _)
      exact ⟨hs', (Session.step_nodes_le hs (.inr ⟨_, rfl⟩)).trans hle⟩

-- Admissions that are not disturbed collect the blocks up to the first that is missing.
theorem Admits.collected {candidates : List BlockCandidate} {results : List AdmitResult}
    (h : Admits env candidates s results s') (hb : 0 < req.context.block_size.toNat)
    (hs : s.cache.manager.InStep) (hnodes : s'.cache.index.nodes.length < 2 ^ 32)
    {M : PrefixMap CacheContextHash TokenId BlockId} {last : Nat → Option BlockCandidate}
    {slots : List Nat} {k : Nat} (hfetched : Fetched req k candidates)
    (ha : s.cache.Agrees env req.context.block_size.toNat M last)
    (hcol : CollectedFor env req M slots k) (hun : InTurn env (Undisturbed env) candidates s) :
    (∀ r ∈ results, r.status ≠ .AlreadyPresent) ∧ ∃ M' last',
      s'.cache.Agrees env req.context.block_size.toNat M' last' ∧
      CollectedFor env req M' (slots ++ newSlots results) (k + candidates.length) := by
  induction h generalizing M last slots k with
  | nil =>
      refine ⟨by simp, M, last, ha, ?_⟩
      simpa [newSlots] using hcol
  | @cons candidate rest s s' result results hentered hrest ih =>
      obtain ⟨hk, ⟨f, rfl⟩, hfetched'⟩ := hfetched.head
      have hs₁ := Session.step_inStep env hs (.admitBlock (fetchedCandidate req k f))
      obtain ⟨hne, M₁, last₁, ha₁, hcol₁⟩ := admit_collected hb hs ha hk hcol hun.1 hentered
        (lt_of_le_of_lt (hrest.nodes_le hs₁).2 hnodes)
      obtain ⟨hall, M', last', ha', hcol'⟩ := ih hs₁ hnodes hfetched' ha₁ hcol₁ hun.2
      refine ⟨fun r hr => ?_, M', last', ha', ?_⟩
      · rcases List.mem_cons.mp hr with rfl | hr
        · exact hne
        · exact hall r hr
      · rw [List.append_assoc] at hcol'
        rw [List.length_cons, show k + (rest.length + 1) = k + 1 + rest.length by omega]
        exact hcol'

section Pinned

theorem admitBlock_live {candidate : BlockCandidate} {result : AdmitResult}
    (hres : ((LocalCache.admitBlock env candidate).run s.cache).1 = .ok result) :
    (s.step env (.admitBlock candidate)).live = BlockManager.slots [result.handle] + s.live := by
  have hcalled := Session.called_live s ((LocalCache.admitBlock env candidate).run s.cache)
    fun res => [res.handle]
  rw [hres] at hcalled
  exact hcalled

theorem Admits.live_le {candidates : List BlockCandidate} {results : List AdmitResult}
    (h : Admits env candidates s results s') : s.live ≤ s'.live := by
  induction h with
  | nil => exact le_refl _
  | cons hentered hrest ih =>
      refine le_trans ?_ ih
      rw [admitBlock_live hentered]
      exact Multiset.le_add_left _ _

-- A block with a live handle is no victim.
theorem not_evictsAncestor (hpick : env.eviction.PicksCandidate) (hs : s.cache.manager.InStep)
    (hx : s.held.Counted) (hfew : FewHandles s.live) {candidate : BlockCandidate}
    (hlive : ∀ v ∈ parentBlocks env s.cache.ticked candidate, v ∈ s.live) :
    ¬ Session.EvictsAncestor env s (.admitBlock candidate) := by
  rintro ⟨-, -, victim, hmem, hv, -⟩
  have hq := s.cache.ticked_quiet
  obtain ⟨r, hr, -, href, -⟩ := admissionVictim_eligible hpick (hq.inStep hs) hv
  rw [hq.store] at hr
  have hcount : r.refcount = s.live.count victim % 2 ^ 32 := hx.refcount hr
  have hpos := Multiset.count_pos.mpr (hlive victim hmem)
  rw [href, Nat.mod_eq_of_lt (hfew victim)] at hcount
  omega

variable {M : PrefixMap CacheContextHash TokenId BlockId} {last : Nat → Option BlockCandidate}

-- As long as the reference counts are right, a block that is in the index already is the
-- only thing that can disturb an admission of a request.
theorem Admits.undisturbed {candidates : List BlockCandidate} {results : List AdmitResult}
    (h : Admits env candidates s results s') (hpick : env.eviction.PicksCandidate)
    (hb : 0 < req.context.block_size.toNat) (hs : s.cache.manager.InStep)
    (hnodes : s'.cache.index.nodes.length < 2 ^ 32) {slots : List Nat} {k : Nat}
    (hfetched : Fetched req k candidates)
    (ha : s.cache.Agrees env req.context.block_size.toNat M last)
    (hcol : CollectedFor env req M slots k) (hlive : ∀ v ∈ slots, v ∈ s.live)
    (hx : s.held.Counted) (hfew : FewHandles s'.live)
    (habsent : InTurn env (fun s candidate => ¬ Present env s candidate) candidates s) :
    InTurn env (Undisturbed env) candidates s := by
  induction h generalizing M last slots k with
  | nil => trivial
  | @cons candidate rest s s' result results hentered hrest ih =>
      obtain ⟨hk, ⟨f, rfl⟩, hfetched'⟩ := hfetched.head
      have hs₁ := Session.step_inStep env hs (.admitBlock (fetchedCandidate req k f))
      have hlive₁ := admitBlock_live hentered
      have hfew₁ : FewHandles s.live := fun id => by
        refine lt_of_le_of_lt (Multiset.count_le_of_le id ?_) (hfew id)
        refine le_trans ?_ hrest.live_le
        rw [hlive₁]
        exact Multiset.le_add_left _ _
      have hone : Undisturbed env s (fetchedCandidate req k f) := by
        refine ⟨habsent.1, fun hevicts => not_evictsAncestor hpick hs hx hfew₁ ?_ hevicts⟩
        obtain ⟨-, hparents, -⟩ := eligible_collected hb ha hk hcol hevicts.eligible
        rw [hparents]
        exact hlive
      obtain ⟨-, M₁, last₁, ha₁, hcol₁⟩ := admit_collected hb hs ha hk hcol hone hentered
        (lt_of_le_of_lt (hrest.nodes_le hs₁).2 hnodes)
      refine ⟨hone, ih hs₁ hnodes hfetched' ha₁ hcol₁ (fun v hv => ?_)
        (Session.step_counted hs hx hfew₁ _) hfew habsent.2⟩
      rw [hlive₁, Multiset.mem_add]
      rcases List.mem_append.mp hv with hv | hv
      · exact .inr (hlive v hv)
      · left
        cases hhandle : result.handle with
        | none => simp [hhandle] at hv
        | some handle => simpa [hhandle] using hv

end Pinned

section Disturbed

variable {candidate : BlockCandidate} {result : AdmitResult} {id : Nat} {r : BlockRecord}

-- Only the slot of a new block gets another block index.
theorem admit_block_index (hs : s.cache.manager.InStep)
    (hres : ((LocalCache.admitBlock env candidate).run s.cache).1 = .ok result)
    (hr : s.cache.manager.store.records[id]? = some r) :
    ∃ r', (s.step env (.admitBlock candidate)).cache.manager.store.records[id]? = some r' ∧
      (r'.block_index = r.block_index ∨ r'.block_index = candidate.block_index) := by
  have hcase := Session.admitBlock_cases env hs candidate
  rw [hres] at hcase
  have hq := s.cache.ticked_quiet
  have hquiet : ∀ {c' : LocalCache π}, Quiet s.cache.ticked c' →
      ∃ r', c'.manager.store.records[id]? = some r' ∧
        (r'.block_index = r.block_index ∨ r'.block_index = candidate.block_index) := by
    intro c' h
    rw [h.store, hq.store]
    exact ⟨r, hr, .inl rfl⟩
  generalize (s.step env (.admitBlock candidate)).cache = c' at *
  cases hcase with
  | badLength hlen => exact hquiet (.refl _)
  | present hlen hfull => exact hquiet (.refl _)
  | noParent hlen habsent hno => exact hquiet (.refl _)
  | rejected he hd h => exact hquiet h
  | noSpace he hd hroom hv h => exact hquiet h
  | @admitted s₁ s₂ new rest tm ext ref he hd hroom hfree hplace hs₂ =>
      subst hs₂
      have hroom' : ∃ r₁, s₁.manager.store.records[id]? = some r₁ ∧
          r₁.block_index = r.block_index := by
        cases hroom with
        | free hroom h =>
            rw [h.store, hq.store]
            exact ⟨r, hr, rfl⟩
        | @evicted s₀ _ victim r₀ tm' hroom hv h hr' hready href hrem h' =>
            rw [h'.store]
            simp only [Stack.evicted_getElem?, h.store, hq.store, hr]
            split
            · exact ⟨_, rfl, rfl⟩
            · exact ⟨r, rfl, rfl⟩
      obtain ⟨r₁, hr₁, hindex⟩ := hroom'
      simp only [BlockManager.touched_getElem?, Stack.admitted_getElem?, hr₁]
      by_cases hid : id = new
      · simp only [if_pos hid, Option.map_some]
        exact ⟨_, rfl, .inr rfl⟩
      · simp only [if_neg hid]
        exact ⟨r₁, rfl, .inl hindex⟩

-- So later admissions of a request leave no block with an earlier index behind.
theorem Admits.block_index_lt {candidates : List BlockCandidate} {results : List AdmitResult}
    (h : Admits env candidates s results s') (hs : s.cache.manager.InStep) {k i : Nat}
    (hfetched : Fetched req k candidates) (hi : i < k)
    (hr : s.cache.manager.store.records[id]? = some r) (hlt : i < r.block_index.toNat) :
    ∃ r', s'.cache.manager.store.records[id]? = some r' ∧ i < r'.block_index.toNat := by
  induction h generalizing r k with
  | nil => exact ⟨r, hr, hlt⟩
  | @cons candidate rest s s' result results hentered hrest ih =>
      obtain ⟨hk, ⟨f, rfl⟩, hfetched'⟩ := hfetched.head
      obtain ⟨r₁, hr₁, hindex⟩ := admit_block_index hs hentered hr
      have hlt₁ : i < r₁.block_index.toNat := by
        rcases hindex with h | h
        · rwa [h]
        · rw [h, fetched_block_index hk]
          exact hi
      exact ih (Session.step_inStep env hs _) hfetched' (Nat.lt_succ_of_lt hi) hr₁ hlt₁

variable {M : PrefixMap CacheContextHash TokenId BlockId} {last : Nat → Option BlockCandidate}
  {slots : List Nat} {k : Nat} {f : FetchRemoteResult}

theorem admit_present (hs : s.cache.manager.InStep)
    (ha : s.cache.Agrees env req.context.block_size.toNat M last) (hk : k < fullBlocks req)
    (hpresent : Present env s (fetchedCandidate req k f))
    (hres : ((LocalCache.admitBlock env (fetchedCandidate req k f)).run s.cache).1 = .ok result) :
    result.status = .AlreadyPresent := by
  have hcase := Session.admitBlock_cases env hs (fetchedCandidate req k f)
  rw [hres] at hcase
  have hsize := (ha.quiet s.cache.ticked_quiet).block_size
  generalize (s.step env (.admitBlock (fetchedCandidate req k f))).cache = c' at *
  cases hcase with
  | present hlen hfull => rfl
  | badLength hlen =>
      rw [hsize] at hlen
      exact absurd (fetched_length hk f) hlen
  | noParent hlen habsent hno => exact absurd hpresent habsent
  | rejected he hd hquiet => exact absurd hpresent he.absent
  | noSpace he hd hroom hv hquiet => exact absurd hpresent he.absent
  | admitted he hd hroom hfree hplace hs₂ => exact absurd hpresent he.absent

-- An admission that is disturbed gives no handle, or takes the slot of an earlier block.
theorem admit_disturbed (hb : 0 < req.context.block_size.toNat) (hs : s.cache.manager.InStep)
    (ha : s.cache.Agrees env req.context.block_size.toNat M last) (hk : k < fullBlocks req)
    (hcol : CollectedFor env req M slots k)
    (hun : ¬ Undisturbed env s (fetchedCandidate req k f))
    (hres : ((LocalCache.admitBlock env (fetchedCandidate req k f)).run s.cache).1 = .ok result) :
    result.status = .AlreadyPresent ∨ ∃ (i v : Nat) (r : BlockRecord), i < k ∧
      slots[i]? = some v ∧ r.block_index.toNat = k ∧
      (s.step env (.admitBlock (fetchedCandidate req k f))).cache.manager.store.records[v]? =
        some r := by
  have hcase := Session.admitBlock_cases env hs (fetchedCandidate req k f)
  rw [hres] at hcase
  have hq := s.cache.ticked_quiet
  generalize (s.step env (.admitBlock (fetchedCandidate req k f))).cache = c' at *
  by_cases hpresent : Present env s (fetchedCandidate req k f)
  · exact .inl (admit_present hs ha hk hpresent hres)
  · -- so it evicts an ancestor
    have hevicts : Session.EvictsAncestor env s (.admitBlock (fetchedCandidate req k f)) :=
      by_contra fun hno => hun ⟨hpresent, hno⟩
    obtain ⟨he, hd, victim, hmem, hv, -⟩ := hevicts
    obtain ⟨hlen, hparents, -⟩ := eligible_collected hb ha hk hcol he
    cases hcase with
    | badLength hlen => exact absurd he.tokens hlen
    | present hlen hfull => exact absurd hfull he.absent
    | noParent hlen habsent hno => exact absurd he.parent hno
    | rejected he hd' hquiet =>
        rw [hd] at hd'
        cases hd'
    | noSpace he hd hroom hv' hquiet =>
        rw [hv] at hv'
        cases hv'
    | @admitted s₁ s₂ new rest tm ext ref he hd hroom hfree hplace hs₂ =>
        have hnew := hroom.slot_of_victim hv hfree
        rw [hparents] at hmem
        obtain ⟨i, hi⟩ := List.mem_iff_getElem?.mp hmem
        obtain ⟨r₁, hr₁, -⟩ := (hroom.spec (hq.inStep hs)).1.next_free hfree
        subst hs₂ hnew
        refine .inr ⟨i, new, ?_⟩
        simp only [BlockManager.touched_getElem?, if_true, Stack.admitted_getElem?, hr₁,
          Option.map_some]
        exact ⟨_, hlen ▸ (List.getElem?_eq_some_iff.mp hi).1, hi, fetched_block_index hk f, rfl⟩

-- After a disturbed admission the blocks are not counted right, or one of them is in the
-- slot of an earlier one.
theorem Admits.disturbed {candidates : List BlockCandidate} {results : List AdmitResult}
    (h : Admits env candidates s results s') (hb : 0 < req.context.block_size.toNat)
    (hs : s.cache.manager.InStep) (hnodes : s'.cache.index.nodes.length < 2 ^ 32)
    (hfetched : Fetched req k candidates)
    (ha : s.cache.Agrees env req.context.block_size.toNat M last)
    (hcol : CollectedFor env req M slots k) (hun : ¬ InTurn env (Undisturbed env) candidates s) :
    (∃ r ∈ results, r.status = .AlreadyPresent) ∨ ∃ (i v : Nat) (r : BlockRecord),
      (slots ++ newSlots results)[i]? = some v ∧
      s'.cache.manager.store.records[v]? = some r ∧ i < r.block_index.toNat := by
  induction h generalizing M last slots k with
  | nil => exact absurd trivial hun
  | @cons candidate rest s s' result results hentered hrest ih =>
      obtain ⟨hk, ⟨f, rfl⟩, hfetched'⟩ := hfetched.head
      have hs₁ := Session.step_inStep env hs (.admitBlock (fetchedCandidate req k f))
      by_cases hone : Undisturbed env s (fetchedCandidate req k f)
      · obtain ⟨-, M₁, last₁, ha₁, hcol₁⟩ := admit_collected hb hs ha hk hcol hone hentered
          (lt_of_le_of_lt (hrest.nodes_le hs₁).2 hnodes)
        rcases ih hs₁ hnodes hfetched' ha₁ hcol₁ (fun hall => hun ⟨hone, hall⟩) with
          ⟨r, hr, hpresent⟩ | h
        · exact .inl ⟨r, List.mem_cons_of_mem _ hr, hpresent⟩
        · rw [List.append_assoc] at h
          exact .inr h
      · rcases admit_disturbed hb hs ha hk hcol hone hentered with
          hpresent | ⟨i, v, r, hi, hv, hindex, hr⟩
        · exact .inl ⟨result, List.mem_cons_self, hpresent⟩
        · obtain ⟨r', hr', hlt⟩ := hrest.block_index_lt hs₁ hfetched' (Nat.lt_succ_of_lt hi) hr
            (by rwa [hindex])
          refine .inr ⟨i, v, r', ?_, hr', hlt⟩
          rw [List.getElem?_append_left (List.getElem?_eq_some_iff.mp hv).1]
          exact hv

end Disturbed

end KVCache.Pipeline
