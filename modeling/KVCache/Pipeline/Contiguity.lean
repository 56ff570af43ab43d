import KVCache.Pipeline.Collected

namespace KVCache.Pipeline

open Lib Controller Policy Prefix AdmissionController

variable {π σ : Type} {env : Env π} {req : RouteRequest} {s s' : Session π}

-- The blocks of a result are those of the first tokens of the request, one after the
-- other, and the result counts them.
structure Contiguous (env : Env π) (req : RouteRequest) (result : RouteResult) (s : Session π) :
    Prop where
  block_index : ∀ (i : Nat) (h : BlockHandle), result.reusable_blocks[i]? = some h →
    ∃ r : BlockRecord, s.cache.manager.store.records[h.slot]? = some r ∧ r.block_index.toNat = i
  indexed : ∀ (i : Nat) (h : BlockHandle), result.reusable_blocks[i]? = some h →
    (s.cache.index.lookup (computeContextHash env.xxh3 req.context) req.tokens).blocks[i]? =
      some h.slot
  hits : result.local_hit_blocks.toNat + result.remote_hit_blocks.toNat =
    result.reusable_blocks.length
  matched : result.matched_tokens.toNat =
    result.reusable_blocks.length * req.context.block_size.toNat
  offset : result.miss_token_offset = result.matched_tokens
  within : result.reusable_blocks.length * req.context.block_size.toNat ≤ req.tokens.length

section Results

-- A handle comes with `Admitted` and with nothing else.
theorem Admits.handle_iff {candidates : List BlockCandidate} {results : List AdmitResult}
    (h : Admits env candidates s results s') (hs : s.cache.manager.InStep) :
    ∀ r ∈ results, r.handle.isSome ↔ r.status = .Admitted := by
  induction h with
  | nil => simp
  | @cons candidate rest s s' result results hentered hrest ih =>
      intro r hr
      rcases List.mem_cons.mp hr with rfl | hr
      · have hcase := Session.admitBlock_cases env hs candidate
        rw [hentered] at hcase
        generalize (s.step env (.admitBlock candidate)).cache = c' at hcase
        cases hcase <;> simp
      · exact ih (Session.step_inStep env hs _) r hr

variable {results : List AdmitResult}

theorem newSlots_eq (hhandles : ∀ r ∈ results, r.handle.isSome ↔ r.status = .Admitted) :
    ((results.filter hit).flatMap fun r => r.handle.toList).map (·.slot) = newSlots results := by
  induction results with
  | nil => rfl
  | cons r rs ih =>
      have ih := ih fun r' hr' => hhandles r' (List.mem_cons_of_mem _ hr')
      by_cases hr : hit r
      · rw [List.filter_cons_of_pos hr, List.flatMap_cons, List.map_append, ih]
        rfl
      · have hnone : r.handle = none := by
          have hiff := hhandles r List.mem_cons_self
          cases hhandle : r.handle with
          | none => rfl
          | some handle =>
              have hstatus := hiff.mp (by rw [hhandle]; rfl)
              exact absurd (by simp [hit, hstatus]) hr
        rw [List.filter_cons_of_neg hr, ih]
        simp [newSlots, hnone]

-- The hits are the handles and the blocks that were present.
theorem countP_hit (hhandles : ∀ r ∈ results, r.handle.isSome ↔ r.status = .Admitted) :
    results.countP hit =
      (newSlots results).length + results.countP fun r => r.status = .AlreadyPresent := by
  induction results with
  | nil => rfl
  | cons r rs ih =>
      have ih := ih fun r' hr' => hhandles r' (List.mem_cons_of_mem _ hr')
      have hiff := hhandles r List.mem_cons_self
      have hslots : (newSlots (r :: rs)).length =
          (if r.status = .Admitted then 1 else 0) + (newSlots rs).length := by
        cases hhandle : r.handle with
        | none =>
            have hne : r.status ≠ .Admitted := fun h => by simpa [hhandle] using hiff.mpr h
            simp [newSlots, hhandle, hne]
        | some handle =>
            have heq := hiff.mp (by rw [hhandle]; rfl)
            simp [newSlots, hhandle, heq, Nat.add_comm]
      rw [List.countP_cons, List.countP_cons, ih, hslots]
      cases hstatus : r.status <;> simp [hit, hstatus] <;> omega

theorem reusable_blocks_slots (req : RouteRequest) (loc : LocalLookupOutcome)
    (hhandles : ∀ r ∈ results, r.handle.isSome ↔ r.status = .Admitted) :
    (ResultAssembler.assemble req loc
        (results.foldl AdmissionStage.admitOne {})).reusable_blocks.map (·.slot) =
      loc.matched_blocks.map (·.slot) ++ newSlots results := by
  simp only [ResultAssembler.assemble, AdmissionStage.foldl_admitOne, List.nil_append,
    List.map_append, newSlots_eq hhandles]

-- The two counts of hits add up to the handles unless a block was present.
theorem hits_iff (req : RouteRequest) {loc : LocalLookupOutcome}
    (hloc : loc.matched_blocks.length < 2 ^ 32)
    (hcount : results.length < 2 ^ 32)
    (hhandles : ∀ r ∈ results, r.handle.isSome ↔ r.status = .Admitted) :
    (ResultAssembler.assemble req loc
        (results.foldl AdmissionStage.admitOne {})).local_hit_blocks.toNat +
      (ResultAssembler.assemble req loc
        (results.foldl AdmissionStage.admitOne {})).remote_hit_blocks.toNat =
      (ResultAssembler.assemble req loc
        (results.foldl AdmissionStage.admitOne {})).reusable_blocks.length ↔
    ∀ r ∈ results, r.status ≠ .AlreadyPresent := by
  have hlen := congrArg List.length (reusable_blocks_slots req loc hhandles)
  rw [List.length_map, List.length_append, List.length_map] at hlen
  have hmod : results.countP hit % 2 ^ 32 = results.countP hit :=
    Nat.mod_eq_of_lt (lt_of_le_of_lt List.countP_le_length hcount)
  have hremote : (ResultAssembler.assemble req loc
      (results.foldl AdmissionStage.admitOne {})).remote_hit_blocks.toNat =
        results.countP hit := by
    simp only [ResultAssembler.assemble, AdmissionStage.foldl_admitOne, UInt32.toNat_add,
      UInt32.toNat_ofNat']
    rw [show (0 : UInt32).toNat = 0 from rfl, Nat.zero_add, hmod, hmod]
  have hlocal : (ResultAssembler.assemble req loc
      (results.foldl AdmissionStage.admitOne {})).local_hit_blocks.toNat =
        loc.matched_blocks.length := by
    simp only [ResultAssembler.assemble, UInt32.toNat_ofNat']
    exact Nat.mod_eq_of_lt hloc
  have hnone : (results.countP fun r => r.status = .AlreadyPresent) = 0 ↔
      ∀ r ∈ results, r.status ≠ .AlreadyPresent := by
    rw [List.countP_eq_zero]
    simp
  rw [hremote, hlocal, hlen, countP_hit hhandles, ← hnone]
  omega

end Results

-- Serving others leaves index and records in agreement.
theorem served_agrees (h : Served env s s') (hs : s.cache.manager.InStep) {b : Nat}
    {M : PrefixMap CacheContextHash TokenId BlockId} {last : Nat → Option BlockCandidate}
    (ha : s.cache.Agrees env b M last) : s'.cache.Agrees env b M last := by
  have hinv := Steps.invariant (I := fun s : Session π => s.cache.manager.InStep ∧
    s.cache.Agrees env b M last) ?_ h ⟨hs, ha⟩
  · exact hinv.2
  · rintro s op ⟨hs, ha⟩ ⟨id, generation, rfl⟩
    have hlooks : (SessionOp.serveBlockFetch id generation).Looks := trivial
    obtain ⟨m, hm, hsame, -⟩ := Session.step_looks env hs hlooks
    refine ⟨Session.step_inStep env hs _, ?_⟩
    rw [hm]
    exact ha.sameBlocks hsame rfl rfl

-- It gives out no handle and lets none die.
theorem served_live (h : Served env s s') : s'.live = s.live := by
  refine Steps.invariant (I := fun s' : Session π => s'.live = s.live) ?_ h rfl
  rintro s' op hlive ⟨id, generation, rfl⟩
  have hcalled := Session.called_live s'
    ((LocalCache.serveBlockFetch id generation).run s'.cache) fun _ => []
  refine hcalled.trans ?_
  have hnone : BlockManager.slots (BlockManager.handed (fun _ => [])
      ((LocalCache.serveBlockFetch id generation).run s'.cache).1) = 0 := by
    cases ((LocalCache.serveBlockFetch id generation).run s'.cache).1 <;> rfl
  rw [hnone, zero_add, hlive]

theorem served_counted (h : Served env s s') (hs : s.cache.manager.InStep) (hx : s.held.Counted)
    (hfew : FewHandles s.live) : s'.held.Counted := by
  have hinv := Steps.invariant (I := fun s' : Session π => Served env s s' ∧
    s'.cache.manager.InStep ∧ s'.held.Counted) ?_ h ⟨Steps.refl s, hs, hx⟩
  · exact hinv.2.2
  · rintro s' op ⟨hserved, hs', hx'⟩ hop
    exact ⟨hserved.snoc op hop, Session.step_inStep env hs' op,
      Session.step_counted hs' hx' (served_live hserved ▸ hfew) op⟩

section Assembled

variable {k : Nat} {M : PrefixMap CacheContextHash TokenId BlockId}
  {last : Nat → Option BlockCandidate} {result : RouteResult} {slots : List Nat}

-- The handles of a result stand for the blocks that were collected.
theorem handle_key (hcol : CollectedFor env req M slots k)
    (hslots : result.reusable_blocks.map (·.slot) = slots) {i : Nat} {h : BlockHandle}
    (hi : result.reusable_blocks[i]? = some h) :
    M (computeContextHash env.xxh3 req.context)
      (req.tokens.take ((i + 1) * req.context.block_size.toNat)) = some h.slot := by
  refine hcol.keys i h.slot ?_
  rw [← hslots, List.getElem?_map, hi]
  rfl

theorem handles_le (hcol : CollectedFor env req M slots k) (hk : k ≤ fullBlocks req)
    (hslots : result.reusable_blocks.map (·.slot) = slots) :
    result.reusable_blocks.length ≤ fullBlocks req := by
  rw [← List.length_map (fun handle : BlockHandle => handle.slot), hslots]
  exact hcol.le.trans hk

-- A record shows the block of its own key.
theorem handle_block_index (hb : 0 < req.context.block_size.toNat)
    (ha : s.cache.Agrees env req.context.block_size.toNat M last) {i id : Nat}
    (hi : i < fullBlocks req) (hM : M (computeContextHash env.xxh3 req.context)
      (req.tokens.take ((i + 1) * req.context.block_size.toNat)) = some id) :
    ∃ r : BlockRecord, s.cache.manager.store.records[id]? = some r ∧ r.block_index.toNat = i := by
  obtain ⟨r, candidate, hr, -, -, hshow, -, htoks⟩ := Session.agrees_shows ha hM
  have hshown := hshow.tokens
  rw [htoks, List.length_take, Nat.min_eq_left (block_end_le_length hi)] at hshown
  have hsucc := Nat.eq_of_mul_eq_mul_right hb hshown
  exact ⟨r, hr, by omega⟩

-- The index finds what is mapped up to the block asked for.
theorem handle_indexed (hb : 0 < req.context.block_size.toNat)
    (ha : s.cache.Agrees env req.context.block_size.toNat M last) {i id : Nat}
    (hi : (i + 1) * req.context.block_size.toNat ≤ req.tokens.length)
    (hM : ∀ j ≤ i, ∃ id', M (computeContextHash env.xxh3 req.context)
      (req.tokens.take ((j + 1) * req.context.block_size.toNat)) = some id')
    (hid : M (computeContextHash env.xxh3 req.context)
      (req.tokens.take ((i + 1) * req.context.block_size.toNat)) = some id) :
    (s.cache.index.lookup (computeContextHash env.xxh3 req.context) req.tokens).blocks[i]? =
      some id := by
  have hdiv : i < req.tokens.length / req.context.block_size.toNat :=
    (Nat.le_div_iff_mul_le hb).mpr hi
  have hchain : i < (chain req.context.block_size.toNat
      (M (computeContextHash env.xxh3 req.context)) req.tokens).length :=
    lt_chain_length.mpr ⟨hdiv, fun j hj => Option.isSome_iff_exists.mpr (hM j hj)⟩
  have hget := List.getElem?_eq_getElem hchain
  have hval := chain_getElem? hget
  rw [hid] at hval
  rw [ha.lookup_blocks hb, hget, ← hval]

-- What is asked of a result comes down to its handles.
theorem contiguous_of_collected (hb : 0 < req.context.block_size.toNat)
    (ha : s.cache.Agrees env req.context.block_size.toNat M last)
    (hcol : CollectedFor env req M slots k) (hk : k ≤ fullBlocks req)
    (htokens : req.tokens.length < 2 ^ 32)
    (hslots : result.reusable_blocks.map (·.slot) = slots)
    (hhits : result.local_hit_blocks.toNat + result.remote_hit_blocks.toNat =
      result.reusable_blocks.length)
    (hmatched : result.matched_tokens =
      UInt32.ofNat result.reusable_blocks.length * req.context.block_size)
    (hoffset : result.miss_token_offset = result.matched_tokens) :
    Contiguous env req result s := by
  have hlen := handles_le hcol hk hslots
  have hlt : ∀ {i : Nat} {h : BlockHandle}, result.reusable_blocks[i]? = some h →
      i < result.reusable_blocks.length := fun hi => (List.getElem?_eq_some_iff.mp hi).1
  have hwithin : result.reusable_blocks.length * req.context.block_size.toNat ≤
      req.tokens.length := by
    refine (Nat.mul_le_mul_right _ hlen).trans ?_
    rw [fullBlocks_eq htokens]
    exact Nat.div_mul_le_self _ _
  refine ⟨fun i h hi => ?_, fun i h hi => ?_, hhits, ?_, hoffset, hwithin⟩
  · exact handle_block_index hb ha ((hlt hi).trans_le hlen) (handle_key hcol hslots hi)
  · refine handle_indexed hb ha (block_end_le_length ((hlt hi).trans_le hlen)) (fun j hj => ?_)
      (handle_key hcol hslots hi)
    exact ⟨_, handle_key hcol hslots (List.getElem?_eq_getElem (lt_of_le_of_lt hj (hlt hi)))⟩
  · rw [hmatched, UInt32.toNat_mul, UInt32.toNat_ofNat', Nat.mod_mul_mod]
    exact Nat.mod_eq_of_lt (lt_of_le_of_lt hwithin htokens)

end Assembled

section Run

variable {w : Wiring σ π} {x x' : σ} {result : RouteResult}

-- The local lookup hands out the blocks of the longest prefix that is mapped.
theorem lookup_slots (hs : s.cache.manager.InStep) (hb : 0 < req.context.block_size.toNat)
    {M : PrefixMap CacheContextHash TokenId BlockId} {last : Nat → Option BlockCandidate}
    (ha : s.cache.Agrees env req.context.block_size.toNat M last) {loc : LocalLookupOutcome}
    (hloc : ((LocalCache.lookupPrefix env req.context req.tokens).run s.cache).1 = .ok loc) :
    loc.matched_blocks.map (·.slot) = chain req.context.block_size.toNat
      (M (computeContextHash env.xxh3 req.context)) req.tokens := by
  have hsize : s.cache.block_size ≠ 0 := by
    rw [ha.block_size]
    exact hb.ne'
  obtain ⟨handles, m, hrun, -, -, hall⟩ :=
    LocalCache.lookupPrefix_spec env hs hsize req.context req.tokens
  rw [hrun] at hloc
  rw [← ha.lookup_blocks hb, ← hall (Session.agrees_acquirable ha hb _ req.tokens),
    ← Except.ok.inj hloc]

-- A request that returns comes to its admissions with the local blocks collected.
theorem run_collected (hw : w.Lawful) (hs : (w.worker x).cache.manager.InStep)
    {M : PrefixMap CacheContextHash TokenId BlockId} {last : Nat → Option BlockCandidate}
    (ha : (w.worker x).cache.Agrees w.env req.context.block_size.toNat M last)
    (htokens : req.tokens.length < 2 ^ 32)
    (h : (RequestPipeline.run w req).run x = (.ok result, x')) :
    ∃ (loc : LocalLookupOutcome) (remote : RemoteResolutionOutcome) (x₂ : σ)
      (results : List AdmitResult),
      0 < req.context.block_size.toNat ∧
      (RequestPipeline.resolved w req).run x = (.ok remote, x₂) ∧
      Served w.env ((w.worker x).step w.env (.lookupPrefix req.context req.tokens))
        (w.worker x₂) ∧
      ((w.worker x).step w.env (.lookupPrefix req.context req.tokens)).live =
        BlockManager.slots (loc.matched_blocks.map some) + (w.worker x).live ∧
      (w.worker x₂).cache.manager.InStep ∧
      (w.worker x₂).cache.Agrees w.env req.context.block_size.toNat M last ∧
      CollectedFor w.env req M (loc.matched_blocks.map (·.slot)) loc.matched_blocks.length ∧
      Fetched req loc.matched_blocks.length remote.fetched_blocks ∧
      Admits w.env remote.fetched_blocks (w.worker x₂) results (w.worker x') ∧
      result = ResultAssembler.assemble req loc (results.foldl AdmissionStage.admitOne {}) := by
  obtain ⟨loc, remote, x₂, results, s', hloc, hremote, hadmits, rfl, rfl⟩ :=
    RequestPipeline.run_cases h
  obtain ⟨hb, hres, -⟩ := RemoteResolutionStage.run_cases hremote
  have hpos : 0 < req.context.block_size.toNat := by
    rw [Nat.pos_iff_ne_zero]
    exact fun h => hb (UInt32.toNat_inj.mp h)
  have hslots := lookup_slots hs hpos ha hloc
  have hlooks : (SessionOp.lookupPrefix req.context req.tokens).Looks := trivial
  obtain ⟨m', hm', hsame, -⟩ := Session.step_looks w.env hs hlooks
  have hcalls := RemoteResolutionStage.run_makes w.toRemote w.env.xxh3 req loc
    (w.setWorker x ((w.worker x).step w.env (.lookupPrefix req.context req.tokens))) trivial
  rw [hremote] at hcalls
  have hserved := hw.calls hcalls
  rw [hw.worker_setWorker] at hserved
  have hs₁ := Session.step_inStep w.env hs (.lookupPrefix req.context req.tokens)
  have ha₁ : ((w.worker x).step w.env (.lookupPrefix req.context req.tokens)).cache.Agrees w.env
      req.context.block_size.toNat M last := by
    rw [hm']
    exact ha.sameBlocks hsame rfl rfl
  have hfull := fullBlocks_eq htokens
  have hle : loc.matched_blocks.length ≤ fullBlocks req := by
    rw [← List.length_map (fun handle : BlockHandle => handle.slot), hslots, hfull]
    exact chain_length_le _ _ _
  have hsmall := lt_of_le_of_lt hle (fullBlocks_lt req)
  rw [Nat.mod_eq_of_lt hsmall] at hres
  have hlive := Session.called_live (w.worker x) ((LocalCache.lookupPrefix w.env req.context
    req.tokens).run (w.worker x).cache) fun out => out.matched_blocks.map some
  rw [hloc] at hlive
  refine ⟨loc, remote, x₂, results, hpos, ?_, hserved, hlive, (Session.run_inStep hserved hs₁).1,
    served_agrees hserved hs₁ ha₁, ⟨by simp, fun i id hi => ?_, fun hlt => ?_⟩,
    ⟨?_, fun j candidate hj => ?_⟩, ?_, rfl⟩
  · rw [RequestPipeline.resolved, Exec.bind_ok (show (w.onWorker (Session.lookupPrefix w.env
      req.context req.tokens)).run x = _ from Prod.ext hloc rfl)]
    exact hremote
  · rw [hslots] at hi
    exact chain_getElem? hi
  · simp at hlt
  · have hcount := hres.length_le
    omega
  · obtain ⟨f, hcand, -⟩ := hres.getElem? hj
    exact ⟨f, hcand⟩
  · rw [hw.worker_setWorker]
    exact hadmits

-- The result is contiguous when the admissions are undisturbed: then all that was
-- collected is mapped at the end, and otherwise one thing that is asked of it fails.
theorem assembled_contiguous_iff {M : PrefixMap CacheContextHash TokenId BlockId}
    {last : Nat → Option BlockCandidate} {loc : LocalLookupOutcome}
    {candidates : List BlockCandidate} {results : List AdmitResult}
    (hb : 0 < req.context.block_size.toNat) (hs : s.cache.manager.InStep)
    (ha : s.cache.Agrees env req.context.block_size.toNat M last)
    (hcol : CollectedFor env req M (loc.matched_blocks.map (·.slot)) loc.matched_blocks.length)
    (hfetched : Fetched req loc.matched_blocks.length candidates)
    (htokens : req.tokens.length < 2 ^ 32) (hadmits : Admits env candidates s results s')
    (hnodes : s'.cache.index.nodes.length < 2 ^ 32) :
    Contiguous env req (ResultAssembler.assemble req loc
        (results.foldl AdmissionStage.admitOne {})) s' ↔
      InTurn env (Undisturbed env) candidates s := by
  have hhandles := hadmits.handle_iff hs
  have hsmall := fullBlocks_lt req
  have hle := hfetched.1
  have hlocal : loc.matched_blocks.length < 2 ^ 32 := by omega
  have hcount : results.length < 2 ^ 32 := by
    rw [hadmits.length_eq]
    omega
  have hslots := reusable_blocks_slots req loc hhandles
  have hhits := hits_iff req hlocal hcount hhandles
  constructor
  · intro hcont
    by_contra hun
    rcases hadmits.disturbed hb hs hnodes hfetched ha hcol hun with
      ⟨r, hr, hpresent⟩ | ⟨i, v, r, hi, hr, hlt⟩
    · exact hhits.mp hcont.hits r hr hpresent
    · rw [← hslots, List.getElem?_map] at hi
      obtain ⟨handle, hhandle, rfl⟩ := Option.map_eq_some_iff.mp hi
      obtain ⟨r', hr', hindex⟩ := hcont.block_index i handle hhandle
      rw [hr] at hr'
      cases hr'
      omega
  · intro hun
    obtain ⟨hne, M', last', ha', hcol'⟩ :=
      hadmits.collected hb hs hnodes hfetched ha hcol hun
    exact contiguous_of_collected hb ha' hcol' hfetched.1 htokens hslots (hhits.mpr hne) rfl rfl

-- Handles only come during a request, so there have been few of them all along, and the
-- counts are right when the admissions begin.
theorem counted_before_admissions {loc : LocalLookupOutcome} {s₁ s₂ : Session π}
    (hs : s.cache.manager.InStep) (hx : s.held.Counted)
    (hs₁ : s₁ = s.step env (.lookupPrefix req.context req.tokens)) (hserved : Served env s₁ s₂)
    (hlive : s₁.live = BlockManager.slots (loc.matched_blocks.map some) + s.live)
    (hfew : FewHandles s₂.live) : s₂.held.Counted := by
  have hfew₁ : FewHandles s₁.live := served_live hserved ▸ hfew
  have hfew₀ : FewHandles s.live := fun id => by
    refine lt_of_le_of_lt (Multiset.count_le_of_le id ?_) (hfew₁ id)
    rw [hlive]
    exact Multiset.le_add_left _ _
  subst hs₁
  exact served_counted hserved (Session.step_inStep env hs _) (Session.step_counted hs hx hfew₀ _)
    hfew₁

theorem collected_live {loc : LocalLookupOutcome} {s₁ s₂ : Session π}
    (hserved : Served env s₁ s₂)
    (hlive : s₁.live = BlockManager.slots (loc.matched_blocks.map some) + s.live) :
    ∀ v ∈ loc.matched_blocks.map (·.slot), v ∈ s₂.live := by
  intro v hv
  rw [served_live hserved, hlive, Multiset.mem_add]
  obtain ⟨handle, hmem, rfl⟩ := List.mem_map.mp hv
  refine .inl (Multiset.mem_coe.mpr (List.mem_filterMap.mpr ?_))
  exact ⟨some handle, List.mem_map.mpr ⟨handle, hmem, rfl⟩, rfl⟩

-- Where index and records agree, a request returns the blocks of a prefix, one by one and
-- counted right, exactly when none of its admissions is disturbed: none finds its block in
-- the index already, and none evicts a block that precedes its own. The latter takes a
-- reference count that is wrong.
theorem contiguous_iff (hw : w.Lawful) (hs : (w.worker x).cache.manager.InStep)
    (ha : ∃ M last, (w.worker x).cache.Agrees w.env req.context.block_size.toNat M last)
    (htokens : req.tokens.length < 2 ^ 32)
    (h : (RequestPipeline.run w req).run x = (.ok result, x'))
    (hnodes : (w.worker x').cache.index.nodes.length < 2 ^ 32) :
    (Contiguous w.env req result (w.worker x') ↔
      RequestPipeline.InTurn w req x (Undisturbed w.env)) ∧
    (w.env.eviction.PicksCandidate → (w.worker x).held.Counted → FewHandles (w.worker x').live →
      (Contiguous w.env req result (w.worker x') ↔
        RequestPipeline.InTurn w req x fun s candidate => ¬ Present w.env s candidate)) := by
  obtain ⟨M, last, ha⟩ := ha
  obtain ⟨loc, remote, x₂, results, hb, hresolved, hserved, hlive, hs₂, ha₂, hcol, hfetched,
    hadmits, rfl⟩ := run_collected hw hs ha htokens h
  have hturns : ∀ P, RequestPipeline.InTurn w req x P ↔
      InTurn w.env P remote.fetched_blocks (w.worker x₂) := by
    refine fun P => ⟨fun hall => hall remote x₂ hresolved, fun hall remote' x₂' hrun => ?_⟩
    rw [hresolved] at hrun
    cases hrun
    exact hall
  have hiff := assembled_contiguous_iff hb hs₂ ha₂ hcol hfetched htokens hadmits hnodes
  refine ⟨hiff.trans (hturns _).symm, fun hpick hx hfew => hiff.trans (.trans ?_ (hturns _).symm)⟩
  refine ⟨fun hun => hun.mono fun _ _ h => h.absent, fun habsent => ?_⟩
  have hfew₂ : FewHandles (w.worker x₂).live := fun id =>
    lt_of_le_of_lt (Multiset.count_le_of_le id hadmits.live_le) (hfew id)
  have hx₂ := counted_before_admissions hs hx rfl hserved hlive hfew₂
  exact hadmits.undisturbed hpick hb hs₂ hnodes hfetched ha₂ hcol (collected_live hserved hlive)
    hx₂ hfew habsent

end Run

private abbrev firstHash : ContentHash := (Sample.candidate 1 [1] []).hash

private abbrev secondHash : ContentHash := (Sample.candidate 1 [1, 2] []).hash

-- A worker with a peer that has the blocks of the tokens 1 and 2.
private abbrev peered : Wiring (Session Unit) Unit where
  query hash := pure { refs := [⟨1, if hash = firstHash then 0 else 1, 1⟩] }
  invalidate _ _ _ := pure ()
  chooseReplica _ refs := pure refs.head?
  fetchBlock _ id _ := pure ⟨.Ok, [], if id = 0 then firstHash else secondHash, 1⟩
  networkFetchNs _ := pure 0
  record _ := pure ()
  worker s := s
  setWorker _ s := s
  env := Sample.lruEnv

private abbrev newSession : Session Unit := { cache := .new 2 1 Sample.clock () }

-- A cache that has them too, until the first makes room for another block.
private abbrev bothBlocks : Session Unit :=
  Session.step Sample.lruEnv (Session.step Sample.lruEnv (Session.step Sample.lruEnv newSession
    (.admitBlock (Sample.candidate 1 [1] []))) (.admitBlock (Sample.candidate 1 [1, 2] [])))
    (.dropHandle 0)

private abbrev orphaned : Session Unit :=
  Session.step Sample.lruEnv (Session.step Sample.lruEnv bothBlocks
    (.admitBlock (Sample.candidate 1 [9] []))) (.dropHandle 2)

private abbrev orphanRequest : RouteRequest where
  request_id := 0
  context := Sample.context 1
  tokens := [1, 2]

private theorem peered_lawful : peered.Lawful := by
  refine ⟨fun _ _ => rfl, fun x x' h => ?_⟩
  cases h <;> exact Steps.refl _

private theorem orphaned_run :
    Session.Run Sample.lruEnv (fun s op => op.Public ∧ ¬ Session.EvictsAncestor Sample.lruEnv s op)
      newSession orphaned := by
  have hstart : Session.Run Sample.lruEnv
      (fun s op => op.Public ∧ ¬ Session.EvictsAncestor Sample.lruEnv s op) newSession newSession :=
    Steps.refl _
  have hfirst := hstart.snoc (.admitBlock (Sample.candidate 1 [1] []))
    ⟨.inr ⟨_, rfl⟩, not_evictsAncestor_of_ne (by decide +kernel)⟩
  have hsecond := hfirst.snoc (.admitBlock (Sample.candidate 1 [1, 2] []))
    ⟨.inr ⟨_, rfl⟩, not_evictsAncestor_of_ne (by decide +kernel)⟩
  have hboth := hsecond.snoc (.dropHandle 0) ⟨.inl trivial, id⟩
  have hthird := hboth.snoc (.admitBlock (Sample.candidate 1 [9] []))
    ⟨.inr ⟨_, rfl⟩, not_evictsAncestor_of_ne (by decide +kernel)⟩
  exact hthird.snoc (.dropHandle 2) ⟨.inl trivial, id⟩

private theorem orphaned_agrees : orphaned.cache.manager.InStep ∧
    ∃ M last, orphaned.cache.Agrees Sample.lruEnv 1 M last := by
  obtain ⟨hs, M, ha⟩ := Session.run_agrees (by decide) orphaned_run (by decide +kernel)
  exact ⟨hs, M, _, ha⟩

private theorem orphan_result : ∃ result x',
    (RequestPipeline.run peered orphanRequest).run orphaned = (.ok result, x') ∧
      x'.cache.index.nodes.length < 2 ^ 32 ∧ x'.live.card < 2 ^ 32 ∧
      result.local_hit_blocks.toNat + result.remote_hit_blocks.toNat ≠
        result.reusable_blocks.length := by
  have hall : ((RequestPipeline.run peered orphanRequest).run orphaned).2.cache.index.nodes.length <
        2 ^ 32 ∧
      ((RequestPipeline.run peered orphanRequest).run orphaned).2.live.card < 2 ^ 32 ∧
      ((RequestPipeline.run peered orphanRequest).run orphaned).1.map (fun result =>
        decide (result.local_hit_blocks.toNat + result.remote_hit_blocks.toNat ≠
          result.reusable_blocks.length)) = .ok true := by decide +kernel
  rcases hrun : (RequestPipeline.run peered orphanRequest).run orphaned with ⟨_ | result, x'⟩
  · rw [hrun] at hall
    cases hall.2.2
  · rw [hrun] at hall
    exact ⟨result, x', rfl, hall.1, hall.2.1, by simpa [Except.map] using hall.2.2⟩

-- The child that the first block left behind is present when its turn comes: it counts as
-- a hit, and there is no handle for it.
theorem orphan_miscounted :
    peered.Lawful ∧ Sample.lruEnv.eviction.PicksCandidate ∧
      Session.Run Sample.lruEnv (fun _ op => op.Public) newSession orphaned ∧
      orphaned.cache.manager.InStep ∧
      (∃ M last, orphaned.cache.Agrees Sample.lruEnv 1 M last) ∧
      ∃ result x', (RequestPipeline.run peered orphanRequest).run orphaned = (.ok result, x') ∧
        ¬ Contiguous Sample.lruEnv orphanRequest result x' := by
  obtain ⟨result, x', hrun, -, -, hhits⟩ := orphan_result
  exact ⟨peered_lawful, LruEvictionPolicy.picksCandidate,
    orphaned_run.mono fun _ _ h => h.1, orphaned_agrees.1, orphaned_agrees.2, result, x', hrun,
    fun h => hhits h.hits⟩

theorem contiguous_iff_orphan : ¬ RequestPipeline.InTurn peered orphanRequest orphaned
    fun s candidate => ¬ Present Sample.lruEnv s candidate := by
  obtain ⟨result, x', hrun, hnodes, hcard, hhits⟩ := orphan_result
  have hfew : ∀ s : Session Unit, s.live.card < 2 ^ 32 → FewHandles s.live :=
    fun s h id => lt_of_le_of_lt (Multiset.count_le_card id s.live) h
  have hstart : Session.Run Sample.lruEnv (fun s _ => FewHandles s.live) newSession newSession :=
    Steps.refl _
  have hcounted := (Session.run_counted (.untiered 2 1 Sample.clock ())
    (((((hstart.snoc (.admitBlock (Sample.candidate 1 [1] [])) (hfew _ (by decide))).snoc
      (.admitBlock (Sample.candidate 1 [1, 2] [])) (hfew _ (by decide +kernel))).snoc
      (.dropHandle 0) (hfew _ (by decide +kernel))).snoc
      (.admitBlock (Sample.candidate 1 [9] [])) (hfew _ (by decide +kernel))).snoc
      (.dropHandle 2) (hfew _ (by decide +kernel)))).2
  have hlen : orphanRequest.tokens.length < 2 ^ 32 := by decide
  have hagrees : ∃ M last, (peered.worker orphaned).cache.Agrees peered.env
      orphanRequest.context.block_size.toNat M last := orphaned_agrees.2
  have hs : (peered.worker orphaned).cache.manager.InStep := orphaned_agrees.1
  have hiff := (contiguous_iff peered_lawful hs hagrees hlen hrun hnodes).2
    LruEvictionPolicy.picksCandidate hcounted (hfew _ hcard)
  exact fun hturns => hhits (hiff.mpr hturns).hits

end KVCache.Pipeline
