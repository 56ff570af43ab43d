import KVCache.Controller.AdmissionController
import KVCache.Controller.EvictionCases

namespace KVCache.Controller

open Lib Policy Prefix Sim Tier

variable {π : Type} {env : Env π} {s : Stack π} {candidate : BlockCandidate}
  {ctx : AdmissionContext}

namespace AdmissionController

-- The block ids that the index returns for all of the candidate's tokens.
abbrev fullBlocks (env : Env π) (s : Stack π) (candidate : BlockCandidate) : List BlockId :=
  (s.index.lookup (computeContextHash env.xxh3 candidate.context) candidate.tokens).blocks

abbrev parentBlocks (env : Env π) (s : Stack π) (candidate : BlockCandidate) : List BlockId :=
  existingBlocks s (computeContextHash env.xxh3 candidate.context) candidate

-- The checks of `admit` that come before any policy.
structure Eligible (env : Env π) (s : Stack π) (candidate : BlockCandidate) : Prop where
  tokens : candidate.tokens.length = (candidate.block_index.toNat + 1) * s.block_size
  absent : (fullBlocks env s candidate).length ≠ candidate.block_index.toNat + 1
  parent : (parentBlocks env s candidate).length = candidate.block_index.toNat

def decision (env : Env π) (ctx : AdmissionContext) (candidate : BlockCandidate) (s : Stack π) :
    AdmissionDecision :=
  (env.admission.decide ctx (candidateFeatures candidate s.block_size) s.policy_state).1

-- The stack after the admission policy has answered.
def asked (env : Env π) (ctx : AdmissionContext) (candidate : BlockCandidate) (s : Stack π) :
    Stack π :=
  { s with
    policy_state :=
      (env.admission.decide ctx (candidateFeatures candidate s.block_size) s.policy_state).2
    decisions := s.decisions ++ [.AdmissionRecord (decision env ctx candidate s = .Admit)
      env.admission.name candidate.hash ctx.timestamp_ns] }

-- The target tier, and the stack after the placement policy has answered.
def planned (env : Env π) (ctx : AdmissionContext) (candidate : BlockCandidate) (s : Stack π) :
    KVCache.Tier × Stack π :=
  match s.tier_manager with
  | none => (.GpuSim, asked env ctx candidate s)
  | some tm =>
      let choice := env.placement.chooseTier
        ⟨(tm.stats .GpuSim).used_blocks, (tm.stats .GpuSim).capacity_blocks,
          (tm.stats .Host).used_blocks, (tm.stats .Host).capacity_blocks, ctx.timestamp_ns⟩
        (candidateFeatures candidate s.block_size) (asked env ctx candidate s).policy_state
      (choice.1, { asked env ctx candidate s with policy_state := choice.2 })

def noRoom (s : Stack π) (target_tier : KVCache.Tier) : Bool :=
  s.manager.available == 0 || tierFull s target_tier

-- The block that this admission evicts, if there is no room and the policy finds one.
def admissionVictim (env : Env π) (ctx : AdmissionContext) (candidate : BlockCandidate)
    (s : Stack π) : Option BlockId :=
  if noRoom s (planned env ctx candidate s).1 then
    EvictionController.victim env ⟨1, ctx.timestamp_ns, (planned env ctx candidate s).1⟩
      (planned env ctx candidate s).2
  else none

-- The admission evicts a block that it has just read as an ancestor of its own.
structure EvictsAncestor (env : Env π) (ctx : AdmissionContext) (candidate : BlockCandidate)
    (s : Stack π) : Prop where
  eligible : Eligible env s candidate
  decided : decision env ctx candidate s = .Admit
  evicts : ∃ victim ∈ parentBlocks env s candidate,
    admissionVictim env ctx candidate s = some victim ∧
      ∃ r, s.manager.store.records[victim]? = some r ∧ r.state = .Ready ∧ r.refcount = 0

theorem not_evictsAncestor_of_ne
    (h : ∀ id ∈ parentBlocks env s candidate, admissionVictim env ctx candidate s ≠ some id) :
    ¬ EvictsAncestor env ctx candidate s := by
  rintro ⟨-, -, victim, hmem, hv, -⟩
  exact h victim hmem hv

-- The stack in which the new block gets its slot.
inductive Room (env : Env π) (ctx : AdmissionContext) (candidate : BlockCandidate) (s : Stack π) :
    Stack π → Prop
  | free {s₁ : Stack π} (hroom : noRoom s (planned env ctx candidate s).1 = false)
      (hq : Quiet s s₁) : Room env ctx candidate s s₁
  | evicted {s₀ s₁ : Stack π} {id : Nat} {r : BlockRecord} {tm : Option TierManager}
      (hroom : noRoom s (planned env ctx candidate s).1 = true)
      (hv : admissionVictim env ctx candidate s = some id) (hq : Quiet s s₀)
      (hr : s₀.manager.store.records[id]? = some r) (hready : r.state = .Ready)
      (href : r.refcount = 0) (hrem : Removal s₀ id r.payload tm)
      (hq' : Quiet (s₀.evicted id env.eviction.name ctx.timestamp_ns tm) s₁) :
      Room env ctx candidate s s₁

-- The record that an admission writes.
def admittedRecord (s : Stack π) (candidate : BlockCandidate) (target : KVCache.Tier) (id : BlockId)
    (ref : PayloadRef) (state : BlockState) : BlockRecord :=
  BlockManager.freshRecord id (BlockManager.nextGeneration s.manager.pool id) candidate.hash
    candidate.block_index (UInt16.ofNat s.block_size) target ref state

-- The ways in which `admit` can end.
inductive AdmitCase (env : Env π) (ctx : AdmissionContext) (candidate : BlockCandidate)
    (s : Stack π) : Except Fault AdmitResult → Stack π → Prop
  | badLength (h : candidate.tokens.length ≠ (candidate.block_index.toNat + 1) * s.block_size) :
      AdmitCase env ctx candidate s (.ok { status := .InvalidBlock }) s
  | present (htokens : candidate.tokens.length = (candidate.block_index.toNat + 1) * s.block_size)
      (h : (fullBlocks env s candidate).length = candidate.block_index.toNat + 1) :
      AdmitCase env ctx candidate s (.ok { status := .AlreadyPresent }) s
  | noParent (htokens : candidate.tokens.length = (candidate.block_index.toNat + 1) * s.block_size)
      (habsent : (fullBlocks env s candidate).length ≠ candidate.block_index.toNat + 1)
      (h : (parentBlocks env s candidate).length ≠ candidate.block_index.toNat) :
      AdmitCase env ctx candidate s (.ok { status := .InvalidBlock }) s
  | rejected {s' : Stack π} (he : Eligible env s candidate)
      (hd : decision env ctx candidate s = .Reject) (hq : Quiet s s') :
      AdmitCase env ctx candidate s (.ok { status := .Rejected }) s'
  | noSpace {s' : Stack π} (he : Eligible env s candidate)
      (hd : decision env ctx candidate s = .Admit)
      (hroom : noRoom s (planned env ctx candidate s).1 = true)
      (hv : admissionVictim env ctx candidate s = none) (hq : Quiet s s') :
      AdmitCase env ctx candidate s (.ok { status := .CapacityExceeded }) s'
  | evictRefused {s' : Stack π} {id : Nat} (e : Fault) (he : Eligible env s candidate)
      (hv : admissionVictim env ctx candidate s = some id)
      (hnot : ∀ r, s.manager.store.records[id]? = some r → r.state = .Ready → 0 < r.refcount)
      (hq : Quiet s s') : AdmitCase env ctx candidate s (.error e) s'
  | evictStuck {s₀ : Stack π} {id : Nat} {r : BlockRecord} (e : Fault)
      (he : Eligible env s candidate) (hv : admissionVictim env ctx candidate s = some id)
      (hq : Quiet s s₀) (hr : s₀.manager.store.records[id]? = some r) (hready : r.state = .Ready)
      (href : r.refcount = 0) (hstuck : StuckRemoval s₀ id r.payload) :
      AdmitCase env ctx candidate s (.error e) (s₀.evictStuck id)
  | leaked {s₁ : Stack π} {id : Nat} {rest : List BlockId} {tm : Option TierManager} (e : Fault)
      (he : Eligible env s candidate) (hd : decision env ctx candidate s = .Admit)
      (hroom : Room env ctx candidate s s₁) (hfree : s₁.manager.pool.free_list = id :: rest)
      (hmis : Misplacement s₁ (planned env ctx candidate s).1 candidate.payload tm) :
      AdmitCase env ctx candidate s (.error e)
        (s₁.leaked id rest (admittedRecord s₁ candidate (planned env ctx candidate s).1 id {}
          .Admitting) tm)
  | admitted {s₁ s₂ : Stack π} {id : Nat} {rest : List BlockId} {tm : Option TierManager}
      {ext : Option BlockStore} {ref : PayloadRef} (he : Eligible env s candidate)
      (hd : decision env ctx candidate s = .Admit) (hroom : Room env ctx candidate s s₁)
      (hfree : s₁.manager.pool.free_list = id :: rest)
      (hplace : Placement s₁ id (planned env ctx candidate s).1 candidate.payload tm ext ref)
      (hs₂ : s₂ = s₁.admitted id rest
        (admittedRecord s₁ candidate (planned env ctx candidate s).1 id ref .Ready) tm ext
        (s₁.index.insert (computeContextHash env.xxh3 candidate.context) candidate.tokens
          (parentBlocks env s candidate ++ [id]))
        (.BlockAdmitted id (computeContextHash env.xxh3 candidate.context)
          (planned env ctx candidate s).1 candidate.origin ctx.timestamp_ns)) :
      AdmitCase env ctx candidate s (.ok ⟨.Admitted, some ⟨id⟩⟩)
        { s₂ with manager := s₂.manager.touched id }

theorem planned_quiet (env : Env π) (ctx : AdmissionContext) (candidate : BlockCandidate)
    (s : Stack π) : Quiet s (planned env ctx candidate s).2 := by
  unfold planned asked
  split <;> exact ⟨rfl, rfl, rfl, rfl, rfl, rfl, rfl⟩

theorem chooseTarget_run (env : Env π) (ctx : AdmissionContext) (candidate : BlockCandidate)
    (s : Stack π) :
    (chooseTarget env ctx (candidateFeatures candidate s.block_size)).run
        (asked env ctx candidate s) =
      (.ok (planned env ctx candidate s).1, (planned env ctx candidate s).2) := by
  simp only [chooseTarget, Exec.read_bind_run, planned]
  cases h : s.tier_manager with
  | none =>
      have h' : (asked env ctx candidate s).tier_manager = none := h
      simp only [h']
      rfl
  | some tm =>
      have h' : (asked env ctx candidate s).tier_manager = some tm := h
      simp only [h', Stack.ask, Exec.modifyGet]

theorem noRoom_of_quiet {s s' : Stack π} (hq : Quiet s s') (target : KVCache.Tier) :
    noRoom s' target = noRoom s target := by
  simp only [noRoom, BlockManager.available, tierFull, hq.pool, hq.tier_manager]

theorem admissionVictim_of_room (h : noRoom s (planned env ctx candidate s).1 = false) :
    admissionVictim env ctx candidate s = none := by
  rw [admissionVictim, h]
  rfl

-- A policy that picks among its candidates picks an unpinned block of the target tier.
theorem admissionVictim_eligible (hpick : env.eviction.PicksCandidate) (hs : s.manager.InStep)
    {id : Nat} (h : admissionVictim env ctx candidate s = some id) :
    ∃ r, s.manager.store.records[id]? = some r ∧ r.state = .Ready ∧ r.refcount = 0 ∧
      r.tier = (planned env ctx candidate s).1 := by
  have hq := planned_quiet env ctx candidate s
  unfold admissionVictim at h
  split at h
  · have helig := EvictionController.victim_eligible hpick (hq.inStep hs) h
    rwa [hq.store] at helig
  · cases h

section Store

theorem taken_withRecord (m : BlockManager) (id : BlockId) (rest : List BlockId) (r : BlockRecord)
    (f : BlockRecord → BlockRecord) :
    (m.taken id rest r).withRecord id f = m.taken id rest (f r) := by
  simp [BlockManager.taken, BlockManager.withRecord, List.modify_modify_eq, Function.comp_def]

-- A placed block becomes ready and is handed out.
private theorem publish_run {m : BlockManager} {s₃ : Stack π} (hm : m.InStep) {id : Nat}
    {rest : List BlockId} {r : BlockRecord} (hfree : m.pool.free_list = id :: rest)
    (hid : r.id = id) (hgen : r.generation = BlockManager.nextGeneration m.pool id)
    (hstate : r.state = .Admitting) (hs₃ : s₃.manager = m.taken id rest r)
    (ctx_hash : CacheContextHash) (existing : List BlockId) (target : KVCache.Tier) :
    (publish candidate ctx ctx_hash existing target id).run s₃ =
      (.ok ⟨.Admitted, some ⟨id⟩⟩,
        { s₃ with
          manager := (m.taken id rest { r with state := .Ready }).touched id
          index := s₃.index.insert ctx_hash candidate.tokens (existing ++ [id])
          events := s₃.events ++
            [.BlockAdmitted id ctx_hash target candidate.origin ctx.timestamp_ns] }) := by
  have hlt : id < m.store.records.length := by
    obtain ⟨_, h, -⟩ := hm.next_free hfree
    exact BlockManager.lt_of_getElem? h
  have hget : ∀ r', (m.taken id rest r').store.records[id]? = some r' := by
    intro r'
    rw [BlockManager.taken_getElem?, if_pos rfl, List.getElem?_eq_getElem hlt]
    rfl
  have htrans : (BlockManager.transitionState id .Admitting .Ready).run (m.taken id rest r) =
      (.ok (), m.taken id rest { r with state := .Ready }) := by
    rw [BlockManager.transitionState_eq (hget r) hstate (by decide) (by simp) (by simp),
      taken_withRecord]
  have hacquire := BlockManager.acquire_eq
    (hm.taken (r := { r with state := .Ready }) hfree hid hgen (by simp)) (hget _) rfl
  have h1 := Stack.onManager_ok (s := { s₃ with
    index := s₃.index.insert ctx_hash candidate.tokens (existing ++ [id]) }) (hs₃ ▸ htrans)
  have h2 := Stack.onManager_ok (s := { s₃ with
    manager := m.taken id rest { r with state := .Ready }
    index := s₃.index.insert ctx_hash candidate.tokens (existing ++ [id])
    events := s₃.events ++
      [.BlockAdmitted id ctx_hash target candidate.origin ctx.timestamp_ns] }) hacquire
  simp only [publish, Exec.modify_bind_run]
  rw [Exec.bind_ok h1]
  simp only [Stack.record, Exec.modify_bind_run]
  rw [Exec.bind_ok h2]
  rfl

-- The stack of `storeBlock` after `createBlock`.
private abbrev slotTaken (s₁ : Stack π) (candidate : BlockCandidate) (target : KVCache.Tier)
    (id : BlockId) (rest : List BlockId) : Stack π :=
  { s₁ with
    manager := s₁.manager.taken id rest (admittedRecord s₁ candidate target id {} .Admitting) }

-- A tier manager that refuses the block leaves it misplaced, whichever store it has.
private theorem misplaced {s₁ : Stack π} {tm : TierManager} (htm : s₁.tier_manager = some tm)
    {target : KVCache.Tier} {bytes : List UInt8}
    (why : tm.hasCapacity target = false ∨ ∃ e, tm.payload_store.put bytes = .error e) :
    Misplacement s₁ target bytes (some tm) := by
  cases hext : s₁.tier_block_store with
  | none => exact .shared htm hext why
  | some st => exact .apart htm hext

-- A placement writes tier and payload into a record of the tier manager's store, which is
-- the one of the slot unless that store is another.
private theorem placed_cases (candidate : BlockCandidate) {s₁ : Stack π} {tm : TierManager}
    (htm : s₁.tier_manager = some tm) (id : Nat) (rest : List BlockId) {target : KVCache.Tier}
    {t : TierStore} {ref : PayloadRef} {p : PayloadStore} (ht : tm.tiers target = some t)
    (hcap : t.hasCapacity = true) (hput : tm.payload_store.put candidate.payload = .ok (ref, p)) :
    ∃ ext ref', Placement s₁ id target candidate.payload (some (tm.placed target t id p)) ext ref' ∧
      { (slotTaken s₁ candidate target id rest).setTierStore
          ⟨(slotTaken s₁ candidate target id rest).tierStore.records.modify id fun r =>
            { r with tier := target, payload := ref }⟩ with
        tier_manager := some (tm.placed target t id p) } =
      { s₁ with
        manager := s₁.manager.taken id rest (admittedRecord s₁ candidate target id ref' .Admitting)
        tier_manager := some (tm.placed target t id p)
        tier_block_store := ext } := by
  cases hext : s₁.tier_block_store with
  | none =>
      refine ⟨none, ref, .shared htm hext ht hcap hput, ?_⟩
      have hrec := taken_withRecord s₁.manager id rest
        (admittedRecord s₁ candidate target id {} .Admitting) fun r =>
          { r with tier := target, payload := ref }
      rw [show (admittedRecord s₁ candidate target id ref .Admitting) =
        (fun r : BlockRecord => { r with tier := target, payload := ref })
          (admittedRecord s₁ candidate target id {} .Admitting) from rfl, ← hrec]
      simp only [Stack.setTierStore, Stack.tierStore, hext, Option.getD_none]
      rfl
  | some st =>
      refine ⟨some ⟨(slotTaken s₁ candidate target id rest).tierStore.records.modify id fun r =>
        { r with tier := target, payload := ref }⟩, {}, .apart htm hext, ?_⟩
      simp only [Stack.setTierStore, hext]

-- `placeBlock` on the slot just taken: it breaks off, reports a full tier, or places.
private theorem placeBlock_cases (candidate : BlockCandidate) {s₁ : Stack π}
    (hm : s₁.manager.InStep) {id : Nat}
    {rest : List BlockId} (hfree : s₁.manager.pool.free_list = id :: rest)
    (target : KVCache.Tier) :
    let s₂ := slotTaken s₁ candidate target id rest
    let res := (placeBlock id target candidate.payload).run s₂
    (∃ e tm, res = (.error e, { s₂ with tier_manager := tm }) ∧
        Misplacement s₁ target candidate.payload tm) ∨
      (res = (.ok .CapacityExceeded, s₂) ∧
        Misplacement s₁ target candidate.payload s₁.tier_manager) ∨
      ∃ tm ext ref, res = (.ok .Success, { s₁ with
          manager := s₁.manager.taken id rest (admittedRecord s₁ candidate target id ref .Admitting)
          tier_manager := tm
          tier_block_store := ext }) ∧
        Placement s₁ id target candidate.payload tm ext ref := by
  intro s₂ res
  have hres : res = (placeBlock id target candidate.payload).run s₂ := rfl
  simp only [placeBlock, Exec.read_bind_run] at hres
  cases htm : s₁.tier_manager with
  | none =>
      have htm₂ : s₂.tier_manager = none := htm
      simp only [htm₂] at hres
      refine .inr (.inr ⟨none, s₁.tier_block_store, {}, ?_, .untiered htm⟩)
      rw [hres, ← htm]
      rfl
  | some tm =>
      have htm₂ : s₂.tier_manager = some tm := htm
      have hself : { s₂ with tier_manager := some tm } = s₂ := by rw [← htm₂]
      simp only [htm₂] at hres
      have hcase := TierManager.place_cases tm s₂.tierStore id target candidate.payload
      rcases hrun : (TierManager.place id target candidate.payload).run (tm, s₂.tierStore)
        with ⟨out, x⟩
      rw [hrun] at hcase
      cases hcase with
      | unknown e ht =>
          rw [Exec.bind_error (Stack.onTier_same hrun)] at hres
          have hno : tm.hasCapacity target = false := by simp [TierManager.hasCapacity, ht]
          exact .inl ⟨e, some tm, hres, misplaced htm (.inl hno)⟩
      | @full t ht hcap =>
          rw [Exec.bind_ok (Stack.onTier_same hrun), hself] at hres
          have hno : tm.hasCapacity target = false := by simp [TierManager.hasCapacity, ht, hcap]
          exact .inr (.inl ⟨hres, misplaced htm (.inl hno)⟩)
      | @noPayload t e ht hcap hput =>
          rw [Exec.bind_error (Stack.onTier_same hrun)] at hres
          exact .inl ⟨e, some tm, hres, misplaced htm (.inr ⟨e, hput⟩)⟩
      | @noRecord t ref p e ht hput hid =>
          rw [Exec.bind_error (Stack.onTier_same hrun)] at hres
          refine .inl ⟨e, some (tm.placed target t id p), hres, ?_⟩
          cases hext : s₁.tier_block_store with
          | none =>
              -- the slot is one of the manager's own records
              have hlen : s₂.tierStore.records.length = s₁.manager.store.records.length := by
                simp [Stack.tierStore, s₂, hext, BlockManager.taken]
              obtain ⟨_, h, -⟩ := hm.next_free hfree
              rw [hlen] at hid
              exact absurd (BlockManager.lt_of_getElem? h) (Nat.not_lt.mpr hid)
          | some st => exact .apart htm hext
      | @placed t ref p ns ht hcap hput hid =>
          have hon : (Stack.onTier tm (TierManager.place id target candidate.payload)).run s₂ =
              (.ok ⟨.Success, ns⟩, { s₂.setTierStore ⟨s₂.tierStore.records.modify id fun r =>
                { r with tier := target, payload := ref }⟩ with
                tier_manager := some (tm.placed target t id p) }) := by
            simp only [Stack.onTier, hrun]
          obtain ⟨ext, ref', hplace, heq⟩ := placed_cases candidate htm id rest ht hcap hput
          rw [Exec.bind_ok hon] at hres
          refine .inr (.inr ⟨_, ext, ref', ?_, hplace⟩)
          rw [hres, ← heq]
          rfl

-- `storeBlock` where there is room.
private theorem storeBlock_cases (candidate : BlockCandidate) (ctx : AdmissionContext)
    {s₁ : Stack π} (hm : s₁.manager.InStep) {id : Nat}
    {rest : List BlockId} (hfree : s₁.manager.pool.free_list = id :: rest)
    (ctx_hash : CacheContextHash) (existing : List BlockId) (target : KVCache.Tier) :
    let res := (storeBlock candidate ctx ctx_hash existing target).run s₁
    (∃ e tm, res = (.error e, s₁.leaked id rest
          (admittedRecord s₁ candidate target id {} .Admitting) tm) ∧
        Misplacement s₁ target candidate.payload tm) ∨
      ∃ tm ext ref s₂, res = (.ok ⟨.Admitted, some ⟨id⟩⟩,
          { s₂ with manager := s₂.manager.touched id }) ∧
        s₂ = s₁.admitted id rest (admittedRecord s₁ candidate target id ref .Ready) tm ext
          (s₁.index.insert ctx_hash candidate.tokens (existing ++ [id]))
          (.BlockAdmitted id ctx_hash target candidate.origin ctx.timestamp_ns) ∧
        Placement s₁ id target candidate.payload tm ext ref := by
  intro res
  have hres : res = (storeBlock candidate ctx ctx_hash existing target).run s₁ := rfl
  have hcreate := BlockManager.createBlock_eq hm hfree candidate.hash candidate.block_index
    (UInt16.ofNat s₁.block_size) target
  simp only [storeBlock, Exec.read_bind_run] at hres
  rw [Exec.bind_ok (Stack.onManager_ok hcreate)] at hres
  change res = (placeBlock id target candidate.payload >>= _).run
    (slotTaken s₁ candidate target id rest) at hres
  rcases placeBlock_cases candidate hm hfree target with
    ⟨e, tm, hrun, hmis⟩ | ⟨hrun, hmis⟩ | ⟨tm, ext, ref, hrun, hplace⟩
  · rw [Exec.bind_error hrun] at hres
    exact .inl ⟨e, tm, hres, hmis⟩
  · rw [Exec.bind_ok hrun] at hres
    -- the block is still being admitted, so `freeBlock` refuses it
    obtain ⟨e, hfail⟩ := BlockManager.freeBlock_refused id
      (m := (slotTaken s₁ candidate target id rest).manager) fun r hr => by
        rw [BlockManager.taken_getElem?, if_pos rfl] at hr
        obtain ⟨_, -, rfl⟩ := Option.map_eq_some_iff.mp hr
        simp [admittedRecord, BlockManager.freshRecord]
    simp only at hres
    rw [Exec.bind_error (Stack.onManager_error hfail)] at hres
    exact .inl ⟨e, s₁.tier_manager, hres, hmis⟩
  · rw [Exec.bind_ok hrun] at hres
    simp only at hres
    rw [publish_run hm hfree rfl rfl rfl rfl] at hres
    exact .inr ⟨tm, ext, ref, _, hres, rfl, hplace⟩

end Store

-- Room is a stack in step whose free list is not empty.
theorem Room.spec (hs : s.manager.InStep) {s₁ : Stack π} (h : Room env ctx candidate s s₁) :
    s₁.manager.InStep ∧ s₁.block_size = s.block_size ∧
      ∃ id rest, s₁.manager.pool.free_list = id :: rest := by
  cases h with
  | free hroom hq =>
      refine ⟨hq.inStep hs, hq.block_size, ?_⟩
      simp only [noRoom, Bool.or_eq_false_iff, beq_eq_false_iff_ne, BlockManager.available,
        BlockPool.available] at hroom
      rw [hq.pool]
      exact List.exists_cons_of_ne_nil fun h => hroom.1 (by rw [h]; rfl)
  | evicted hroom hv hq hr hready href hrem hq' =>
      have hfreed := (hq.inStep hs).freed hr (by simp [hready])
      refine ⟨hq'.inStep hfreed, hq'.block_size.trans hq.block_size, ?_⟩
      rw [hq'.pool]
      exact ⟨_, _, rfl⟩

-- An admission that had to evict uses the slot of its victim.
theorem Room.slot_of_victim {s₁ : Stack π} (hroom : Room env ctx candidate s s₁)
    {victim new : Nat} {rest : List BlockId}
    (hv : admissionVictim env ctx candidate s = some victim)
    (hfree : s₁.manager.pool.free_list = new :: rest) : new = victim := by
  cases hroom with
  | free hroom h =>
      rw [admissionVictim_of_room hroom] at hv
      cases hv
  | evicted hroom hv' h hr' hready href hrem h' =>
      rw [hv] at hv'
      cases hv'
      rw [h'.pool] at hfree
      exact (List.cons.inj hfree).1.symm

theorem Room.untiered {s₁ : Stack π} (hroom : Room env ctx candidate s s₁)
    (hnone : s.tier_manager = none) : s₁.tier_manager = none := by
  cases hroom with
  | free hroom hq => exact hq.tier_manager.trans hnone
  | evicted hroom hv hq hr hready href hrem hq' =>
      exact hq'.tier_manager.trans (hrem.none_of_untiered (hq.tier_manager.trans hnone))

private theorem storeBlock_ends (hs : s.manager.InStep) {s₁ : Stack π}
    (he : Eligible env s candidate) (hd : decision env ctx candidate s = .Admit)
    (hroom : Room env ctx candidate s s₁) :
    AdmitCase env ctx candidate s
      ((storeBlock candidate ctx (computeContextHash env.xxh3 candidate.context)
        (parentBlocks env s candidate) (planned env ctx candidate s).1).run s₁).1
      ((storeBlock candidate ctx (computeContextHash env.xxh3 candidate.context)
        (parentBlocks env s candidate) (planned env ctx candidate s).1).run s₁).2 := by
  obtain ⟨hs₁, -, id, rest, hfree⟩ := hroom.spec hs
  rcases storeBlock_cases candidate ctx hs₁ hfree
    (computeContextHash env.xxh3 candidate.context) (parentBlocks env s candidate)
    (planned env ctx candidate s).1 with ⟨e, tm, hrun, hmis⟩ | ⟨tm, ext, ref, s₂, hrun, hs₂, hplace⟩
  · rw [hrun]
    exact .leaked e he hd hroom hfree hmis
  · rw [hrun]
    exact .admitted he hd hroom hfree hplace hs₂

-- Room for one block takes at most one pass of the eviction loop.
private theorem ensureSpace_run (ctx : AdmissionContext) (target : KVCache.Tier) (s : Stack π) :
    (ensureSpace env ctx target).run s =
      if noRoom s target then
        (EvictionController.evictOne env ⟨1, ctx.timestamp_ns, target⟩).run s
      else (.ok true, s) := by
  simp only [ensureSpace, Exec.read_bind_run]
  change Exec.run (if noRoom s target then _ else _) s = _
  cases noRoom s target with
  | false => rfl
  | true =>
      simp only [if_true, EvictionController.makeSpace, EvictionController.makeSpaceLoop,
        Exec.bind_run]
      rcases (EvictionController.evictOne env ⟨1, ctx.timestamp_ns, target⟩).run s with
        ⟨_ | more, s'⟩
      · rfl
      · cases more <;> rfl

theorem admit_cases (env : Env π) (hs : s.manager.InStep) (candidate : BlockCandidate)
    (ctx : AdmissionContext) :
    AdmitCase env ctx candidate s ((admitCandidate env candidate ctx).run s).1
      ((admitCandidate env candidate ctx).run s).2 := by
  simp only [admitCandidate, Exec.read_bind_run]
  by_cases htokens : candidate.tokens.length = (candidate.block_index.toNat + 1) * s.block_size
  · rw [if_neg (not_not.mpr htokens)]
    simp only [Exec.read_bind_run]
    by_cases hfull : (fullBlocks env s candidate).length = candidate.block_index.toNat + 1
    · rw [if_pos hfull]
      exact .present htokens hfull
    · rw [if_neg hfull]
      simp only [Exec.read_bind_run]
      by_cases hparent : (parentBlocks env s candidate).length = candidate.block_index.toNat
      · have he : Eligible env s candidate := ⟨htokens, hfull, hparent⟩
        have hask : (askAdmission env ctx candidate).run s =
            (.ok (decision env ctx candidate s), asked env ctx candidate s) := rfl
        rw [if_neg (not_not.mpr hparent), Exec.bind_ok hask]
        cases hd : decision env ctx candidate s with
        | Reject => exact .rejected he hd ⟨rfl, rfl, rfl, rfl, rfl, rfl, rfl⟩
        | Admit =>
            have hq := planned_quiet env ctx candidate s
            simp only
            rw [Exec.bind_ok (chooseTarget_run env ctx candidate s)]
            have hroom := noRoom_of_quiet hq (planned env ctx candidate s).1
            rw [Exec.bind_run, ensureSpace_run, hroom]
            cases hfull : noRoom s (planned env ctx candidate s).1 with
            | false =>
                exact storeBlock_ends hs he hd (.free hfull hq)
            | true =>
                have hvictim : admissionVictim env ctx candidate s = EvictionController.victim env
                    ⟨1, ctx.timestamp_ns, (planned env ctx candidate s).1⟩
                    (planned env ctx candidate s).2 := by
                  rw [admissionVictim, if_pos hfull]
                have hcase := EvictionController.evictOne_cases env (hq.inStep hs)
                  ⟨1, ctx.timestamp_ns, (planned env ctx candidate s).1⟩
                simp only [if_true]
                generalize (EvictionController.evictOne env _).run _ = res at hcase ⊢
                obtain ⟨res, s'⟩ := res
                cases hcase with
                | none hv hq' => exact .noSpace he hd hfull (hvictim.trans hv) (hq.trans hq')
                | refused e hv hnot hq' =>
                    exact .evictRefused e he (hvictim.trans hv) (hq.store ▸ hnot) (hq.trans hq')
                | stuck e hv hq' hr hready href hstuck =>
                    exact .evictStuck e he (hvictim.trans hv) (hq.trans hq') hr hready href hstuck
                | evicted hv hq' hr hready href hrem hq'' =>
                    exact storeBlock_ends hs he hd (.evicted hfull (hvictim.trans hv)
                      (hq.trans hq') hr hready href hrem hq'')
      · rw [if_pos hparent]
        exact .noParent htokens hfull hparent
  · rw [if_pos htokens]
    exact .badLength htokens

private theorem Room.transitions {ok : Multiset Nat → Prop} {H : Multiset Nat} (hok : ok H)
    {s₁ : Stack π} (h : Room env ctx candidate s s₁) : Transitions env ok ⟨s, H⟩ ⟨s₁, H⟩ := by
  cases h with
  | free hroom hq => exact .single (.quiet hq)
  | evicted hroom hv hq hr hready href hrem hq' =>
      exact .tail (.tail (.single (.quiet hq)) (.evict hr hready href hok hrem)) (.quiet hq')

theorem admit_transitions {ok : Multiset Nat → Prop} {H : Multiset Nat} (env : Env π)
    (hs : s.manager.InStep) (hok : ok H) (candidate : BlockCandidate) (ctx : AdmissionContext) :
    Transitions env ok ⟨s, H⟩
      ⟨((admitCandidate env candidate ctx).run s).2,
        BlockManager.slots (BlockManager.handed (fun res : AdmitResult => [res.handle])
          ((admitCandidate env candidate ctx).run s).1) + H⟩ := by
  have hcase := admit_cases env hs candidate ctx
  generalize (admitCandidate env candidate ctx).run s = out at hcase
  obtain ⟨res, s'⟩ := out
  have hnone : ∀ status, BlockManager.slots (BlockManager.handed
      (fun res : AdmitResult => [res.handle]) (.ok { status := status })) + H = H := by
    intro status
    simp [BlockManager.handed]
  have herror : ∀ e, BlockManager.slots (BlockManager.handed
      (fun res : AdmitResult => [res.handle]) (.error e)) + H = H := by
    intro e
    simp [BlockManager.handed]
  simp only at hcase ⊢
  cases hcase with
  | badLength h => rw [hnone]
  | present htokens h => rw [hnone]
  | noParent htokens habsent h => rw [hnone]
  | rejected he hd hq =>
      rw [hnone]
      exact .single (.quiet hq)
  | noSpace he hd hroom hv hq =>
      rw [hnone]
      exact .single (.quiet hq)
  | evictRefused e he hv hnot hq =>
      rw [herror]
      exact .single (.quiet hq)
  | evictStuck e he hv hq hr hready href hstuck =>
      rw [herror]
      exact .tail (.single (.quiet hq)) (.evictStuck hr hready href hok hstuck)
  | leaked e he hd hroom hfree hmis =>
      rw [herror]
      exact .tail (hroom.transitions hok) (.leak hfree hmis)
  | @admitted s₁ s₂ id rest tm ext ref he hd hroom hfree hplace hs₂ =>
      have hentered : Transition env ok ⟨s₁, H⟩ ⟨s₂, H⟩ := by
        rw [hs₂]
        exact .enter hfree hplace
      obtain ⟨r₀, hr₀, -⟩ := (hroom.spec hs).1.next_free hfree
      have hr : s₂.manager.store.records[id]? = some
          (admittedRecord s₁ candidate (planned env ctx candidate s).1 id ref .Ready) := by
        rw [hs₂]
        simp only [Stack.admitted_getElem?, hr₀, Option.map_some, if_pos]
      exact .tail (.tail (hroom.transitions hok) hentered) (.access (.touch hr rfl))

end AdmissionController

end KVCache.Controller
