import KVCache.Core.Access
import KVCache.Lib.Steps

namespace KVCache

open Lib

-- The calls of a manager's API, and the end of a handle variable.
inductive ManagerOp where
  | createBlock (hash : ContentHash) (block_index : UInt32) (token_count : UInt16) (tier : Tier)
  | acquire (id : BlockId)
  | fetchLocal (id : BlockId) (generation : Nat)
  | markAccessed (id : BlockId)
  | transitionState (id : BlockId) (source target : BlockState)
  | freeBlock (id : BlockId)
  | dropHandle (i : Nat)

-- A manager with the handle variables of its user.
structure ManagerClient where
  manager : BlockManager
  handles : List (Option BlockHandle) := []

namespace ManagerClient

def handleAt (s : ManagerClient) (i : Nat) : Option BlockHandle := (s.handles[i]?).join

-- The call of an operation, with the handles that it returns.
def call (s : ManagerClient) : ManagerOp → BlockManager.Op (List (Option BlockHandle))
  | .createBlock hash block_index token_count tier => do
      let _ ← BlockManager.createBlock hash block_index token_count tier
      return []
  | .acquire id => do
      let handle ← BlockManager.acquire id
      return [handle]
  | .fetchLocal id generation => do
      let result ← BlockManager.fetchLocal id generation
      return [result.handle]
  | .markAccessed id => do
      BlockManager.markAccessed id
      return []
  | .transitionState id source target => do
      BlockManager.transitionState id source target
      return []
  | .freeBlock id => do
      BlockManager.freeBlock id
      return []
  | .dropHandle i =>
      match s.handleAt i with
      | none => return []
      | some h => do
          BlockManager.dropHandle h
          return []

def called (s : ManagerClient) (op : ManagerOp) :
    Except Fault (List (Option BlockHandle)) × BlockManager := (s.call op).run s.manager

def step (s : ManagerClient) (op : ManagerOp) : ManagerClient where
  manager := (s.called op).2
  handles :=
    (match op with
      | .dropHandle i => s.handles.set i none
      | _ => s.handles) ++ BlockManager.handed id (s.called op).1

end ManagerClient

-- A call of `transitionState` that takes a free record into use.
def ManagerOp.LeavesFree (m : BlockManager) : ManagerOp → Prop
  | .transitionState id source target => source = .Free ∧ isLegalTransition .Free target = true ∧
      ∃ r, m.store.records[id]? = some r ∧ r.state = .Free
  | _ => False

namespace BlockManager

variable {m : BlockManager} {id : BlockId}

-- Pool and store tell the same about every slot.
structure Tracks (m : BlockManager) : Prop where
  in_use : ∀ id r, m.store.records[id]? = some r →
    (m.pool.in_use.getD id false = true ↔ r.state ≠ .Free)
  free_nodup : m.pool.free_list.Nodup
  free : ∀ id, id ∈ m.pool.free_list ↔ ∃ r, m.store.records[id]? = some r ∧ r.state = .Free
  available : m.available = m.store.records.countP fun r => r.state = .Free

-- The free list has an entry for each free record.
theorem InStep.available (hm : m.InStep) :
    m.available = m.store.records.countP fun r => r.state = .Free := by
  let records := m.store.records
  have hslots : m.pool.free_list.Perm
      ((List.range records.length).filter fun i => (records.getD i {}).state = .Free) := by
    refine (List.perm_ext_iff_of_nodup hm.free_nodup (List.nodup_range.filter _)).mpr fun i => ?_
    rw [hm.free, List.mem_filter, List.mem_range]
    constructor
    · rintro ⟨r, hr, hfree⟩
      refine ⟨(List.getElem?_eq_some_iff.mp hr).1, ?_⟩
      simp [records, List.getD_eq_getElem?_getD, hr, hfree]
    · rintro ⟨hlt, hfree⟩
      have hr : m.store.records[i]? = some m.store.records[i] := List.getElem?_eq_getElem hlt
      refine ⟨_, hr, ?_⟩
      simpa [records, List.getD_eq_getElem?_getD, hr] using hfree
  have hrange : (List.range records.length).map (fun i => records.getD i {}) = records := by
    refine List.ext_getElem (by simp) fun i h1 h2 => ?_
    simp [List.getD_eq_getElem?_getD, h2]
  calc m.available = m.pool.free_list.length := rfl
    _ = (List.range records.length).countP fun i => (records.getD i {}).state = .Free := by
      rw [hslots.length_eq, List.countP_eq_length_filter]
    _ = ((List.range records.length).map fun i => records.getD i {}).countP
          fun r => r.state = .Free := by rw [List.countP_map]; rfl
    _ = records.countP fun r => r.state = .Free := by rw [hrange]

theorem InStep.tracks (hm : m.InStep) : m.Tracks :=
  ⟨fun _ _ hr => hm.in_use hr, hm.free_nodup, fun _ => hm.free, hm.available⟩

-- `createBlock` hands out a free slot or nothing.
theorem createBlock_cases (hm : m.InStep) (hash : ContentHash) (block_index : UInt32)
    (token_count : UInt16) (tier : Tier) :
    (m.pool.free_list = [] ∧
        (createBlock hash block_index token_count tier).run m = (.ok none, m)) ∨
      ∃ id rest r, m.pool.free_list = id :: rest ∧ m.store.records[id]? = some r ∧
        r.state = .Free ∧ (createBlock hash block_index token_count tier).run m =
          (.ok (some (id, nextGeneration m.pool id)),
            m.taken id rest (freshRecord id (nextGeneration m.pool id) hash block_index token_count
              tier {} .Admitting)) := by
  cases h : m.pool.free_list with
  | nil => exact .inl ⟨rfl, createBlock_eq_none h hash block_index token_count tier⟩
  | cons id rest =>
      obtain ⟨r, hr, hfree⟩ := hm.next_free h
      exact .inr ⟨id, rest, r, rfl, hr, hfree,
        createBlock_eq hm h hash block_index token_count tier⟩

-- A transition is refused, leads to a state of use, or gives the slot back.
theorem transitionState_cases (hm : m.InStep) (id : BlockId) (source target : BlockState) :
    (∃ e, (transitionState id source target).run m = (.error e, m)) ∨
      ∃ r, m.store.records[id]? = some r ∧ r.state = source ∧
        isLegalTransition source target = true ∧
        ((target ≠ .Free ∧ (transitionState id source target).run m =
            (.ok (), m.withRecord id fun r => { r with state := target })) ∨
          (source ≠ .Free ∧ target = .Free ∧
            (transitionState id source target).run m = (.ok (), m.freed id))) := by
  by_cases hgo : ∃ r, m.store.records[id]? = some r ∧ r.state = source ∧
      isLegalTransition source target = true ∧
      ¬ (source = .Ready ∧ target = .Evicting ∧ 0 < r.refcount)
  · obtain ⟨r, hr, hs, hlegal, hguard⟩ := hgo
    refine .inr ⟨r, hr, hs, hlegal, ?_⟩
    by_cases ht : target = .Free
    · subst ht
      have hne : source ≠ .Free := by
        rintro rfl
        simp [isLegalTransition] at hlegal
      exact .inr ⟨hne, rfl, transitionState_free_eq hm hr hs hlegal⟩
    · exact .inl ⟨ht, transitionState_eq hr hs hlegal hguard ht⟩
  · refine .inl (transitionState_refused fun r hr hs hlegal => ?_)
    by_contra hguard
    exact hgo ⟨r, hr, hs, hlegal, hguard⟩

theorem markAccessed_cases (m : BlockManager) (id : BlockId) :
    ∃ res m', (markAccessed id).run m = (res, m') ∧ m.SameBlocks m' ∧
      ∀ e, res = .error e → m'.pool = m.pool ∧ m'.store = m.store := by
  by_cases hlt : id < m.store.records.length
  · refine ⟨.ok (), ({ m with clock := m.clock.nowNs.2 } : BlockManager).withRecord id fun r =>
      { r with
        last_access_ns := m.clock.nowNs.1
        access_count := (r.access_count + 1) % 2 ^ 64 }, ?_, ?_, fun e he => nomatch he⟩
    · simp only [markAccessed, nowNs, Exec.modifyGet_bind_run, BlockStore.markAccessed]
      exact onStore_write (m := { m with clock := m.clock.nowNs.2 }) hlt
    · exact (SameBlocks.of_eq rfl rfl : SameBlocks m { m with clock := m.clock.nowNs.2 }).trans
        (.of_modify fun r => by simp only [BlockRecord.body])
  · refine ⟨.error (.logic_error "BlockStore::markAccessed: slot out of range"),
      { m with clock := m.clock.nowNs.2 }, ?_, .of_eq rfl rfl, fun e he => ⟨rfl, rfl⟩⟩
    simp only [markAccessed, nowNs, Exec.modifyGet_bind_run, BlockStore.markAccessed, onStore,
      Exec.update, BlockStore.write, if_pos (Nat.not_lt.mp hlt)]

end BlockManager

namespace ManagerClient

variable {s : ManagerClient}

-- A call keeps pool and store in step unless it takes a free record into use, and if it
-- throws they are as before.
abbrev Keeps (m : BlockManager) (op : ManagerOp)
    (out : Except Fault (List (Option BlockHandle)) × BlockManager) : Prop :=
  (¬ op.LeavesFree m → out.2.InStep) ∧
    ∀ e, out.1 = .error e → out.2.pool = m.pool ∧ out.2.store = m.store

private theorem keeps_ok {m m' : BlockManager} {op : ManagerOp} {res : List (Option BlockHandle)}
    (h : ¬ op.LeavesFree m → m'.InStep) : Keeps m op (.ok res, m') := ⟨h, fun _ he => nomatch he⟩

private theorem keeps_error {m m' : BlockManager} (hm : m.InStep) {op : ManagerOp} {e : Fault}
    (hp : m'.pool = m.pool) (hst : m'.store = m.store) : Keeps m op (.error e, m') :=
  ⟨fun _ => hm.of_eq hp hst, fun _ _ => ⟨hp, hst⟩⟩

private theorem transitionState_keeps {m : BlockManager} (hm : m.InStep) {op : ManagerOp}
    {id : BlockId} {source target : BlockState}
    (hop : op = .transitionState id source target ∨ source ≠ .Free) :
    Keeps m op ((do BlockManager.transitionState id source target; return []).run m) := by
  rcases BlockManager.transitionState_cases hm id source target with
    ⟨e, h⟩ | ⟨r, hr, hsource, hlegal, ⟨ht, h⟩ | ⟨hne, -, h⟩⟩
  · rw [Exec.bind_error h]
    exact keeps_error hm rfl rfl
  · rw [Exec.bind_ok h]
    refine keeps_ok fun hnot => hm.withRecord fun r' hr' => ?_
    rw [hr] at hr'
    cases hr'
    refine ⟨rfl, rfl, fun hfree => absurd hfree ht, fun hfree => ?_⟩
    -- the record was free, and the call has left that state
    have hs : source = .Free := hsource.symm.trans hfree
    rcases hop with rfl | hne
    · subst hs
      exact absurd ⟨rfl, hlegal, r, hr, hfree⟩ hnot
    · exact absurd hs hne
  · rw [Exec.bind_ok h]
    exact keeps_ok fun _ => hm.freed hr (by rw [hsource]; exact hne)

theorem called_keeps (hs : s.manager.InStep) (op : ManagerOp) :
    Keeps s.manager op (s.called op) := by
  unfold called
  cases op with
  | createBlock hash block_index token_count tier =>
      rcases BlockManager.createBlock_cases hs hash block_index token_count tier with
        ⟨-, h⟩ | ⟨id, rest, r, hfree, -, -, h⟩
      · rw [call, Exec.bind_ok h]
        exact keeps_ok fun _ => hs
      · rw [call, Exec.bind_ok h]
        exact keeps_ok fun _ => hs.taken hfree rfl rfl (by simp [BlockManager.freshRecord])
  | acquire id =>
      by_cases hready : ∃ r, s.manager.store.records[id]? = some r ∧ r.state = .Ready
      · obtain ⟨r, hr, hready⟩ := hready
        rw [call, Exec.bind_ok (BlockManager.acquire_eq hs hr hready)]
        exact keeps_ok fun _ => hs.touched id
      · rw [call, Exec.bind_ok (BlockManager.acquire_eq_none hs fun r hr hready' =>
          hready ⟨r, hr, hready'⟩)]
        exact keeps_ok fun _ => hs
  | fetchLocal id generation =>
      rcases BlockManager.fetchLocal_cases hs id generation with
        ⟨r, -, -, -, h⟩ | ⟨status, -, h⟩
      · rw [call, Exec.bind_ok h]
        exact keeps_ok fun _ => hs.touched id
      · rw [call, Exec.bind_ok h]
        exact keeps_ok fun _ => hs
  | markAccessed id =>
      obtain ⟨res, m', h, hsame, hthrows⟩ := BlockManager.markAccessed_cases s.manager id
      cases res with
      | ok _ =>
          rw [call, Exec.bind_ok h]
          exact keeps_ok fun _ => hsame.inStep hs
      | error e =>
          rw [call, Exec.bind_error h]
          exact keeps_error hs (hthrows e rfl).1 (hthrows e rfl).2
  | transitionState id source target => exact transitionState_keeps hs (.inl rfl)
  | freeBlock id => exact transitionState_keeps hs (.inr (by simp))
  | dropHandle i =>
      rw [call]
      cases hi : s.handleAt i with
      | none => exact keeps_ok fun _ => hs
      | some h =>
          simp only
          rw [Exec.bind_ok (BlockManager.dropHandle_run s.manager h)]
          exact keeps_ok fun _ => (BlockManager.released_sameBlocks _ h.slot).inStep hs

-- A free record that is taken into use stays on the free list, and pool and store are
-- apart.
theorem leavesFree_breaks (hs : s.manager.InStep) {op : ManagerOp}
    (hop : op.LeavesFree s.manager) : ¬ (s.step op).manager.Tracks := by
  cases op with
  | transitionState id source target =>
      obtain ⟨rfl, hlegal, r, hr, hfree⟩ := hop
      have ht : target ≠ .Free := by
        rintro rfl
        simp [isLegalTransition] at hlegal
      have hrun := BlockManager.transitionState_eq hr hfree hlegal (by simp) ht
      intro htracks
      have hmanager : (s.step (.transitionState id .Free target)).manager =
          s.manager.withRecord id fun r => { r with state := target } := by
        simp only [step, called, call]
        rw [Exec.bind_ok hrun]
        rfl
      rw [hmanager] at htracks
      have hmem : id ∈
          (s.manager.withRecord id fun r => { r with state := target }).pool.free_list :=
        hs.free.mpr ⟨r, hr, hfree⟩
      obtain ⟨r', hr', hfree'⟩ := (htracks.free id).mp hmem
      rw [BlockManager.withRecord_getElem?, if_pos rfl, hr] at hr'
      cases hr'
      exact ht hfree'
  | _ => exact absurd hop id

-- What the API promises in a state, for the state itself and for each call made in it.
structure Consistent (s : ManagerClient) : Prop where
  tracks : s.manager.Tracks
  createBlock_free : ∀ hash block_index token_count tier id generation m',
    (BlockManager.createBlock hash block_index token_count tier).run s.manager =
        (.ok (some (id, generation)), m') →
      ∃ r, s.manager.store.records[id]? = some r ∧ r.state = .Free
  throw_unchanged : ∀ op e, (s.called op).1 = .error e →
    (s.step op).manager.pool = s.manager.pool ∧ (s.step op).manager.store = s.manager.store

theorem consistent_of_inStep (hs : s.manager.InStep) : s.Consistent := by
  refine ⟨hs.tracks, fun hash block_index token_count tier id generation m' h => ?_,
    fun op e he => (called_keeps hs op).2 e he⟩
  rcases BlockManager.createBlock_cases hs hash block_index token_count tier with
    ⟨-, hrun⟩ | ⟨id', rest, r, -, hr, hfree, hrun⟩
  · rw [hrun] at h
    cases h
  · rw [hrun] at h
    cases h
    exact ⟨r, hr, hfree⟩

-- As long as no `transitionState` takes a free record into use, pool and store are in step
-- throughout, and no call is caught out of step.
theorem api_consistent {capacity : Nat} {clock : Clock}
    (hrun : Steps step (fun s op => ¬ op.LeavesFree s.manager)
      { manager := .new capacity clock } s) : s.Consistent := by
  have hs : s.manager.InStep := by
    refine Steps.invariant (I := fun s : ManagerClient => s.manager.InStep) ?_ hrun
      (BlockManager.new_inStep capacity clock)
    intro s op hs hop
    exact (called_keeps hs op).1 hop
  exact consistent_of_inStep hs

private def oneSlot : ManagerClient := { manager := .new 1 { readings := id } }

-- A free slot that is put into `Admitting` by hand is still on the free list.
theorem free_slot_taken :
    Steps step (fun _ _ => True) oneSlot (oneSlot.step (.transitionState 0 .Free .Admitting)) ∧
      ¬ (oneSlot.step (.transitionState 0 .Free .Admitting)).Consistent := by
  have hop : (ManagerOp.transitionState 0 .Free .Admitting).LeavesFree oneSlot.manager :=
    ⟨rfl, by decide, {}, by decide, rfl⟩
  refine ⟨Steps.snoc (Steps.refl _) _ trivial, fun h => ?_⟩
  exact leavesFree_breaks (BlockManager.new_inStep 1 _) hop h.tracks

-- A block that is created and made ready. The slot is not free any more, and the same call throws.
private def readied : ManagerClient :=
  (oneSlot.step (.createBlock ⟨0, 0⟩ 0 1 .GpuSim)).step (.transitionState 0 .Admitting .Ready)

theorem api_consistent_thrown :
    (readied.called (.transitionState 0 .Free .Admitting)).1.isOk = false ∧
      (readied.step (.transitionState 0 .Free .Admitting)).manager.store = readied.manager.store ∧
      (readied.step (.transitionState 0 .Free .Admitting)).Consistent := by
  have hstart : Steps step (fun s op => ¬ op.LeavesFree s.manager) oneSlot oneSlot := Steps.refl _
  have hready : Steps step (fun s op => ¬ op.LeavesFree s.manager) oneSlot readied :=
    (hstart.snoc (.createBlock ⟨0, 0⟩ 0 1 .GpuSim) id).snoc (.transitionState 0 .Admitting .Ready)
      fun h => nomatch h.1
  have hnot : ¬ (ManagerOp.transitionState 0 .Free .Admitting).LeavesFree readied.manager := by
    rintro ⟨-, -, r, hr, hfree⟩
    obtain rfl := Option.some.inj hr
    exact absurd hfree (by decide +kernel)
  have hthrows : (readied.called (.transitionState 0 .Free .Admitting)).1.isOk = false := by
    decide +kernel
  refine ⟨hthrows, ?_, api_consistent (hready.snoc _ hnot)⟩
  cases hcall : (readied.called (.transitionState 0 .Free .Admitting)).1 with
  | ok _ =>
      rw [hcall] at hthrows
      cases hthrows
  | error e => exact ((api_consistent hready).throw_unchanged _ e hcall).2

end ManagerClient

end KVCache
