import KVCache.Session.Incarnations

namespace KVCache

open Lib Controller Policy Prefix Sim Tier

variable {π : Type} {env : Env π}

namespace Controller

variable {s s' : Stack π} {last : BlockId → Option Admission}

-- Every ready block is there by the last admission that got its slot.
def Stack.Attributed (s : Stack π) (last : BlockId → Option Admission) : Prop :=
  ∀ (id : BlockId) (r : BlockRecord), s.manager.store.records[id]? = some r → r.state = .Ready →
    ∃ a, last id = some a ∧ a.block_id = id ∧ a.generation = r.generation ∧
      a.candidate.hash = r.hash

namespace Stack.Attributed

theorem sameBlocks (ha : s.Attributed last) (h : s.manager.SameBlocks s'.manager) :
    s'.Attributed last := by
  intro id r' hr' hready'
  obtain ⟨r, hr, hbody⟩ := h.symm.record hr'
  obtain ⟨-, hgen, hhash, -, -, -, -, hstate⟩ := BlockRecord.fields_of_body hbody
  obtain ⟨a, hlast, hid, hgen', hhash'⟩ := ha id r hr (hstate.trans hready')
  exact ⟨a, hlast, hid, hgen'.trans hgen, hhash'.trans hhash⟩

theorem quiet (ha : s.Attributed last) (hq : Quiet s s') : s'.Attributed last :=
  ha.sameBlocks (.of_eq hq.pool hq.store)

-- A slot that is not ready afterwards may change.
theorem of_not_ready (ha : s.Attributed last) (id : Nat)
    (hsame : ∀ j, j ≠ id → s'.manager.store.records[j]? = s.manager.store.records[j]?)
    (hnot : ∀ r, s'.manager.store.records[id]? = some r → r.state ≠ .Ready) :
    s'.Attributed last := by
  intro j r hr hready
  have hj : j ≠ id := by
    rintro rfl
    exact hnot r hr hready
  exact ha j r ((hsame j hj).symm.trans hr) hready

theorem evicted (ha : s.Attributed last) (id : BlockId) (name : String) (ts : Nat)
    (tm : Option TierManager) : (s.evicted id name ts tm).Attributed last := by
  refine ha.of_not_ready id (fun j hj => ?_) fun _ => Stack.evicted_not_ready
  rw [Stack.evicted_getElem?, if_neg hj]

theorem evictStuck (ha : s.Attributed last) (id : BlockId) :
    (s.evictStuck id).Attributed last := by
  refine ha.of_not_ready id (fun j hj => ?_) fun _ => Stack.evictStuck_not_ready
  rw [Stack.evictStuck_getElem?, if_neg hj]

theorem leaked (ha : s.Attributed last) (id : BlockId) (rest : List BlockId) {r : BlockRecord}
    (hstate : r.state ≠ .Ready) (tm : Option TierManager) :
    (s.leaked id rest r tm).Attributed last := by
  refine ha.of_not_ready id (fun j hj => ?_) fun _ => Stack.leaked_not_ready hstate
  rw [Stack.leaked_getElem?, if_neg hj]

end Stack.Attributed

namespace AdmissionController

variable {ctx : AdmissionContext} {candidate : BlockCandidate}

theorem Room.attributed (ha : s.Attributed last) {s₁ : Stack π}
    (hroom : Room env ctx candidate s s₁) : s₁.Attributed last := by
  cases hroom with
  | free hroom hq => exact ha.quiet hq
  | evicted hroom hvictim hq hr hready href hrem hq' =>
      exact ((ha.quiet hq).evicted _ _ _ _).quiet hq'

-- What the slots were last admitted for, after an admission.
def attributedTo (candidate : BlockCandidate) (last : BlockId → Option Admission)
    (out : Except Fault AdmitResult × Stack π) : BlockId → Option Admission := fun id =>
  ((Session.admitted candidate out).find? fun a => a.block_id = id).or (last id)

theorem AdmitCase.attributed (ha : s.Attributed last) (hs : s.manager.InStep)
    {res : Except Fault AdmitResult} (hcase : AdmitCase env ctx candidate s res s') :
    s'.Attributed (attributedTo candidate last (res, s')) := by
  cases hcase with
  | badLength h => exact ha
  | present htokens h => exact ha
  | noParent htokens habsent h => exact ha
  | rejected he hd hq => exact ha.quiet hq
  | noSpace he hd hroom hvictim hq => exact ha.quiet hq
  | evictRefused e he hvictim hnot hq => exact ha.quiet hq
  | evictStuck e he hvictim hq hr hready href hstuck => exact (ha.quiet hq).evictStuck _
  | leaked e he hd hroom hfree hmis =>
      refine (hroom.attributed ha).leaked _ _ ?_ _
      simp [admittedRecord, BlockManager.freshRecord]
  | @admitted s₁ s₂ id rest tm ext ref he hd hroom hfree hplace hs₂ =>
      have ha₁ := hroom.attributed ha
      obtain ⟨r₀, hr₀, -⟩ := (hroom.spec hs).1.next_free hfree
      subst hs₂
      intro j r hr hready
      by_cases hj : j = id
      · -- the new block
        subst hj
        refine ⟨⟨candidate, j, r.generation⟩, ?_, rfl, rfl, ?_⟩
        · simp only [attributedTo, Session.admitted, List.getD_eq_getElem?_getD, hr,
            Option.getD_some]
          simp
        · simp only [BlockManager.touched_getElem?, if_true, Stack.admitted_getElem?, hr₀,
            Option.map_some, Option.some.injEq] at hr
          rw [← hr]
          rfl
      · simp only [BlockManager.touched_getElem?, if_neg hj, Stack.admitted_getElem?] at hr
        obtain ⟨a, hlast, hid, hrest⟩ := ha₁ j r hr hready
        refine ⟨a, ?_, hid, hrest⟩
        simp [attributedTo, Session.admitted, Ne.symm hj, hlast]

end AdmissionController

end Controller

-- The candidate carries the hash of its last block, with as many tokens in a block as its
-- own tokens give.
def BlockCandidate.Hashed (X : XXH3) (candidate : BlockCandidate) : Prop :=
  ∀ b, candidate.tokens.length = (candidate.block_index.toNat + 1) * b →
    candidate.hash = computeContentHash X (computeContextHash X candidate.context)
      candidate.block_index (UInt16.ofNat b)
      (candidate.tokens.drop (candidate.block_index.toNat * b))

-- An operation of the cache that admits hashed candidates only.
def SessionOp.Hashed (X : XXH3) (op : SessionOp) : Prop :=
  op.Public ∧ ∀ candidate, op = .admitBlock candidate → candidate.Hashed X

theorem SessionOp.Looks.hashed {X : XXH3} {op : SessionOp} (h : op.Looks) : op.Hashed X := by
  refine ⟨.inl h, fun candidate hop => ?_⟩
  subst hop
  exact absurd h id

namespace Session

variable {s s₀ : Session π} {X : XXH3} {b : Nat}

-- The blocks of a cache are those of the admissions in its log, which are of hashed
-- candidates.
structure Traced (X : XXH3) (b : Nat) (s : Session π) : Prop where
  inStep : s.cache.manager.InStep
  block_size : s.cache.block_size = b
  attributed : s.cache.Attributed s.lastAdmission
  admission : ∀ a ∈ s.admissions, a.candidate.Hashed X ∧
    a.candidate.tokens.length = (a.candidate.block_index.toNat + 1) * b

theorem constructed_traced {c : LocalCache π} (hc : LocalCache.Constructed c) (X : XXH3) :
    Traced X c.block_size { cache := c } := by
  obtain ⟨capacity, clock, hm⟩ := hc.manager_eq
  refine ⟨hm ▸ BlockManager.new_inStep capacity clock, rfl, fun id r hr hready => ?_,
    fun a ha => by cases ha⟩
  rw [hm] at hr
  rw [(BlockManager.new_getElem? hr).2] at hready
  cases hready

theorem step_traced (h : Traced X b s) {op : SessionOp} (hop : op.Hashed X) :
    Traced X b (step env s op) := by
  have hsize : (step env s op).cache.block_size = b := by
    have hrun : Run env (fun _ _ => True) s (step env s op) := Steps.snoc (Steps.refl s) op trivial
    exact (run_inStep hrun h.inStep).2.trans h.block_size
  refine ⟨step_inStep env h.inStep op, hsize, ?_, fun a ha => ?_⟩
  · rcases hop.1 with hlooks | ⟨candidate, rfl⟩
    · obtain ⟨m, hm, hsame, hadm⟩ := step_looks env h.inStep hlooks
      have hlast : (step env s op).lastAdmission = s.lastAdmission := by
        funext id
        rw [lastAdmission, hadm, lastAdmission]
      rw [hlast, hm]
      exact h.attributed.sameBlocks hsame
    · have hlast : (step env s (.admitBlock candidate)).lastAdmission =
          AdmissionController.attributedTo candidate s.lastAdmission
            ((LocalCache.admitBlock env candidate).run s.cache) := by
        funext id
        exact List.find?_append
      rw [hlast]
      exact (admitBlock_cases env h.inStep candidate).attributed
        (h.attributed.quiet s.cache.ticked_quiet) (s.cache.ticked_quiet.inStep h.inStep)
  · obtain ⟨new, hnew, henters⟩ := step_admissions env h.inStep op
    rw [hnew] at ha
    rcases List.mem_append.mp ha with ha | ha
    · obtain ⟨hentered, htokens, -⟩ := henters a ha
      rw [h.block_size] at htokens
      refine ⟨?_, htokens⟩
      rcases hentered with rfl | ⟨ctx, rfl⟩
      · exact hop.2 _ rfl
      · rcases hop.1 with hlooks | ⟨candidate, hcandidate⟩
        · exact absurd hlooks id
        · cases hcandidate
    · exact h.admission a ha

theorem run_traced (h : Traced X b s₀) (hrun : Run env (fun _ op => op.Hashed X) s₀ s) :
    Traced X b s :=
  Steps.invariant (I := Traced X b) (fun _ _ h hop => step_traced h hop) hrun h

-- What is ready in a slot was admitted as the last block of the tokens of its admission.
theorem Traced.ready (h : Traced X b s) {id : BlockId} {r : BlockRecord}
    (hr : s.cache.manager.store.records[id]? = some r) (hready : r.state = .Ready) :
    ∃ a, s.lastAdmission id = some a ∧ a.generation = r.generation ∧
      r.hash = computeContentHash X (computeContextHash X a.candidate.context)
        a.candidate.block_index (UInt16.ofNat b)
        (a.candidate.tokens.drop (a.candidate.block_index.toNat * b)) ∧
      a.candidate.tokens.length = (a.candidate.block_index.toNat + 1) * b := by
  obtain ⟨a, hlast, -, hgen, hhash⟩ := h.attributed id r hr hready
  obtain ⟨hhashed, htokens⟩ := h.admission a (List.mem_of_find?_eq_some hlast)
  exact ⟨a, hlast, hgen, hhash ▸ hhashed b htokens, htokens⟩

end Session

end KVCache
