import KVCache.Controller.Generations
import KVCache.Session.Agreement

namespace KVCache

open Lib Controller Policy Prefix Sim Tier

variable {π : Type} {env : Env π} {ok : Multiset Nat → Prop}

namespace Controller

-- An `Admitted` result is about a ready block in the slot of its handle.
theorem AdmissionController.AdmitCase.admitted_record {ctx : AdmissionContext}
    {candidate : BlockCandidate} {s s' : Stack π} (hs : s.manager.InStep) {handle : BlockHandle}
    (h : AdmitCase env ctx candidate s (.ok ⟨.Admitted, some handle⟩) s') :
    candidate.tokens.length = (candidate.block_index.toNat + 1) * s.block_size ∧
      ∃ r, s'.manager.store.records[handle.slot]? = some r ∧ r.state = .Ready ∧
        r.hash = candidate.hash := by
  cases h with
  | @admitted s₁ s₂ id rest tm ext ref he hd hroom hfree hplace hs₂ =>
      obtain ⟨r₀, hr₀, -⟩ := (hroom.spec hs).1.next_free hfree
      refine ⟨he.tokens, ?_⟩
      subst hs₂
      simp only [BlockManager.touched_getElem?, if_true, Stack.admitted_getElem?, hr₀,
        Option.map_some]
      exact ⟨_, rfl, rfl, rfl⟩

-- What an untiered stack still knows of a block that it has admitted: its generation is
-- not used up, and unless the slot was freed since, the block is there.
structure Stack.Incarnation (s : Stack π) (a : Admission) : Prop where
  pos : 0 < a.generation
  le : a.generation ≤ s.frees a.block_id + 1
  live : a.generation = s.frees a.block_id + 1 → ∃ r,
    s.manager.store.records[a.block_id]? = some r ∧ r.state = .Ready ∧ r.hash = a.candidate.hash

theorem Stack.Incarnation.same {s s' : Stack π} {a : Admission} (h : s.Incarnation a)
    (hblocks : s.manager.SameBlocks s'.manager) (hevents : s'.events = s.events) :
    s'.Incarnation a := by
  have hfrees : s'.frees a.block_id = s.frees a.block_id := by rw [frees, hevents, frees]
  refine ⟨h.pos, hfrees ▸ h.le, fun hlive => ?_⟩
  obtain ⟨r, hr, hready, hhash⟩ := h.live (hfrees ▸ hlive)
  obtain ⟨r', hr', hbody⟩ := hblocks.record hr
  obtain ⟨-, -, hhash', -, -, -, -, hstate⟩ := BlockRecord.fields_of_body hbody
  exact ⟨r', hr', hstate.trans hready, hhash'.trans hhash⟩

theorem Transition.incarnation {x x' : Held π} (h : Transition env ok x x')
    (hs : x.stack.manager.InStep) (hg : x.stack.Generations) {a : Admission}
    (ha : x.stack.Incarnation a) : x'.stack.Incarnation a := by
  have hle := h.frees_le a.block_id
  have hused := ha.le
  cases h with
  | quiet h => exact ha.same (.of_eq h.pool h.store) h.events
  | access h => exact ha.same h.sameBlocks rfl
  | @evict s H id r' ts tm hr' hready' href hok hrem =>
      refine ⟨ha.pos, by omega, fun hlive => ?_⟩
      have hne : a.block_id ≠ id := by
        rintro rfl
        rw [Stack.frees_append _ _ a.block_id rfl] at hlive
        simp [Event.evicts, Stack.frees] at hlive hused
        omega
      obtain ⟨r, hr, hready, hhash⟩ := ha.live (by omega)
      exact ⟨r, by simpa [hne] using hr, hready, hhash⟩
  | evictStuck hr hready href hok hstuck => exact absurd hg.untiered hstuck.not_untiered
  | leak hfree hmis => exact absurd hg.untiered hmis.not_untiered
  | @enter s H id rest candidate ctx_hash existing target ts tm ext ref hfree hplace =>
      refine ⟨ha.pos, by omega, fun hlive => ?_⟩
      obtain ⟨r, hr, hready, hhash⟩ := ha.live (by omega)
      have hne : a.block_id ≠ id := by
        rintro rfl
        exact hs.next_not_ready hfree hr hready
      exact ⟨r, by simpa [hne] using hr, hready, hhash⟩
  | migrate htm hr ht hid ht' hcap he => exact absurd (htm.symm.trans hg.untiered) (by simp)

end Controller

namespace Session

variable {s s' : Session π}

-- `a` was admitted by the operation that leads from `s` to `s'`, and is there.
structure Enters (s : Session π) (op : SessionOp) (s' : Session π) (a : Admission) : Prop where
  op : op = .admitBlock a.candidate ∨ ∃ ctx, op = .admitCandidate a.candidate ctx
  tokens : a.candidate.tokens.length = (a.candidate.block_index.toNat + 1) * s.cache.block_size
  record : ∃ r, s'.cache.manager.store.records[a.block_id]? = some r ∧ r.state = .Ready ∧
    r.hash = a.candidate.hash ∧ r.generation = a.generation

-- The admissions that an operation adds.
theorem step_admissions (env : Env π) (hs : s.cache.manager.InStep) (op : SessionOp) :
    ∃ new, (step env s op).admissions = new ++ s.admissions ∧
      ∀ a ∈ new, s.Enters op (step env s op) a := by
  have hadmitted : ∀ {candidate : BlockCandidate} {ctx : AdmissionContext} {s₀ : Stack π}
      (out : Except Fault AdmitResult × LocalCache π), s₀.manager.InStep →
      s₀.block_size = s.cache.block_size →
      AdmissionController.AdmitCase env ctx candidate s₀ out.1 out.2 →
      out.2 = (step env s op).cache →
      op = .admitBlock candidate ∨ (∃ ctx, op = .admitCandidate candidate ctx) →
      ∀ a ∈ admitted candidate out, s.Enters op (step env s op) a := by
    rintro candidate ctx s₀ ⟨res, cache⟩ hs₀ hsize hcase hcache hop a ha
    cases res with
    | error e => cases ha
    | ok res =>
        obtain ⟨status, handle⟩ := res
        cases status with
        | Admitted =>
            cases handle with
            | none => cases ha
            | some handle =>
                obtain ⟨htokens, r, hr, hready, hhash⟩ := hcase.admitted_record hs₀
                obtain rfl := List.mem_singleton.mp ha
                refine ⟨hop, hsize ▸ htokens, r, hcache ▸ hr, hready, hhash, ?_⟩
                simp [List.getD_eq_getElem?_getD, hr]
        | _ => cases ha
  cases op with
  | admitBlock candidate =>
      exact ⟨_, rfl, hadmitted _ (s.cache.ticked_quiet.inStep hs) rfl
        (admitBlock_cases env hs candidate) rfl (.inl rfl)⟩
  | admitCandidate candidate ctx =>
      exact ⟨_, rfl, hadmitted _ hs rfl (AdmissionController.admit_cases env hs candidate ctx) rfl
        (.inr ⟨ctx, rfl⟩)⟩
  | assignHandle i j =>
      refine ⟨[], ?_, fun _ ha => by cases ha⟩
      simp only [step]
      split <;> rfl
  | _ => exact ⟨[], rfl, fun _ ha => by cases ha⟩

theorem run_admissions {allowed : Session π → SessionOp → Prop} (hs : s.cache.manager.InStep)
    (h : Run env allowed s s') {a : Admission} (ha : a ∈ s.admissions) : a ∈ s'.admissions := by
  refine (Steps.invariant (I := fun s : Session π => s.cache.manager.InStep ∧ a ∈ s.admissions) ?_ h
    ⟨hs, ha⟩).2
  rintro s op ⟨hs, ha⟩ -
  obtain ⟨new, hnew, -⟩ := step_admissions env hs op
  exact ⟨step_inStep env hs op, by rw [hnew]; exact List.mem_append_right _ ha⟩

theorem run_untiered {allowed : Session π → SessionOp → Prop} (hs : s.cache.manager.InStep)
    (hnone : s.cache.tier_manager = none) (h : Run env allowed s s') :
    s'.cache.tier_manager = none := by
  refine (run_invariant (J := fun x => x.stack.tier_manager = none) (fun _ => True)
    (fun _ _ _ => trivial) (fun x x' _ hx hstep => hstep.untiered hx) (fun x x' _ hx hrel => ?_)
    h hs hnone).2
  obtain ⟨slot, -, rfl⟩ := hrel
  exact hx

-- The generations of the cache are in order, and so is what is left of all admissions.
structure Incarnations (s : Session π) : Prop where
  generations : s.cache.Generations
  admission : ∀ a ∈ s.admissions, s.cache.Incarnation a

theorem step_frees_le (env : Env π) (hs : s.cache.manager.InStep) (op : SessionOp) (id : BlockId) :
    s.cache.frees id ≤ (step env s op).cache.frees id := by
  have hcase : Transitions env (fun _ => True) s.held (step env s op).held ∨ Released _ _ :=
    step_cases env hs trivial op
  rcases hcase with h | ⟨slot, -, h⟩
  · exact Exec.reach_invariant (J := fun x : Held π => s.cache.frees id ≤ x.stack.frees id)
      (fun _ _ hle hstep => hle.trans (hstep.frees_le id)) h (Nat.le_refl _)
  · have hcache : (step env s op).cache =
        { s.cache with manager := s.cache.manager.released slot } := congrArg Held.stack h
    rw [hcache]
    exact Nat.le_refl _

theorem step_incarnations (env : Env π) (hs : s.cache.manager.InStep) (hi : s.Incarnations)
    (op : SessionOp) (hfew : (step env s op).cache.FewFrees) : (step env s op).Incarnations := by
  -- what holds of the cache before the new admissions are entered
  have hold : (step env s op).cache.Generations ∧
      ∀ a ∈ s.admissions, (step env s op).cache.Incarnation a := by
    have hcase : Transitions env (fun _ => True) s.held (step env s op).held ∨ Released _ _ :=
      step_cases env hs trivial op
    rcases hcase with h | ⟨slot, -, h⟩
    · suffices hrun : ∀ x : Held π, Transitions env (fun _ => True) s.held x →
          x.stack.FewFrees → x.stack.manager.InStep ∧ x.stack.Generations ∧
            ∀ a ∈ s.admissions, x.stack.Incarnation a from (hrun _ h hfew).2
      intro x hx
      induction hx with
      | refl => exact fun _ => ⟨hs, hi.generations, hi.admission⟩
      | tail _ hlast ih =>
          intro hfew'
          obtain ⟨hs', hg, ha⟩ := ih fun id => lt_of_le_of_lt (hlast.frees_le id) (hfew' id)
          exact ⟨hlast.inStep hs', hlast.generations hs' hg hfew',
            fun a hmem => hlast.incarnation hs' hg (ha a hmem)⟩
    · have hcache : (step env s op).cache =
          { s.cache with manager := s.cache.manager.released slot } := congrArg Held.stack h
      have hsame := BlockManager.released_sameBlocks s.cache.manager slot
      rw [hcache]
      exact ⟨hi.generations.same hsame rfl rfl,
        fun a hmem => (hi.admission a hmem).same hsame rfl⟩
  obtain ⟨hg, hadm⟩ := hold
  obtain ⟨new, hnew, henters⟩ := step_admissions env hs op
  refine ⟨hg, fun a hmem => ?_⟩
  rw [hnew] at hmem
  rcases List.mem_append.mp hmem with hmem | hmem
  · obtain ⟨r, hr, hready, hhash, hgen⟩ := (henters a hmem).record
    have hown : r.generation = (step env s op).cache.frees a.block_id + 1 :=
      (hg.record hr).elim (fun h => h.2) fun h => by rw [hready] at h; cases h.1
    exact ⟨by omega, by omega, fun _ => ⟨r, hr, hready, hhash⟩⟩
  · exact hadm a hmem

-- In a run with few frees, generations and admissions stay in order.
theorem run_incarnations {allowed : Session π → SessionOp → Prop} (hs : s.cache.manager.InStep)
    (hi : s.Incarnations) (h : Run env allowed s s') (hfew : s'.cache.FewFrees) :
    s'.Incarnations ∧ ∀ id, s.cache.frees id ≤ s'.cache.frees id := by
  have hinv := Steps.invariant (I := fun s' : Session π => s'.cache.manager.InStep ∧
    (s'.cache.FewFrees → s'.Incarnations) ∧ ∀ id, s.cache.frees id ≤ s'.cache.frees id) ?_ h
    ⟨hs, fun _ => hi, fun _ => Nat.le_refl _⟩
  · exact ⟨hinv.2.1 hfew, hinv.2.2⟩
  · rintro s' op ⟨hs', hi', hle⟩ -
    have hstep := step_frees_le env hs' op
    refine ⟨step_inStep env hs' op, fun hfew' => ?_, fun id => (hle id).trans (hstep id)⟩
    exact step_incarnations env hs' (hi' fun id => lt_of_le_of_lt (hstep id) (hfew' id)) op hfew'

end Session

end KVCache
