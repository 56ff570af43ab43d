import KVCache.Controller.AdmissionCases
import KVCache.Controller.MigrationScans

namespace KVCache.Controller

open Lib Policy Prefix Sim Tier

variable {π : Type} {env : Env π} {ok : Multiset Nat → Prop} {s s' : Stack π} {config : TierConfig}

namespace Stack

-- The tier of every ready block, by its record.
def tierOf (s : Stack π) : BlockMap := fun id => (s.location id).map fun place => place.1

-- The log is true, and what it leads to are the ready blocks in their tiers. Tiers, if
-- there are any, are accounted for.
structure Logged (s : Stack π) (config : TierConfig) : Prop where
  tiers : s.tier_manager = none ∨ s.Accounted config
  log : TrueLog s.events
  blocks : blocksAfter s.events = s.tierOf

theorem tierOf_update {id : Nat} {place : Option (KVCache.Tier × PayloadRef)}
    (h : s'.location = Function.update s.location id place) :
    s'.tierOf = Function.update s.tierOf id (place.map fun place => place.1) := by
  funext j
  unfold tierOf
  rw [h]
  by_cases hj : j = id
  · subst hj
    rw [Function.update_self, Function.update_self]
  · rw [Function.update_of_ne hj, Function.update_of_ne hj]

namespace Logged

-- Changes that neither the tiers nor the log see.
theorem same (h : s.Logged config) (hblocks : s.manager.SameBlocks s'.manager)
    (hext : s'.tier_block_store = s.tier_block_store) (htm : s'.tier_manager = s.tier_manager)
    (hevents : s'.events = s.events) : s'.Logged config where
  tiers := h.tiers.imp htm.trans fun ha => ha.sameBlocks hblocks hext htm
  log := hevents ▸ h.log
  blocks := by
    have hloc : s'.location = s.location := funext (location_sameBlocks hblocks)
    rw [hevents, h.blocks]
    unfold tierOf
    rw [hloc]

theorem quiet (h : s.Logged config) (hq : Quiet s s') : s'.Logged config :=
  h.same (.of_eq hq.pool hq.store) hq.tier_block_store hq.tier_manager hq.events

-- One event, which is true of the blocks there are and makes them those there are then.
theorem event (h : s.Logged config) {e : Event}
    (htiers : s'.tier_manager = none ∨ s'.Accounted config) (hevents : s'.events = s.events ++ [e])
    (hfits : e.Fits s.tierOf) (hblocks : s'.tierOf = e.apply s.tierOf) : s'.Logged config where
  tiers := htiers
  log := by
    rw [hevents]
    refine h.log.snoc ?_
    rw [show replay _ _ _ = s.tierOf from h.blocks]
    exact hfits
  blocks := by
    rw [hevents, hblocks, ← h.blocks]
    exact replay_snoc

end Logged

end Stack

theorem Transition.isMove_le {x x' : Held π} (h : Transition env ok x x') :
    x.stack.events.countP Event.isMove ≤ x'.stack.events.countP Event.isMove := by
  cases h with
  | quiet h => rw [h.events]
  | access h => exact Nat.le_refl _
  | evict hr hready href hok hrem => simp [Stack.evicted]
  | evictStuck hr hready href hok hstuck => exact Nat.le_refl _
  | leak hfree hmis => exact Nat.le_refl _
  | enter hfree hplace => simp [Stack.admitted]
  | migrate htm hr ht hid ht' hcap he => simp [Stack.migrated]

-- A step that reports no move of a block keeps the log true.
theorem Transition.logged {x x' : Held π} (h : Transition env ok x x')
    (hs : x.stack.manager.InStep) (hl : x.stack.Logged config)
    (hmoves : x'.stack.events.countP Event.isMove = x.stack.events.countP Event.isMove) :
    x'.stack.Logged config := by
  have htiers : x'.stack.tier_manager = none ∨ x'.stack.Accounted config :=
    hl.tiers.imp h.untiered fun ha => h.accounted hs ha
  cases h with
  | quiet h => exact hl.quiet h
  | access h => exact hl.same h.sameBlocks rfl rfl rfl
  | @evict s H id r ts tm' hr hready href hok hrem =>
      have htier : s.tierOf id = some r.tier := by
        rw [Stack.tierOf, Stack.location_of_ready hr hready]
        rfl
      have hloc : (s.evicted id env.eviction.name ts tm').location =
          Function.update s.location id none :=
        Stack.location_freed rfl hr
      exact hl.event htiers rfl ⟨r.tier, htier⟩ (Stack.tierOf_update hloc)
  | @evictStuck s H id r hr hready href hok hstuck =>
      rcases hl.tiers with hnone | ha
      · exact absurd hnone hstuck.not_untiered
      · exact absurd hstuck (ha.not_stuck hr hready)
  | @leak s H id rest candidate target tm' hfree hmis =>
      obtain ⟨r, hr, hnone⟩ := Stack.location_of_free hs hfree
      have hloc : (s.leaked id rest (BlockManager.freshRecord id
          (BlockManager.nextGeneration s.manager.pool id) candidate.hash candidate.block_index
          (UInt16.ofNat s.block_size) target {} .Admitting) tm').location =
            Function.update s.location id none := by
        rw [Stack.location_taken rfl hr]
        rfl
      refine ⟨htiers, hl.log, hl.blocks.trans ?_⟩
      rw [Stack.tierOf_update hloc]
      refine (Function.update_eq_self_iff.mpr ?_).symm
      rw [Stack.tierOf, hnone]
  | @enter s H id rest candidate ctx_hash existing target ts tm' ext ref hfree hplace =>
      obtain ⟨r, hr, hnone⟩ := Stack.location_of_free hs hfree
      have habsent : s.tierOf id = none := by
        rw [Stack.tierOf, hnone]
        rfl
      have hloc : (s.admitted id rest (BlockManager.freshRecord id
          (BlockManager.nextGeneration s.manager.pool id) candidate.hash candidate.block_index
          (UInt16.ofNat s.block_size) target ref .Ready) tm' ext
          (s.index.insert ctx_hash candidate.tokens (existing ++ [id]))
          (.BlockAdmitted id ctx_hash target candidate.origin ts)).location =
            Function.update s.location id (some (target, ref)) := by
        rw [Stack.location_taken rfl hr]
        rfl
      exact hl.event htiers rfl habsent (Stack.tierOf_update hloc)
  | @migrate s H id r tm t t' target e ts htm hr ht hid ht' hcap he =>
      have hmove : e.isMove = true := by
        rcases he with ⟨-, rfl⟩ | ⟨-, rfl⟩ <;> rfl
      simp [Stack.migrated, hmove] at hmoves

theorem Transitions.logged {x x' : Held π} (h : Transitions env ok x x')
    (hs : x.stack.manager.InStep) (hl : x.stack.Logged config)
    (hmoves : x'.stack.events.countP Event.isMove = x.stack.events.countP Event.isMove) :
    x'.stack.Logged config := by
  have hle : ∀ {x x' : Held π}, Transitions env ok x x' →
      x.stack.events.countP Event.isMove ≤ x'.stack.events.countP Event.isMove := by
    intro x x' h
    induction h with
    | refl => exact Nat.le_refl _
    | tail _ hlast ih => exact ih.trans hlast.isMove_le
  induction h with
  | refl => exact hl
  | tail hrun hlast ih =>
      have hfirst := hle hrun
      have hstep := hlast.isMove_le
      exact hlast.logged (Transitions.inStep hrun hs) (ih (by omega)) (by omega)

namespace AdmissionController

variable {ctx : AdmissionContext} {candidate : BlockCandidate}

private theorem Room.isMove_eq {s₁ : Stack π} (h : Room env ctx candidate s s₁) :
    s₁.events.countP Event.isMove = s.events.countP Event.isMove := by
  cases h with
  | free hroom hq => rw [hq.events]
  | evicted hroom hv hq hr hready href hrem hq' =>
      rw [hq'.events, ← hq.events]
      simp [Stack.evicted, Event.isMove]

-- An admission moves no block.
theorem AdmitCase.isMove_eq {res : Except Fault AdmitResult}
    (h : AdmitCase env ctx candidate s res s') :
    s'.events.countP Event.isMove = s.events.countP Event.isMove := by
  cases h with
  | badLength h => rfl
  | present htokens h => rfl
  | noParent htokens habsent h => rfl
  | rejected he hd hq => rw [hq.events]
  | noSpace he hd hroom hv hq => rw [hq.events]
  | evictRefused e he hv hnot hq => rw [hq.events]
  | evictStuck e he hv hq hr hready href hstuck => exact congrArg _ hq.events
  | leaked e he hd hroom hfree hmis => exact hroom.isMove_eq
  | admitted he hd hroom hfree hplace hs₂ =>
      subst hs₂
      rw [← hroom.isMove_eq]
      simp [Stack.admitted, Event.isMove]

end AdmissionController

namespace EvictionController

-- Nor does an eviction.
theorem makeSpace_isMove_eq (hs : s.manager.InStep) (request : MakeSpaceRequest) :
    (((makeSpace env request).run s).2.events).countP Event.isMove =
      s.events.countP Event.isMove := by
  unfold makeSpace
  generalize request.blocks_needed = missing
  generalize 0 = evicted
  induction missing generalizing evicted s with
  | zero => rfl
  | succ missing ih =>
      have hcase := evictOne_cases env hs request
      have hrun : Transitions env (fun _ => True) ⟨s, 0⟩ _ :=
        evictOne_transitions env hs trivial request
      simp only [makeSpaceLoop, Exec.bind_run]
      generalize (evictOne env request).run s = out at hcase hrun ⊢
      obtain ⟨out, s'⟩ := out
      cases hcase with
      | none hv hq => exact congrArg _ hq.events
      | refused e hv hnot hq => exact congrArg _ hq.events
      | stuck e hv hq hr hready href hstuck => exact congrArg _ hq.events
      | @evicted s₀ _ id r tm hv hq hr hready href hrem hq' =>
          have hevents : s'.events.countP Event.isMove = s.events.countP Event.isMove := by
            rw [hq'.events, ← hq.events]
            simp [Stack.evicted, Event.isMove]
          exact (ih (Transitions.inStep hrun hs) _).trans hevents

end EvictionController

namespace ScanKind

variable {kind : ScanKind π}

-- What the scan reports of a block is true of one in its source tier, and puts it into
-- its target tier.
def Reports (kind : ScanKind π) : Prop :=
  ∀ id timestamp_ns m, (m id = some kind.source → (kind.moved id timestamp_ns).Fits m) ∧
    (kind.moved id timestamp_ns).apply m = Function.update m id (some kind.target)

theorem promotion_reports (env : Env π) :
    (PromotionController env).Reports := fun _ _ _ => ⟨id, rfl⟩

theorem demotion_reports (env : Env π) :
    (DemotionController env).Reports := fun _ _ _ => ⟨id, rfl⟩

private theorem logged_moved (hreports : kind.Reports) {timestamp_ns : Nat} {id : BlockId}
    (ha : s.Accounted config) (hl : s.Logged config)
    (h : Moved config kind.source kind.target (kind.moved · timestamp_ns) s [id] s') :
    s'.Logged config := by
  obtain ⟨ref, hloc⟩ := ha.mem_blocksIn.mp (h.source id (List.mem_singleton_self id))
  have hsource : s.tierOf id = some kind.source := by
    rw [Stack.tierOf, hloc]
    rfl
  obtain ⟨hfits, happly⟩ := hreports id timestamp_ns s.tierOf
  refine hl.event (.inr h.accounted) h.events (hfits hsource) ?_
  rw [happly]
  have hupdate : s'.location = Function.update s.location id (some (kind.target, ref)) := ?_
  · exact Stack.tierOf_update hupdate
  funext j
  rw [h.location]
  by_cases hj : j = id
  · subst hj
    rw [if_pos (List.mem_singleton_self j), hloc, Function.update_self]
    rfl
  · rw [if_neg (by simpa using hj), Function.update_of_ne hj]

private theorem logged_declined {timestamp_ns : Nat} (hl : s.Logged config)
    (h : Moved config kind.source kind.target (kind.moved · timestamp_ns) s [] s') :
    s'.Logged config := by
  have hevents : s'.events = s.events := by simpa using h.events
  have hblocks : s'.tierOf = s.tierOf := by
    funext id
    unfold Stack.tierOf
    rw [h.location, if_neg List.not_mem_nil]
  exact ⟨.inr h.accounted, hevents ▸ hl.log, by rw [hevents, hblocks, hl.blocks]⟩

private theorem scanLoop_logged (hkind : kind.Migrates) (hne : kind.source ≠ kind.target)
    (hreports : kind.Reports) (ctx : MigrationContext) (timestamp_ns : Nat) {ids : List BlockId}
    (hids : ids.Nodup) (ha : s.Accounted config) (hl : s.Logged config)
    (hsource : ∀ id ∈ ids, id ∈ s.blocksIn kind.source) (count : Nat) :
    ((scanLoop kind ctx timestamp_ns ids count).run s).2.Logged config := by
  induction ids generalizing s count with
  | nil => exact hl
  | cons id ids ih =>
      obtain ⟨hid, hids⟩ := List.nodup_cons.mp hids
      have hrest : ∀ j ∈ ids, j ∈ s.blocksIn kind.source :=
        fun j hj => hsource j (List.mem_cons_of_mem _ hj)
      rcases scanLoop_cons hkind hne ha (hsource id List.mem_cons_self) ctx timestamp_ns ids count
        with ⟨-, hrun⟩ | ⟨-, s₁, answer, -, hmoved, -, hrun⟩
      · rw [hrun]
        exact hl
      · rw [hrun]
        cases answer with
        | true =>
            refine ih hids hmoved.accounted (logged_moved hreports ha hl hmoved) ?_ _
            exact fun j hj => hmoved.mem_source_of_not_mem ha
              (fun hmem => hid (List.mem_singleton.mp hmem ▸ hj)) (hrest j hj)
        | false =>
            refine ih hids hmoved.accounted (logged_declined hl hmoved) ?_ _
            exact fun j hj => hmoved.mem_source_of_not_mem ha List.not_mem_nil (hrest j hj)

-- A scan of the blocks of its source tier keeps the log true.
theorem runScan_logged (hkind : kind.Migrates) (hne : kind.source ≠ kind.target)
    (hreports : kind.Reports) (hl : s.Logged config) (timestamp_ns : Nat) {ids : List BlockId}
    (hids : s.Lists kind.source ids) : ((runScan kind timestamp_ns ids).run s).2.Logged config := by
  simp only [runScan, Exec.read_bind_run]
  cases htm : s.tier_manager with
  | none => exact hl
  | some tm =>
      have ha : s.Accounted config :=
        hl.tiers.resolve_left fun hnone => by simp [htm] at hnone
      simp only [Exec.check_bind_run]
      cases tm.tierStore kind.source with
      | error e => exact hl
      | ok t =>
          refine scanLoop_logged hkind hne hreports _ timestamp_ns hids.nodup ha hl ?_ 0
          intro id hid
          rw [← hids.toFinset]
          exact List.mem_toFinset.mpr hid

end ScanKind

end KVCache.Controller
