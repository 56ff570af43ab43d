import KVCache.Core.Access
import KVCache.Prefix.PrefixIndex

namespace KVCache.Prefix

open Lib

structure PrefixLookupResult where
  handles : List BlockHandle
  matched_tokens : Nat
deriving DecidableEq, Repr

namespace PrefixLookupEngine

-- The loop of `lookup`: a handle for each block, up to the first that is not to be
-- had or has another size. The handle of the latter dies at the `break`.
def acquireAll (block_size : Nat) : List BlockId → BlockManager.Op (List BlockHandle)
  | [] => return []
  | id :: ids => do
      match ← BlockManager.acquire id with
      | none => return []
      | some handle => do
          let record ← Exec.read fun m => m.store.records.getD handle.slot {}
          if record.token_count ≠ UInt16.ofNat block_size then do
            BlockManager.dropHandle handle
            return []
          else do
            let handles ← acquireAll block_size ids
            return handle :: handles

def lookup (index : PrefixIndex) (ctx_hash : CacheContextHash) (tokens : List TokenId)
    (block_size : Nat) : BlockManager.Op PrefixLookupResult := do
  let handles ← acquireAll block_size (index.lookup ctx_hash tokens).blocks
  return ⟨handles, handles.length * block_size % 2 ^ 32⟩

section Acquire

open BlockManager

variable {m : BlockManager} {block_size : Nat}

-- The slot has a ready block of `block_size` tokens.
def Acquirable (m : BlockManager) (block_size : Nat) (id : BlockId) : Prop :=
  ∃ r, m.store.records[id]? = some r ∧ r.state = .Ready ∧ r.token_count = UInt16.ofNat block_size

instance (m : BlockManager) (block_size : Nat) (id : BlockId) :
    Decidable (Acquirable m block_size id) :=
  decidable_of_iff (∃ r ∈ m.store.records[id]?, r.state = .Ready ∧
    r.token_count = UInt16.ofNat block_size) Iff.rfl

-- The blocks, from the first on, that the loop gets.
def hits (m : BlockManager) (block_size : Nat) (ids : List BlockId) : List BlockId :=
  ids.takeWhile fun id => Acquirable m block_size id

theorem Acquirable.sameBlocks {m' : BlockManager} {id : BlockId} (hsame : m.SameBlocks m')
    (h : Acquirable m block_size id) : Acquirable m' block_size id := by
  obtain ⟨r, hr, hready, hcount⟩ := h
  obtain ⟨r', hr', hbody⟩ := hsame.record hr
  obtain ⟨-, -, -, -, hcount', -, -, hready'⟩ := BlockRecord.fields_of_body hbody
  exact ⟨r', hr', hready'.trans hready, hcount'.trans hcount⟩

-- One block of the loop: no handle, a handle that dies at once, or a handle.
private theorem acquireAll_cons (block_size : Nat) (hm : m.InStep) (id : Nat) (ids : List BlockId) :
    ((acquireAll block_size (id :: ids)).run m = (.ok [], m) ∧ ¬ Acquirable m block_size id) ∨
      (∃ r, m.store.records[id]? = some r ∧ r.state = .Ready ∧ ¬ Acquirable m block_size id ∧
        (acquireAll block_size (id :: ids)).run m = (.ok [], (m.touched id).released id)) ∨
      (∃ r, m.store.records[id]? = some r ∧ r.state = .Ready ∧ Acquirable m block_size id ∧
        (acquireAll block_size (id :: ids)).run m =
          (do let handles ← acquireAll block_size ids
              return ⟨id⟩ :: handles : BlockManager.Op (List BlockHandle)).run (m.touched id)) := by
  by_cases hready : ∃ r, m.store.records[id]? = some r ∧ r.state = .Ready
  · obtain ⟨r, hr, hstate⟩ := hready
    have hget : (m.touched id).store.records.getD id {} =
        { r with
          last_access_ns := m.clock.nowNs.1
          access_count := (r.access_count + 1) % 2 ^ 64
          refcount := (r.refcount + 1) % 2 ^ 32 } := by
      simp [List.getD_eq_getElem?_getD, hr]
    have hrun : (acquireAll block_size (id :: ids)).run m =
        (if r.token_count ≠ UInt16.ofNat block_size then (do
            BlockManager.dropHandle ⟨id⟩
            return [])
          else (do
            let handles ← acquireAll block_size ids
            return ⟨id⟩ :: handles) : BlockManager.Op (List BlockHandle)).run (m.touched id) := by
      rw [acquireAll, Exec.bind_ok (acquire_eq hm hr hstate)]
      simp only [Exec.read_bind_run, hget]
    by_cases hcount : r.token_count = UInt16.ofNat block_size
    · rw [if_neg (not_not.mpr hcount)] at hrun
      exact .inr (.inr ⟨r, hr, hstate, ⟨r, hr, hstate, hcount⟩, hrun⟩)
    · rw [if_pos hcount] at hrun
      refine .inr (.inl ⟨r, hr, hstate, ?_, hrun⟩)
      rintro ⟨r', hr', -, hcount'⟩
      rw [hr] at hr'
      cases hr'
      exact hcount hcount'
  · refine .inl ⟨?_, fun ⟨r, hr, hstate, _⟩ => hready ⟨r, hr, hstate⟩⟩
    have hnone := acquire_eq_none hm fun r hr hstate => hready ⟨r, hr, hstate⟩
    rw [acquireAll, Exec.bind_ok hnone]
    rfl

-- The loop never throws. Its handles are on a prefix of the blocks, and on all of them
-- where they are to be had.
theorem acquireAll_spec (block_size : Nat) (ids : List BlockId) (hm : m.InStep) :
    ∃ handles m', (acquireAll block_size ids).run m = (.ok handles, m') ∧
      (∀ H, Accesses (m, H) (m', slots (handles.map some) + H)) ∧
      handles.map (·.slot) <+: ids ∧
      ((∀ id ∈ ids, Acquirable m block_size id) → handles.map (·.slot) = ids) := by
  induction ids generalizing m with
  | nil => exact ⟨[], m, rfl, fun H => by simpa using .refl, List.nil_prefix, fun _ => rfl⟩
  | cons id ids ih =>
      rcases acquireAll_cons block_size hm id ids with
        ⟨hrun, hnot⟩ | ⟨r, hr, hready, hnot, hrun⟩ | ⟨r, hr, hready, hacq, hrun⟩
      · exact ⟨[], m, hrun, fun H => by simpa using .refl, List.nil_prefix,
          fun h => absurd (h id List.mem_cons_self) hnot⟩
      · exact ⟨[], _, hrun, fun H => by simpa using .single (.glance hr hready), List.nil_prefix,
          fun h => absurd (h id List.mem_cons_self) hnot⟩
      · obtain ⟨handles, m', hrest, hacc, hpre, hall⟩ := ih (hm.touched id)
        refine ⟨⟨id⟩ :: handles, m', ?_, fun H => ?_, ?_, fun h => ?_⟩
        · rw [hrun, Exec.bind_ok hrest]
          rfl
        · have hrest := hacc (id ::ₘ H)
          rw [Multiset.add_cons] at hrest
          rw [List.map_cons, slots_some, Multiset.cons_add]
          exact .head (.touch hr hready) hrest
        · simpa using hpre
        · rw [List.map_cons, hall fun id' hid' => (h id' (List.mem_cons_of_mem _ hid')).sameBlocks
            (touched_sameBlocks m id)]

-- Where every ready block has the right size, the loop touches the blocks of its handles, in
-- their order, and no other.
theorem acquireAll_touched (hm : m.InStep) (hsize : ∀ {id : Nat} {r : BlockRecord},
      m.store.records[id]? = some r → r.state = .Ready → r.token_count = UInt16.ofNat block_size)
    (ids : List BlockId) : ∃ handles, (acquireAll block_size ids).run m =
        (.ok handles, handles.foldl (fun m h => m.touched h.slot) m) ∧
      ∀ h ∈ handles, Acquirable m block_size h.slot := by
  induction ids generalizing m with
  | nil => exact ⟨[], rfl, by simp⟩
  | cons id ids ih =>
      rcases acquireAll_cons block_size hm id ids with
        ⟨hrun, hnot⟩ | ⟨r, hr, hready, hnot, hrun⟩ | ⟨r, hr, hready, hacq, hrun⟩
      · exact ⟨[], hrun, by simp⟩
      · exact absurd ⟨r, hr, hready, hsize hr hready⟩ hnot
      · have hsame := touched_sameBlocks m id
        obtain ⟨handles, hrest, hall⟩ := ih (hm.touched id) fun {id' r'} hr' hready' => by
          obtain ⟨r₀, hr₀, hbody⟩ := hsame.symm.record hr'
          obtain ⟨-, -, -, -, hcount, -, -, hstate⟩ := BlockRecord.fields_of_body hbody
          rw [← hcount]
          exact hsize hr₀ (hstate.trans hready')
        refine ⟨⟨id⟩ :: handles, ?_, fun h hmem => ?_⟩
        · rw [hrun, Exec.bind_ok hrest]
          rfl
        · rcases List.mem_cons.mp hmem with rfl | hmem
          · exact hacq
          · exact (hall h hmem).sameBlocks hsame.symm

theorem acquireAll_hits (block_size : Nat) (ids : List BlockId) (hm : m.InStep)
    {handles : List BlockHandle} {m' : BlockManager}
    (h : (acquireAll block_size ids).run m = (.ok handles, m')) :
    handles.map (·.slot) = hits m block_size ids := by
  induction ids generalizing m handles m' with
  | nil =>
      cases h
      rfl
  | cons id ids ih =>
      rcases acquireAll_cons block_size hm id ids with
        ⟨hrun, hnot⟩ | ⟨r, hr, hready, hnot, hrun⟩ | ⟨r, hr, hready, hacq, hrun⟩
      · rw [hrun] at h
        cases h
        simp [hits, hnot]
      · rw [hrun] at h
        cases h
        simp [hits, hnot]
      · rw [hrun] at h
        obtain ⟨rest, m₁, hrest, h⟩ := Exec.bind_eq_ok.mp h
        cases h
        have hsame : ∀ id', Acquirable (m.touched id) block_size id' ↔
            Acquirable m block_size id' := fun id' =>
          ⟨.sameBlocks (touched_sameBlocks m id).symm, .sameBlocks (touched_sameBlocks m id)⟩
        rw [List.map_cons, ih (hm.touched id) hrest, hits, hits,
          List.takeWhile_cons_of_pos (by simpa using hacq)]
        simp only [hsame]

end Acquire

end PrefixLookupEngine

end KVCache.Prefix
