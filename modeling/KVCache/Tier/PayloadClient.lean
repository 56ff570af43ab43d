import KVCache.Lib.Steps
import KVCache.Tier.PayloadStore
import Mathlib.Data.List.Perm.Basic

namespace KVCache.Tier

open Lib

-- The first `n` bytes of a payload, with zeros after its end.
def padded (n : Nat) (bytes : List UInt8) : List UInt8 :=
  bytes.take n ++ List.replicate (n - bytes.length) 0

-- In the buffer that the next `put` takes, the bytes after the payload's end are zero.
def PayloadStore.tailClear (p : PayloadStore) (bytes : List UInt8) : Bool :=
  match p.free_list with
  | [] => true
  | slot :: _ => ((p.buffers.getD slot []).drop bytes.length).all (· = 0)

-- A `put` whose reference has not been removed, and whether the buffer was clear behind
-- the payload at the time.
structure LivePut where
  ref : PayloadRef
  bytes : List UInt8
  clear : Bool

-- A store with the payloads that its user has in it, the latest first.
structure PayloadClient where
  store : PayloadStore
  live : List LivePut := []

-- A user puts payloads and removes each of them at most once.
inductive PayloadOp where
  | put (bytes : List UInt8)
  | remove (i : Nat)

namespace PayloadClient

-- A `put` that throws changes nothing.
def step (s : PayloadClient) : PayloadOp → PayloadClient
  | .put bytes =>
      match s.store.put bytes with
      | .error _ => s
      | .ok (ref, store) => ⟨store, ⟨ref, bytes, s.store.tailClear bytes⟩ :: s.live⟩
  | .remove i =>
      match s.live[i]? with
      | none => s
      | some e =>
          match s.store.remove e.ref with
          | .error _ => s
          | .ok store => ⟨store, s.live.eraseIdx i⟩

-- A buffer holds a payload: the payload first, and behind it zeros if it was clear there.
structure Stored (n : Nat) (bytes : List UInt8) (clear : Bool) (b : List UInt8) : Prop where
  length : b.length = n
  payload : b.take bytes.length = bytes.take n
  tail : b.drop bytes.length = List.replicate (n - bytes.length) 0 ↔ clear = true

-- Every buffer is on the free list or has one live payload, which it holds.
structure Holds (n : Nat) (s : PayloadClient) : Prop where
  bytes_per_block : s.store.bytes_per_block = n
  length_lt : s.store.buffers.length < 2 ^ 32
  buffer_length : ∀ b ∈ s.store.buffers, b.length = n
  disjoint : (s.live.map (·.ref.index) ++ s.store.free_list).Nodup
  free_lt : ∀ i ∈ s.store.free_list, i < s.store.buffers.length
  stored : ∀ e ∈ s.live, ∃ b, s.store.buffers[e.ref.index]? = some b ∧
    Stored n e.bytes e.clear b

variable {s : PayloadClient} {n : Nat}

theorem new_holds {max_blocks : Nat} (hmax : max_blocks < 2 ^ 32) (hn : 0 < n) :
    Holds n { store := .new max_blocks n } := by
  refine ⟨?_, ?_, fun b hb => ?_, ?_, fun i hi => ?_, fun e he => nomatch he⟩
  · simp [PayloadStore.new, hn]
  · simpa [PayloadStore.new, hn] using hmax
  · rw [PayloadStore.new, if_pos hn] at hb
    rw [List.eq_of_mem_replicate hb, List.length_replicate]
  · simpa [PayloadStore.new, hn] using List.nodup_range
  · simpa [PayloadStore.new, hn] using hi

-- The payload goes to the buffer at the front of the free list.
theorem put_eq (h : Holds n s) (hn : 0 < n) {slot : Nat} {rest : List Nat}
    (hfree : s.store.free_list = slot :: rest) (bytes : List UInt8) :
    s.store.put bytes = .ok ({ index := slot },
      { s.store with
        free_list := rest
        buffers := s.store.buffers.modify slot fun b =>
          bytes.take (min bytes.length n) ++ b.drop (min bytes.length n) }) := by
  have hpos : n ≠ 0 := Nat.pos_iff_ne_zero.mp hn
  simp only [PayloadStore.put, hfree, h.bytes_per_block, if_neg hpos]

-- What the buffer holds right after the payload was copied into it.
theorem written_stored {b : List UInt8} (hb : b.length = n) (bytes : List UInt8) :
    Stored n bytes ((b.drop bytes.length).all (· = 0))
      (bytes.take (min bytes.length n) ++ b.drop (min bytes.length n)) := by
  have hcopy : (bytes.take (min bytes.length n)).length = min bytes.length n := by
    simp only [List.length_take]
    omega
  refine ⟨?_, ?_, ?_⟩
  · rw [List.length_append, hcopy, List.length_drop]
    omega
  · rcases Nat.le_total bytes.length n with hle | hle
    · rw [Nat.min_eq_left hle, List.take_length, List.take_of_length_le hle, List.take_left' rfl]
    · have hdrop : b.drop n = [] := List.drop_of_length_le (by omega)
      rw [Nat.min_eq_right hle, hdrop, List.append_nil,
        List.take_of_length_le (by rw [List.length_take]; omega)]
  · rcases Nat.le_total bytes.length n with hle | hle
    · rw [Nat.min_eq_left hle, List.take_length, List.drop_left' rfl, List.eq_replicate_iff,
        List.length_drop, hb]
      simp
    · have hnone : b.drop bytes.length = [] := List.drop_of_length_le (hb.symm ▸ hle)
      have hcopied : (bytes.take n ++ b.drop n).drop bytes.length = [] := by
        rw [List.drop_eq_nil_iff, List.length_append, List.length_take, List.length_drop]
        omega
      rw [Nat.min_eq_right hle, Nat.sub_eq_zero_of_le hle, hnone, hcopied]
      simp

theorem put_holds (h : Holds n s) (hn : 0 < n) (bytes : List UInt8) :
    Holds n (s.step (.put bytes)) := by
  cases hfree : s.store.free_list with
  | nil =>
      have hbytes : s.store.bytes_per_block ≠ 0 := by
        rw [h.bytes_per_block]
        omega
      have hfull : s.store.put bytes =
          .error (.runtime_error "PayloadStore::put: no free slots") := by
        simp only [PayloadStore.put, if_neg hbytes, hfree]
      simpa only [step, hfull] using h
  | cons slot rest =>
      have hslot : slot < s.store.buffers.length := h.free_lt slot (by rw [hfree]; simp)
      obtain ⟨b, hb⟩ : ∃ b, s.store.buffers[slot]? = some b := ⟨_, List.getElem?_eq_getElem hslot⟩
      have hblen := h.buffer_length b (List.mem_of_getElem? hb)
      have hdisjoint := h.disjoint
      rw [hfree] at hdisjoint
      have hperm : (s.live.map (·.ref.index) ++ slot :: rest).Perm
          (slot :: (s.live.map (·.ref.index) ++ rest)) := List.perm_middle
      have hmiddle := hperm.nodup_iff.mp hdisjoint
      obtain ⟨hnew, hrest⟩ := List.nodup_cons.mp hmiddle
      simp only [step, put_eq h hn hfree]
      refine ⟨h.bytes_per_block, ?_, fun b' hb' => ?_, ?_, fun i hi => ?_, fun e he => ?_⟩
      · simpa using h.length_lt
      · obtain ⟨i, hi⟩ := List.mem_iff_getElem?.mp hb'
        simp only [List.getElem?_modify] at hi
        obtain ⟨b₀, hb₀, heq⟩ := Option.map_eq_some_iff.mp hi
        have hlen := h.buffer_length b₀ (List.mem_of_getElem? hb₀)
        subst heq
        split
        · exact (written_stored hlen bytes).length
        · exact hlen
      · simpa using hmiddle
      · simpa using h.free_lt i (by rw [hfree]; exact List.mem_cons_of_mem _ hi)
      · rcases List.mem_cons.mp he with rfl | he
        · refine ⟨bytes.take (min bytes.length n) ++ b.drop (min bytes.length n), ?_, ?_⟩
          · simp [hb]
          · have hclear : s.store.tailClear bytes = (b.drop bytes.length).all (· = 0) := by
              simp [PayloadStore.tailClear, hfree, List.getD_eq_getElem?_getD, hb]
            rw [hclear]
            exact written_stored hblen bytes
        · obtain ⟨b', hb', hstored⟩ := h.stored e he
          refine ⟨b', ?_, hstored⟩
          have hne : slot ≠ e.ref.index := fun heq =>
            hnew (List.mem_append_left _ (List.mem_map.mpr ⟨e, he, heq.symm⟩))
          simp only [List.getElem?_modify, if_neg hne, hb']
          rfl

theorem live_valid (h : Holds n s) (hn : 0 < n) {e : LivePut} (he : e ∈ s.live) :
    e.ref.index < s.store.buffers.length ∧
      ¬ (e.ref.valid = false ∨ s.store.bytes_per_block = 0) := by
  obtain ⟨b, hb, -⟩ := h.stored e he
  have hlt : e.ref.index < s.store.buffers.length := (List.getElem?_eq_some_iff.mp hb).1
  have hlen := h.length_lt
  have hne : e.ref.index ≠ PayloadRef.INVALID := by
    unfold PayloadRef.INVALID
    omega
  have hvalid : e.ref.valid = true := decide_eq_true hne
  refine ⟨hlt, ?_⟩
  rw [hvalid, h.bytes_per_block]
  simp only [Bool.true_eq_false, false_or]
  omega

theorem remove_holds (h : Holds n s) (hn : 0 < n) (i : Nat) : Holds n (s.step (.remove i)) := by
  cases hi : s.live[i]? with
  | none => simpa only [step, hi] using h
  | some e =>
      obtain ⟨hlt, hvalid⟩ := live_valid h hn (List.mem_of_getElem? hi)
      have hremove : s.store.remove e.ref =
          .ok { s.store with free_list := e.ref.index :: s.store.free_list } := by
        rw [PayloadStore.remove, if_neg hvalid, if_neg (Nat.not_le.mpr hlt)]
      obtain ⟨hi', hget⟩ := List.getElem?_eq_some_iff.mp hi
      have hperm : (e :: s.live.eraseIdx i).Perm s.live := by
        rw [← hget]
        exact List.getElem_cons_eraseIdx_perm hi'
      simp only [step, hi, hremove]
      refine ⟨h.bytes_per_block, h.length_lt, h.buffer_length, ?_, fun j hj => ?_, fun e' he' => ?_⟩
      · have hmap := (hperm.map (·.ref.index)).append_right s.store.free_list
        refine (List.perm_middle.trans ?_).nodup_iff.mpr h.disjoint
        simpa using hmap
      · rcases List.mem_cons.mp hj with rfl | hj
        · exact hlt
        · exact h.free_lt j hj
      · exact h.stored e' (hperm.subset (List.mem_cons_of_mem _ he'))

theorem step_holds (h : Holds n s) (hn : 0 < n) (op : PayloadOp) : Holds n (s.step op) := by
  cases op with
  | put bytes => exact put_holds h hn bytes
  | remove i => exact remove_holds h hn i

-- A live payload reads as its bytes and what the buffer has behind them.
theorem get_live (h : Holds n s) (hn : 0 < n) {e : LivePut} (he : e ∈ s.live) :
    ∃ b, s.store.get e.ref = .ok b ∧ Stored n e.bytes e.clear b := by
  obtain ⟨b, hb, hstored⟩ := h.stored e he
  exact ⟨b, by simp only [PayloadStore.get, if_neg (live_valid h hn he).2, hb], hstored⟩

theorem stored_eq_padded {bytes b : List UInt8} {clear : Bool} (h : Stored n bytes clear b) :
    b = padded n bytes ↔ clear = true := by
  have hsplit : b = bytes.take n ++ b.drop bytes.length := by
    rw [← h.payload, List.take_append_drop]
  rw [← h.tail, padded]
  constructor
  · intro hb
    exact List.append_cancel_left (hsplit.symm.trans hb)
  · intro hb
    rw [← hb]
    exact hsplit

-- However payloads come and go, a live one reads back as it was put, with zeros behind,
-- exactly when its buffer was clear behind it when it was put.
theorem get_undoes_put_iff (max_blocks : UInt32) (hn : 0 < n)
    (hrun : Steps step (fun _ _ => True) { store := .new max_blocks.toNat n } s) :
    ∀ e ∈ s.live, s.store.get e.ref = .ok (padded n e.bytes) ↔ e.clear = true := by
  intro e he
  have hholds : Holds n s :=
    Steps.invariant (I := Holds n) (fun _ op h _ => step_holds h hn op) hrun
      (new_holds max_blocks.toNat_lt hn)
  obtain ⟨b, hget, hstored⟩ := get_live hholds hn he
  rw [hget, Except.ok.injEq]
  exact stored_eq_padded hstored

private def twoBytes : PayloadClient := { store := .new 1 2 }

private abbrev reused : PayloadClient :=
  ((twoBytes.step (.put [1, 2])).step (.remove 0)).step (.put [3])

private theorem reused_run : Steps step (fun _ _ => True) twoBytes reused :=
  ((Steps.snoc (Steps.refl twoBytes) (PayloadOp.put [1, 2]) trivial).snoc (PayloadOp.remove 0)
    trivial).snoc (PayloadOp.put [3]) trivial

-- The second byte of the payload before shows behind a payload of one byte.
theorem stale_byte_shows : Steps step (fun _ _ => True) twoBytes reused ∧
    ∃ e ∈ reused.live, e.bytes = [3] ∧ reused.store.get e.ref = .ok [3, 2] ∧
      reused.store.get e.ref ≠ .ok (padded 2 e.bytes) := by
  refine ⟨reused_run, ⟨⟨0⟩, [3], false⟩, ?_, rfl, rfl, ?_⟩
  · exact List.mem_cons_self
  · intro h
    cases h

private def twoBuffers : PayloadClient := { store := .new 2 2 }

-- One payload is in the buffer that another one has left, the other in a new one.
private def oldAndNew : PayloadClient :=
  (((twoBuffers.step (.put [1, 2])).step (.put [5])).step (.remove 1)).step (.put [3])

theorem get_undoes_put_iff_reused :
    oldAndNew.live = [⟨⟨0⟩, [3], false⟩, ⟨⟨1⟩, [5], true⟩] ∧
      oldAndNew.store.get ⟨0⟩ ≠ .ok (padded 2 [3]) ∧
      oldAndNew.store.get ⟨1⟩ = .ok (padded 2 [5]) := by
  have hrun : Steps step (fun _ _ => True) twoBuffers oldAndNew :=
    ((((Steps.refl twoBuffers).snoc (PayloadOp.put [1, 2]) trivial).snoc (PayloadOp.put [5])
      trivial).snoc (PayloadOp.remove 1) trivial).snoc (PayloadOp.put [3]) trivial
  have hlive : oldAndNew.live = [⟨⟨0⟩, [3], false⟩, ⟨⟨1⟩, [5], true⟩] := by rfl
  have hreads := get_undoes_put_iff 2 (by decide) hrun
  rw [hlive] at hreads
  have hold := hreads ⟨⟨0⟩, [3], false⟩ List.mem_cons_self
  have hnew := hreads ⟨⟨1⟩, [5], true⟩ (List.mem_cons_of_mem _ List.mem_cons_self)
  refine ⟨hlive, fun h => ?_, hnew.mpr rfl⟩
  cases hold.mp h

end PayloadClient

end KVCache.Tier
