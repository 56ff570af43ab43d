import KVCache.Lib.Steps
import KVCache.Prefix.Lookup
import KVCache.Prefix.InsertLoop
import KVCache.Prefix.Remove

namespace KVCache.Prefix

open KVCache.Lib

-- The two operations that change the index.
inductive IndexOp where
  | insert (ctx_hash : CacheContextHash) (tokens : List TokenId) (blocks : List BlockId)
  | remove (id : BlockId)

namespace IndexOp

def apply (idx : PrefixIndex) : IndexOp → PrefixIndex
  | insert ctx_hash tokens blocks => idx.insert ctx_hash tokens blocks
  | remove id => idx.remove id

-- What an operation means for the map from block-aligned prefixes to blocks.
def applyMap (b : Nat) (M : PrefixMap CacheContextHash TokenId BlockId) :
    IndexOp → PrefixMap CacheContextHash TokenId BlockId
  | insert ctx_hash tokens blocks => PrefixMap.defineFrom b M ctx_hash tokens 0 blocks
  | remove id => M.erase id

-- What a caller of `insert` owes: a token for every block, and no block that names
-- two prefixes.
def Allowed (b : Nat) (M : PrefixMap CacheContextHash TokenId BlockId) : IndexOp → Prop
  | insert ctx_hash tokens blocks =>
      blocks.length * b ≤ tokens.length ∧
        (PrefixMap.defineFrom b M ctx_hash tokens 0 blocks).Injective
  | remove _ => True

end IndexOp

-- The index next to the map that it stands for.
def stepBoth (s : PrefixIndex × PrefixMap CacheContextHash TokenId BlockId) (op : IndexOp) :
    PrefixIndex × PrefixMap CacheContextHash TokenId BlockId :=
  (op.apply s.1, op.applyMap s.1.block_size s.2)

abbrev IndexRun (b : Nat) (idx : PrefixIndex) (M : PrefixMap CacheContextHash TokenId BlockId) :
    Prop :=
  Steps stepBoth (fun s op => op.Allowed b s.2) ({ block_size := b }, PrefixMap.empty) (idx, M)

namespace PrefixIndex

variable {idx : PrefixIndex} {M : PrefixMap CacheContextHash TokenId BlockId}

theorem insert_length_le (idx : PrefixIndex) (c : CacheContextHash) (tokens : List TokenId)
    (blocks : List BlockId) : idx.nodes.length ≤ (idx.insert c tokens blocks).nodes.length := by
  unfold insert
  split
  · exact le_refl _
  · exact le_trans (getOrCreateRoot_length_le idx c)
      (insertBlocks_length_le tokens 0 blocks ⟨_, (idx.getOrCreateRoot c).1, 0⟩)

theorem apply_length_le (idx : PrefixIndex) (op : IndexOp) :
    idx.nodes.length ≤ (op.apply idx).nodes.length := by
  cases op with
  | insert c tokens blocks => exact insert_length_le idx c tokens blocks
  | remove id => exact (remove_length idx id).ge

theorem apply_block_size (idx : PrefixIndex) (op : IndexOp) :
    (op.apply idx).block_size = idx.block_size := by
  cases op with
  | insert c tokens blocks => exact insert_block_size idx c tokens blocks
  | remove id => exact remove_block_size idx id

-- One operation on the index simulates the same operation on the map.
theorem apply_represents (hr : idx.Represents M) (hb : 0 < idx.block_size) {op : IndexOp}
    (hop : op.Allowed idx.block_size M) (hroom : (op.apply idx).nodes.length < 2 ^ 32) :
    (op.apply idx).Represents (op.applyMap idx.block_size M) := by
  cases op with
  | insert c tokens blocks =>
      exact insert_represents hr hb c hop.1 (PrefixMap.DefineOk.of_injective hop.2) hroom
  | remove id =>
      have hlen : idx.nodes.length < 2 ^ 32 :=
        lt_of_le_of_lt (apply_length_le idx (.remove id)) hroom
      exact remove_represents hr hlen id

theorem run_represents {b : Nat} (hb : 0 < b) (hrun : IndexRun b idx M)
    (hroom : idx.nodes.length < 2 ^ 32) : idx.block_size = b ∧ idx.Represents M := by
  have hinv : idx.block_size = b ∧ (idx.nodes.length < 2 ^ 32 → idx.Represents M) := by
    refine Steps.invariant (I := fun s : PrefixIndex × PrefixMap _ _ _ =>
      s.1.block_size = b ∧ (s.1.nodes.length < 2 ^ 32 → s.1.Represents s.2)) ?_ hrun ?_
    · rintro ⟨idx, M⟩ op ⟨hsize, hr⟩ hop
      refine ⟨(apply_block_size idx op).trans hsize, fun hroom => ?_⟩
      have hr := hr (lt_of_le_of_lt (apply_length_le idx op) hroom)
      exact apply_represents hr (hsize ▸ hb) (hsize ▸ hop) hroom
    · exact ⟨rfl, fun _ => empty_represents b⟩
  exact ⟨hinv.1, hinv.2 hroom⟩

-- On a layout of `M` with short token lists, `matched_tokens` does not wrap.
theorem lookup_eq_of_short (hr : idx.Represents M) (hb : 0 < idx.block_size) (c : CacheContextHash)
    {t : List TokenId} (ht : t.length < 2 ^ 32) :
    idx.lookup c t = ⟨chain idx.block_size (M c) t,
      (chain idx.block_size (M c) t).length * idx.block_size⟩ := by
  have hle := chain_length_mul_le idx.block_size (M c) t
  rw [lookup_eq hr hb, Nat.mod_eq_of_lt (by omega)]

-- The index is a finite map: what `lookup` returns after any run is the longest
-- chain of mapped block prefixes, and an operation changes no other answer.
theorem lookup_refines_map {b : Nat} (hb : 0 < b) (hrun : IndexRun b idx M)
    (hroom : idx.nodes.length < 2 ^ 32 - 1) :
    (∀ c t, t.length < 2 ^ 32 →
      idx.lookup c t = ⟨chain b (M c) t, (chain b (M c) t).length * b⟩) ∧
    (∀ c tokens blocks, (IndexOp.insert c tokens blocks).Allowed b M →
      (idx.insert c tokens blocks).nodes.length < 2 ^ 32 - 1 →
      ∀ c' t, t.length < 2 ^ 32 → c' ≠ c ∨ t.take b ≠ tokens.take b →
        (idx.insert c tokens blocks).lookup c' t = idx.lookup c' t) ∧
    (∀ id c t, t.length < 2 ^ 32 → id ∉ (idx.lookup c t).blocks →
      (idx.remove id).lookup c t = idx.lookup c t) := by
  obtain ⟨hsize, hr⟩ := run_represents hb hrun (by omega)
  subst hsize
  refine ⟨fun c t ht => lookup_eq_of_short hr hb c ht, ?_, ?_⟩
  · intro c tokens blocks hop hroom' c' t ht hother
    have hsize := insert_block_size idx c tokens blocks
    have hr' := apply_represents hr hb hop (by simp only [IndexOp.apply]; omega)
    have hsame : chain idx.block_size
        (PrefixMap.defineFrom idx.block_size M c tokens 0 blocks c') t =
        chain idx.block_size (M c') t := by
      refine chain_congr fun j => PrefixMap.defineFrom_of_ne blocks fun hc k hk => ?_
      rcases hother with h | h
      · exact h hc
      · refine h ?_
        have hfirst := congrArg (List.take idx.block_size) hk
        rwa [List.take_take, List.take_take, Nat.min_eq_left (Nat.le_mul_of_pos_left _ (by omega)),
          Nat.min_eq_left (Nat.le_mul_of_pos_left _ (by omega))] at hfirst
    have hnew := lookup_eq_of_short hr' (apply_block_size idx _ ▸ hb) c' ht
    simp only [IndexOp.apply, IndexOp.applyMap, hsize, hsame] at hnew
    rw [hnew, lookup_eq_of_short hr hb c' ht]
  · intro id c t ht hid
    have hsize := remove_block_size idx id
    have hr' := remove_represents hr (by omega) id
    rw [lookup_eq_of_short hr hb c ht] at hid ⊢
    rw [lookup_eq_of_short hr' (hsize ▸ hb) c ht, hsize, chain_erase hid]

-- Two blocks are inserted and the inner one is removed, which leaves a gap.
private abbrev gapOps : List IndexOp := [.insert 7 [1, 2, 3, 4] [10, 11], .remove 10]

private abbrev gapState : PrefixIndex × PrefixMap CacheContextHash TokenId BlockId :=
  gapOps.foldl stepBoth ({ block_size := 2 }, PrefixMap.empty)

theorem lookup_refines_map_gap :
    gapState.1.lookup 7 [1, 2, 3, 4] = ⟨[], 0⟩ ∧
      (gapState.1.lookup 7 [1, 2, 3, 4] =
        ⟨chain 2 (gapState.2 7) [1, 2, 3, 4],
          (chain 2 (gapState.2 7) [1, 2, 3, 4]).length * 2⟩) := by
  have hrun : IndexRun 2 gapState.1 gapState.2 := by
    have hstart : IndexRun 2 { block_size := 2 } PrefixMap.empty := Steps.refl _
    refine (hstart.snoc (IndexOp.insert 7 [1, 2, 3, 4] [10, 11]) ⟨by decide, ?_⟩).snoc
      (IndexOp.remove 10) trivial
    refine (PrefixMap.Injective.empty.define fun _ _ _ => by simp [PrefixMap.empty]).define
      fun _ c p => ?_
    rw [PrefixMap.define_of_none _ rfl]
    split <;> simp [PrefixMap.empty]
  exact ⟨by decide +kernel,
    (lookup_refines_map (by decide) hrun (by decide +kernel)).1 7 [1, 2, 3, 4] (by decide)⟩

end PrefixIndex

end KVCache.Prefix
