import KVCache.Prefix.Invariant
import Mathlib.Data.Finset.Card

namespace KVCache.Prefix.PrefixIndex

open KVCache.Lib

variable {idx : PrefixIndex} {word : Words} {M : PrefixMap CacheContextHash TokenId BlockId}

-- The number of live nodes below `N`, which bounds the passes of the pruning loop.
def liveCount (word : Words) (N : Nat) : Nat :=
  ((Finset.range N).filter fun n => (word n).isSome).card

theorem liveCount_le (word : Words) (N : Nat) : liveCount word N ≤ N := by
  simpa [liveCount] using Finset.card_filter_le (Finset.range N) fun n => (word n).isSome

theorem liveCount_update {word : Words} {N n : Nat} (hn : n < N) (hw : (word n).isSome) :
    liveCount (Function.update word n none) N + 1 = liveCount word N := by
  have herase : (Finset.range N).filter (fun m => (Function.update word n none m).isSome) =
      ((Finset.range N).filter fun m => (word m).isSome).erase n := by
    ext m
    by_cases hm : m = n
    · simp [hm]
    · simp [hm]
  unfold liveCount
  rw [herase, Finset.card_erase_add_one (by simp [hn, hw])]

section Cut

variable {n x : Nat} {w : CacheContextHash × List TokenId} {t : TokenId}

-- The index without the link of `n` under `t`.
def unlinked (idx : PrefixIndex) (n : Nat) (t : TokenId) : PrefixIndex :=
  idx.modifyNode n fun m => { m with children := m.children.erase t }

-- `x` hangs below `n` and may be taken out.
structure Prunable (idx : PrefixIndex) (word : Words) (n : Nat) (t : TokenId) (x : Nat)
    (w : CacheContextHash × List TokenId) : Prop where
  inv : idx.Inv word
  parent : word n = some w
  link : (idx.node n).children.lookup t = some x
  leaf : ∀ u, (idx.node x).children.lookup u = none
  unclaimed : (idx.node x).terminal_block = none

theorem update_none {m : Nat} {v : CacheContextHash × List TokenId} :
    Function.update word x none m = some v ↔ m ≠ x ∧ word m = some v := by
  by_cases hm : m = x
  · simp [hm]
  · simp [hm]

theorem unlinked_length (idx : PrefixIndex) (n : Nat) (t : TokenId) :
    (idx.unlinked n t).nodes.length = idx.nodes.length := modifyNode_length _ _ _

-- Nothing but the links of `n` changes.
theorem unlinked_node (idx : PrefixIndex) (n : Nat) (t : TokenId) (m : Nat) :
    (idx.unlinked n t).node m =
      { idx.node m with children := ((idx.unlinked n t).node m).children } := by
  simp only [unlinked, node_modifyNode]
  split <;> rfl

theorem unlinked_lookup (hn : n < idx.nodes.length) (m : Nat) (u : TokenId) :
    ((idx.unlinked n t).node m).children.lookup u =
      if m = n ∧ u = t then none else (idx.node m).children.lookup u := by
  simp only [unlinked, node_modifyNode]
  by_cases hm : m = n
  · subst hm
    by_cases hu : u = t
    · subst hu
      simp [hn]
    · simp [hn, hu]
  · simp [hm]

namespace Prunable

theorem link_old (h : idx.Prunable word n t x w) {m y : Nat} {u : TokenId}
    (hy : ((idx.unlinked n t).node m).children.lookup u = some y) :
    (idx.node m).children.lookup u = some y := by
  rw [unlinked_lookup (h.inv.bound h.parent)] at hy
  split at hy
  · cases hy
  · exact hy

theorem forest_eq (h : idx.Prunable word n t x w) :
    (idx.unlinked n t).forest (Function.update word x none) = (idx.forest word).cut n x t := by
  simp only [forest, Forest.cut, Forest.mk.injEq, true_and]
  constructor
  · funext m
    rw [unlinked_node]
  · funext m u
    exact unlinked_lookup (h.inv.bound h.parent) m u

-- A live node with a terminal is not the one that goes.
theorem terminal_ne (h : idx.Prunable word n t x w) {m : Nat} {id : BlockId}
    (ht : (idx.node m).terminal_block = some id) : m ≠ x := by
  rintro rfl
  cases h.unclaimed.symm.trans ht

theorem cut_inv (h : idx.Prunable word n t x w) :
    (idx.unlinked n t).Inv (Function.update word x none) := by
  refine ⟨?_, fun hm => ?_, fun {c r} => ?_, fun hr => ?_, fun {m v u y} hm hy => ?_,
    fun {m c p u y} hm hy => ?_, fun {m c p id} hm ht => ?_, fun {m id} => ?_⟩
  · rw [h.forest_eq]
    exact h.inv.wf.cut (F := idx.forest word) h.parent h.link h.leaf
  · rw [unlinked_length]
    exact h.inv.bound (update_none.mp hm).2
  · rw [update_none]
    refine h.inv.root.trans ⟨fun hr => ⟨?_, hr⟩, And.right⟩
    rintro rfl
    rw [(h.inv.child_live h.parent h.link).1] at hr
    have hnil := (List.append_eq_nil_iff.mp (Prod.mk.inj (Option.some.inj hr)).2).2
    obtain ⟨e, he, -⟩ :=
      h.inv.wf.child_word (F := idx.forest word) (c := w.1) (p := w.2) h.parent h.link
    cases hnil.symm.trans he
  · rw [unlinked_node]
    exact h.inv.root_parent (update_none.mp hr).2
  · rw [unlinked_node]
    exact h.inv.link_back (update_none.mp hm).2 (h.link_old hy)
  · rw [unlinked_node]
    exact h.inv.in_block (update_none.mp hm).2 (h.link_old hy)
  · rw [unlinked_node] at ht
    exact h.inv.aligned (update_none.mp hm).2 ht
  · rw [unlinked_node]
    refine h.inv.indexed.trans ⟨?_, ?_⟩
    · rintro ⟨⟨v, hm⟩, ht⟩
      exact ⟨⟨v, update_none.mpr ⟨h.terminal_ne ht, hm⟩⟩, ht⟩
    · rintro ⟨⟨v, hm⟩, ht⟩
      exact ⟨⟨v, (update_none.mp hm).2⟩, ht⟩

-- The parent may be a dead end now.
theorem noDeadEnd (h : idx.Prunable word n t x w) (hd : idx.NoDeadEnd word (some x)) :
    (idx.unlinked n t).NoDeadEnd (Function.update word x none) (some n) := by
  intro m c p hm hp hmn ht
  rw [unlinked_node] at ht
  obtain ⟨hmx, hm⟩ := update_none.mp hm
  obtain ⟨u, y, hy⟩ := hd m c p hm hp (by simpa using hmx) ht
  have hne : m ≠ n := fun hmn' => hmn (by rw [hmn'])
  exact ⟨u, y, by rw [unlinked_lookup (h.inv.bound h.parent), if_neg fun h' => hne h'.1, hy]⟩

theorem holds (h : idx.Prunable word n t x w) (hM : idx.Holds word M) :
    (idx.unlinked n t).Holds (Function.update word x none) M := by
  intro c p id
  rw [hM c p id]
  constructor
  · rintro ⟨m, hm, ht⟩
    exact ⟨m, update_none.mpr ⟨h.terminal_ne ht, hm⟩, by rw [unlinked_node, ht]⟩
  · rintro ⟨m, hm, ht⟩
    rw [unlinked_node] at ht
    exact ⟨m, (update_none.mp hm).2, ht⟩

end Prunable

end Cut

-- The pruning loop repairs the dead end that it starts from.
theorem pruneIfEmpty_represents (hi : idx.Inv word) {x : Nat} {w : CacheContextHash × List TokenId}
    (hd : idx.NoDeadEnd word (some x)) (hM : idx.Holds word M) (hx : word x = some w) (fuel : Nat)
    (hroom : idx.nodes.length < 2 ^ 32) (hfuel : liveCount word idx.nodes.length ≤ fuel) :
    (idx.pruneIfEmpty fuel x).Represents M := by
  -- every pass that goes on takes one live node out
  induction fuel generalizing idx word x w with
  | zero =>
      have := liveCount_update (hi.bound hx) (Option.isSome_of_eq_some hx)
      omega
  | succ fuel ih =>
      unfold pruneIfEmpty
      by_cases hstop : (idx.node x).children.entries ≠ [] ∨ (idx.node x).terminal_block.isSome
      · rw [if_pos hstop]
        refine ⟨word, hi, fun n c p hn hp _ ht => ?_, hM⟩
        by_cases hnx : n = x
        · subst hnx
          rcases hstop with h | h
          · obtain ⟨⟨t, m⟩, hmem⟩ := List.exists_mem_of_ne_nil _ h
            exact ⟨t, m, AList.mem_lookup_iff.mpr hmem⟩
          · rw [ht] at h
            cases h
        · exact hd n c p hn hp (by simpa using hnx) ht
      · obtain ⟨hchildren, hterm⟩ := not_or.mp hstop
        have hchildren : (idx.node x).children.entries = [] := not_not.mp hchildren
        have hterm : (idx.node x).terminal_block = none := by simpa using hterm
        have hleaf : ∀ u, (idx.node x).children.lookup u = none := by
          intro u
          have hempty : (idx.node x).children = ∅ := AList.ext hchildren
          rw [hempty, AList.lookup_empty]
        rw [if_neg hstop]
        by_cases hw : w.2 = []
        · have hroot := hi.root_parent (c := w.1) (r := x) (by rw [hx, ← hw])
          rw [if_pos hroot]
          refine ⟨word, hi, fun n c p hn hp _ ht => ?_, hM⟩
          refine hd n c p hn hp ?_ ht
          rintro ⟨⟩
          rw [hx] at hn
          cases hn
          exact hp hw
        · obtain ⟨n, q, t, e, hn, hc, -, -⟩ :=
            hi.wf.parent_exists (F := idx.forest word) (c := w.1) (p := w.2) hx hw
          obtain ⟨hparent, hfirst⟩ := hi.link_back hn hc
          have hlt := hi.bound hn
          have hne : (idx.node x).parent_idx ≠ INVALID_NODE := by
            rw [hparent]
            unfold INVALID_NODE
            omega
          rw [if_neg hne, hparent, hfirst]
          have hprune : idx.Prunable word n t x (w.1, q) := ⟨hi, hn, hc, hleaf, hterm⟩
          have hnx : n ≠ x := by
            rintro rfl
            have hc : (idx.node n).children.lookup t = some n := hc
            rw [hleaf] at hc
            cases hc
          refine ih hprune.cut_inv (hprune.noDeadEnd hd) (hprune.holds hM) (x := n)
            (by rw [Function.update_of_ne hnx]; exact hn)
            (by rw [unlinked_length]; exact hroom) ?_
          have hcount := liveCount_update (hi.bound hx) (Option.isSome_of_eq_some hx)
          rw [unlinked_length]
          omega

section Clear

variable {id : BlockId} {x : Nat}

-- The index without the block `id`, which is the terminal of `x`.
def cleared (idx : PrefixIndex) (id : BlockId) (x : Nat) : PrefixIndex :=
  { idx with block_node_index := idx.block_node_index.erase id }.modifyNode x
    fun n => { n with terminal_block := none }

theorem cleared_node (hx : x < idx.nodes.length) (id : BlockId) (m : Nat) :
    (idx.cleared id x).node m =
      if m = x then { idx.node m with terminal_block := none } else idx.node m := by
  have hcongr : ∀ j, PrefixIndex.node
      { idx with block_node_index := idx.block_node_index.erase id } j = idx.node j :=
    fun _ => rfl
  by_cases hm : m = x
  · subst hm
    simp [cleared, hcongr, hx]
  · simp [cleared, hcongr, hm]

theorem cleared_keeps (idx : PrefixIndex) (id : BlockId) (x m : Nat) :
    (idx.cleared id x).node m = { idx.node m with
      terminal_block := ((idx.cleared id x).node m).terminal_block } := by
  simp only [cleared, node_modifyNode]
  split <;> rfl

-- No other live node has this block.
theorem cleared_terminal (hi : idx.Inv word) (hid : idx.block_node_index.lookup id = some x)
    {m : Nat} {v : CacheContextHash × List TokenId} {id' : BlockId} (hm : word m = some v) :
    ((idx.cleared id x).node m).terminal_block = some id' ↔
      id' ≠ id ∧ (idx.node m).terminal_block = some id' := by
  obtain ⟨⟨w, hx⟩, hterm⟩ := hi.indexed.mp hid
  rw [cleared_node (hi.bound hx)]
  by_cases hmx : m = x
  · subst hmx
    simp [hterm, eq_comm]
  · rw [if_neg hmx]
    refine ⟨fun ht => ⟨?_, ht⟩, And.right⟩
    rintro rfl
    exact hmx (Option.some.inj ((hi.indexed.mpr ⟨⟨v, hm⟩, ht⟩).symm.trans hid))

theorem cleared_lookup (idx : PrefixIndex) (id : BlockId) (x : Nat) {id' : BlockId} {m : Nat} :
    (idx.cleared id x).block_node_index.lookup id' = some m ↔
      id' ≠ id ∧ idx.block_node_index.lookup id' = some m := by
  by_cases h : id' = id
  · subst h
    simp [cleared]
  · simp [cleared, AList.lookup_erase_ne h, h]

theorem cleared_forest (idx : PrefixIndex) (id : BlockId) (x : Nat) (word : Words) :
    (idx.cleared id x).forest word = idx.forest word := by
  simp only [forest, Forest.mk.injEq, true_and]
  constructor
  · funext m
    rw [cleared_keeps]
  · funext m u
    rw [cleared_keeps]

theorem cleared_inv (hi : idx.Inv word) (hid : idx.block_node_index.lookup id = some x) :
    (idx.cleared id x).Inv word := by
  refine ⟨?_, fun hm => ?_, hi.root, fun hr => ?_, fun hm hy => ?_, fun hm hy => ?_,
    fun hm ht => ?_, fun {m id'} => ?_⟩
  · rw [cleared_forest]
    exact hi.wf
  · rw [cleared, modifyNode_length]
    exact hi.bound hm
  · rw [cleared_keeps]
    exact hi.root_parent hr
  · rw [cleared_keeps] at hy ⊢
    exact hi.link_back hm hy
  · rw [cleared_keeps] at hy ⊢
    exact hi.in_block hm hy
  · exact hi.aligned hm ((cleared_terminal hi hid hm).mp ht).2
  · rw [cleared_lookup, hi.indexed]
    constructor
    · rintro ⟨hne, ⟨v, hm⟩, ht⟩
      exact ⟨⟨v, hm⟩, (cleared_terminal hi hid hm).mpr ⟨hne, ht⟩⟩
    · rintro ⟨⟨v, hm⟩, ht⟩
      obtain ⟨hne, hold⟩ := (cleared_terminal hi hid hm).mp ht
      exact ⟨hne, ⟨v, hm⟩, hold⟩

-- Clearing the terminal of a node forgets its block.
theorem clearTerminal_inv (hi : idx.Inv word) (hd : idx.NoDeadEnd word none) (hM : idx.Holds word M)
    (hid : idx.block_node_index.lookup id = some x) :
    (idx.cleared id x).Inv word ∧ (idx.cleared id x).NoDeadEnd word (some x) ∧
      (idx.cleared id x).Holds word (M.erase id) := by
  obtain ⟨⟨w, hx⟩, -⟩ := hi.indexed.mp hid
  refine ⟨cleared_inv hi hid, fun m c p hm hp hmx ht => ?_, fun c p id' => ?_⟩
  · have hne : m ≠ x := fun h => hmx (by rw [h])
    rw [cleared_node (hi.bound hx), if_neg hne] at ht ⊢
    exact hd m c p hm hp (by simp) ht
  · rw [PrefixMap.erase_eq_some, hM c p id']
    constructor
    · rintro ⟨⟨m, hm, ht⟩, hne⟩
      exact ⟨m, hm, (cleared_terminal hi hid hm).mpr ⟨hne, ht⟩⟩
    · rintro ⟨m, hm, ht⟩
      obtain ⟨hne, hold⟩ := (cleared_terminal hi hid hm).mp ht
      exact ⟨⟨m, hm, hold⟩, hne⟩

end Clear

theorem pruneIfEmpty_fields (idx : PrefixIndex) (fuel n : Nat) :
    (idx.pruneIfEmpty fuel n).nodes.length = idx.nodes.length ∧
      (idx.pruneIfEmpty fuel n).namespace_roots = idx.namespace_roots ∧
      (idx.pruneIfEmpty fuel n).block_size = idx.block_size := by
  induction fuel generalizing idx n with
  | zero => exact ⟨rfl, rfl, rfl⟩
  | succ fuel ih =>
      simp only [pruneIfEmpty]
      split
      · exact ⟨rfl, rfl, rfl⟩
      · split
        · exact ⟨rfl, rfl, rfl⟩
        · obtain ⟨h1, h2, h3⟩ := ih (idx.modifyNode (idx.node n).parent_idx fun m =>
            { m with children := m.children.erase (idx.node n).first_edge_token })
            (idx.node n).parent_idx
          exact ⟨h1.trans (modifyNode_length _ _ _), h2, h3⟩

theorem remove_fields (idx : PrefixIndex) (id : BlockId) :
    (idx.remove id).nodes.length = idx.nodes.length ∧
      (idx.remove id).namespace_roots = idx.namespace_roots ∧
      (idx.remove id).block_size = idx.block_size := by
  unfold remove
  split
  · exact ⟨rfl, rfl, rfl⟩
  · simp [pruneIfEmpty_fields]

theorem remove_length (idx : PrefixIndex) (id : BlockId) :
    (idx.remove id).nodes.length = idx.nodes.length := (remove_fields idx id).1

theorem remove_block_size (idx : PrefixIndex) (id : BlockId) :
    (idx.remove id).block_size = idx.block_size := (remove_fields idx id).2.2

-- `remove` forgets the one key that names the block.
theorem remove_represents (hr : idx.Represents M) (hroom : idx.nodes.length < 2 ^ 32)
    (id : BlockId) : (idx.remove id).Represents (M.erase id) := by
  obtain ⟨word, hi, hd, hM⟩ := hr
  unfold remove
  cases hid : idx.block_node_index.lookup id with
  | none =>
      have hsame : M.erase id = M := by
        funext c p
        apply Option.ext
        intro id'
        refine PrefixMap.erase_eq_some.trans ⟨And.left, fun h => ⟨h, ?_⟩⟩
        rintro rfl
        obtain ⟨n, hn, ht⟩ := (hM c p _).mp h
        rw [hi.indexed.mpr ⟨⟨_, hn⟩, ht⟩] at hid
        cases hid
      rw [hsame]
      exact ⟨word, hi, hd, hM⟩
  | some x =>
      obtain ⟨⟨w, hx⟩, -⟩ := hi.indexed.mp hid
      obtain ⟨h1, h2, h3⟩ := clearTerminal_inv hi hd hM hid
      have hlen : (idx.cleared id x).nodes.length = idx.nodes.length := modifyNode_length _ _ _
      exact pruneIfEmpty_represents h1 h2 h3 hx _ (by rw [hlen]; exact hroom) (liveCount_le _ _)

end KVCache.Prefix.PrefixIndex
