import KVCache.Prefix.Invariant

namespace KVCache.Prefix.PrefixIndex

open KVCache.Lib

variable {idx : PrefixIndex} {word : Words} {M : PrefixMap CacheContextHash TokenId BlockId}

section Root

theorem getOrCreateRoot_block_size (idx : PrefixIndex) (c : CacheContextHash) :
    (idx.getOrCreateRoot c).2.block_size = idx.block_size := by
  unfold getOrCreateRoot
  split <;> rfl

theorem getOrCreateRoot_length_le (idx : PrefixIndex) (c : CacheContextHash) :
    idx.nodes.length ≤ (idx.getOrCreateRoot c).2.nodes.length := by
  unfold getOrCreateRoot
  split
  · exact le_refl _
  · simp

-- The index after a root was made for `c`. The node of the root is blank.
def rooted (idx : PrefixIndex) (c : CacheContextHash) : PrefixIndex :=
  { idx.newNode.2 with
    namespace_roots := idx.newNode.2.namespace_roots.insert c idx.nodes.length }

abbrev rootedWords (idx : PrefixIndex) (word : Words) (c : CacheContextHash) : Words :=
  ((idx.forest word).addRoot idx.nodes.length c).word

variable {c : CacheContextHash}

theorem getOrCreateRoot_eq (hnone : idx.namespace_roots.lookup c = none)
    (hroom : idx.nodes.length < 2 ^ 32) :
    idx.getOrCreateRoot c = (idx.nodes.length, idx.rooted c) := by
  simp only [getOrCreateRoot, hnone, rooted, newNode_fst hroom]

theorem rooted_node (idx : PrefixIndex) (c : CacheContextHash) (j : Nat) :
    (idx.rooted c).node j = idx.node j := node_newNode idx j

theorem rooted_length (idx : PrefixIndex) (c : CacheContextHash) :
    (idx.rooted c).nodes.length = idx.nodes.length + 1 := newNode_length idx

theorem rooted_forest (idx : PrefixIndex) (c : CacheContextHash) :
    (idx.rooted c).forest (idx.rootedWords word c) =
      (idx.forest word).addRoot idx.nodes.length c := by
  simp only [forest, Forest.addRoot, rooted_node]
  rfl

theorem rooted_old (hi : idx.Inv word) {k : Nat} {w : CacheContextHash × List TokenId}
    (hk : word k = some w) : idx.rootedWords word c k = some w :=
  Forest.addRoot_word.mpr (.inr ⟨Nat.ne_of_lt (hi.bound hk), hk⟩)

-- The new root is blank: what a live node has, an old one has.
theorem rooted_live {k : Nat} {w : CacheContextHash × List TokenId}
    (hk : idx.rootedWords word c k = some w) (hused : idx.node k ≠ {}) : word k = some w := by
  rcases Forest.addRoot_word.mp hk with ⟨rfl, -⟩ | ⟨-, hold⟩
  · exact absurd (node_of_length_le (le_refl _)) hused
  · exact hold

theorem rooted_root (hi : idx.Inv word) (hno : ∀ m, word m ≠ some (c, []))
    {c' : CacheContextHash} {r : Nat} : (idx.rooted c).namespace_roots.lookup c' = some r ↔
      idx.rootedWords word c r = some (c', []) := by
  simp only [rooted, newNode_roots]
  constructor
  · intro hr
    by_cases hc : c' = c
    · subst hc
      rw [AList.lookup_insert] at hr
      exact Forest.addRoot_word.mpr (.inl ⟨(Option.some.inj hr).symm, rfl⟩)
    · rw [AList.lookup_insert_ne hc] at hr
      exact rooted_old hi (hi.root.mp hr)
  · intro hr
    rcases Forest.addRoot_word.mp hr with ⟨rfl, hw⟩ | ⟨-, hold⟩
    · cases hw
      exact AList.lookup_insert _
    · have hc : c' ≠ c := by
        rintro rfl
        exact hno r hold
      rw [AList.lookup_insert_ne hc]
      exact hi.root.mpr hold

theorem rooted_inv (hi : idx.Inv word) (hno : ∀ m, word m ≠ some (c, [])) :
    (idx.rooted c).Inv (idx.rootedWords word c) := by
  have hblank := node_of_length_le (le_refl idx.nodes.length)
  have hlinked : ∀ {k t m}, (idx.node k).children.lookup t = some m → idx.node k ≠ {} := by
    intro k t m hm hk
    rw [hk] at hm
    cases hm
  have hclaimed : ∀ {k id}, (idx.node k).terminal_block = some id → idx.node k ≠ {} := by
    intro k id ht hk
    rw [hk] at ht
    cases ht
  refine ⟨?_, fun hk => ?_, rooted_root hi hno, fun hr => ?_, fun hk hm => ?_, fun hk hm => ?_,
    fun hk ht => ?_, ?_⟩
  · rw [rooted_forest]
    exact hi.wf.addRoot (hi.dead (le_refl _)) hno fun t => by simp [forest, hblank]
  · rw [rooted_length]
    rcases Forest.addRoot_word.mp hk with ⟨rfl, -⟩ | ⟨-, hold⟩
    · exact Nat.lt_succ_self _
    · exact Nat.lt_succ_of_lt (hi.bound hold)
  · rw [rooted_node]
    rcases Forest.addRoot_word.mp hr with ⟨rfl, -⟩ | ⟨-, hold⟩
    · rw [hblank]
    · exact hi.root_parent hold
  · rw [rooted_node] at hm ⊢
    exact hi.link_back (rooted_live hk (hlinked hm)) hm
  · rw [rooted_node] at hm ⊢
    exact hi.in_block (rooted_live hk (hlinked hm)) hm
  · rw [rooted_node] at ht
    exact hi.aligned (rooted_live hk (hclaimed ht)) ht
  · intro k id
    rw [rooted_node]
    refine hi.indexed.trans ⟨?_, ?_⟩
    · rintro ⟨⟨w, hk⟩, ht⟩
      exact ⟨⟨w, rooted_old hi hk⟩, ht⟩
    · rintro ⟨⟨w, hk⟩, ht⟩
      exact ⟨⟨w, rooted_live hk (hclaimed ht)⟩, ht⟩

theorem rooted_noDeadEnd (hd : idx.NoDeadEnd word none) :
    (idx.rooted c).NoDeadEnd (idx.rootedWords word c) none := by
  intro k c' p hk hp hx ht
  rw [rooted_node] at ht ⊢
  rcases Forest.addRoot_word.mp hk with ⟨-, hw⟩ | ⟨-, hold⟩
  · exact absurd (Prod.mk.inj hw).2 hp
  · exact hd k c' p hold hp hx ht

theorem rooted_holds (hi : idx.Inv word) (hM : idx.Holds word M) :
    (idx.rooted c).Holds (idx.rootedWords word c) M := by
  intro c' p id
  rw [hM c' p id]
  simp only [rooted_node]
  constructor
  · rintro ⟨k, hk, ht⟩
    exact ⟨k, rooted_old hi hk, ht⟩
  · rintro ⟨k, hk, ht⟩
    have hused : idx.node k ≠ {} := by
      intro hblank
      rw [hblank] at ht
      cases ht
    exact ⟨k, rooted_live hk hused, ht⟩

theorem getOrCreateRoot_inv (hi : idx.Inv word) (hd : idx.NoDeadEnd word none)
    (hM : idx.Holds word M) (c : CacheContextHash)
    (hroom : (idx.getOrCreateRoot c).2.nodes.length < 2 ^ 32) :
    ∃ word', (idx.getOrCreateRoot c).2.Inv word' ∧ (idx.getOrCreateRoot c).2.NoDeadEnd word' none ∧
      (idx.getOrCreateRoot c).2.Holds word' M ∧ word' (idx.getOrCreateRoot c).1 = some (c, []) := by
  cases hroot : idx.namespace_roots.lookup c with
  | some root =>
      have hsame : idx.getOrCreateRoot c = (root, idx) := by simp only [getOrCreateRoot, hroot]
      rw [hsame]
      exact ⟨word, hi, hd, hM, hi.root.mp hroot⟩
  | none =>
      have hlength := lt_of_le_of_lt (getOrCreateRoot_length_le idx c) hroom
      rw [getOrCreateRoot_eq hroot hlength]
      have hno : ∀ m, word m ≠ some (c, []) := by
        intro m hm
        cases hroot.symm.trans (hi.root.mpr hm)
      exact ⟨_, rooted_inv hi hno, rooted_noDeadEnd hd, rooted_holds hi hM,
        Forest.addRoot_word.mpr (.inl ⟨rfl, rfl⟩)⟩

end Root

section Terminals

variable {idx' : PrefixIndex} {word' : Words} {new : Nat} {c : CacheContextHash}
  {p : List TokenId} {block : BlockId}

-- There is one more terminal than in `idx`: that of `block`, on the node `new`.
structure AddsTerminal (idx : PrefixIndex) (word : Words) (idx' : PrefixIndex) (word' : Words)
    (new : Nat) (c : CacheContextHash) (p : List TokenId) (block : BlockId) : Prop where
  terminal : ∀ {k w id}, (word' k = some w ∧ (idx'.node k).terminal_block = some id) ↔
    (k = new ∧ w = (c, p) ∧ id = block) ∨
      (word k = some w ∧ (idx.node k).terminal_block = some id)
  index : idx'.block_node_index = idx.block_node_index.insert block new

theorem AddsTerminal.aligned (h : AddsTerminal idx word idx' word' new c p block)
    (hi : idx.Inv word) (hp : p ≠ []) (hdvd : idx.block_size ∣ p.length) {k : Nat}
    {c' : CacheContextHash} {q : List TokenId} {id : BlockId} (hk : word' k = some (c', q))
    (ht : (idx'.node k).terminal_block = some id) : q ≠ [] ∧ idx.block_size ∣ q.length := by
  rcases h.terminal.mp ⟨hk, ht⟩ with ⟨-, hw, -⟩ | ⟨hold, ht⟩
  · cases hw
    exact ⟨hp, hdvd⟩
  · exact hi.aligned hold ht

-- The entry of a block that no terminal held names the new one.
theorem AddsTerminal.indexed (h : AddsTerminal idx word idx' word' new c p block)
    (hi : idx.Inv word) (hM : idx.Holds word M) (hfresh : ∀ c' p', M c' p' ≠ some block)
    {k : Nat} {id : BlockId} : idx'.block_node_index.lookup id = some k ↔
      (∃ w, word' k = some w) ∧ (idx'.node k).terminal_block = some id := by
  have hterminals : ((∃ w, word' k = some w) ∧ (idx'.node k).terminal_block = some id) ↔
      (k = new ∧ id = block) ∨
        ((∃ w, word k = some w) ∧ (idx.node k).terminal_block = some id) := by
    constructor
    · rintro ⟨⟨w, hk⟩, ht⟩
      rcases h.terminal.mp ⟨hk, ht⟩ with ⟨hnew, -, hid⟩ | ⟨hold, ht⟩
      · exact .inl ⟨hnew, hid⟩
      · exact .inr ⟨⟨w, hold⟩, ht⟩
    · rintro (⟨hnew, hid⟩ | ⟨⟨w, hold⟩, ht⟩)
      · obtain ⟨hk, ht⟩ := h.terminal.mpr (.inl ⟨hnew, rfl, hid⟩)
        exact ⟨⟨_, hk⟩, ht⟩
      · obtain ⟨hk, ht⟩ := h.terminal.mpr (.inr ⟨hold, ht⟩)
        exact ⟨⟨w, hk⟩, ht⟩
  rw [hterminals, h.index]
  by_cases hid : id = block
  · subst hid
    rw [AList.lookup_insert, Option.some.injEq]
    constructor
    · exact fun hnew => .inl ⟨hnew.symm, rfl⟩
    · rintro (⟨hnew, -⟩ | ⟨⟨w, hold⟩, ht⟩)
      · exact hnew.symm
      · exact absurd ((hM w.1 w.2 id).mpr ⟨k, hold, ht⟩) (hfresh _ _)
  · rw [AList.lookup_insert_ne hid, hi.indexed]
    simp [hid]

theorem AddsTerminal.holds (h : AddsTerminal idx word idx' word' new c p block)
    (hM : idx.Holds word M) (hundef : M c p = none) :
    idx'.Holds word' (M.define c p block) := by
  intro c' q id
  rw [PrefixMap.define_of_none block hundef]
  simp only [h.terminal]
  by_cases hkey : c' = c ∧ q = p
  · obtain ⟨rfl, rfl⟩ := hkey
    rw [if_pos ⟨rfl, rfl⟩, Option.some.injEq]
    constructor
    · rintro rfl
      exact ⟨new, .inl ⟨rfl, rfl, rfl⟩⟩
    · rintro ⟨k, ⟨-, -, hid⟩ | hold⟩
      · exact hid.symm
      · cases hundef.symm.trans ((hM _ _ id).mpr ⟨k, hold⟩)
  · rw [if_neg hkey, hM c' q id]
    constructor
    · rintro ⟨k, hold⟩
      exact ⟨k, .inr hold⟩
    · rintro ⟨k, ⟨-, hw, -⟩ | hold⟩
      · exact absurd (Prod.mk.inj hw) hkey
      · exact ⟨k, hold⟩

end Terminals

section Leaf

theorem appendLeaf_fst (hroom : idx.nodes.length < 2 ^ 32) (n : Nat) (first : TokenId)
    (edge : List TokenId) (block : BlockId) :
    (idx.appendLeaf n first edge block).1 = idx.nodes.length := newNode_fst hroom

theorem appendLeaf_node (hroom : idx.nodes.length < 2 ^ 32) {n : Nat} (hn : n < idx.nodes.length)
    (first : TokenId) (edge : List TokenId) (block : BlockId) (j : Nat) :
    (idx.appendLeaf n first edge block).2.node j =
      if j = n then
        { idx.node n with children := (idx.node n).children.insert first idx.nodes.length }
      else if j = idx.nodes.length then
        { edge_tokens := edge, terminal_block := some block, parent_idx := n,
          first_edge_token := first }
      else idx.node j := by
  have hfst := newNode_fst hroom
  have hnode : ∀ (i : PrefixIndex) (m : UnorderedMap BlockId Nat) (j : Nat),
      PrefixIndex.node { i with block_node_index := m } j = i.node j := fun _ _ _ => rfl
  simp only [appendLeaf, hfst, node_modifyNode, hnode, modifyNode_length, newNode_length,
    node_newNode]
  by_cases h1 : j = n
  · subst h1
    have h2 : j ≠ idx.nodes.length := Nat.ne_of_lt hn
    simp [h2, Nat.lt_succ_of_lt hn]
  · by_cases h2 : j = idx.nodes.length
    · subst h2
      simp [h1, node_of_length_le]
    · simp [h1, h2]

theorem appendLeaf_length (idx : PrefixIndex) (n : Nat) (first : TokenId) (edge : List TokenId)
    (block : BlockId) :
    (idx.appendLeaf n first edge block).2.nodes.length = idx.nodes.length + 1 := by
  simp [appendLeaf]

theorem appendLeaf_roots (idx : PrefixIndex) (n : Nat) (first : TokenId) (edge : List TokenId)
    (block : BlockId) :
    (idx.appendLeaf n first edge block).2.namespace_roots = idx.namespace_roots := rfl

theorem appendLeaf_block_size (idx : PrefixIndex) (n : Nat) (first : TokenId)
    (edge : List TokenId) (block : BlockId) :
    (idx.appendLeaf n first edge block).2.block_size = idx.block_size := rfl

theorem appendLeaf_index (hroom : idx.nodes.length < 2 ^ 32) (n : Nat) (first : TokenId)
    (edge : List TokenId) (block : BlockId) :
    (idx.appendLeaf n first edge block).2.block_node_index =
      idx.block_node_index.insert block idx.nodes.length := by
  simp only [appendLeaf, newNode_fst hroom]
  rfl

-- A leaf whose edge starts with `first` may be hung below `n`.
structure Growable (idx : PrefixIndex) (word : Words) (n : Nat) (c : CacheContextHash)
    (p : List TokenId) (first : TokenId) : Prop where
  inv : idx.Inv word
  parent : word n = some (c, p)
  free : (idx.node n).children.lookup first = none
  room : idx.nodes.length < 2 ^ 32

-- The words with the leaf.
abbrev leafWords (idx : PrefixIndex) (word : Words) (n : Nat) (c : CacheContextHash)
    (p : List TokenId) (first : TokenId) (e : List TokenId) : Words :=
  ((idx.forest word).addLeaf n idx.nodes.length c p first e).word

namespace Growable

variable {n : Nat} {c : CacheContextHash} {p e : List TokenId} {first : TokenId} {block : BlockId}

theorem ne_new (h : idx.Growable word n c p first) {k : Nat}
    {w : CacheContextHash × List TokenId} (hk : word k = some w) : k ≠ idx.nodes.length :=
  Nat.ne_of_lt (h.inv.bound hk)

theorem node_new (h : idx.Growable word n c p first) :
    (idx.appendLeaf n first (first :: e) block).2.node idx.nodes.length =
      { edge_tokens := first :: e, terminal_block := some block, parent_idx := n,
        first_edge_token := first } := by
  rw [appendLeaf_node h.room (h.inv.bound h.parent), if_neg (h.ne_new h.parent).symm, if_pos rfl]

-- An old node keeps everything but, at `n`, its links.
theorem node_old (h : idx.Growable word n c p first) {k : Nat} (hk : k ≠ idx.nodes.length) :
    (idx.appendLeaf n first (first :: e) block).2.node k = { idx.node k with
      children := ((idx.appendLeaf n first (first :: e) block).2.node k).children } := by
  rw [appendLeaf_node h.room (h.inv.bound h.parent), if_neg hk]
  by_cases hn : k = n
  · rw [if_pos hn, hn]
  · rw [if_neg hn]

theorem links_iff (h : idx.Growable word n c p first) {k x : Nat} {t : TokenId} :
    ((idx.appendLeaf n first (first :: e) block).2.node k).children.lookup t = some x ↔
      k ≠ idx.nodes.length ∧ ((k = n ∧ t = first ∧ x = idx.nodes.length) ∨
        (idx.node k).children.lookup t = some x) := by
  rw [appendLeaf_node h.room (h.inv.bound h.parent)]
  have hfree := h.free
  by_cases hn : k = n
  · subst hn
    by_cases ht : t = first
    · subst ht
      simp [hfree, h.ne_new h.parent, eq_comm]
    · simp [AList.lookup_insert_ne ht, ht, h.ne_new h.parent]
  · by_cases hk : k = idx.nodes.length
    · subst hk
      simp [hn]
    · simp [hn, hk]

theorem forest_eq (h : idx.Growable word n c p first) :
    (idx.appendLeaf n first (first :: e) block).2.forest (idx.leafWords word n c p first e) =
      (idx.forest word).addLeaf n idx.nodes.length c p first e := by
  simp only [forest, Forest.addLeaf, Forest.mk.injEq]
  refine ⟨rfl, ?_, ?_⟩
  · funext k
    by_cases hk : k = idx.nodes.length
    · subst hk
      rw [h.node_new, Function.update_self]
    · rw [h.node_old hk, Function.update_of_ne hk]
  · funext k t
    apply Option.ext
    intro x
    have hadded := Forest.addLeaf_child (F := idx.forest word) (m := idx.nodes.length) (k := k)
      (x := x) (c := c) (p := p) (e := e) (u := t) h.free
    exact h.links_iff.trans hadded.symm

theorem addsTerminal (h : idx.Growable word n c p first) :
    AddsTerminal idx word (idx.appendLeaf n first (first :: e) block).2
      (idx.leafWords word n c p first e) idx.nodes.length c (p ++ first :: e) block := by
  refine ⟨fun {k w id} => ⟨?_, ?_⟩, appendLeaf_index h.room n first (first :: e) block⟩
  · rintro ⟨hk, ht⟩
    rcases Forest.addLeaf_word.mp hk with ⟨rfl, rfl⟩ | ⟨hnew, hold⟩
    · rw [h.node_new] at ht
      exact .inl ⟨rfl, rfl, (Option.some.inj ht).symm⟩
    · rw [h.node_old hnew] at ht
      exact .inr ⟨hold, ht⟩
  · rintro (⟨rfl, rfl, rfl⟩ | ⟨hk, ht⟩)
    · exact ⟨Forest.addLeaf_word.mpr (.inl ⟨rfl, rfl⟩), by rw [h.node_new]⟩
    · exact ⟨Forest.addLeaf_word.mpr (.inr ⟨h.ne_new hk, hk⟩),
        by rw [h.node_old (h.ne_new hk), ht]⟩

theorem root (h : idx.Growable word n c p first) {c' : CacheContextHash} {r : Nat} :
    idx.namespace_roots.lookup c' = some r ↔
      idx.leafWords word n c p first e r = some (c', []) := by
  rw [h.inv.root, Forest.addLeaf_word]
  constructor
  · exact fun hr => .inr ⟨h.ne_new hr, hr⟩
  · rintro (⟨-, hw⟩ | ⟨-, hr⟩)
    · simp at hw
    · exact hr

theorem link_back (h : idx.Growable word n c p first) {k x : Nat}
    {w : CacheContextHash × List TokenId} {t : TokenId}
    (hk : idx.leafWords word n c p first e k = some w)
    (hx : ((idx.appendLeaf n first (first :: e) block).2.node k).children.lookup t = some x) :
    ((idx.appendLeaf n first (first :: e) block).2.node x).parent_idx = k ∧
      ((idx.appendLeaf n first (first :: e) block).2.node x).first_edge_token = t := by
  obtain ⟨hnew, hx⟩ := h.links_iff.mp hx
  rcases Forest.addLeaf_word.mp hk with ⟨hk, -⟩ | ⟨-, hold⟩
  · exact absurd hk hnew
  rcases hx with ⟨rfl, rfl, rfl⟩ | hx
  · rw [h.node_new]
    exact ⟨rfl, rfl⟩
  · rw [h.node_old (h.ne_new (h.inv.child_live hold hx).1)]
    exact h.inv.link_back hold hx

theorem in_block (h : idx.Growable word n c p first)
    (hblk : p.length + (first :: e).length ≤ (p.length / idx.block_size + 1) * idx.block_size)
    {k x : Nat} {c' : CacheContextHash} {q : List TokenId} {t : TokenId}
    (hk : idx.leafWords word n c p first e k = some (c', q))
    (hx : ((idx.appendLeaf n first (first :: e) block).2.node k).children.lookup t = some x) :
    q.length + ((idx.appendLeaf n first (first :: e) block).2.node x).edge_tokens.length ≤
      (q.length / idx.block_size + 1) * idx.block_size := by
  obtain ⟨hnew, hx⟩ := h.links_iff.mp hx
  rcases Forest.addLeaf_word.mp hk with ⟨hk, -⟩ | ⟨-, hold⟩
  · exact absurd hk hnew
  rcases hx with ⟨rfl, rfl, rfl⟩ | hx
  · cases h.parent.symm.trans hold
    rw [h.node_new]
    exact hblk
  · rw [h.node_old (h.ne_new (h.inv.child_live hold hx).1)]
    exact h.inv.in_block hold hx

theorem leaf_inv (h : idx.Growable word n c p first) (hM : idx.Holds word M)
    (hblk : p.length + (first :: e).length ≤ (p.length / idx.block_size + 1) * idx.block_size)
    (hdvd : idx.block_size ∣ (p ++ first :: e).length)
    (hfresh : ∀ c' p', M c' p' ≠ some block) :
    (idx.appendLeaf n first (first :: e) block).2.Inv (idx.leafWords word n c p first e) := by
  refine ⟨?_, fun {k w} hk => ?_, ?_, fun {c' r} hr => ?_, h.link_back, h.in_block hblk,
    fun hk ht => ?_, h.addsTerminal.indexed h.inv hM hfresh⟩
  · rw [h.forest_eq]
    exact h.inv.wf.addLeaf (F := idx.forest word) e h.parent (h.inv.dead (le_refl _)) h.free
  · rw [appendLeaf_length]
    rcases Forest.addLeaf_word.mp hk with ⟨rfl, -⟩ | ⟨-, hold⟩
    · exact Nat.lt_succ_self _
    · exact Nat.lt_succ_of_lt (h.inv.bound hold)
  · exact h.root
  · have hold := h.inv.root.mp (h.root.mpr hr)
    rw [h.node_old (h.ne_new hold)]
    exact h.inv.root_parent hold
  · exact h.addsTerminal.aligned h.inv (by simp) hdvd hk ht

theorem noDeadEnd (h : idx.Growable word n c p first) (hd : idx.NoDeadEnd word none) :
    (idx.appendLeaf n first (first :: e) block).2.NoDeadEnd
      (idx.leafWords word n c p first e) none := by
  intro k c' q hk hq hx ht
  rcases Forest.addLeaf_word.mp hk with ⟨rfl, -⟩ | ⟨hnew, hold⟩
  · rw [h.node_new] at ht
    cases ht
  · rw [h.node_old hnew] at ht
    obtain ⟨t, x, htx⟩ := hd k c' q hold hq hx ht
    exact ⟨t, x, h.links_iff.mpr ⟨hnew, .inr htx⟩⟩

theorem unmapped (h : idx.Growable word n c p first) (hM : idx.Holds word M) :
    M c (p ++ first :: e) = none := by
  cases hid : M c (p ++ first :: e) with
  | none => rfl
  | some id =>
      obtain ⟨k, hk, -⟩ := (hM c _ id).mp hid
      exact absurd hk
        (h.inv.wf.no_word_of_no_child (F := idx.forest word) h.parent h.free e k)

end Growable

-- A leaf for a block that no live terminal holds defines one key.
theorem appendLeaf_inv (hi : idx.Inv word) (hd : idx.NoDeadEnd word none) (hM : idx.Holds word M)
    {n : Nat} {c : CacheContextHash} {p : List TokenId} {first : TokenId} {e : List TokenId}
    {block : BlockId} (hn : word n = some (c, p))
    (hc : (idx.node n).children.lookup first = none) (hroom : idx.nodes.length < 2 ^ 32)
    (hblk : p.length + (first :: e).length ≤ (p.length / idx.block_size + 1) * idx.block_size)
    (hdvd : idx.block_size ∣ (p ++ first :: e).length)
    (hfresh : ∀ c' p', M c' p' ≠ some block) :
    ∃ word', (idx.appendLeaf n first (first :: e) block).2.Inv word' ∧
      (idx.appendLeaf n first (first :: e) block).2.NoDeadEnd word' none ∧
      (idx.appendLeaf n first (first :: e) block).2.Holds word'
        (M.define c (p ++ first :: e) block) ∧
      word' idx.nodes.length = some (c, p ++ first :: e) := by
  have h : idx.Growable word n c p first := ⟨hi, hn, hc, hroom⟩
  exact ⟨_, h.leaf_inv hM hblk hdvd hfresh, h.noDeadEnd hd,
    h.addsTerminal.holds hM (h.unmapped hM), Forest.addLeaf_word.mpr (.inl ⟨rfl, rfl⟩)⟩

end Leaf

section Split

variable {links : List (Sigma fun _ : TokenId => Nat)} {s j : Nat}

@[simp] theorem reparent_length (idx : PrefixIndex) (links : List (Sigma fun _ : TokenId => Nat))
    (s : Nat) : (idx.reparent links s).nodes.length = idx.nodes.length := by
  induction links generalizing idx with
  | nil => rfl
  | cons e es ih => exact (ih _).trans (modifyNode_length _ _ _)

theorem reparent_fields (idx : PrefixIndex) (links : List (Sigma fun _ : TokenId => Nat))
    (s : Nat) :
    (idx.reparent links s).namespace_roots = idx.namespace_roots ∧
    (idx.reparent links s).block_node_index = idx.block_node_index ∧
    (idx.reparent links s).block_size = idx.block_size := by
  induction links generalizing idx with
  | nil => exact ⟨rfl, rfl, rfl⟩
  | cons e es ih => exact ih (idx.modifyNode e.2 _)

-- Nothing but parents changes.
theorem reparent_node (idx : PrefixIndex) (links : List (Sigma fun _ : TokenId => Nat))
    (s j : Nat) :
    (idx.reparent links s).node j =
      { idx.node j with parent_idx := ((idx.reparent links s).node j).parent_idx } := by
  induction links generalizing idx with
  | nil => rfl
  | cons e es ih =>
      have := ih (idx.modifyNode e.2 fun n => { n with parent_idx := s })
      rw [node_modifyNode] at this
      simp only [reparent, List.foldl_cons] at this ⊢
      rw [this]
      split <;> rfl

theorem reparent_parent_of_not_mem (h : ∀ e ∈ links, e.2 ≠ j) :
    ((idx.reparent links s).node j).parent_idx = (idx.node j).parent_idx := by
  induction links generalizing idx with
  | nil => rfl
  | cons e es ih =>
      refine (ih fun e he => h e (List.mem_cons_of_mem _ he)).trans ?_
      rw [node_modifyNode_ne _ (h e (by simp)).symm]

theorem reparent_parent_of_mem (h : ∃ e ∈ links, e.2 = j) (hlen : j < idx.nodes.length) :
    ((idx.reparent links s).node j).parent_idx = s := by
  induction links generalizing idx with
  | nil => obtain ⟨_, he, -⟩ := h; cases he
  | cons e es ih =>
      by_cases hes : ∃ e ∈ es, e.2 = j
      · exact ih hes (by simpa using hlen)
      · -- the update by the head is the last one
        have hej : e.2 = j := by
          obtain ⟨e', he', hj⟩ := h
          rcases List.mem_cons.mp he' with rfl | he'
          · exact hj
          · exact absurd ⟨e', he', hj⟩ hes
        refine (reparent_parent_of_not_mem fun e' he' hj => hes ⟨e', he', hj⟩).trans ?_
        subst hej
        simp [hlen]

@[simp] theorem node_pointBlock (idx : PrefixIndex) (id : Option BlockId) (n j : Nat) :
    (idx.pointBlock id n).node j = idx.node j := rfl

theorem splitLower_fst (hroom : idx.nodes.length < 2 ^ 32) (m lcp : Nat) :
    (idx.splitLower m lcp).1 = idx.nodes.length := newNode_fst hroom

theorem splitLower_length (idx : PrefixIndex) (m lcp : Nat) :
    (idx.splitLower m lcp).2.nodes.length = idx.nodes.length + 1 :=
  (reparent_length _ _ _).trans (by simp)

theorem splitEdge_length (idx : PrefixIndex) (m lcp : Nat) :
    (idx.splitEdge m lcp).nodes.length = idx.nodes.length + 1 :=
  (modifyNode_length _ _ _).trans (splitLower_length idx m lcp)

theorem splitEdge_roots (idx : PrefixIndex) (m lcp : Nat) :
    (idx.splitEdge m lcp).namespace_roots = idx.namespace_roots :=
  (reparent_fields _ _ _).1

theorem splitEdge_block_size (idx : PrefixIndex) (m lcp : Nat) :
    (idx.splitEdge m lcp).block_size = idx.block_size :=
  (reparent_fields _ _ _).2.2

theorem splitEdge_index (hroom : idx.nodes.length < 2 ^ 32) (m lcp : Nat) :
    (idx.splitEdge m lcp).block_node_index =
      match (idx.node m).terminal_block with
      | some id => idx.block_node_index.insert id idx.nodes.length
      | none => idx.block_node_index := by
  cases h : (idx.node m).terminal_block <;>
    simp only [splitEdge, splitLower, pointBlock, modifyNode_index, reparent_fields,
      newNode_fst hroom, newNode_index, h]

-- The node that a split creates.
private abbrev lowerNode (idx : PrefixIndex) (m lcp : Nat) : Node where
  edge_tokens := (idx.node m).edge_tokens.drop lcp
  terminal_block := (idx.node m).terminal_block
  children := (idx.node m).children
  parent_idx := m
  first_edge_token := ((idx.node m).edge_tokens.drop lcp).headD 0

private theorem splitLower_node {m : Nat} (hroom : idx.nodes.length < 2 ^ 32) (lcp j : Nat) :
    (idx.splitLower m lcp).2.node j =
      { (if j = idx.nodes.length then lowerNode idx m lcp else idx.node j) with
        parent_idx := ((idx.splitLower m lcp).2.node j).parent_idx } ∧
    ((∀ t, (idx.node m).children.lookup t ≠ some j) →
      ((idx.splitLower m lcp).2.node j).parent_idx =
        if j = idx.nodes.length then m else (idx.node j).parent_idx) ∧
    (∀ t, (idx.node m).children.lookup t = some j → j < idx.nodes.length →
      ((idx.splitLower m lcp).2.node j).parent_idx = idx.nodes.length) := by
  have hfirst : (idx.newNode.2.modifyNode idx.newNode.1 fun n =>
      { n with
        edge_tokens := (idx.node m).edge_tokens.drop lcp
        terminal_block := (idx.node m).terminal_block
        children := (idx.node m).children
        parent_idx := m
        first_edge_token := ((idx.node m).edge_tokens.drop lcp).headD 0 }).node j =
      if j = idx.nodes.length then lowerNode idx m lcp else idx.node j := by
    rw [newNode_fst hroom]
    by_cases hj : j = idx.nodes.length
    · subst hj; simp
    · simp [hj]
  simp only [splitLower, node_pointBlock]
  refine ⟨?_, fun h => ?_, fun t ht hj => ?_⟩
  · rw [reparent_node, hfirst]
  · rw [reparent_parent_of_not_mem, hfirst]
    · split <;> rfl
    · rintro ⟨t, x⟩ he rfl
      exact h t (AList.mem_lookup_iff.mpr he)
  · rw [newNode_fst hroom]
    exact reparent_parent_of_mem ⟨⟨t, j⟩, AList.mem_lookup_iff.mp ht, rfl⟩ (by simp; omega)

theorem splitEdge_node {m : Nat} (hroom : idx.nodes.length < 2 ^ 32) (hm : m < idx.nodes.length)
    (lcp : Nat) (hlinked : ∀ {t x}, (idx.node m).children.lookup t = some x →
      x < idx.nodes.length ∧ x ≠ m) :
    (idx.splitEdge m lcp).node m = { idx.node m with
        edge_tokens := (idx.node m).edge_tokens.take lcp
        terminal_block := none
        children :=
          AList.insert (((idx.node m).edge_tokens.drop lcp).headD 0) idx.nodes.length ∅ } ∧
      (idx.splitEdge m lcp).node idx.nodes.length =
        { edge_tokens := (idx.node m).edge_tokens.drop lcp
          terminal_block := (idx.node m).terminal_block
          children := (idx.node m).children
          parent_idx := m
          first_edge_token := ((idx.node m).edge_tokens.drop lcp).headD 0 } ∧
      ∀ j, j ≠ m → j ≠ idx.nodes.length →
        (idx.splitEdge m lcp).node j = { idx.node j with
          parent_idx := ((idx.splitEdge m lcp).node j).parent_idx } ∧
        (∀ t, (idx.node m).children.lookup t = some j →
          ((idx.splitEdge m lcp).node j).parent_idx = idx.nodes.length) ∧
        ((∀ t, (idx.node m).children.lookup t ≠ some j) →
          ((idx.splitEdge m lcp).node j).parent_idx = (idx.node j).parent_idx) := by
  have hmid := splitLower_node (m := m) hroom lcp
  have hlen := splitLower_length idx m lcp
  have hne : m ≠ idx.nodes.length := Nat.ne_of_lt hm
  simp only [splitEdge, splitLower_fst hroom]
  refine ⟨?_, ?_, fun j hj hjs => ?_⟩
  · obtain ⟨h1, h2, -⟩ := hmid m
    rw [node_modifyNode_self (by omega), h1, h2 fun t ht => (hlinked ht).2 rfl]
    simp [hne]
  · obtain ⟨h1, h2, -⟩ := hmid idx.nodes.length
    rw [node_modifyNode_ne _ hne.symm, h1, h2 fun t ht => absurd (hlinked ht).1 (lt_irrefl _)]
    simp
  · obtain ⟨h1, h2, h3⟩ := hmid j
    rw [node_modifyNode_ne _ hj]
    rw [if_neg hjs] at h1
    refine ⟨h1, fun t ht => h3 t ht (hlinked ht).1, fun h => ?_⟩
    rw [h2 h, if_neg hjs]

-- The edges and the links after a split.
theorem splitEdge_shape {m : Nat} (hroom : idx.nodes.length < 2 ^ 32) (hm : m < idx.nodes.length)
    (lcp j : Nat) :
    ((idx.splitEdge m lcp).node j).edge_tokens =
        (if j = m then (idx.node m).edge_tokens.take lcp
          else if j = idx.nodes.length then (idx.node m).edge_tokens.drop lcp
          else (idx.node j).edge_tokens) ∧
      ((idx.splitEdge m lcp).node j).children =
        if j = m then
          AList.insert (((idx.node m).edge_tokens.drop lcp).headD 0) idx.nodes.length ∅
        else if j = idx.nodes.length then (idx.node m).children
        else (idx.node j).children := by
  have hlen := splitLower_length idx m lcp
  simp only [splitEdge, splitLower_fst hroom]
  by_cases hj : j = m
  · subst hj
    rw [node_modifyNode_self (by omega), if_pos rfl, if_pos rfl]
    exact ⟨rfl, rfl⟩
  · rw [node_modifyNode_ne _ hj, (splitLower_node (m := m) hroom lcp j).1, if_neg hj, if_neg hj]
    split <;> exact ⟨rfl, rfl⟩

end Split

section Cut

variable {n m : Nat} {c : CacheContextHash} {q e₁ e₂ : List TokenId} {t : TokenId}

-- The edge of `m`, which hangs below `n`, may be cut after `e₁`.
structure Cuttable (idx : PrefixIndex) (word : Words) (n m : Nat) (c : CacheContextHash)
    (q e₁ : List TokenId) (t : TokenId) (e₂ : List TokenId) : Prop where
  inv : idx.Inv word
  parent : word n = some (c, q)
  link : ∃ t₁, (idx.node n).children.lookup t₁ = some m
  edge : (idx.node m).edge_tokens = e₁ ++ t :: e₂
  upper : e₁ ≠ []
  room : idx.nodes.length < 2 ^ 32

-- The words after the cut.
abbrev splitWords (idx : PrefixIndex) (word : Words) (m : Nat) (c : CacheContextHash)
    (q e₁ : List TokenId) (t : TokenId) (e₂ : List TokenId) : Words :=
  ((idx.forest word).split m idx.nodes.length c q e₁ t e₂).word

namespace Cuttable

theorem live (h : idx.Cuttable word n m c q e₁ t e₂) :
    word m = some (c, q ++ e₁ ++ t :: e₂) := by
  obtain ⟨t₁, hlink⟩ := h.link
  rw [(h.inv.child_live h.parent hlink).1, h.edge, List.append_assoc]

theorem ne_new (h : idx.Cuttable word n m c q e₁ t e₂) {k : Nat}
    {w : CacheContextHash × List TokenId} (hk : word k = some w) : k ≠ idx.nodes.length :=
  Nat.ne_of_lt (h.inv.bound hk)

-- The nodes after the cut: of an old one at most the parent changes.
theorem node (h : idx.Cuttable word n m c q e₁ t e₂) :
    (idx.splitEdge m e₁.length).node m = { idx.node m with
        edge_tokens := e₁
        terminal_block := none
        children := AList.insert t idx.nodes.length ∅ } ∧
      (idx.splitEdge m e₁.length).node idx.nodes.length =
        { edge_tokens := t :: e₂
          terminal_block := (idx.node m).terminal_block
          children := (idx.node m).children
          parent_idx := m
          first_edge_token := t } ∧
      ∀ j, j ≠ m → j ≠ idx.nodes.length →
        (idx.splitEdge m e₁.length).node j = { idx.node j with
          parent_idx := ((idx.splitEdge m e₁.length).node j).parent_idx } ∧
        (∀ u, (idx.node m).children.lookup u = some j →
          ((idx.splitEdge m e₁.length).node j).parent_idx = idx.nodes.length) ∧
        ((∀ u, (idx.node m).children.lookup u ≠ some j) →
          ((idx.splitEdge m e₁.length).node j).parent_idx = (idx.node j).parent_idx) := by
  have hnode := splitEdge_node h.room (h.inv.bound h.live) e₁.length fun hx =>
    ⟨h.inv.bound (h.inv.child_live h.live hx).1, (h.inv.child_live h.live hx).2⟩
  rwa [h.edge, List.take_left, List.drop_left, List.headD_cons] at hnode

theorem node_upper (h : idx.Cuttable word n m c q e₁ t e₂) :
    (idx.splitEdge m e₁.length).node m = { idx.node m with
      edge_tokens := e₁
      terminal_block := none
      children := AList.insert t idx.nodes.length ∅ } := h.node.1

theorem node_lower (h : idx.Cuttable word n m c q e₁ t e₂) :
    (idx.splitEdge m e₁.length).node idx.nodes.length =
      { edge_tokens := t :: e₂
        terminal_block := (idx.node m).terminal_block
        children := (idx.node m).children
        parent_idx := m
        first_edge_token := t } := h.node.2.1

theorem node_other (h : idx.Cuttable word n m c q e₁ t e₂) {j : Nat} (hm : j ≠ m)
    (hs : j ≠ idx.nodes.length) :
    (idx.splitEdge m e₁.length).node j = { idx.node j with
      parent_idx := ((idx.splitEdge m e₁.length).node j).parent_idx } := (h.node.2.2 j hm hs).1

theorem links_upper (h : idx.Cuttable word n m c q e₁ t e₂) (u : TokenId) :
    ((idx.splitEdge m e₁.length).node m).children.lookup u =
      if u = t then some idx.nodes.length else none := by
  rw [h.node_upper]
  by_cases hu : u = t
  · rw [if_pos hu, hu, AList.lookup_insert]
  · rw [if_neg hu, AList.lookup_insert_ne hu]
    rfl

theorem forest_eq (h : idx.Cuttable word n m c q e₁ t e₂) :
    (idx.splitEdge m e₁.length).forest (idx.splitWords word m c q e₁ t e₂) =
      (idx.forest word).split m idx.nodes.length c q e₁ t e₂ := by
  simp only [forest, Forest.split, Forest.mk.injEq]
  refine ⟨rfl, ?_, ?_⟩
  · funext k
    by_cases hm : k = m
    · subst hm
      rw [h.node_upper, Function.update_self]
    · by_cases hs : k = idx.nodes.length
      · subst hs
        rw [h.node_lower, Function.update_of_ne hm, Function.update_self]
      · rw [h.node_other hm hs, Function.update_of_ne hm, Function.update_of_ne hs]
  · funext k u
    by_cases hm : k = m
    · subst hm
      rw [if_pos rfl, h.links_upper]
    · by_cases hs : k = idx.nodes.length
      · subst hs
        rw [if_neg hm, if_pos rfl, h.node_lower]
      · rw [if_neg hm, if_neg hs, h.node_other hm hs]

-- A link of an old node is answered as before; those of `m` went to the new node.
theorem link_kept (h : idx.Cuttable word n m c q e₁ t e₂) {k x : Nat}
    {w : CacheContextHash × List TokenId} {u : TokenId} (hkm : k ≠ m) (hk : word k = some w)
    (hx : (idx.node k).children.lookup u = some x) :
    ((idx.splitEdge m e₁.length).node x).parent_idx = k ∧
      ((idx.splitEdge m e₁.length).node x).first_edge_token = u := by
  have hback := h.inv.link_back hk hx
  by_cases hxm : x = m
  · subst hxm
    rw [h.node_upper]
    exact hback
  · have hxs : x ≠ idx.nodes.length := h.ne_new (h.inv.child_live hk hx).1
    have hother : ∀ u', (idx.node m).children.lookup u' ≠ some x := fun u' hu' =>
      hkm (hback.1.symm.trans (h.inv.link_back h.live hu').1)
    refine ⟨((h.node.2.2 x hxm hxs).2.2 hother).trans hback.1, ?_⟩
    rw [h.node_other hxm hxs]
    exact hback.2

theorem link_moved (h : idx.Cuttable word n m c q e₁ t e₂) {x : Nat} {u : TokenId}
    (hx : (idx.node m).children.lookup u = some x) :
    ((idx.splitEdge m e₁.length).node x).parent_idx = idx.nodes.length ∧
      ((idx.splitEdge m e₁.length).node x).first_edge_token = u := by
  obtain ⟨hword, hxm⟩ := h.inv.child_live h.live hx
  have hxs : x ≠ idx.nodes.length := h.ne_new hword
  refine ⟨(h.node.2.2 x hxm hxs).2.1 u hx, ?_⟩
  rw [h.node_other hxm hxs]
  exact (h.inv.link_back h.live hx).2

theorem edge_le (h : idx.Cuttable word n m c q e₁ t e₂) {k : Nat}
    {w : CacheContextHash × List TokenId} (hk : word k = some w) :
    ((idx.splitEdge m e₁.length).node k).edge_tokens.length ≤
      (idx.node k).edge_tokens.length := by
  by_cases hm : k = m
  · subst hm
    rw [h.node_upper, h.edge, List.length_append]
    exact Nat.le_add_right _ _
  · rw [h.node_other hm (h.ne_new hk)]

theorem root (h : idx.Cuttable word n m c q e₁ t e₂) {c' : CacheContextHash} {r : Nat} :
    (idx.splitEdge m e₁.length).namespace_roots.lookup c' = some r ↔
      idx.splitWords word m c q e₁ t e₂ r = some (c', []) := by
  rw [splitEdge_roots, h.inv.root, Forest.split_word]
  constructor
  · intro hr
    have hrm : r ≠ m := by
      rintro rfl
      rw [h.live] at hr
      simp at hr
    exact .inr (.inr ⟨hrm, h.ne_new hr, hr⟩)
  · rintro (⟨-, hw⟩ | ⟨-, -, hw⟩ | ⟨-, -, hr⟩)
    · simp [h.upper] at hw
    · simp at hw
    · exact hr

theorem root_parent (h : idx.Cuttable word n m c q e₁ t e₂) {c' : CacheContextHash} {r : Nat}
    (hr : idx.splitWords word m c q e₁ t e₂ r = some (c', [])) :
    ((idx.splitEdge m e₁.length).node r).parent_idx = INVALID_NODE := by
  rcases Forest.split_word.mp hr with ⟨-, hw⟩ | ⟨-, -, hw⟩ | ⟨hm, hs, hold⟩
  · simp [h.upper] at hw
  · simp at hw
  · -- a root is no child
    have hother : ∀ u, (idx.node m).children.lookup u ≠ some r := by
      intro u hu
      obtain ⟨e', -, hword⟩ := h.inv.wf.child_word (F := idx.forest word) h.live hu
      have hnil := hold.symm.trans hword
      simp at hnil
    rw [(h.node.2.2 r hm hs).2.2 hother]
    exact h.inv.root_parent hold

theorem link_back (h : idx.Cuttable word n m c q e₁ t e₂) {k x : Nat}
    {w : CacheContextHash × List TokenId} {u : TokenId}
    (hk : idx.splitWords word m c q e₁ t e₂ k = some w)
    (hx : ((idx.splitEdge m e₁.length).node k).children.lookup u = some x) :
    ((idx.splitEdge m e₁.length).node x).parent_idx = k ∧
      ((idx.splitEdge m e₁.length).node x).first_edge_token = u := by
  rcases Forest.split_word.mp hk with ⟨rfl, -⟩ | ⟨-, rfl, -⟩ | ⟨hm, hs, hold⟩
  · rw [h.links_upper] at hx
    split at hx
    · cases hx
      subst u
      rw [h.node_lower]
      exact ⟨rfl, rfl⟩
    · cases hx
  · rw [h.node_lower] at hx
    exact h.link_moved hx
  · rw [h.node_other hm hs] at hx
    exact h.link_kept hm hold hx

theorem in_block (h : idx.Cuttable word n m c q e₁ t e₂) {k x : Nat} {c' : CacheContextHash}
    {p : List TokenId} {u : TokenId} (hk : idx.splitWords word m c q e₁ t e₂ k = some (c', p))
    (hx : ((idx.splitEdge m e₁.length).node k).children.lookup u = some x) :
    p.length + ((idx.splitEdge m e₁.length).node x).edge_tokens.length ≤
      (p.length / idx.block_size + 1) * idx.block_size := by
  rcases Forest.split_word.mp hk with ⟨rfl, hw⟩ | ⟨-, rfl, hw⟩ | ⟨hm, hs, hold⟩
  · rw [h.links_upper] at hx
    split at hx
    · cases hx
      cases hw
      obtain ⟨t₁, hlink⟩ := h.link
      have hblk := h.inv.in_block h.parent hlink
      have hmono : q.length / idx.block_size ≤ (q ++ e₁).length / idx.block_size :=
        Nat.div_le_div_right (by simp)
      have hmul := Nat.mul_le_mul_right idx.block_size (Nat.add_le_add_right hmono 1)
      rw [h.edge] at hblk
      rw [h.node_lower]
      simp only [List.length_append, List.length_cons] at hblk hmul ⊢
      omega
    · cases hx
  · cases hw
    rw [h.node_lower] at hx
    have hblk := h.inv.in_block h.live hx
    have hle := h.edge_le (h.inv.child_live h.live hx).1
    omega
  · rw [h.node_other hm hs] at hx
    have hblk := h.inv.in_block hold hx
    have hle := h.edge_le (h.inv.child_live hold hx).1
    omega

-- The terminals after the cut: that of `m`, if there is one, went to the new node.
theorem terminal_iff (h : idx.Cuttable word n m c q e₁ t e₂) {k : Nat} {id : BlockId}
    {w : CacheContextHash × List TokenId} :
    (idx.splitWords word m c q e₁ t e₂ k = some w ∧
        ((idx.splitEdge m e₁.length).node k).terminal_block = some id) ↔
      (k = idx.nodes.length ∧ word m = some w ∧ (idx.node m).terminal_block = some id) ∨
        (k ≠ m ∧ word k = some w ∧ (idx.node k).terminal_block = some id) := by
  constructor
  · rintro ⟨hk, ht⟩
    rcases Forest.split_word.mp hk with ⟨rfl, -⟩ | ⟨-, rfl, rfl⟩ | ⟨hm, hs, hold⟩
    · rw [h.node_upper] at ht
      cases ht
    · rw [h.node_lower] at ht
      exact .inl ⟨rfl, h.live, ht⟩
    · rw [h.node_other hm hs] at ht
      exact .inr ⟨hm, hold, ht⟩
  · rintro (⟨rfl, hm, ht⟩ | ⟨hm, hk, ht⟩)
    · obtain rfl := Option.some.inj (h.live.symm.trans hm)
      refine ⟨Forest.split_word.mpr (.inr (.inl ⟨(h.ne_new h.live).symm, rfl, rfl⟩)), ?_⟩
      rw [h.node_lower]
      exact ht
    · refine ⟨Forest.split_word.mpr (.inr (.inr ⟨hm, h.ne_new hk, hk⟩)), ?_⟩
      rw [h.node_other hm (h.ne_new hk)]
      exact ht

theorem indexed (h : idx.Cuttable word n m c q e₁ t e₂) {k : Nat} {id : BlockId} :
    (idx.splitEdge m e₁.length).block_node_index.lookup id = some k ↔
      (∃ w, idx.splitWords word m c q e₁ t e₂ k = some w) ∧
        ((idx.splitEdge m e₁.length).node k).terminal_block = some id := by
  -- the entry of the block at `m`, if there is one, now names the new node
  have hlookup : (idx.splitEdge m e₁.length).block_node_index.lookup id = some k ↔
      (k = idx.nodes.length ∧ (idx.node m).terminal_block = some id) ∨
        ((idx.node m).terminal_block ≠ some id ∧ idx.block_node_index.lookup id = some k) := by
    rw [splitEdge_index h.room]
    cases hterm : (idx.node m).terminal_block with
    | none => simp
    | some id' =>
        by_cases hid : id = id'
        · subst hid
          simp [eq_comm]
        · simp [AList.lookup_insert_ne hid, Ne.symm hid]
  rw [hlookup, h.inv.indexed]
  constructor
  · rintro (⟨rfl, ht⟩ | ⟨ht, ⟨w, hk⟩, hkt⟩)
    · obtain ⟨hs, hst⟩ := h.terminal_iff.mpr (.inl ⟨rfl, h.live, ht⟩)
      exact ⟨⟨_, hs⟩, hst⟩
    · have hm : k ≠ m := by
        rintro rfl
        exact ht hkt
      obtain ⟨hk, hkt⟩ := h.terminal_iff.mpr (.inr ⟨hm, hk, hkt⟩)
      exact ⟨⟨w, hk⟩, hkt⟩
  · rintro ⟨⟨w, hk⟩, hkt⟩
    rcases h.terminal_iff.mp ⟨hk, hkt⟩ with ⟨rfl, -, ht⟩ | ⟨hm, hk, hkt⟩
    · exact .inl ⟨rfl, ht⟩
    · refine .inr ⟨fun ht => hm ?_, ⟨w, hk⟩, hkt⟩
      exact Option.some.inj ((h.inv.indexed.mpr ⟨⟨w, hk⟩, hkt⟩).symm.trans
        (h.inv.indexed.mpr ⟨⟨_, h.live⟩, ht⟩))

theorem splitEdge_inv (h : idx.Cuttable word n m c q e₁ t e₂) :
    (idx.splitEdge m e₁.length).Inv (idx.splitWords word m c q e₁ t e₂) := by
  refine ⟨?_, fun {k w} hk => ?_, h.root, h.root_parent, h.link_back, fun hk hx => ?_,
    fun hk ht => ?_, h.indexed⟩
  · obtain ⟨t₁, hlink⟩ := h.link
    rw [h.forest_eq]
    exact h.inv.wf.split (F := idx.forest word) h.parent hlink h.edge h.upper
      (h.inv.dead (le_refl _))
  · rw [splitEdge_length]
    rcases Forest.split_word.mp hk with ⟨rfl, -⟩ | ⟨-, rfl, -⟩ | ⟨-, -, hold⟩
    · exact Nat.lt_succ_of_lt (h.inv.bound h.live)
    · exact Nat.lt_succ_self _
    · exact Nat.lt_succ_of_lt (h.inv.bound hold)
  · rw [splitEdge_block_size]
    exact h.in_block hk hx
  · rw [splitEdge_block_size]
    rcases h.terminal_iff.mp ⟨hk, ht⟩ with ⟨-, hold, ht⟩ | ⟨-, hold, ht⟩
    · exact h.inv.aligned hold ht
    · exact h.inv.aligned hold ht

theorem noDeadEnd (h : idx.Cuttable word n m c q e₁ t e₂) (hd : idx.NoDeadEnd word none) :
    (idx.splitEdge m e₁.length).NoDeadEnd (idx.splitWords word m c q e₁ t e₂) none := by
  intro k c' p hk hp hx ht
  rcases Forest.split_word.mp hk with ⟨rfl, -⟩ | ⟨-, rfl, -⟩ | ⟨hm, hs, hold⟩
  · exact ⟨t, idx.nodes.length, by rw [h.links_upper, if_pos rfl]⟩
  · rw [h.node_lower] at ht ⊢
    exact hd m _ _ h.live (by simp) (by simp) ht
  · rw [h.node_other hm hs] at ht ⊢
    exact hd k c' p hold hp hx ht

theorem holds (h : idx.Cuttable word n m c q e₁ t e₂) (hM : idx.Holds word M) :
    (idx.splitEdge m e₁.length).Holds (idx.splitWords word m c q e₁ t e₂) M := by
  intro c' p id
  rw [hM c' p id]
  simp only [h.terminal_iff]
  constructor
  · rintro ⟨k, hk, ht⟩
    by_cases hm : k = m
    · subst hm
      exact ⟨idx.nodes.length, .inl ⟨rfl, hk, ht⟩⟩
    · exact ⟨k, .inr ⟨hm, hk, ht⟩⟩
  · rintro ⟨k, ⟨-, hk, ht⟩ | ⟨-, hk, ht⟩⟩
    · exact ⟨m, hk, ht⟩
    · exact ⟨k, hk, ht⟩

end Cuttable

-- Cutting an edge inside moves no terminal to another word.
theorem splitEdge_inv (hi : idx.Inv word) (hd : idx.NoDeadEnd word none) (hM : idx.Holds word M)
    {t₁ : TokenId} {lcp : Nat} (hn : word n = some (c, q))
    (hc : (idx.node n).children.lookup t₁ = some m) (hpos : 0 < lcp)
    (hlt : lcp < (idx.node m).edge_tokens.length) (hroom : idx.nodes.length < 2 ^ 32) :
    ∃ word', (idx.splitEdge m lcp).Inv word' ∧ (idx.splitEdge m lcp).NoDeadEnd word' none ∧
      (idx.splitEdge m lcp).Holds word' M ∧
      word' m = some (c, q ++ (idx.node m).edge_tokens.take lcp) := by
  obtain ⟨t, e₂, hdrop⟩ := List.exists_cons_of_length_pos
    (by rw [List.length_drop]; omega : 0 < ((idx.node m).edge_tokens.drop lcp).length)
  have hlen : ((idx.node m).edge_tokens.take lcp).length = lcp := by
    rw [List.length_take]
    omega
  have hupper : (idx.node m).edge_tokens.take lcp ≠ [] :=
    List.ne_nil_of_length_pos (by rw [hlen]; exact hpos)
  have hedge : (idx.node m).edge_tokens = (idx.node m).edge_tokens.take lcp ++ t :: e₂ := by
    rw [← hdrop, List.take_append_drop]
  have h : idx.Cuttable word n m c q ((idx.node m).edge_tokens.take lcp) t e₂ :=
    ⟨hi, hn, ⟨t₁, hc⟩, hedge, hupper, hroom⟩
  have hinv := h.splitEdge_inv
  have hdead := h.noDeadEnd hd
  have hholds := h.holds hM
  rw [hlen] at hinv hdead hholds
  exact ⟨_, hinv, hdead, hholds, Forest.split_word.mpr (.inl ⟨rfl, rfl⟩)⟩

end Cut

section Claim

theorem claimTerminal_node {n : Nat} (hn : n < idx.nodes.length)
    (hterm : (idx.node n).terminal_block = none) (block : BlockId) (j : Nat) :
    (idx.claimTerminal n block).node j =
      if j = n then { idx.node n with terminal_block := some block } else idx.node j := by
  have hnode : ∀ (i : PrefixIndex) (m : UnorderedMap BlockId Nat) (j : Nat),
      PrefixIndex.node { i with block_node_index := m } j = i.node j := fun _ _ _ => rfl
  simp only [claimTerminal, hterm, hnode, node_modifyNode]
  by_cases hj : j = n
  · subst hj; simp [hn]
  · simp [hj]

theorem claimTerminal_fields (idx : PrefixIndex) (n : Nat) (block : BlockId) :
    (idx.claimTerminal n block).nodes.length = idx.nodes.length ∧
      (idx.claimTerminal n block).namespace_roots = idx.namespace_roots ∧
      (idx.claimTerminal n block).block_size = idx.block_size := by
  unfold claimTerminal
  split <;> simp

section

variable {n : Nat} {c : CacheContextHash} {p : List TokenId} {block : BlockId}

-- Only the terminal of `n` changes.
theorem claimTerminal_keeps (hn : n < idx.nodes.length)
    (hterm : (idx.node n).terminal_block = none) (block : BlockId) (m : Nat) :
    (idx.claimTerminal n block).node m = { idx.node m with
      terminal_block := ((idx.claimTerminal n block).node m).terminal_block } := by
  rw [claimTerminal_node hn hterm]
  by_cases hm : m = n
  · rw [if_pos hm, hm]
  · rw [if_neg hm]

theorem claimTerminal_forest (hn : n < idx.nodes.length)
    (hterm : (idx.node n).terminal_block = none) (block : BlockId) (word : Words) :
    (idx.claimTerminal n block).forest word = idx.forest word := by
  simp only [forest, Forest.mk.injEq, true_and]
  constructor
  · funext m
    rw [claimTerminal_keeps hn hterm]
  · funext m t
    rw [claimTerminal_keeps hn hterm]

theorem claimTerminal_addsTerminal (hi : idx.Inv word) (hn : word n = some (c, p))
    (hterm : (idx.node n).terminal_block = none) (block : BlockId) :
    AddsTerminal idx word (idx.claimTerminal n block) word n c p block := by
  refine ⟨fun {k w id} => ?_, by simp only [claimTerminal, hterm]⟩
  rw [claimTerminal_node (hi.bound hn) hterm]
  by_cases hk : k = n
  · subst hk
    simp [hn, hterm, eq_comm]
  · simp [hk]

theorem claimTerminal_new_inv (hi : idx.Inv word) (hM : idx.Holds word M)
    (hn : word n = some (c, p)) (hp : p ≠ []) (hdvd : idx.block_size ∣ p.length)
    (hterm : (idx.node n).terminal_block = none) (hfresh : ∀ c' p', M c' p' ≠ some block) :
    (idx.claimTerminal n block).Inv word := by
  obtain ⟨hlen, hroots, hbs⟩ := claimTerminal_fields idx n block
  have hkeep := claimTerminal_keeps (hi.bound hn) hterm block
  have hadds := claimTerminal_addsTerminal hi hn hterm block
  refine ⟨?_, fun hm => ?_, ?_, fun {c' r} hr => ?_, fun {m w t x} hm hx => ?_,
    fun {m c' q t x} hm hx => ?_, fun hm ht => ?_, hadds.indexed hi hM hfresh⟩
  · rw [claimTerminal_forest (hi.bound hn) hterm]
    exact hi.wf
  · rw [hlen]
    exact hi.bound hm
  · rw [hroots]
    exact hi.root
  · rw [hkeep]
    exact hi.root_parent hr
  · rw [hkeep] at hx ⊢
    exact hi.link_back hm hx
  · rw [hkeep] at hx ⊢
    rw [hbs]
    exact hi.in_block hm hx
  · rw [hbs]
    exact hadds.aligned hi hp hdvd hm ht

-- The end of a block defines its key, unless the node has a terminal already.
theorem claimTerminal_inv (hi : idx.Inv word) (hd : idx.NoDeadEnd word none)
    (hM : idx.Holds word M) (hn : word n = some (c, p)) (hp : p ≠ [])
    (hdvd : idx.block_size ∣ p.length) (hfresh : M c p = none → ∀ c' p', M c' p' ≠ some block) :
    (idx.claimTerminal n block).Inv word ∧ (idx.claimTerminal n block).NoDeadEnd word none ∧
      (idx.claimTerminal n block).Holds word (M.define c p block) := by
  cases hterm : (idx.node n).terminal_block with
  | some id =>
      have hsame : idx.claimTerminal n block = idx := by simp only [claimTerminal, hterm]
      rw [hsame, PrefixMap.define_of_some ((hM c p id).mpr ⟨n, hn, hterm⟩)]
      exact ⟨hi, hd, hM⟩
  | none =>
      have hundef : M c p = none := (hi.holds_at hM hn).trans hterm
      have hadds := claimTerminal_addsTerminal hi hn hterm block
      refine ⟨claimTerminal_new_inv hi hM hn hp hdvd hterm (hfresh hundef),
        fun m c' q hm hq hx ht => ?_, hadds.holds hM hundef⟩
      -- a node without a terminal had none before
      have hnone : (idx.node m).terminal_block = none := by
        cases hid : (idx.node m).terminal_block with
        | none => rfl
        | some id =>
            rw [(hadds.terminal.mpr (.inr ⟨hm, hid⟩)).2] at ht
            cases ht
      rw [claimTerminal_keeps (hi.bound hn) hterm]
      exact hd m c' q hm hq hx hnone

end

end Claim

end KVCache.Prefix.PrefixIndex
