import KVCache.Lib.Forest
import KVCache.Lib.PrefixMap
import KVCache.Prefix.PrefixIndex

namespace KVCache.Prefix

open KVCache.Lib

-- The word that each live node spells: a namespace and the tokens on its path.
abbrev Words := Nat → Option (CacheContextHash × List TokenId)

namespace PrefixIndex

-- The radix forest laid out in the node vector.
def forest (idx : PrefixIndex) (word : Words) : Forest CacheContextHash TokenId where
  word := word
  edge n := (idx.node n).edge_tokens
  child n t := (idx.node n).children.lookup t

structure Inv (idx : PrefixIndex) (word : Words) : Prop where
  wf : (idx.forest word).Wf
  bound : ∀ {n w}, word n = some w → n < idx.nodes.length
  root : ∀ {c r}, idx.namespace_roots.lookup c = some r ↔ word r = some (c, [])
  root_parent : ∀ {c r}, word r = some (c, []) → (idx.node r).parent_idx = INVALID_NODE
  link_back : ∀ {n w t m}, word n = some w → (idx.node n).children.lookup t = some m →
    (idx.node m).parent_idx = n ∧ (idx.node m).first_edge_token = t
  in_block : ∀ {n c p t m}, word n = some (c, p) → (idx.node n).children.lookup t = some m →
    p.length + (idx.node m).edge_tokens.length ≤ (p.length / idx.block_size + 1) * idx.block_size
  aligned : ∀ {n c p id}, word n = some (c, p) → (idx.node n).terminal_block = some id →
    p ≠ [] ∧ idx.block_size ∣ p.length
  indexed : ∀ {n id}, idx.block_node_index.lookup id = some n ↔
    (∃ w, word n = some w) ∧ (idx.node n).terminal_block = some id

-- Below a root, a node without a terminal has a child; `x` may be an exception.
def NoDeadEnd (idx : PrefixIndex) (word : Words) (x : Option Nat) : Prop :=
  ∀ n c p, word n = some (c, p) → p ≠ [] → some n ≠ x →
    (idx.node n).terminal_block = none → ∃ t m, (idx.node n).children.lookup t = some m

-- The terminals on live nodes are the entries of `M`.
def Holds (idx : PrefixIndex) (word : Words) (M : PrefixMap CacheContextHash TokenId BlockId) :
    Prop :=
  ∀ c p id, M c p = some id ↔
    ∃ n, word n = some (c, p) ∧ (idx.node n).terminal_block = some id

-- The index is a well-formed layout of the map `M`.
def Represents (idx : PrefixIndex) (M : PrefixMap CacheContextHash TokenId BlockId) : Prop :=
  ∃ word, idx.Inv word ∧ idx.NoDeadEnd word none ∧ idx.Holds word M

section Nodes

@[simp] theorem node_modifyNode (idx : PrefixIndex) (i : Nat) (f : Node → Node) (j : Nat) :
    (idx.modifyNode i f).node j =
      if j = i ∧ i < idx.nodes.length then f (idx.node j) else idx.node j := by
  unfold node modifyNode
  by_cases hij : j = i
  · subst hij
    by_cases hj : j < idx.nodes.length
    · simp [List.getD_eq_getElem?_getD, hj]
    · simp [List.getD_eq_getElem?_getD, hj]
  · simp [List.getD_eq_getElem?_getD, Ne.symm hij, hij]

theorem node_modifyNode_self {idx : PrefixIndex} {i : Nat} (h : i < idx.nodes.length)
    (f : Node → Node) : (idx.modifyNode i f).node i = f (idx.node i) := by
  simp [h]

theorem node_modifyNode_ne (idx : PrefixIndex) {i j : Nat} (h : j ≠ i) (f : Node → Node) :
    (idx.modifyNode i f).node j = idx.node j := by
  simp [h]

@[simp] theorem modifyNode_length (idx : PrefixIndex) (i : Nat) (f : Node → Node) :
    (idx.modifyNode i f).nodes.length = idx.nodes.length := by
  simp [modifyNode]

@[simp] theorem modifyNode_roots (idx : PrefixIndex) (i : Nat) (f : Node → Node) :
    (idx.modifyNode i f).namespace_roots = idx.namespace_roots := rfl

@[simp] theorem modifyNode_index (idx : PrefixIndex) (i : Nat) (f : Node → Node) :
    (idx.modifyNode i f).block_node_index = idx.block_node_index := rfl

@[simp] theorem modifyNode_block_size (idx : PrefixIndex) (i : Nat) (f : Node → Node) :
    (idx.modifyNode i f).block_size = idx.block_size := rfl

-- The node past the end reads as a default node, so a new node changes no read.
@[simp] theorem node_newNode (idx : PrefixIndex) (j : Nat) : idx.newNode.2.node j = idx.node j := by
  unfold node newNode
  simp only [List.getD_eq_getElem?_getD, List.getElem?_append]
  split
  · rfl
  · rename_i h
    have hout : idx.nodes[j]? = none := List.getElem?_eq_none (by omega)
    rw [hout]
    cases j - idx.nodes.length <;> simp

@[simp] theorem newNode_length (idx : PrefixIndex) :
    idx.newNode.2.nodes.length = idx.nodes.length + 1 := by
  simp [newNode]

@[simp] theorem newNode_roots (idx : PrefixIndex) :
    idx.newNode.2.namespace_roots = idx.namespace_roots := rfl

@[simp] theorem newNode_index (idx : PrefixIndex) :
    idx.newNode.2.block_node_index = idx.block_node_index := rfl

@[simp] theorem newNode_block_size (idx : PrefixIndex) :
    idx.newNode.2.block_size = idx.block_size := rfl

theorem newNode_fst {idx : PrefixIndex} (h : idx.nodes.length < 2 ^ 32) :
    idx.newNode.1 = idx.nodes.length := Nat.mod_eq_of_lt h

theorem node_of_length_le {idx : PrefixIndex} {n : Nat} (h : idx.nodes.length ≤ n) :
    idx.node n = {} := by
  simp [node, List.getD_eq_getElem?_getD, List.getElem?_eq_none h]

end Nodes

theorem Inv.dead {idx : PrefixIndex} {word : Words} (hi : idx.Inv word) {n : Nat}
    (h : idx.nodes.length ≤ n) : word n = none := by
  cases hn : word n with
  | none => rfl
  | some w => exact absurd (hi.bound hn) (by omega)

-- A child of a live node is a live node, and another one.
theorem Inv.child_live {idx : PrefixIndex} {word : Words} (hi : idx.Inv word) {n m : Nat}
    {w : CacheContextHash × List TokenId} {t : TokenId} (hn : word n = some w)
    (hm : (idx.node n).children.lookup t = some m) :
    word m = some (w.1, w.2 ++ (idx.node m).edge_tokens) ∧ m ≠ n :=
  ⟨hi.wf.word_edge (F := idx.forest word) hn hm, hi.wf.child_ne (F := idx.forest word) hn hm⟩

-- What the map says about the word of a node is the node's terminal.
theorem Inv.holds_at {idx : PrefixIndex} {word : Words} (hi : idx.Inv word)
    {M : PrefixMap CacheContextHash TokenId BlockId} (hM : idx.Holds word M) {n : Nat}
    {c : CacheContextHash} {p : List TokenId} (hn : word n = some (c, p)) :
    M c p = (idx.node n).terminal_block := by
  refine Option.ext fun id => ?_
  rw [hM c p id]
  constructor
  · rintro ⟨m, hm, ht⟩
    rwa [hi.wf.word_inj (F := idx.forest word) hm hn] at ht
  · exact fun ht => ⟨n, hn, ht⟩

theorem empty_represents (b : Nat) :
    ({ block_size := b } : PrefixIndex).Represents PrefixMap.empty := by
  refine ⟨fun _ => none, ?_, ?_, ?_⟩
  · refine ⟨⟨?_, ?_, ?_⟩, ?_, ?_, ?_, ?_, ?_, ?_, ?_⟩ <;> simp [forest]
  · intro n c p h; cases h
  · intro c p id; simp [PrefixMap.empty]

-- A represented map names no block twice.
theorem Represents.injective {idx : PrefixIndex} {M : PrefixMap CacheContextHash TokenId BlockId}
    (h : idx.Represents M) : M.Injective := by
  obtain ⟨word, hi, -, hM⟩ := h
  intro c p c' p' id h1 h2
  obtain ⟨n, hn, ht⟩ := (hM c p id).mp h1
  obtain ⟨n', hn', ht'⟩ := (hM c' p' id).mp h2
  have hnn : n = n' :=
    Option.some.inj ((hi.indexed.mpr ⟨⟨_, hn⟩, ht⟩).symm.trans (hi.indexed.mpr ⟨⟨_, hn'⟩, ht'⟩))
  subst hnn
  rw [hn] at hn'
  cases hn'
  exact ⟨rfl, rfl⟩

-- The edges from the root of `c` to node `n` spell `p`.
inductive Spells (idx : PrefixIndex) (c : CacheContextHash) : List TokenId → Nat → Prop
  | root {r : Nat} (h : idx.namespace_roots.lookup c = some r) : Spells idx c [] r
  | child {p : List TokenId} {n m : Nat} {t : TokenId} (h : Spells idx c p n)
      (hc : (idx.node n).children.lookup t = some m) :
      Spells idx c (p ++ (idx.node m).edge_tokens) m

-- The block is the terminal of the prefix `p` under `c`.
def Terminal (idx : PrefixIndex) (c : CacheContextHash) (p : List TokenId) (id : BlockId) : Prop :=
  ∃ n, idx.Spells c p n ∧ (idx.node n).terminal_block = some id

theorem Inv.spells_iff {idx : PrefixIndex} {word : Words} (hi : idx.Inv word)
    {c : CacheContextHash} {p : List TokenId} {n : Nat} :
    idx.Spells c p n ↔ word n = some (c, p) := by
  constructor
  · intro h
    induction h with
    | root h => exact hi.root.mp h
    | child _ hc ih =>
        obtain ⟨e, he, hword⟩ := hi.wf.child_word ih hc
        have hedge : (idx.node _).edge_tokens = _ := he
        rw [hedge]
        exact hword
  · intro h
    -- on the length of the word: the parent of a node below the root spells less
    induction hl : p.length using Nat.strong_induction_on generalizing p n with
    | _ len ih =>
        by_cases hp : p = []
        · subst hp
          exact .root (hi.root.mpr h)
        · obtain ⟨m, q, t, e, hm, hc, he, rfl⟩ := hi.wf.parent_exists h hp
          have hedge : (idx.node n).edge_tokens = t :: e := he
          have hparent := ih q.length (by rw [← hl]; simp) hm rfl
          rw [← hedge]
          exact .child hparent hc

-- The entries of the represented map are the terminals of the tree.
theorem Represents.terminal_iff {idx : PrefixIndex}
    {M : PrefixMap CacheContextHash TokenId BlockId} (h : idx.Represents M) {c : CacheContextHash}
    {p : List TokenId} {id : BlockId} : idx.Terminal c p id ↔ M c p = some id := by
  obtain ⟨word, hi, -, hM⟩ := h
  rw [hM]
  exact exists_congr fun n => and_congr_left fun _ => hi.spells_iff

end PrefixIndex

end KVCache.Prefix
