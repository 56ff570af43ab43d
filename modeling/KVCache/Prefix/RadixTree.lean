import KVCache.Prefix.Refinement

namespace KVCache.Prefix.PrefixIndex

open KVCache.Lib

variable {idx : PrefixIndex} {word : Words} {M : PrefixMap CacheContextHash TokenId BlockId}

def Reachable (idx : PrefixIndex) (n : Nat) : Prop := ∃ c p, idx.Spells c p n

-- A link out of a reachable node.
def Link (idx : PrefixIndex) (n m : Nat) : Prop :=
  idx.Reachable n ∧ ∃ t, (idx.node n).children.lookup t = some m

def IsRoot (idx : PrefixIndex) (n : Nat) : Prop := ∃ c, idx.namespace_roots.lookup c = some n

-- What holds of the nodes that the namespace roots reach, for blocks of `b` tokens.
structure RadixTree (b : Nat) (idx : PrefixIndex) : Prop where
  allocated : ∀ {n}, idx.Reachable n → n < idx.nodes.length
  -- the edge into a node hangs where the node says that it does
  edge : ∀ {n}, idx.Reachable n → ¬ idx.IsRoot n →
    idx.Link (idx.node n).parent_idx n ∧
      (idx.node (idx.node n).parent_idx).children.lookup (idx.node n).first_edge_token = some n ∧
      (idx.node n).edge_tokens.head? = some (idx.node n).first_edge_token
  link : ∀ {n m t}, idx.Reachable n → (idx.node n).children.lookup t = some m →
    (idx.node m).parent_idx = n ∧ (idx.node m).first_edge_token = t
  -- the nodes form a forest
  root_parent : ∀ {n}, idx.IsRoot n → (idx.node n).parent_idx = INVALID_NODE
  root_unique : ∀ {n c c'}, idx.namespace_roots.lookup c = some n →
    idx.namespace_roots.lookup c' = some n → c = c'
  root_top : ∀ {n m}, idx.IsRoot m → ¬ idx.Link n m
  parent_unique : ∀ {n n' m}, idx.Link n m → idx.Link n' m → n = n'
  path_unique : ∀ {n c c' p p'}, idx.Spells c p n → idx.Spells c' p' n → c = c' ∧ p = p'
  acyclic : ∀ n, ¬ Relation.TransGen idx.Link n n
  -- block boundaries
  in_block : ∀ {n c p m t}, idx.Spells c p n → (idx.node n).children.lookup t = some m →
    p.length + (idx.node m).edge_tokens.length ≤ (p.length / b + 1) * b
  aligned : ∀ {n c p}, idx.Spells c p n → (idx.node n).terminal_block.isSome →
    0 < p.length ∧ b ∣ p.length
  -- no dead branch, and the blocks are found where they are
  alive : ∀ {n}, idx.Reachable n → ¬ idx.IsRoot n → (idx.node n).terminal_block = none →
    ∃ m, idx.Link n m
  indexed : ∀ {n id}, idx.block_node_index.lookup id = some n ↔
    idx.Reachable n ∧ (idx.node n).terminal_block = some id

section Tree

theorem Inv.reachable_iff (hi : idx.Inv word) {n : Nat} :
    idx.Reachable n ↔ ∃ w, word n = some w := by
  constructor
  · rintro ⟨c, p, h⟩
    exact ⟨(c, p), hi.spells_iff.mp h⟩
  · rintro ⟨⟨c, p⟩, h⟩
    exact ⟨c, p, hi.spells_iff.mpr h⟩

theorem Inv.isRoot_iff (hi : idx.Inv word) {n : Nat} {c : CacheContextHash} {p : List TokenId}
    (hn : word n = some (c, p)) : idx.IsRoot n ↔ p = [] := by
  constructor
  · rintro ⟨c', hroot⟩
    rw [hi.root.mp hroot] at hn
    exact (Prod.mk.inj (Option.some.inj hn)).2.symm
  · rintro rfl
    exact ⟨c, hi.root.mpr hn⟩

-- A link leads to a longer path in the same namespace.
theorem Inv.link_word (hi : idx.Inv word) {n m : Nat} (h : idx.Link n m) :
    ∃ c p q, word n = some (c, p) ∧ word m = some (c, q) ∧ p.length < q.length := by
  obtain ⟨⟨c, p, hn⟩, t, hm⟩ := h
  have hn := hi.spells_iff.mp hn
  obtain ⟨e, -, hword⟩ := hi.wf.child_word (F := idx.forest word) hn hm
  exact ⟨c, p, p ++ t :: e, hn, hword, by simp⟩

theorem Inv.links_word (hi : idx.Inv word) {n m : Nat} (h : Relation.TransGen idx.Link n m) :
    ∃ c p q, word n = some (c, p) ∧ word m = some (c, q) ∧ p.length < q.length := by
  induction h with
  | single h => exact hi.link_word h
  | tail _ hlast ih =>
      obtain ⟨c, p, q, hn, hk, hlt⟩ := ih
      obtain ⟨c', q', r, hk', hm, hlt'⟩ := hi.link_word hlast
      obtain ⟨rfl, rfl⟩ := Prod.mk.inj (Option.some.inj (hk.symm.trans hk'))
      exact ⟨c, p, r, hn, hm, by omega⟩

theorem Represents.radixTree (hr : idx.Represents M) : idx.RadixTree idx.block_size := by
  obtain ⟨word, hi, hd, -⟩ := hr
  have hparent : ∀ {n m}, idx.Link n m → (idx.node m).parent_idx = n := by
    rintro n m ⟨hn, t, hm⟩
    obtain ⟨w, hn⟩ := hi.reachable_iff.mp hn
    exact (hi.link_back hn hm).1
  refine
    { allocated := fun hn => ?_, edge := fun {n} hn hroot => ?_, link := fun hn hm => ?_,
      root_parent := fun {n} hroot => ?_, root_unique := fun h h' => ?_,
      root_top := fun {n m} hroot hlink => ?_, parent_unique := fun h h' => ?_,
      path_unique := fun h h' => ?_, acyclic := fun n hcycle => ?_, in_block := fun h hm => ?_,
      aligned := fun {n c p} h hterm => ?_, alive := fun {n} hn hroot hterm => ?_,
      indexed := fun {n id} => ?_ }
  · obtain ⟨w, hn⟩ := hi.reachable_iff.mp hn
    exact hi.bound hn
  · obtain ⟨⟨c, p⟩, hn⟩ := hi.reachable_iff.mp hn
    have hp : p ≠ [] := fun hp => hroot ((hi.isRoot_iff hn).mpr hp)
    obtain ⟨m, q, t, e, hm, hc, he, -⟩ := hi.wf.parent_exists (F := idx.forest word) hn hp
    obtain ⟨hback, hfirst⟩ := hi.link_back hm hc
    have hedge : (idx.node n).edge_tokens = t :: e := he
    rw [hback, hfirst, hedge]
    exact ⟨⟨hi.reachable_iff.mpr ⟨_, hm⟩, t, hc⟩, hc, rfl⟩
  · obtain ⟨w, hn⟩ := hi.reachable_iff.mp hn
    exact hi.link_back hn hm
  · obtain ⟨c, hroot⟩ := hroot
    exact hi.root_parent (hi.root.mp hroot)
  · have heq := (hi.root.mp h).symm.trans (hi.root.mp h')
    exact (Prod.mk.inj (Option.some.inj heq)).1
  · obtain ⟨c, p, q, -, hm, hlt⟩ := hi.link_word hlink
    have hq := (hi.isRoot_iff hm).mp hroot
    subst hq
    exact absurd hlt (Nat.not_lt_zero _)
  · exact (hparent h).symm.trans (hparent h')
  · have heq := (hi.spells_iff.mp h).symm.trans (hi.spells_iff.mp h')
    exact Prod.mk.inj (Option.some.inj heq)
  · obtain ⟨c, p, q, hn, hn', hlt⟩ := hi.links_word hcycle
    have hpq := (Prod.mk.inj (Option.some.inj (hn.symm.trans hn'))).2
    subst hpq
    exact lt_irrefl _ hlt
  · exact hi.in_block (hi.spells_iff.mp h) hm
  · obtain ⟨id, hterm⟩ := Option.isSome_iff_exists.mp hterm
    obtain ⟨hne, hdvd⟩ := hi.aligned (hi.spells_iff.mp h) hterm
    exact ⟨List.length_pos_iff.mpr hne, hdvd⟩
  · obtain ⟨⟨c, p⟩, hword⟩ := hi.reachable_iff.mp hn
    have hp : p ≠ [] := fun hp => hroot ((hi.isRoot_iff hword).mpr hp)
    obtain ⟨t, m, hm⟩ := hd n c p hword hp (by simp) hterm
    exact ⟨m, hn, t, hm⟩
  · rw [hi.indexed, hi.reachable_iff]

end Tree

section Blocks

variable {b : Nat} {c : CacheContextHash} {tokens : List TokenId} {blocks : List BlockId}

-- The cursor of `insert` before block `k`.
def insertCursor (idx : PrefixIndex) (c : CacheContextHash) (tokens : List TokenId)
    (blocks : List BlockId) (k : Nat) : Cursor :=
  insertBlocks tokens 0 (blocks.take k) (idx.insertStart c)

-- Each block takes the cursor on by the passes of its segment.
theorem insertCursor_passes (hr : idx.Represents M) (hb : 0 < idx.block_size)
    (htokens : blocks.length * idx.block_size ≤ tokens.length)
    (hok : PrefixMap.DefineOk idx.block_size M c tokens 0 blocks)
    (hroom : (idx.insert c tokens blocks).nodes.length < 2 ^ 32) {k : Nat}
    (hk : k < blocks.length) :
    Passes tokens blocks[k] ((k + 1) * idx.block_size) (idx.insertCursor c tokens blocks k)
        (idx.insertCursor c tokens blocks (k + 1)) ∧
      (idx.insertCursor c tokens blocks (k + 1)).pos = (k + 1) * idx.block_size := by
  have hne : blocks ≠ [] := List.ne_nil_of_length_pos (by omega)
  have hsplit : blocks = blocks.take k ++ (blocks[k] :: blocks.drop (k + 1)) := by
    rw [← List.drop_eq_getElem_cons hk, List.take_append_drop]
  have hlen : (blocks.take k).length = k := List.length_take_of_le (by omega)
  have hnext : idx.insertCursor c tokens blocks (k + 1) =
      insertBlocks tokens k [blocks[k]] (idx.insertCursor c tokens blocks k) := by
    unfold insertCursor
    rw [List.take_succ_eq_append_getElem hk, insertBlocks_append, Nat.zero_add, hlen]
  -- the index never shrinks, so there is room all along
  rw [insert_eq idx c tokens hne] at hroom
  have hmono : (idx.insertCursor c tokens blocks (k + 1)).index.nodes.length < 2 ^ 32 := by
    have hall : blocks = blocks.take (k + 1) ++ blocks.drop (k + 1) :=
      (List.take_append_drop (k + 1) blocks).symm
    rw [hall, insertBlocks_append] at hroom
    exact lt_of_le_of_lt (insertBlocks_length_le _ _ _ _) hroom
  have hbefore : (idx.insertCursor c tokens blocks k).index.nodes.length < 2 ^ 32 := by
    rw [hnext] at hmono
    exact lt_of_le_of_lt (insertBlocks_length_le _ _ _ _) hmono
  obtain ⟨word, hstart⟩ := insertStart_at hr c tokens
    (lt_of_le_of_lt (insertBlocks_length_le tokens 0 _ _) hbefore)
  rw [hsplit] at hok
  obtain ⟨hok, hok'⟩ := hok.concat
  rw [Nat.zero_add, hlen] at hok'
  have hmul : (k + 1) * idx.block_size ≤ blocks.length * idx.block_size :=
    Nat.mul_le_mul_right _ hk
  have hsucc : (k + 1) * idx.block_size = k * idx.block_size + idx.block_size := Nat.succ_mul k _
  obtain ⟨word', hat, hpos⟩ := insertBlocks_at hb hstart (by simp [insertStart])
    (by rw [hlen, Nat.zero_add]; omega) hok hbefore
  rw [hlen, Nat.zero_add] at hpos
  change (idx.insertCursor c tokens blocks k).At _ _ _ _ _ at hat
  change (idx.insertCursor c tokens blocks k).pos = _ at hpos
  rw [hnext] at hmono ⊢
  simp only [insertBlocks, hat.size] at hmono ⊢
  obtain ⟨-, cur', rfl, -, hpos', hpasses, -⟩ := insertSegment_passes _
    ⟨hat, by omega, by omega, by omega⟩ (le_refl _) hok'.1 fun _ => hmono
  exact ⟨hpasses, hpos'⟩

-- After every run the reachable nodes are a radix tree cut at the block boundaries. So the
-- passes of an `insert` come to the end of each segment, where a cut falls short of that end
-- (`Passes.split`), and each block that was given finds its prefix with a terminal: the block
-- itself, or the one that the prefix had.
theorem radix_tree_invariant (hb : 0 < b) (hrun : IndexRun b idx M)
    (hroom : idx.nodes.length < 2 ^ 32 - 1) :
    idx.RadixTree b ∧
      ∀ c tokens blocks, (IndexOp.insert c tokens blocks).Allowed b M →
        (idx.insert c tokens blocks).nodes.length < 2 ^ 32 - 1 →
        ∀ (k : Nat) (hk : k < blocks.length),
          Passes tokens blocks[k] ((k + 1) * b) (idx.insertCursor c tokens blocks k)
            (idx.insertCursor c tokens blocks (k + 1)) ∧
          (∀ fuel, (k + 1) * b - (idx.insertCursor c tokens blocks k).pos ≤ fuel →
            insertSegment tokens blocks[k] ((k + 1) * b) fuel (idx.insertCursor c tokens blocks k) =
              idx.insertCursor c tokens blocks (k + 1)) ∧
          (idx.insertCursor c tokens blocks (k + 1)).pos = (k + 1) * b ∧
          idx.insert c tokens blocks = (idx.insertCursor c tokens blocks blocks.length).index ∧
          (idx.insert c tokens blocks).Terminal c (tokens.take ((k + 1) * b))
            ((M c (tokens.take ((k + 1) * b))).getD blocks[k]) := by
  obtain ⟨hsize, hr⟩ := run_represents hb hrun (by omega)
  subst hsize
  refine ⟨hr.radixTree, fun c tokens blocks hop hroom' k hk => ?_⟩
  have hok := PrefixMap.DefineOk.of_injective hop.2
  obtain ⟨hpasses, hpos⟩ := insertCursor_passes hr hb hop.1 hok (by omega) hk
  have hr' := apply_represents hr hb hop (by simp only [IndexOp.apply]; omega)
  refine ⟨hpasses, fun fuel hfuel => hpasses.run hfuel, hpos, ?_, ?_⟩
  · rw [insert_eq idx c tokens (List.ne_nil_of_length_pos (by omega)), insertCursor,
      List.take_length]
  · have hkey := PrefixMap.defineFrom_eq_getD (M := M) (c := c) (i := 0) hb
      (by rw [Nat.zero_add]; exact hop.1) hk
    rw [Nat.zero_add] at hkey
    exact hr'.terminal_iff.mpr hkey

end Blocks

-- The second prefix leaves the first one after one token.
private abbrev forkState : PrefixIndex × PrefixMap CacheContextHash TokenId BlockId :=
  stepBoth ({ block_size := 2 }, PrefixMap.empty) (.insert 7 [1, 2] [10])

theorem radix_tree_invariant_fork :
    forkState.1.RadixTree 2 ∧ (forkState.1.insert 7 [1, 3] [11]).Terminal 7 [1, 3] 11 := by
  have hstart : IndexRun 2 { block_size := 2 } PrefixMap.empty := Steps.refl _
  have hone := PrefixMap.Injective.empty (κ := CacheContextHash) (τ := TokenId)
    |>.define (c := 7) (p := [1, 2]) (x := 10) fun _ _ _ => by simp [PrefixMap.empty]
  have hrun : IndexRun 2 forkState.1 forkState.2 :=
    hstart.snoc (.insert 7 [1, 2] [10]) ⟨by decide, hone⟩
  have htwo := radix_tree_invariant (by decide) hrun (by decide +kernel)
  refine ⟨htwo.1, ?_⟩
  have hop : (IndexOp.insert 7 [1, 3] [11]).Allowed 2 forkState.2 := by
    refine ⟨by decide, hone.define fun _ c p => ?_⟩
    rw [PrefixMap.define_of_none _ rfl]
    split <;> simp [PrefixMap.empty]
  exact (htwo.2 7 [1, 3] [11] hop (by decide +kernel) 0 (by decide)).2.2.2.2

end KVCache.Prefix.PrefixIndex
