import KVCache.Prefix.InsertLoop
import KVCache.Prefix.Remove

namespace KVCache.Prefix.PrefixIndex

variable {idx idx' : PrefixIndex}

-- Roots and links lead to nodes of the vector, and the edge below a link starts with the
-- token of the link. It does not matter how many prefixes name a block.
structure Linked (idx : PrefixIndex) : Prop where
  root : ∀ {c r}, idx.namespace_roots.lookup c = some r → r < idx.nodes.length
  child : ∀ {n t m}, (idx.node n).children.lookup t = some m →
    m < idx.nodes.length ∧ (idx.node m).edge_tokens.head? = some t

namespace Linked

theorem empty (b : Nat) : ({ block_size := b } : PrefixIndex).Linked := by
  refine ⟨fun {c r} h => ?_, fun {n t m} h => ?_⟩
  · cases h
  · simp [node] at h

-- Fewer links over the same edges.
theorem of_fewer (h : idx.Linked) (hroots : idx'.namespace_roots = idx.namespace_roots)
    (hlen : idx'.nodes.length = idx.nodes.length)
    (hedge : ∀ n, (idx'.node n).edge_tokens = (idx.node n).edge_tokens)
    (hchild : ∀ {n t m}, (idx'.node n).children.lookup t = some m →
      (idx.node n).children.lookup t = some m) : idx'.Linked := by
  refine ⟨fun hc => ?_, fun hc => ?_⟩
  · rw [hroots] at hc
    rw [hlen]
    exact h.root hc
  · rw [hlen, hedge]
    exact h.child (hchild hc)

theorem getOrCreateRoot (h : idx.Linked) (c : CacheContextHash)
    (hroom : (idx.getOrCreateRoot c).2.nodes.length < 2 ^ 32) :
    (idx.getOrCreateRoot c).2.Linked ∧
      (idx.getOrCreateRoot c).1 < (idx.getOrCreateRoot c).2.nodes.length := by
  unfold PrefixIndex.getOrCreateRoot at hroom ⊢
  cases hc : idx.namespace_roots.lookup c with
  | some root => exact ⟨h, h.root hc⟩
  | none =>
      simp only [hc] at hroom ⊢
      have hlen : idx.newNode.2.nodes.length = idx.nodes.length + 1 := newNode_length idx
      have hroom' : idx.newNode.2.nodes.length < 2 ^ 32 := hroom
      have hfst : idx.newNode.1 = idx.nodes.length := newNode_fst (by omega)
      have hnode : ∀ n, PrefixIndex.node { idx.newNode.2 with
          namespace_roots := idx.newNode.2.namespace_roots.insert c idx.newNode.1 } n =
            idx.node n := fun n => node_newNode idx n
      refine ⟨⟨fun {c' r} hr => ?_, fun {n t m} hm => ?_⟩, ?_⟩
      · change r < idx.newNode.2.nodes.length
        by_cases hc' : c' = c
        · subst hc'
          have hr : r = idx.newNode.1 := by simpa using hr.symm
          omega
        · have hr : idx.namespace_roots.lookup c' = some r := by
            simpa [AList.lookup_insert_ne hc'] using hr
          have := h.root hr
          omega
      · rw [hnode] at hm ⊢
        have := h.child hm
        exact ⟨by change m < idx.newNode.2.nodes.length; omega, this.2⟩
      · omega

theorem appendLeaf (h : idx.Linked) (hroom : idx.nodes.length < 2 ^ 32) {n : Nat}
    (hn : n < idx.nodes.length) {first : TokenId} {edge : List TokenId}
    (hedge : edge.head? = some first) (block : BlockId) :
    (idx.appendLeaf n first edge block).2.Linked := by
  refine ⟨fun hc => ?_, fun {k t m} hm => ?_⟩
  · rw [appendLeaf_roots] at hc
    rw [appendLeaf_length]
    have := h.root hc
    omega
  · rw [appendLeaf_node hroom hn] at hm
    rw [appendLeaf_length, appendLeaf_node hroom hn]
    -- an edge of an old node is as before
    have hold : ∀ {k'}, (idx.node k').children.lookup t = some m → m < idx.nodes.length + 1 ∧
        (if m = n then { idx.node n with
            children := (idx.node n).children.insert first idx.nodes.length }
          else if m = idx.nodes.length then
            { edge_tokens := edge, terminal_block := some block, parent_idx := n,
              first_edge_token := first }
          else idx.node m).edge_tokens.head? = some t := by
      intro k' hk'
      obtain ⟨hlt, hhead⟩ := h.child hk'
      refine ⟨by omega, ?_⟩
      by_cases hmn : m = n
      · subst hmn
        simpa using hhead
      · simpa [hmn, Nat.ne_of_lt hlt] using hhead
    by_cases hk : k = n
    · rw [if_pos hk] at hm
      by_cases ht : t = first
      · subst ht
        have hm : m = idx.nodes.length := by simpa using hm.symm
        subst hm
        exact ⟨by omega, by simpa [(Nat.ne_of_lt hn).symm] using hedge⟩
      · simp only [AList.lookup_insert_ne ht] at hm
        exact hold hm
    · rw [if_neg hk] at hm
      split at hm
      · simp at hm
      · exact hold hm

theorem splitEdge (h : idx.Linked) (hroom : idx.nodes.length < 2 ^ 32) {m lcp : Nat}
    (hm : m < idx.nodes.length) (hpos : 0 < lcp) (hlt : lcp < (idx.node m).edge_tokens.length) :
    (idx.splitEdge m lcp).Linked := by
  have hshape := splitEdge_shape hroom hm lcp
  have hhead : ∀ {j t}, j < idx.nodes.length → (idx.node j).edge_tokens.head? = some t →
      ((idx.splitEdge m lcp).node j).edge_tokens.head? = some t := by
    intro j t hj ht
    rw [(hshape j).1]
    by_cases hjm : j = m
    · subst hjm
      rw [if_pos rfl, List.head?_take, if_neg (by omega), ht]
    · rwa [if_neg hjm, if_neg (Nat.ne_of_lt hj)]
  refine ⟨fun hc => ?_, fun {k t x} hx => ?_⟩
  · rw [splitEdge_roots] at hc
    rw [splitEdge_length]
    have := h.root hc
    omega
  · rw [splitEdge_length]
    rw [(hshape k).2] at hx
    have hold : ∀ {k'}, (idx.node k').children.lookup t = some x → x < idx.nodes.length + 1 ∧
        ((idx.splitEdge m lcp).node x).edge_tokens.head? = some t := by
      intro k' hk'
      obtain ⟨hlt, ht⟩ := h.child hk'
      exact ⟨by omega, hhead hlt ht⟩
    by_cases hk : k = m
    · rw [if_pos hk] at hx
      -- the cut node links to the lower half only
      by_cases ht : t = ((idx.node m).edge_tokens.drop lcp).headD 0
      · rw [ht, AList.lookup_insert] at hx
        cases hx
        refine ⟨by omega, ?_⟩
        rw [(hshape _).1, if_neg (Nat.ne_of_lt hm).symm, if_pos rfl, ht]
        cases hd : (idx.node m).edge_tokens.drop lcp with
        | nil =>
            have := List.drop_eq_nil_iff.mp hd
            omega
        | cons y ys => rfl
      · rw [AList.lookup_insert_ne ht] at hx
        simp at hx
    · rw [if_neg hk] at hx
      split at hx
      · exact hold hx
      · exact hold hx

theorem claimTerminal (h : idx.Linked) {n : Nat} (hn : n < idx.nodes.length) (block : BlockId) :
    (idx.claimTerminal n block).Linked := by
  cases hterm : (idx.node n).terminal_block with
  | some id =>
      unfold PrefixIndex.claimTerminal
      simpa only [hterm] using h
  | none =>
      have hnode := claimTerminal_node hn hterm block
      refine h.of_fewer (claimTerminal_fields idx n block).2.1 (claimTerminal_fields idx n block).1
        (fun j => ?_) fun {j t m} hj => ?_
      · rw [hnode]
        split
        · rename_i hj
          rw [hj]
        · rfl
      · rw [hnode] at hj
        split at hj
        · rename_i hjn
          rw [hjn]
          exact hj
        · exact hj

-- The cursor of `insert` stands on a node of the vector, and the segment ends inside the
-- tokens.
theorem insertSegment {tokens : List TokenId} {block : BlockId} {segment_end : Nat}
    (hend : segment_end ≤ tokens.length) (fuel : Nat) {cur : Cursor} (h : cur.index.Linked)
    (hn : cur.node_idx < cur.index.nodes.length)
    (hroom : (insertSegment tokens block segment_end fuel cur).index.nodes.length < 2 ^ 32) :
    (PrefixIndex.insertSegment tokens block segment_end fuel cur).index.Linked ∧
      (PrefixIndex.insertSegment tokens block segment_end fuel cur).node_idx <
        (PrefixIndex.insertSegment tokens block segment_end fuel cur).index.nodes.length := by
  induction fuel generalizing cur with
  | zero => exact ⟨h, hn⟩
  | succ fuel ih =>
      by_cases hpos : cur.pos < segment_end
      · have hrest := segment_rest hpos hend
        cases hchild : cur.child tokens with
        | none =>
            rw [insertSegment_leaf hpos hchild] at hroom ⊢
            have hroom' : cur.index.nodes.length < 2 ^ 32 := by
              simp only [appendLeaf_length] at hroom
              omega
            refine ⟨h.appendLeaf hroom' hn (by rw [hrest]; rfl) block, ?_⟩
            simp only [appendLeaf_fst hroom', appendLeaf_length]
            omega
        | some child =>
            obtain ⟨hlt, hhead⟩ := h.child hchild
            by_cases hfull : cur.shared tokens segment_end child = (cur.edge child).length
            · by_cases hlast : cur.pos + (cur.edge child).length = segment_end
              · rw [insertSegment_claim hpos hchild hfull hlast]
                refine ⟨h.claimTerminal hlt block, ?_⟩
                rw [(claimTerminal_fields _ _ _).1]
                exact hlt
              · rw [insertSegment_descend hpos hchild hfull hlast] at hroom ⊢
                exact ih h hlt hroom
            · rw [insertSegment_split hpos hchild rfl hfull] at hroom ⊢
              have hgrow : 0 < cur.shared tokens segment_end child := by
                obtain ⟨e, hedge⟩ := List.head?_eq_some_iff.mp hhead
                have hedge : cur.edge child = tokens.getD cur.pos 0 :: e := hedge
                rw [Cursor.shared, hrest, hedge]
                exact lcpLength_cons_pos _ _ _
              have hcut : cur.shared tokens segment_end child < (cur.edge child).length :=
                lt_of_le_of_ne (lcpLength_le _ _).2 hfull
              have hroom' : cur.index.nodes.length < 2 ^ 32 := by
                have hmono := insertSegment_length_le tokens block segment_end fuel
                  ⟨cur.index.splitEdge child (cur.shared tokens segment_end child), child,
                    cur.pos + cur.shared tokens segment_end child⟩
                simp only [splitEdge_length] at hmono
                omega
              refine ih (h.splitEdge hroom' hlt hgrow hcut) ?_ hroom
              simp only [splitEdge_length]
              omega
      · simp only [PrefixIndex.insertSegment, if_neg hpos]
        exact ⟨h, hn⟩

theorem insertBlocks {tokens : List TokenId} {k : Nat} {blocks : List BlockId} {cur : Cursor}
    (h : cur.index.Linked) (hn : cur.node_idx < cur.index.nodes.length)
    (htokens : (k + blocks.length) * cur.index.block_size ≤ tokens.length)
    (hroom : (insertBlocks tokens k blocks cur).index.nodes.length < 2 ^ 32) :
    (PrefixIndex.insertBlocks tokens k blocks cur).index.Linked := by
  induction blocks generalizing k cur with
  | nil => exact h
  | cons block blocks ih =>
      rw [List.length_cons] at htokens
      have hend : (k + 1) * cur.index.block_size ≤ tokens.length :=
        le_trans (Nat.mul_le_mul_right _ (by omega)) htokens
      have hnext := insertSegment hend _ h hn
        (lt_of_le_of_lt (insertBlocks_length_le tokens (k + 1) blocks _) hroom)
      refine ih hnext.1 hnext.2 ?_ hroom
      rw [insertSegment_block_size]
      calc (k + 1 + blocks.length) * cur.index.block_size
          = (k + (blocks.length + 1)) * cur.index.block_size := by congr 1; omega
        _ ≤ tokens.length := htokens

theorem insert (h : idx.Linked) (c : CacheContextHash) {tokens : List TokenId}
    {blocks : List BlockId} (htokens : blocks.length * idx.block_size ≤ tokens.length)
    (hroom : (idx.insert c tokens blocks).nodes.length < 2 ^ 32) :
    (idx.insert c tokens blocks).Linked := by
  unfold PrefixIndex.insert at hroom ⊢
  split
  · exact h
  · rename_i hne
    rw [if_neg hne] at hroom
    have hroot := h.getOrCreateRoot c
      (lt_of_le_of_lt (insertBlocks_length_le tokens 0 blocks
        ⟨(idx.getOrCreateRoot c).2, (idx.getOrCreateRoot c).1, 0⟩) hroom)
    refine insertBlocks hroot.1 hroot.2 ?_ hroom
    change (0 + blocks.length) * (idx.getOrCreateRoot c).2.block_size ≤ tokens.length
    rw [getOrCreateRoot_block_size, Nat.zero_add]
    exact htokens

theorem pruneIfEmpty (h : idx.Linked) (fuel n : Nat) : (idx.pruneIfEmpty fuel n).Linked := by
  induction fuel generalizing idx n with
  | zero => exact h
  | succ fuel ih =>
      unfold PrefixIndex.pruneIfEmpty
      simp only
      split
      · exact h
      · split
        · exact h
        · suffices hcut : (idx.modifyNode (idx.node n).parent_idx fun n' => { n' with
              children := n'.children.erase (idx.node n).first_edge_token }).Linked from ih hcut _
          refine h.of_fewer rfl (modifyNode_length _ _ _) (fun j => ?_) fun {j t m} hj => ?_
          · rw [node_modifyNode]
            split <;> rfl
          · rw [node_modifyNode] at hj
            split at hj
            · by_cases ht : t = (idx.node n).first_edge_token
              · rw [ht, AList.lookup_erase] at hj
                cases hj
              · rwa [AList.lookup_erase_ne ht] at hj
            · exact hj

theorem remove (h : idx.Linked) (id : BlockId) : (idx.remove id).Linked := by
  unfold PrefixIndex.remove
  split
  · exact h
  · rename_i n _
    suffices hcleared : (modifyNode { idx with
        block_node_index := idx.block_node_index.erase id } n fun n =>
          { n with terminal_block := none }).Linked from pruneIfEmpty hcleared _ _
    refine h.of_fewer rfl (modifyNode_length _ _ _) (fun j => ?_) fun {j t m} hj => ?_
    · rw [node_modifyNode]
      split <;> rfl
    · rw [node_modifyNode] at hj
      split at hj <;> exact hj

-- Every block that a walk returns ends at a further block boundary.
theorem lookupLoop_length_le (h : idx.Linked) (tokens : List TokenId)
    (fuel n pos : Nat) :
    (lookupLoop idx tokens fuel n pos).length ≤
      tokens.length / idx.block_size - pos / idx.block_size := by
  induction fuel generalizing n pos with
  | zero => exact Nat.zero_le _
  | succ fuel ih =>
      unfold lookupLoop
      cases hfirst : tokens[pos]? with
      | none => exact Nat.zero_le _
      | some first =>
          simp only
          cases hk : (idx.node n).children.lookup first with
          | none => exact Nat.zero_le _
          | some k =>
              simp only
              obtain ⟨e, hedge⟩ := List.head?_eq_some_iff.mp (h.child hk).2
              have hlen : 0 < (idx.node k).edge_tokens.length := by simp [hedge]
              have hpos := (List.getElem?_eq_some_iff.mp hfirst).1
              by_cases hshort : tokens.length - pos < (idx.node k).edge_tokens.length
              · rw [if_pos hshort]
                exact Nat.zero_le _
              · rw [if_neg hshort]
                generalize hnext : pos + (idx.node k).edge_tokens.length = next
                have hmono : pos / idx.block_size ≤ next / idx.block_size :=
                  Nat.div_le_div_right (by omega)
                have hrest := ih k next
                split
                · exact Nat.zero_le _
                · split
                  · rename_i hmod
                    split
                    · -- the boundary lies beyond `pos` and within the tokens
                      have hstep : pos / idx.block_size < next / idx.block_size := by
                        have hexact := Nat.div_mul_cancel (Nat.dvd_of_mod_eq_zero hmod)
                        have hlow := Nat.div_mul_le_self pos idx.block_size
                        apply Nat.lt_of_mul_lt_mul_right (a := idx.block_size)
                        omega
                      have hhigh : next / idx.block_size ≤ tokens.length / idx.block_size :=
                        Nat.div_le_div_right (by omega)
                      rw [List.length_cons]
                      omega
                    · exact Nat.zero_le _
                  · omega

-- A lookup returns at most one block for each full block of the tokens.
theorem lookup_length_le (h : idx.Linked) (c : CacheContextHash)
    (tokens : List TokenId) :
    (idx.lookup c tokens).blocks.length ≤ tokens.length / idx.block_size := by
  simp only [lookup, lookupBlocks]
  split
  · exact Nat.zero_le _
  · simpa using h.lookupLoop_length_le tokens tokens.length _ 0

end Linked

end KVCache.Prefix.PrefixIndex
