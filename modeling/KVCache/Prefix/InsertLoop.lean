import KVCache.Prefix.Insert

namespace KVCache.Prefix.PrefixIndex

open KVCache.Lib

variable {idx : PrefixIndex} {word : Words} {M : PrefixMap CacheContextHash TokenId BlockId}

theorem lcpLength_le (xs ys : List TokenId) :
    lcpLength xs ys ≤ xs.length ∧ lcpLength xs ys ≤ ys.length := by
  induction xs generalizing ys with
  | nil => cases ys <;> simp [lcpLength]
  | cons x xs ih =>
      cases ys with
      | nil => simp [lcpLength]
      | cons y ys =>
          unfold lcpLength
          have := ih ys
          split
          · simp only [List.length_cons]
            omega
          · simp

theorem lcpLength_take (xs ys : List TokenId) :
    xs.take (lcpLength xs ys) = ys.take (lcpLength xs ys) := by
  induction xs generalizing ys with
  | nil => cases ys <;> simp [lcpLength]
  | cons x xs ih =>
      cases ys with
      | nil => simp [lcpLength]
      | cons y ys =>
          unfold lcpLength
          split
          · rename_i h
            rw [h, List.take_succ_cons, List.take_succ_cons, ih]
          · rfl

theorem lcpLength_cons_pos (x : TokenId) (xs ys : List TokenId) :
    0 < lcpLength (x :: xs) (x :: ys) := by
  simp [lcpLength]

-- The shared part ends where the lists do or where they differ.
theorem lcpLength_stops {xs ys : List TokenId} {k : Nat} (hk : lcpLength xs ys = k)
    (hxs : k < xs.length) (hys : k < ys.length) : xs[k]? ≠ ys[k]? := by
  induction xs generalizing ys k with
  | nil => simp at hxs
  | cons x xs ih =>
      cases ys with
      | nil => simp at hys
      | cons y ys =>
          unfold lcpLength at hk
          split at hk
          · subst hk
            simp only [List.length_cons, Nat.add_lt_add_iff_right] at hxs hys
            simpa using ih rfl hxs hys
          · rename_i hne
            subst hk
            simpa using hne

-- A list that goes on as the other one does is shared whole.
theorem lcpLength_append (xs rest : List TokenId) : lcpLength (xs ++ rest) xs = xs.length := by
  induction xs with
  | nil => cases rest <;> rfl
  | cons x xs ih => simp [lcpLength, ih]

theorem insertSegment_length_le (tokens : List TokenId) (block : BlockId) (segment_end fuel : Nat)
    (cur : Cursor) : cur.index.nodes.length ≤
      (insertSegment tokens block segment_end fuel cur).index.nodes.length := by
  induction fuel generalizing cur with
  | zero => exact le_refl _
  | succ fuel ih =>
      simp only [insertSegment]
      split
      · split
        · simp [appendLeaf_length]
        · split
          · split
            · exact (claimTerminal_fields _ _ _).1.ge
            · exact ih ⟨cur.index, _, cur.pos + _⟩
          · refine le_trans ?_ (ih _)
            simp [splitEdge_length]
      · exact le_refl _

-- A pass makes at most one node.
theorem insertSegment_length_le_add (tokens : List TokenId) (block : BlockId)
    (segment_end fuel : Nat) (cur : Cursor) :
    (insertSegment tokens block segment_end fuel cur).index.nodes.length ≤
      cur.index.nodes.length + fuel := by
  induction fuel generalizing cur with
  | zero => exact le_refl _
  | succ fuel ih =>
      simp only [insertSegment]
      split
      · split
        · rw [appendLeaf_length]
          omega
        · split
          · split
            · rw [(claimTerminal_fields _ _ _).1]
              omega
            · refine le_trans (ih _) ?_
              simp only
              omega
          · refine le_trans (ih _) ?_
            rw [splitEdge_length]
            omega
      · omega

-- The cursor of `insert` on a layout of `M`: it stands on the node that spells the
-- tokens it has passed.
structure Cursor.At (cur : Cursor) (word : Words) (M : PrefixMap CacheContextHash TokenId BlockId)
    (b : Nat) (c : CacheContextHash) (tokens : List TokenId) : Prop where
  inv : cur.index.Inv word
  live : cur.index.NoDeadEnd word none
  holds : cur.index.Holds word M
  size : cur.index.block_size = b
  here : word cur.node_idx = some (c, tokens.take cur.pos)

-- The block of the token that the cursor stands before, and how much of its edge the rest
-- of the segment shares.
def Cursor.child (cur : Cursor) (tokens : List TokenId) : Option Nat :=
  (cur.index.node cur.node_idx).children.lookup (tokens.getD cur.pos 0)

def Cursor.edge (cur : Cursor) (child : Nat) : List TokenId := (cur.index.node child).edge_tokens

def Cursor.shared (cur : Cursor) (tokens : List TokenId) (segment_end child : Nat) : Nat :=
  lcpLength ((tokens.take segment_end).drop cur.pos) (cur.edge child)

-- How the inner loop of `insert` goes until the cursor stands at the end of the segment. A
-- split cuts the edge short of that end, and the next pass finds no path below the cut.
inductive Passes (tokens : List TokenId) (block : BlockId) (segment_end : Nat) :
    Cursor → Cursor → Prop
  | leaf {cur : Cursor} (hpos : cur.pos < segment_end) (hnone : cur.child tokens = none) :
      Passes tokens block segment_end cur
        ⟨(cur.index.appendLeaf cur.node_idx (tokens.getD cur.pos 0)
            ((tokens.take segment_end).drop cur.pos) block).2,
          (cur.index.appendLeaf cur.node_idx (tokens.getD cur.pos 0)
            ((tokens.take segment_end).drop cur.pos) block).1, segment_end⟩
  | claim {cur : Cursor} {child : Nat} (hpos : cur.pos < segment_end)
      (hchild : cur.child tokens = some child)
      (hfull : cur.shared tokens segment_end child = (cur.edge child).length)
      (hend : cur.pos + (cur.edge child).length = segment_end) :
      Passes tokens block segment_end cur ⟨cur.index.claimTerminal child block, child, segment_end⟩
  | descend {cur cur' : Cursor} {child : Nat} (hpos : cur.pos < segment_end)
      (hchild : cur.child tokens = some child)
      (hfull : cur.shared tokens segment_end child = (cur.edge child).length)
      (hmore : 0 < (cur.edge child).length)
      (hshort : cur.pos + (cur.edge child).length < segment_end)
      (hrest : Passes tokens block segment_end
        ⟨cur.index, child, cur.pos + (cur.edge child).length⟩ cur') :
      Passes tokens block segment_end cur cur'
  | split {cur cur' : Cursor} {child lcp : Nat} (hpos : cur.pos < segment_end)
      (hchild : cur.child tokens = some child) (hlcp : cur.shared tokens segment_end child = lcp)
      (hmore : 0 < lcp) (hcut : lcp < (cur.edge child).length)
      (hinside : cur.pos + lcp < segment_end)
      (hnone : Cursor.child ⟨cur.index.splitEdge child lcp, child, cur.pos + lcp⟩ tokens = none)
      (hrest : Passes tokens block segment_end
        ⟨cur.index.splitEdge child lcp, child, cur.pos + lcp⟩ cur') :
      Passes tokens block segment_end cur cur'

section Pass

variable {tokens : List TokenId} {block : BlockId} {segment_end fuel child lcp : Nat} {cur : Cursor}

theorem insertSegment_leaf (hpos : cur.pos < segment_end) (hnone : cur.child tokens = none) :
    insertSegment tokens block segment_end (fuel + 1) cur =
      ⟨(cur.index.appendLeaf cur.node_idx (tokens.getD cur.pos 0)
          ((tokens.take segment_end).drop cur.pos) block).2,
        (cur.index.appendLeaf cur.node_idx (tokens.getD cur.pos 0)
          ((tokens.take segment_end).drop cur.pos) block).1, segment_end⟩ := by
  unfold Cursor.child at hnone
  simp only [insertSegment, if_pos hpos, hnone]

theorem insertSegment_claim (hpos : cur.pos < segment_end) (hchild : cur.child tokens = some child)
    (hfull : cur.shared tokens segment_end child = (cur.edge child).length)
    (hend : cur.pos + (cur.edge child).length = segment_end) :
    insertSegment tokens block segment_end (fuel + 1) cur =
      ⟨cur.index.claimTerminal child block, child, segment_end⟩ := by
  unfold Cursor.child at hchild
  unfold Cursor.shared Cursor.edge at hfull
  unfold Cursor.edge at hend
  simp only [insertSegment, if_pos hpos, hchild, hfull, if_true, if_pos hend]

theorem insertSegment_descend (hpos : cur.pos < segment_end)
    (hchild : cur.child tokens = some child)
    (hfull : cur.shared tokens segment_end child = (cur.edge child).length)
    (hshort : cur.pos + (cur.edge child).length ≠ segment_end) :
    insertSegment tokens block segment_end (fuel + 1) cur =
      insertSegment tokens block segment_end fuel
        ⟨cur.index, child, cur.pos + (cur.edge child).length⟩ := by
  unfold Cursor.child at hchild
  unfold Cursor.shared Cursor.edge at hfull
  unfold Cursor.edge at hshort ⊢
  simp only [insertSegment, if_pos hpos, hchild, hfull, if_true, if_neg hshort]

theorem insertSegment_split (hpos : cur.pos < segment_end) (hchild : cur.child tokens = some child)
    (hlcp : cur.shared tokens segment_end child = lcp) (hcut : lcp ≠ (cur.edge child).length) :
    insertSegment tokens block segment_end (fuel + 1) cur =
      insertSegment tokens block segment_end fuel
        ⟨cur.index.splitEdge child lcp, child, cur.pos + lcp⟩ := by
  unfold Cursor.child at hchild
  unfold Cursor.shared Cursor.edge at hlcp
  unfold Cursor.edge at hcut
  simp only [insertSegment, if_pos hpos, hchild, hlcp, if_neg hcut]

-- The loop goes as the passes do, and stands still once they are over.
theorem Passes.run {cur' : Cursor} (h : Passes tokens block segment_end cur cur')
    (hfuel : segment_end - cur.pos ≤ fuel) :
    insertSegment tokens block segment_end fuel cur = cur' := by
  induction h generalizing fuel with
  | leaf hpos hnone =>
      cases fuel with
      | zero => omega
      | succ fuel => exact insertSegment_leaf hpos hnone
  | claim hpos hchild hfull hend =>
      cases fuel with
      | zero => omega
      | succ fuel => exact insertSegment_claim hpos hchild hfull hend
  | descend hpos hchild hfull hmore hshort _ ih =>
      cases fuel with
      | zero => omega
      | succ fuel =>
          rw [insertSegment_descend hpos hchild hfull (by omega)]
          exact ih (by simp only; omega)
  | split hpos hchild hlcp hmore hcut _ _ _ ih =>
      cases fuel with
      | zero => omega
      | succ fuel =>
          rw [insertSegment_split hpos hchild hlcp (by omega)]
          exact ih (by simp only; omega)

-- What is left of a segment starts with the next token.
theorem segment_rest {pos : Nat} (hpos : pos < segment_end)
    (htokens : segment_end ≤ tokens.length) :
    (tokens.take segment_end).drop pos =
      tokens.getD pos 0 :: (tokens.take segment_end).drop (pos + 1) := by
  have hlt : pos < (tokens.take segment_end).length := by
    rw [List.length_take, Nat.min_eq_left htokens]
    exact hpos
  rw [List.drop_eq_getElem_cons hlt, List.getElem_take, List.getD_eq_getElem?_getD,
    List.getElem?_eq_getElem (lt_of_lt_of_le hpos htokens), Option.getD_some]

-- Below a cut inside the segment there is no path for the next token.
theorem child_after_split (hroom : cur.index.nodes.length < 2 ^ 32)
    (hbound : child < cur.index.nodes.length)
    (hlcp : cur.shared tokens segment_end child = lcp) (hcut : lcp < (cur.edge child).length)
    (hinside : cur.pos + lcp < segment_end) (htokens : segment_end ≤ tokens.length) :
    Cursor.child ⟨cur.index.splitEdge child lcp, child, cur.pos + lcp⟩ tokens = none := by
  unfold Cursor.shared at hlcp
  have hstop := lcpLength_stops hlcp (by
    rw [List.length_drop, List.length_take, Nat.min_eq_left htokens]
    omega) hcut
  rw [List.getElem?_drop, List.getElem?_take_of_lt hinside] at hstop
  have hhead : ((cur.edge child).drop lcp).headD 0 = (cur.edge child).getD lcp 0 := by
    rw [List.headD_eq_head?_getD, List.head?_drop, List.getD_eq_getElem?_getD]
  have hne : tokens.getD (cur.pos + lcp) 0 ≠ ((cur.edge child).drop lcp).headD 0 := by
    rw [hhead, List.getD_eq_getElem?_getD, List.getD_eq_getElem?_getD,
      List.getElem?_eq_getElem (by omega), List.getElem?_eq_getElem hcut]
    rw [List.getElem?_eq_getElem (by omega), List.getElem?_eq_getElem hcut] at hstop
    exact fun h => hstop (congrArg some h)
  unfold Cursor.edge at hne
  simp only [Cursor.child]
  rw [(splitEdge_shape hroom hbound lcp child).2, if_pos rfl]
  rw [AList.lookup_insert_ne hne]
  exact AList.lookup_empty _

end Pass

section Inside

variable {b k child : Nat} {c : CacheContextHash} {tokens : List TokenId} {block : BlockId}
  {cur : Cursor}

-- The cursor stands inside block `k` of the tokens.
structure Cursor.Inside (cur : Cursor) (word : Words)
    (M : PrefixMap CacheContextHash TokenId BlockId) (b k : Nat) (c : CacheContextHash)
    (tokens : List TokenId) : Prop extends cur.At word M b c tokens where
  low : k * b ≤ cur.pos
  high : cur.pos < (k + 1) * b
  tokens_le : (k + 1) * b ≤ tokens.length

namespace Cursor.Inside

theorem passed_length (h : cur.Inside word M b k c tokens) :
    (tokens.take cur.pos).length = cur.pos := by
  have hhigh := h.high
  have htokens := h.tokens_le
  rw [List.length_take]
  omega

theorem key_length (h : cur.Inside word M b k c tokens) :
    (tokens.take ((k + 1) * b)).length = (k + 1) * b := by
  rw [List.length_take, Nat.min_eq_left h.tokens_le]

theorem key_dvd (h : cur.Inside word M b k c tokens) :
    cur.index.block_size ∣ (tokens.take ((k + 1) * b)).length := by
  rw [h.key_length, h.size]
  exact Nat.dvd_mul_left b (k + 1)

-- The end of the block that the passed tokens end in.
theorem block_end (h : cur.Inside word M b k c tokens) :
    ((tokens.take cur.pos).length / cur.index.block_size + 1) * cur.index.block_size =
      (k + 1) * b := by
  rw [h.passed_length, h.size, Nat.div_eq_of_lt_le h.low h.high]

theorem rest (h : cur.Inside word M b k c tokens) : ∃ rest,
    (tokens.take ((k + 1) * b)).drop cur.pos = tokens.getD cur.pos 0 :: rest ∧
      tokens.take ((k + 1) * b) = tokens.take cur.pos ++ tokens.getD cur.pos 0 :: rest := by
  have hhigh := h.high
  have hdrop := segment_rest hhigh h.tokens_le
  refine ⟨_, hdrop, ?_⟩
  calc tokens.take ((k + 1) * b)
      = (tokens.take ((k + 1) * b)).take cur.pos ++ (tokens.take ((k + 1) * b)).drop cur.pos :=
        (List.take_append_drop _ _).symm
    _ = _ := by rw [hdrop, List.take_take, Nat.min_eq_left (Nat.le_of_lt hhigh)]

-- Without a path for the next token the block prefix has no node.
theorem unmapped_of_leaf (h : cur.Inside word M b k c tokens) (hnone : cur.child tokens = none) :
    M c (tokens.take ((k + 1) * b)) = none := by
  obtain ⟨rest, -, hkey⟩ := h.rest
  cases hid : M c (tokens.take ((k + 1) * b)) with
  | none => rfl
  | some id =>
      obtain ⟨m, hm, -⟩ := (h.holds c _ id).mp hid
      rw [hkey] at hm
      have hno := h.inv.wf.no_word_of_no_child (F := cur.index.forest word) h.here hnone rest m
      exact absurd hm hno

theorem leaf (h : cur.Inside word M b k c tokens) (hnone : cur.child tokens = none)
    (hfresh : ∀ c' p', M c' p' ≠ some block) (hroom : cur.index.nodes.length < 2 ^ 32) :
    ∃ word', Cursor.At
      ⟨(cur.index.appendLeaf cur.node_idx (tokens.getD cur.pos 0)
          ((tokens.take ((k + 1) * b)).drop cur.pos) block).2,
        (cur.index.appendLeaf cur.node_idx (tokens.getD cur.pos 0)
          ((tokens.take ((k + 1) * b)).drop cur.pos) block).1, (k + 1) * b⟩
      word' (M.define c (tokens.take ((k + 1) * b)) block) b c tokens := by
  obtain ⟨rest, hdrop, hkey⟩ := h.rest
  have hdvd := h.key_dvd
  have hlen := congrArg List.length hkey
  rw [h.key_length, List.length_append] at hlen
  rw [hkey] at hdvd
  obtain ⟨word', h1, h2, h3, h4⟩ := appendLeaf_inv h.inv h.live h.holds h.here hnone hroom
    (by rw [h.block_end, ← hlen]) hdvd hfresh
  rw [hdrop, hkey]
  refine ⟨word', h1, h2, h3, (appendLeaf_block_size _ _ _ _ _).trans h.size, ?_⟩
  rw [appendLeaf_fst hroom, hkey]
  exact h4

-- The node for the next token, with an edge that does not leave the block.
theorem child_word (h : cur.Inside word M b k c tokens) (hchild : cur.child tokens = some child) :
    word child = some (c, tokens.take cur.pos ++ cur.edge child) :=
  (h.inv.child_live h.here hchild).1

theorem edge_le (h : cur.Inside word M b k c tokens) (hchild : cur.child tokens = some child) :
    cur.pos + (cur.edge child).length ≤ (k + 1) * b := by
  have hblk := h.inv.in_block h.here hchild
  rwa [h.block_end, h.passed_length] at hblk

theorem shared_pos (h : cur.Inside word M b k c tokens) (hchild : cur.child tokens = some child) :
    0 < cur.shared tokens ((k + 1) * b) child := by
  obtain ⟨rest, hdrop, -⟩ := h.rest
  obtain ⟨e, hedge, -⟩ := h.inv.wf.child_word (F := cur.index.forest word) h.here hchild
  have hedge : cur.edge child = tokens.getD cur.pos 0 :: e := hedge
  rw [Cursor.shared, hdrop, hedge]
  exact lcpLength_cons_pos _ rest e

theorem shared_le (h : cur.Inside word M b k c tokens) (child : Nat) :
    cur.pos + cur.shared tokens ((k + 1) * b) child ≤ (k + 1) * b ∧
      cur.shared tokens ((k + 1) * b) child ≤ (cur.edge child).length := by
  have hle := lcpLength_le ((tokens.take ((k + 1) * b)).drop cur.pos) (cur.edge child)
  rw [List.length_drop, h.key_length] at hle
  have hhigh := h.high
  rw [Cursor.shared]
  omega

-- The shared part of the edge spells the tokens that the cursor passes.
theorem passed (h : cur.Inside word M b k c tokens) (child : Nat) :
    tokens.take cur.pos ++ (cur.edge child).take (cur.shared tokens ((k + 1) * b) child) =
      tokens.take (cur.pos + cur.shared tokens ((k + 1) * b) child) := by
  have hle := (h.shared_le child).1
  have htake : ((tokens.take ((k + 1) * b)).drop cur.pos).take
      (cur.shared tokens ((k + 1) * b) child) =
        (cur.edge child).take (cur.shared tokens ((k + 1) * b) child) :=
    lcpLength_take _ _
  generalize cur.shared tokens ((k + 1) * b) child = lcp at hle htake ⊢
  rw [← htake, List.take_add, List.drop_take, List.take_take, Nat.min_eq_left (by omega)]

theorem claim (h : cur.Inside word M b k c tokens) (hchild : cur.child tokens = some child)
    (hfull : cur.shared tokens ((k + 1) * b) child = (cur.edge child).length)
    (hend : cur.pos + (cur.edge child).length = (k + 1) * b)
    (hfresh : M c (tokens.take ((k + 1) * b)) = none → ∀ c' p', M c' p' ≠ some block) :
    Cursor.At ⟨cur.index.claimTerminal child block, child, (k + 1) * b⟩ word
      (M.define c (tokens.take ((k + 1) * b)) block) b c tokens := by
  have hpassed := h.passed child
  rw [hfull, List.take_length, hend] at hpassed
  have hword := h.child_word hchild
  rw [hpassed] at hword
  have hne : tokens.take ((k + 1) * b) ≠ [] := by
    have hhigh := h.high
    exact List.ne_nil_of_length_pos (by rw [h.key_length]; omega)
  obtain ⟨h1, h2, h3⟩ := claimTerminal_inv h.inv h.live h.holds hword hne h.key_dvd hfresh
  exact ⟨h1, h2, h3, (claimTerminal_fields _ _ _).2.2.trans h.size, hword⟩

-- Along a whole edge the cursor comes to the next node of the block.
theorem descend (h : cur.Inside word M b k c tokens) (hchild : cur.child tokens = some child)
    (hfull : cur.shared tokens ((k + 1) * b) child = (cur.edge child).length)
    (hshort : cur.pos + (cur.edge child).length < (k + 1) * b) :
    Cursor.Inside ⟨cur.index, child, cur.pos + (cur.edge child).length⟩ word M b k c tokens := by
  have hpassed := h.passed child
  rw [hfull, List.take_length] at hpassed
  have hword := h.child_word hchild
  rw [hpassed] at hword
  exact ⟨⟨h.inv, h.live, h.holds, h.size, hword⟩, le_trans h.low (Nat.le_add_right _ _), hshort,
    h.tokens_le⟩

-- The edges on the way to a defined prefix lie on it.
theorem unmapped_of_split (h : cur.Inside word M b k c tokens)
    (hchild : cur.child tokens = some child)
    (hcut : cur.shared tokens ((k + 1) * b) child < (cur.edge child).length) :
    M c (tokens.take ((k + 1) * b)) = none := by
  obtain ⟨rest, hdrop, hkey⟩ := h.rest
  cases hid : M c (tokens.take ((k + 1) * b)) with
  | none => rfl
  | some id =>
      obtain ⟨m, hm, -⟩ := (h.holds c _ id).mp hid
      rw [hkey] at hm
      obtain ⟨r, hr⟩ := h.inv.wf.child_on_word (F := cur.index.forest word) h.here hm hchild
      have hr : cur.edge child ++ r = tokens.getD cur.pos 0 :: rest := hr
      have hshared : cur.shared tokens ((k + 1) * b) child = (cur.edge child).length := by
        rw [Cursor.shared, hdrop, ← hr]
        exact lcpLength_append _ _
      omega

-- At a cut edge the cursor comes to the new end of it, still inside the block.
theorem split (h : cur.Inside word M b k c tokens) (hchild : cur.child tokens = some child)
    (hcut : cur.shared tokens ((k + 1) * b) child < (cur.edge child).length)
    (hroom : cur.index.nodes.length < 2 ^ 32) :
    ∃ word', Cursor.Inside
      ⟨cur.index.splitEdge child (cur.shared tokens ((k + 1) * b) child), child,
        cur.pos + cur.shared tokens ((k + 1) * b) child⟩ word' M b k c tokens := by
  obtain ⟨word', h1, h2, h3, h4⟩ :=
    splitEdge_inv h.inv h.live h.holds h.here hchild (h.shared_pos hchild) hcut hroom
  have hword' : word' child = some (c, tokens.take (cur.pos +
      cur.shared tokens ((k + 1) * b) child)) := by
    rw [← h.passed child]
    exact h4
  have hedge := h.edge_le hchild
  refine ⟨word', ⟨h1, h2, h3, (splitEdge_block_size _ _ _).trans h.size, hword'⟩,
    le_trans h.low (Nat.le_add_right _ _), ?_, h.tokens_le⟩
  simp only
  omega

end Cursor.Inside

end Inside

-- The segment of block `k` ends on the node of that block prefix, which is defined.
theorem insertSegment_passes {b k : Nat} {c : CacheContextHash} {tokens : List TokenId}
    {block : BlockId} (fuel : Nat) {cur : Cursor} (hcur : cur.Inside word M b k c tokens)
    (hfuel : (k + 1) * b - cur.pos ≤ fuel)
    (hfresh : M c (tokens.take ((k + 1) * b)) = none → ∀ c' p', M c' p' ≠ some block)
    (hroom : M c (tokens.take ((k + 1) * b)) = none →
      (insertSegment tokens block ((k + 1) * b) fuel cur).index.nodes.length < 2 ^ 32) :
    ∃ word' cur', insertSegment tokens block ((k + 1) * b) fuel cur = cur' ∧
      cur'.At word' (M.define c (tokens.take ((k + 1) * b)) block) b c tokens ∧
      cur'.pos = (k + 1) * b ∧ Passes tokens block ((k + 1) * b) cur cur' ∧
      (cur'.index.nodes.length = cur.index.nodes.length ∨
        M c (tokens.take ((k + 1) * b)) = none) := by
  have hhigh := hcur.high
  -- induction on the passes; a pass that goes on has moved the cursor within the block
  induction fuel generalizing cur word with
  | zero => omega
  | succ fuel ih =>
      cases hnext : cur.child tokens with
      | none =>
          have hundef := hcur.unmapped_of_leaf hnext
          rw [insertSegment_leaf hhigh hnext] at hroom ⊢
          have hroom' : cur.index.nodes.length < 2 ^ 32 := by
            have hlt := hroom hundef
            rw [appendLeaf_length] at hlt
            omega
          obtain ⟨word', hat⟩ := hcur.leaf hnext (hfresh hundef) hroom'
          exact ⟨word', _, rfl, hat, rfl, .leaf hhigh hnext, .inr hundef⟩
      | some child =>
          have hgrow := hcur.shared_pos hnext
          have hedge := hcur.edge_le hnext
          by_cases hfull : cur.shared tokens ((k + 1) * b) child = (cur.edge child).length
          · by_cases hend : cur.pos + (cur.edge child).length = (k + 1) * b
            · rw [insertSegment_claim hhigh hnext hfull hend]
              exact ⟨word, _, rfl, hcur.claim hnext hfull hend hfresh, rfl,
                .claim hhigh hnext hfull hend, .inl (claimTerminal_fields _ _ _).1⟩
            · have hshort : cur.pos + (cur.edge child).length < (k + 1) * b := by omega
              rw [insertSegment_descend hhigh hnext hfull hend] at hroom ⊢
              obtain ⟨word', cur', hrun, hcur', hpos', hpasses, hcount⟩ :=
                ih (hcur.descend hnext hfull hshort) (by simp only; omega) hroom hshort
              exact ⟨word', cur', hrun, hcur', hpos',
                .descend hhigh hnext hfull (by omega) hshort hpasses, hcount⟩
          · have hcut := lt_of_le_of_ne (hcur.shared_le child).2 hfull
            have hundef := hcur.unmapped_of_split hnext hcut
            rw [insertSegment_split hhigh hnext rfl hfull] at hroom ⊢
            have hroom' : cur.index.nodes.length < 2 ^ 32 := by
              have hlt := hroom hundef
              have hmono := insertSegment_length_le tokens block ((k + 1) * b) fuel
                ⟨cur.index.splitEdge child (cur.shared tokens ((k + 1) * b) child), child,
                  cur.pos + cur.shared tokens ((k + 1) * b) child⟩
              simp only [splitEdge_length] at hmono
              omega
            have hinside : cur.pos + cur.shared tokens ((k + 1) * b) child < (k + 1) * b := by
              omega
            have hnone := child_after_split hroom' (hcur.inv.bound (hcur.child_word hnext)) rfl hcut
              hinside hcur.tokens_le
            obtain ⟨word', hsplit⟩ := hcur.split hnext hcut hroom'
            obtain ⟨word'', cur', hrun, hcur', hpos', hpasses, -⟩ :=
              ih hsplit (by simp only; omega) hroom hinside
            exact ⟨word'', cur', hrun, hcur', hpos',
              .split hhigh hnext rfl hgrow hcut hinside hnone hpasses, .inr hundef⟩

theorem insertBlocks_length_le (tokens : List TokenId) (k : Nat) (blocks : List BlockId)
    (cur : Cursor) :
    cur.index.nodes.length ≤ (insertBlocks tokens k blocks cur).index.nodes.length := by
  induction blocks generalizing k cur with
  | nil => exact le_refl _
  | cons block blocks ih =>
      exact le_trans (insertSegment_length_le _ _ _ _ _) (ih _ _)

-- What the three changes of the inner loop keep, the loops keep.
theorem insertSegment_keeps {α : Type} {f : PrefixIndex → α}
    (hleaf : ∀ idx n first edge block, f (appendLeaf idx n first edge block).2 = f idx)
    (hclaim : ∀ idx n block, f (claimTerminal idx n block) = f idx)
    (hsplit : ∀ idx n lcp, f (splitEdge idx n lcp) = f idx)
    (tokens : List TokenId) (block : BlockId) (segment_end fuel : Nat) (cur : Cursor) :
    f (insertSegment tokens block segment_end fuel cur).index = f cur.index := by
  induction fuel generalizing cur with
  | zero => rfl
  | succ fuel ih =>
      simp only [insertSegment]
      split
      · split
        · exact hleaf _ _ _ _ _
        · split
          · split
            · exact hclaim _ _ _
            · exact ih ⟨cur.index, _, cur.pos + _⟩
          · exact (ih _).trans (hsplit _ _ _)
      · rfl

theorem insertBlocks_keeps {α : Type} {f : PrefixIndex → α}
    (hleaf : ∀ idx n first edge block, f (appendLeaf idx n first edge block).2 = f idx)
    (hclaim : ∀ idx n block, f (claimTerminal idx n block) = f idx)
    (hsplit : ∀ idx n lcp, f (splitEdge idx n lcp) = f idx)
    (tokens : List TokenId) (k : Nat) (blocks : List BlockId) (cur : Cursor) :
    f (insertBlocks tokens k blocks cur).index = f cur.index := by
  induction blocks generalizing k cur with
  | nil => rfl
  | cons block blocks ih =>
      exact (ih _ _).trans (insertSegment_keeps hleaf hclaim hsplit _ _ _ _ _)

theorem insertSegment_block_size (tokens : List TokenId) (block : BlockId)
    (segment_end fuel : Nat) (cur : Cursor) :
    (insertSegment tokens block segment_end fuel cur).index.block_size = cur.index.block_size :=
  insertSegment_keeps (f := (·.block_size)) appendLeaf_block_size
    (fun idx n block => (claimTerminal_fields idx n block).2.2) splitEdge_block_size _ _ _ _ _

theorem insertBlocks_block_size (tokens : List TokenId) (k : Nat) (blocks : List BlockId)
    (cur : Cursor) :
    (insertBlocks tokens k blocks cur).index.block_size = cur.index.block_size :=
  insertBlocks_keeps (f := (·.block_size)) appendLeaf_block_size
    (fun idx n block => (claimTerminal_fields idx n block).2.2) splitEdge_block_size _ _ _ _

theorem insertBlocks_roots (tokens : List TokenId) (k : Nat) (blocks : List BlockId)
    (cur : Cursor) :
    (insertBlocks tokens k blocks cur).index.namespace_roots = cur.index.namespace_roots :=
  insertBlocks_keeps (f := (·.namespace_roots)) appendLeaf_roots
    (fun idx n block => (claimTerminal_fields idx n block).2.1) splitEdge_roots _ _ _ _

theorem insert_block_size (idx : PrefixIndex) (c : CacheContextHash) (tokens : List TokenId)
    (blocks : List BlockId) : (idx.insert c tokens blocks).block_size = idx.block_size := by
  unfold insert
  split
  · rfl
  · exact (insertBlocks_block_size _ _ _ _).trans (getOrCreateRoot_block_size idx c)

theorem insertBlocks_append (tokens : List TokenId) (k : Nat) (xs ys : List BlockId)
    (cur : Cursor) : insertBlocks tokens k (xs ++ ys) cur =
      insertBlocks tokens (k + xs.length) ys (insertBlocks tokens k xs cur) := by
  induction xs generalizing k cur with
  | nil => rfl
  | cons x xs ih =>
      rw [List.cons_append, insertBlocks, insertBlocks, ih, List.length_cons,
        show k + 1 + xs.length = k + (xs.length + 1) by omega]

-- The blocks are taken in one segment after the other.
theorem insertBlocks_at {b k : Nat} {c : CacheContextHash} {tokens : List TokenId}
    {blocks : List BlockId} {cur : Cursor} (hb : 0 < b) (hcur : cur.At word M b c tokens)
    (hpos : cur.pos = k * b) (htokens : (k + blocks.length) * b ≤ tokens.length)
    (hok : PrefixMap.DefineOk b M c tokens k blocks)
    (hroom : (insertBlocks tokens k blocks cur).index.nodes.length < 2 ^ 32) :
    ∃ word', (insertBlocks tokens k blocks cur).At word'
        (PrefixMap.defineFrom b M c tokens k blocks) b c tokens ∧
      (insertBlocks tokens k blocks cur).pos = (k + blocks.length) * b := by
  induction blocks generalizing k cur word M with
  | nil => exact ⟨word, hcur, hpos⟩
  | cons block blocks ih =>
      have hnext : (k + 1) * b = k * b + b := Nat.succ_mul k b
      have hall : (k + (block :: blocks).length) * b = (k + 1 + blocks.length) * b := by
        rw [List.length_cons, Nat.add_right_comm, Nat.add_assoc]
      have hle : (k + 1) * b ≤ (k + 1 + blocks.length) * b :=
        Nat.mul_le_mul_right b (Nat.le_add_right _ _)
      simp only [insertBlocks, hcur.size] at hroom ⊢
      have hmono := insertBlocks_length_le tokens (k + 1) blocks
        (insertSegment tokens block ((k + 1) * b) ((k + 1) * b - cur.pos) cur)
      obtain ⟨word', cur', rfl, hcur', hpos', -⟩ := insertSegment_passes _
        ⟨hcur, by omega, by omega, by omega⟩ (le_refl _) hok.1 fun _ => by omega
      rw [hall]
      exact ih hcur' hpos' (by omega) hok.2 hroom

section Start

variable {c : CacheContextHash} {tokens : List TokenId} {blocks : List BlockId}

-- The cursor of `insert` before the first block.
def insertStart (idx : PrefixIndex) (c : CacheContextHash) : Cursor :=
  ⟨(idx.getOrCreateRoot c).2, (idx.getOrCreateRoot c).1, 0⟩

theorem insert_eq (idx : PrefixIndex) (c : CacheContextHash) (tokens : List TokenId)
    (hne : blocks ≠ []) :
    idx.insert c tokens blocks = (insertBlocks tokens 0 blocks (idx.insertStart c)).index := by
  unfold insert
  rw [if_neg hne]
  rfl

theorem insertStart_at (hr : idx.Represents M) (c : CacheContextHash) (tokens : List TokenId)
    (hroom : (idx.insertStart c).index.nodes.length < 2 ^ 32) :
    ∃ word, (idx.insertStart c).At word M idx.block_size c tokens := by
  obtain ⟨word, hi, hd, hM⟩ := hr
  obtain ⟨word', h1, h2, h3, h4⟩ := getOrCreateRoot_inv hi hd hM c hroom
  exact ⟨word', h1, h2, h3, getOrCreateRoot_block_size idx c, h4⟩

-- `insert` defines the block prefixes of `tokens`, in order and where they are free.
theorem insert_represents (hr : idx.Represents M) (hb : 0 < idx.block_size) (c : CacheContextHash)
    {tokens : List TokenId} {blocks : List BlockId}
    (htokens : blocks.length * idx.block_size ≤ tokens.length)
    (hok : PrefixMap.DefineOk idx.block_size M c tokens 0 blocks)
    (hroom : (idx.insert c tokens blocks).nodes.length < 2 ^ 32) :
    (idx.insert c tokens blocks).Represents
      (PrefixMap.defineFrom idx.block_size M c tokens 0 blocks) := by
  by_cases hnil : blocks = []
  · subst hnil
    exact hr
  · rw [insert_eq idx c tokens hnil] at hroom ⊢
    obtain ⟨word, hstart⟩ := insertStart_at hr c tokens
      (lt_of_le_of_lt (insertBlocks_length_le tokens 0 blocks _) hroom)
    obtain ⟨word', hend, -⟩ := insertBlocks_at hb hstart (by simp [insertStart])
      (by rwa [Nat.zero_add]) hok hroom
    exact ⟨word', hend.inv, hend.live, hend.holds⟩

end Start

end KVCache.Prefix.PrefixIndex
