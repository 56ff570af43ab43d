import KVCache.Prefix.Invariant

namespace KVCache.Prefix.PrefixIndex

open KVCache.Lib

variable {idx : PrefixIndex} {word : Words} {M : PrefixMap CacheContextHash TokenId BlockId}

-- From a node on the path of `t`, a mapped longer prefix of `t` lies below the
-- child for the next token, and `t` goes through the whole edge of that child.
theorem Inv.toward (hi : idx.Inv word) (hM : idx.Holds word M) {c : CacheContextHash}
    {t : List TokenId} {n pos stop : Nat} {id : BlockId} (hn : word n = some (c, t.take pos))
    (hpos : pos < stop) (hstop : stop ≤ t.length) (hid : M c (t.take stop) = some id) :
    ∃ first k, t[pos]? = some first ∧ (idx.node n).children.lookup first = some k ∧
      (idx.node k).edge_tokens <+: t.drop pos := by
  obtain ⟨m, hm, -⟩ := (hM c _ id).mp hid
  have hlen : (t.take pos).length = pos := by simp; omega
  have hpre : t.take pos <+: t.take stop := by
    have := List.take_prefix pos (t.take stop)
    rwa [List.take_take, Nat.min_eq_left (Nat.le_of_lt hpos)] at this
  have hne : t.take pos ≠ t.take stop := by
    intro h
    have := congrArg List.length h
    simp only [List.length_take] at this
    omega
  obtain ⟨k, first, e, r, hc, he, -, hq⟩ := hi.wf.descend (F := idx.forest word) hm hn hpre hne
  have hdrop : t.drop pos = first :: e ++ (r ++ t.drop stop) := by
    have h1 : t = t.take pos ++ (first :: e ++ (r ++ t.drop stop)) := by
      calc t = t.take stop ++ t.drop stop := (List.take_append_drop stop t).symm
        _ = t.take pos ++ (first :: e ++ (r ++ t.drop stop)) := by rw [hq]; simp
    have h2 := List.take_append_drop pos t
    exact List.append_cancel_left (h2.trans h1)
  refine ⟨first, k, ?_, hc, ⟨r ++ t.drop stop, ?_⟩⟩
  · have : (t.drop pos)[0]? = some first := by rw [hdrop]; rfl
    simpa using this
  · rw [hdrop]
    exact congrArg (· ++ _) he

-- The walk stops exactly where the chain of mapped prefixes does.
private theorem chain_stops {b : Nat} {f : List TokenId → Option BlockId} {t : List TokenId}
    {i : Nat} (h : ∀ id, (i + 1) * b ≤ t.length → f (t.take ((i + 1) * b)) = some id → False)
    (hb : 0 < b) : chainFrom b f t i (t.length / b - i) = [] := by
  cases hn : t.length / b - i with
  | zero => rfl
  | succ k =>
      have hle : (i + 1) * b ≤ t.length :=
        (Nat.le_div_iff_mul_le hb).mp (by omega)
      cases hf : f (t.take ((i + 1) * b)) with
      | none => simp [chainFrom, hf]
      | some id => exact (h id hle hf).elim

section Pass

variable {t : List TokenId} {fuel n pos k : Nat} {first : TokenId}

-- The two checks of a pass together: the edge lies on the tokens.
theorem edge_on_tokens (edge : List TokenId) : edge <+: t.drop pos ↔
    ¬ t.length - pos < edge.length ∧ ¬ (t.drop pos).take edge.length ≠ edge := by
  rw [List.prefix_iff_eq_take]
  constructor
  · intro h
    have hlen := congrArg List.length h
    simp only [List.length_take, List.length_drop] at hlen
    exact ⟨by omega, not_not.mpr h.symm⟩
  · rintro ⟨-, h⟩
    exact (not_not.mp h).symm

-- Where no edge goes on along the tokens, the walk is over.
theorem lookupLoop_stop (h : ∀ first k, t[pos]? = some first →
    (idx.node n).children.lookup first = some k → ¬ (idx.node k).edge_tokens <+: t.drop pos) :
    lookupLoop idx t fuel n pos = [] := by
  cases fuel with
  | zero => rfl
  | succ fuel =>
      unfold lookupLoop
      cases hfirst : t[pos]? with
      | none => rfl
      | some first =>
          simp only
          cases hk : (idx.node n).children.lookup first with
          | none => rfl
          | some k =>
              have hoff := h first k hfirst hk
              rw [edge_on_tokens] at hoff
              simp only
              by_cases hshort : t.length - pos < (idx.node k).edge_tokens.length
              · rw [if_pos hshort]
              · rw [if_neg hshort, if_pos (not_not.mp fun heq => hoff ⟨hshort, heq⟩)]

theorem lookupLoop_step (hfirst : t[pos]? = some first)
    (hk : (idx.node n).children.lookup first = some k)
    (hon : (idx.node k).edge_tokens <+: t.drop pos) :
    lookupLoop idx t (fuel + 1) n pos =
      if (pos + (idx.node k).edge_tokens.length) % idx.block_size = 0 then
        match (idx.node k).terminal_block with
        | some id => id :: lookupLoop idx t fuel k (pos + (idx.node k).edge_tokens.length)
        | none => []
      else lookupLoop idx t fuel k (pos + (idx.node k).edge_tokens.length) := by
  obtain ⟨hlong, hsame⟩ := (edge_on_tokens _).mp hon
  rw [lookupLoop]
  cases hterm : (idx.node k).terminal_block with
  | none => simp only [hfirst, hk, if_neg hlong, if_neg hsame, hterm]
  | some id => simp only [hfirst, hk, if_neg hlong, if_neg hsame, hterm]

-- A position that moves within its block comes to the end of the block or stays inside.
theorem boundary_cases {b step : Nat} (hstep : 0 < step)
    (hle : pos + step ≤ (pos / b + 1) * b) :
    ((pos + step) % b = 0 ∧ pos + step = (pos / b + 1) * b) ∨
      ((pos + step) % b ≠ 0 ∧ (pos + step) / b = pos / b) := by
  have hlow := Nat.div_mul_le_self pos b
  rcases Nat.lt_or_eq_of_le hle with hlt | heq
  · have hdiv : (pos + step) / b = pos / b := Nat.div_eq_of_lt_le (by omega) hlt
    refine .inr ⟨fun hmod => ?_, hdiv⟩
    have hmul := Nat.div_mul_cancel (Nat.dvd_of_mod_eq_zero hmod)
    rw [hdiv] at hmul
    omega
  · exact .inl ⟨by rw [heq, Nat.mul_mod_left], heq⟩

end Pass

theorem lookupLoop_eq (hi : idx.Inv word) (hM : idx.Holds word M) (hb : 0 < idx.block_size)
    (c : CacheContextHash) (t : List TokenId) (fuel n pos : Nat)
    (hn : word n = some (c, t.take pos)) (hpos : pos ≤ t.length) (hfuel : t.length - pos ≤ fuel) :
    lookupLoop idx t fuel n pos =
      chainFrom idx.block_size (M c) t (pos / idx.block_size)
        (t.length / idx.block_size - pos / idx.block_size) := by
  induction fuel generalizing n pos with
  | zero =>
      obtain rfl : pos = t.length := by omega
      simp [lookupLoop, chainFrom]
  | succ fuel ih =>
      by_cases hgo : ∃ first k, t[pos]? = some first ∧
          (idx.node n).children.lookup first = some k ∧ (idx.node k).edge_tokens <+: t.drop pos
      · obtain ⟨first, k, hfirst, hk, hon⟩ := hgo
        rw [lookupLoop_step hfirst hk hon]
        obtain ⟨hkw, -⟩ := hi.child_live hn hk
        obtain ⟨e, he, -⟩ := hi.wf.child_word (F := idx.forest word) hn hk
        have hgrow : 0 < (idx.node k).edge_tokens.length := by
          rw [show (idx.node k).edge_tokens = first :: e from he]
          exact Nat.succ_pos _
        have hpos' : pos + (idx.node k).edge_tokens.length ≤ t.length := by
          have hlen := hon.length_le
          rw [List.length_drop] at hlen
          omega
        have hkw : word k = some (c, t.take (pos + (idx.node k).edge_tokens.length)) := by
          rw [List.take_add, ← List.prefix_iff_eq_take.mp hon]
          exact hkw
        have hblk := hi.in_block hn hk
        rw [List.length_take, Nat.min_eq_left hpos] at hblk
        have hih := ih k _ hkw hpos' (by omega)
        rcases boundary_cases hgrow hblk with ⟨hmod, hend⟩ | ⟨hmod, hdiv⟩
        · -- the edge ends at the next boundary
          have hdiv : (pos + (idx.node k).edge_tokens.length) / idx.block_size =
              pos / idx.block_size + 1 := by
            rw [hend, Nat.mul_div_cancel _ hb]
          have hmore : t.length / idx.block_size - pos / idx.block_size =
              (t.length / idx.block_size - (pos / idx.block_size + 1)) + 1 := by
            have hblocks : pos / idx.block_size + 1 ≤ t.length / idx.block_size :=
              (Nat.le_div_iff_mul_le hb).mpr (hend ▸ hpos')
            omega
          have hentry := hi.holds_at hM hkw
          rw [hend] at hentry
          rw [if_pos hmod, hmore, chainFrom, hentry, hih, hdiv]
          cases (idx.node k).terminal_block with
          | none => rfl
          | some id => rfl
        · -- the edge ends inside the block
          rw [if_neg hmod, hih, hdiv]
      · -- a boundary past the position is reached through the child for the next token
        have hoff : ∀ first k, t[pos]? = some first →
            (idx.node n).children.lookup first = some k →
            ¬ (idx.node k).edge_tokens <+: t.drop pos :=
          fun first k hfirst hk hon => hgo ⟨first, k, hfirst, hk, hon⟩
        have hbeyond : pos < (pos / idx.block_size + 1) * idx.block_size := by
          rw [Nat.mul_comm]
          exact Nat.lt_mul_div_succ pos hb
        rw [lookupLoop_stop hoff]
        refine (chain_stops (fun id hle hid => ?_) hb).symm
        exact hgo (hi.toward hM hn hbeyond hle hid)

-- What `lookup` returns is the longest chain of mapped block prefixes.
theorem lookup_eq (hr : idx.Represents M) (hb : 0 < idx.block_size) (c : CacheContextHash)
    (t : List TokenId) :
    idx.lookup c t = ⟨chain idx.block_size (M c) t,
      (chain idx.block_size (M c) t).length * idx.block_size % 2 ^ 32⟩ := by
  obtain ⟨word, hi, -, hM⟩ := hr
  suffices hblocks : idx.lookupBlocks c t = chain idx.block_size (M c) t by
    simp only [lookup, hblocks]
  unfold lookupBlocks
  cases hroot : idx.namespace_roots.lookup c with
  | some root =>
      have hw : word root = some (c, t.take 0) := by simpa using hi.root.mp hroot
      simpa [chain] using lookupLoop_eq hi hM hb c t t.length root 0 hw (Nat.zero_le _) (by simp)
  | none =>
      -- without a root there is no live node, hence no entry
      have hnone : ∀ p, M c p = none := by
        intro p
        cases hid : M c p with
        | none => rfl
        | some id =>
            obtain ⟨n, hn, -⟩ := (hM c p id).mp hid
            obtain ⟨r, hr⟩ := hi.wf.root_exists (F := idx.forest word) hn
            rw [hi.root.mpr hr] at hroot
            cases hroot
      cases h : chain idx.block_size (M c) t with
      | nil => rfl
      | cons id rest =>
          have := chain_getElem? (b := idx.block_size) (f := M c) (t := t) (k := 0) (by rw [h]; rfl)
          rw [hnone] at this
          cases this

-- What a walk returns are terminals below the node it starts from.
private theorem mem_lookupLoop_terminal {c : CacheContextHash} {t : List TokenId} {fuel : Nat}
    {n pos : Nat} {p : List TokenId} (hn : idx.Spells c p n) {id : BlockId}
    (h : id ∈ lookupLoop idx t fuel n pos) : ∃ p, idx.Terminal c p id := by
  induction fuel generalizing n pos p with
  | zero => exact absurd h List.not_mem_nil
  | succ fuel ih =>
      unfold lookupLoop at h
      split at h
      · exact absurd h List.not_mem_nil
      · rename_i first hfirst
        split at h
        · exact absurd h List.not_mem_nil
        · rename_i k hk
          have hchild := hn.child hk
          simp only at h
          split at h
          · exact absurd h List.not_mem_nil
          · split at h
            · exact absurd h List.not_mem_nil
            · split at h
              · split at h
                · rename_i id' hterm
                  rcases List.mem_cons.mp h with rfl | h
                  · exact ⟨_, k, hchild, hterm⟩
                  · exact ih hchild h
                · exact absurd h List.not_mem_nil
              · exact ih hchild h

theorem mem_lookup_terminal {c : CacheContextHash} {t : List TokenId} {id : BlockId}
    (h : id ∈ (idx.lookup c t).blocks) : ∃ p, idx.Terminal c p id := by
  simp only [lookup, lookupBlocks] at h
  split at h
  · exact absurd h List.not_mem_nil
  · rename_i root hroot
    exact mem_lookupLoop_terminal (.root hroot) h

end KVCache.Prefix.PrefixIndex
