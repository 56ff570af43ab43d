import KVCache.Lib.PrefixMap
import Mathlib.Algebra.BigOperators.Group.List.Basic
import Mathlib.Data.Nat.Find
import Mathlib.Order.Basic

namespace KVCache.Lib

variable {α : Type} {b k : Nat} {p t : List α} {earlier later ts : List (List α)}

-- Some blocks of `t`, from its first one on.
def BlockPrefix (b : Nat) (p t : List α) : Prop := p ≠ [] ∧ b ∣ p.length ∧ p <+: t

theorem BlockPrefix.of_prefix {s : List α} (h : BlockPrefix b p t) (hpre : t <+: s) :
    BlockPrefix b p s := ⟨h.1, h.2.1, h.2.2.trans hpre⟩

theorem not_blockPrefix_nil : ¬ BlockPrefix b p [] := fun h => h.1 (List.prefix_nil.mp h.2.2)

theorem blockPrefix_take (hb : 0 < b) (hk : (k + 1) * b ≤ t.length) {s : List α} :
    BlockPrefix b (t.take ((k + 1) * b)) s ↔ t.take ((k + 1) * b) <+: s := by
  have hpos : 0 < (k + 1) * b := Nat.mul_pos k.succ_pos hb
  have hlen : (t.take ((k + 1) * b)).length = (k + 1) * b := by
    rw [List.length_take, Nat.min_eq_left hk]
  refine ⟨fun h => h.2.2, fun h => ⟨?_, ?_, h⟩⟩
  · apply List.ne_nil_of_length_pos
    rw [hlen]
    exact hpos
  · rw [hlen]
    exact Nat.dvd_mul_left b (k + 1)

-- One block more has one more prefix.
theorem blockPrefix_succ (hb : 0 < b) (hk : (k + 1) * b ≤ t.length) :
    BlockPrefix b p (t.take ((k + 1) * b)) ↔
      BlockPrefix b p (t.take (k * b)) ∨ p = t.take ((k + 1) * b) := by
  have hle : k * b ≤ (k + 1) * b := Nat.mul_le_mul_right b k.le_succ
  constructor
  · rintro ⟨hne, ⟨j, hj⟩, hpre⟩
    rw [List.prefix_take_iff] at hpre
    by_cases hlast : j = k + 1
    · right
      rw [← hlast, Nat.mul_comm, ← hj]
      exact List.prefix_iff_eq_take.mp hpre.1
    · left
      have hmul : b * j ≤ b * (k + 1) := by
        rw [← hj, Nat.mul_comm b]
        exact hpre.2
      have hjk : j ≤ k + 1 := Nat.le_of_mul_le_mul_left hmul hb
      refine ⟨hne, ⟨j, hj⟩, List.prefix_take_iff.mpr ⟨hpre.1, ?_⟩⟩
      rw [hj, Nat.mul_comm]
      exact Nat.mul_le_mul_right b (by omega)
  · rintro (h | rfl)
    · exact h.of_prefix (List.take_prefix_take_left hle)
    · exact (blockPrefix_take hb hk).mpr (List.prefix_refl _)

-- The same next to other lists.
theorem exists_blockPrefix_succ (hb : 0 < b) (hk : (k + 1) * b ≤ t.length) :
    (∃ s ∈ earlier ++ [t.take ((k + 1) * b)], BlockPrefix b p s) ↔
      p = t.take ((k + 1) * b) ∨ ∃ s ∈ earlier ++ [t.take (k * b)], BlockPrefix b p s := by
  have hsplit : ∀ s, (∃ s' ∈ earlier ++ [s], BlockPrefix b p s') ↔
      (∃ s' ∈ earlier, BlockPrefix b p s') ∨ BlockPrefix b p s := by
    intro s
    simp only [List.mem_append, List.mem_singleton, or_and_right, exists_or, exists_eq_left]
  rw [hsplit, hsplit, blockPrefix_succ hb hk, ← or_assoc, or_comm]

section Reused

variable [DecidableEq α]

-- How many blocks of `t`, from its first one on, an earlier list starts with as well.
def reusedBlocks (b : Nat) (earlier : List (List α)) (t : List α) : Nat :=
  Nat.findGreatest (fun k => ∃ s ∈ earlier, t.take (k * b) <+: s) (t.length / b)

theorem reusedBlocks_le (b : Nat) (earlier : List (List α)) (t : List α) :
    reusedBlocks b earlier t ≤ t.length / b := Nat.findGreatest_le _

theorem lt_reusedBlocks : k < reusedBlocks b earlier t ↔
    k < t.length / b ∧ ∃ s ∈ earlier, t.take ((k + 1) * b) <+: s := by
  constructor
  · intro h
    have hle := reusedBlocks_le b earlier t
    obtain ⟨s, hs, hpre⟩ : ∃ s ∈ earlier, t.take (reusedBlocks b earlier t * b) <+: s :=
      Nat.findGreatest_of_ne_zero (m := reusedBlocks b earlier t) rfl (by omega)
    refine ⟨by omega, s, hs, List.IsPrefix.trans ?_ hpre⟩
    exact List.take_prefix_take_left (Nat.mul_le_mul_right b h)
  · rintro ⟨hlt, hsome⟩
    exact Nat.le_findGreatest hlt hsome

theorem reusedBlocks_mono (h : earlier ⊆ later) (t : List α) :
    reusedBlocks b earlier t ≤ reusedBlocks b later t := by
  apply le_of_forall_lt
  intro k hk
  obtain ⟨hlt, s, hs, hpre⟩ := lt_reusedBlocks.mp hk
  exact lt_reusedBlocks.mpr ⟨hlt, s, h hs, hpre⟩

-- Some first blocks of a list, next to themselves.
theorem reusedBlocks_self (hb : 0 < b) (hfits : k * b ≤ t.length) (earlier : List (List α)) :
    reusedBlocks b (earlier ++ [t.take (k * b)]) (t.take (k * b)) = k := by
  have hlen : (t.take (k * b)).length / b = k := by
    rw [List.length_take, Nat.min_eq_left hfits, Nat.mul_div_cancel _ hb]
  apply le_antisymm
  · exact (reusedBlocks_le _ _ _).trans_eq hlen
  · refine Nat.le_findGreatest hlen.ge ⟨_, List.mem_append_right _ List.mem_cons_self, ?_⟩
    exact List.take_prefix _ _

-- The first blocks of a list up to one that is new, next to all of them but that one.
theorem reusedBlocks_next (hb : 0 < b) (hfits : (k + 1) * b ≤ t.length)
    (hnew : reusedBlocks b earlier t ≤ k) :
    reusedBlocks b (earlier ++ [t.take (k * b)]) (t.take ((k + 1) * b)) = k := by
  have hstep : (k + 1) * b = k * b + b := Nat.succ_mul k b
  have hlen : (t.take ((k + 1) * b)).length = (k + 1) * b := by
    rw [List.length_take, Nat.min_eq_left hfits]
  apply le_antisymm
  · by_contra hlt
    obtain ⟨-, s, hs, hpre⟩ := lt_reusedBlocks.mp (Nat.not_le.mp hlt)
    rw [List.take_take, Nat.min_self] at hpre
    rcases List.mem_append.mp hs with hs | hs
    · have hmore : k < reusedBlocks b earlier t :=
        lt_reusedBlocks.mpr ⟨(Nat.le_div_iff_mul_le hb).mpr hfits, s, hs, hpre⟩
      omega
    · rw [List.mem_singleton.mp hs] at hpre
      have hshort := hpre.length_le
      rw [hlen, List.length_take] at hshort
      omega
  · refine Nat.le_findGreatest ?_ ⟨_, List.mem_append_right _ List.mem_cons_self, ?_⟩
    · rw [hlen, Nat.mul_div_cancel _ hb]
      exact k.le_succ
    · rw [List.take_take, Nat.min_eq_left (by omega)]

-- The blocks that are reused have an earlier list as their own.
theorem blockPrefix_reused (h : BlockPrefix b p (t.take (reusedBlocks b earlier t * b))) :
    ∃ s ∈ earlier, BlockPrefix b p s := by
  cases hk : reusedBlocks b earlier t with
  | zero =>
      rw [hk, Nat.zero_mul, List.take_zero] at h
      exact absurd h not_blockPrefix_nil
  | succ k =>
      obtain ⟨-, s, hs, hpre⟩ := lt_reusedBlocks.mp (k.lt_succ_self.trans_eq hk.symm)
      rw [hk] at h
      exact ⟨s, hs, h.of_prefix hpre⟩

-- Where what is defined are the block prefixes of the earlier lists, the chain of a list is as
-- long as the blocks that it has in common with one of them.
theorem chain_length_eq_reused {β : Type} {f : List α → Option β} (hb : 0 < b)
    (hf : ∀ p, (f p).isSome ↔ ∃ s ∈ earlier, BlockPrefix b p s) (t : List α) :
    (chain b f t).length = reusedBlocks b earlier t := by
  refine eq_of_forall_lt_iff fun k => ?_
  rw [lt_chain_length, lt_reusedBlocks]
  refine and_congr_right fun hlt => ?_
  have hend : ∀ j ≤ k, (j + 1) * b ≤ t.length := fun j hj =>
    (Nat.mul_le_mul_right b (by omega)).trans (Nat.div_mul_le_self t.length b)
  constructor
  · intro h
    obtain ⟨s, hs, hpre⟩ := (hf _).mp (h k (le_refl k))
    exact ⟨s, hs, hpre.2.2⟩
  · rintro ⟨s, hs, hpre⟩ j hj
    refine (hf _).mpr ⟨s, hs, (blockPrefix_take hb (hend j hj)).mpr ?_⟩
    exact (List.take_prefix_take_left (Nat.mul_le_mul_right b (Nat.succ_le_succ hj))).trans hpre

-- What each list of a sequence reuses of those before it, with the ones before the first.
def reuseFrom (b : Nat) : List (List α) → List (List α) → Nat
  | _, [] => 0
  | earlier, t :: ts => reusedBlocks b earlier t + reuseFrom b (earlier ++ [t]) ts

def totalReuse (b : Nat) (ts : List (List α)) : Nat := reuseFrom b [] ts

theorem reuseFrom_concat (b : Nat) (earlier ts : List (List α)) (t : List α) :
    reuseFrom b earlier (ts ++ [t]) =
      reuseFrom b earlier ts + reusedBlocks b (earlier ++ ts) t := by
  induction ts generalizing earlier with
  | nil => simp [reuseFrom]
  | cons s ts ih =>
      rw [List.cons_append, reuseFrom, ih, reuseFrom, List.append_assoc, Nat.add_assoc]
      rfl

theorem totalReuse_concat (b : Nat) (ts : List (List α)) (t : List α) :
    totalReuse b (ts ++ [t]) = totalReuse b ts + reusedBlocks b ts t := by
  rw [totalReuse, reuseFrom_concat, List.nil_append, totalReuse]

end Reused

section Shares

variable {xs : List (Nat × List α)} {x : Nat × List α}

-- The lists that go to one of several places.
def shareOf (xs : List (Nat × List α)) (place : Nat) : List (List α) :=
  (xs.filter fun x => x.1 = place).map Prod.snd

theorem shareOf_subset (xs : List (Nat × List α)) (place : Nat) :
    shareOf xs place ⊆ xs.map Prod.snd := List.map_subset _ (List.filter_subset_self _)

theorem shareOf_concat (xs : List (Nat × List α)) (x : Nat × List α) (place : Nat) :
    shareOf (xs ++ [x]) place =
      shareOf xs place ++ if x.1 = place then [x.2] else [] := by
  unfold shareOf
  rw [List.filter_append, List.map_append]
  by_cases h : x.1 = place
  · simp [h]
  · simp [h]

variable [DecidableEq α]

private theorem sum_single (k place n : Nat) :
    ((List.range k).map fun node => if place = node then n else 0).sum =
      if place < k then n else 0 := by
  induction k with
  | zero => simp
  | succ k ih =>
      rw [List.range_succ, List.map_append, List.sum_append, ih]
      simp only [List.map_cons, List.map_nil, List.sum_cons, List.sum_nil, Nat.add_zero]
      split_ifs <;> omega

-- A list adds to the reuse at its own place.
theorem sum_totalReuse_concat (b k : Nat) (xs : List (Nat × List α)) (x : Nat × List α) :
    ((List.range k).map fun place => totalReuse b (shareOf (xs ++ [x]) place)).sum =
      ((List.range k).map fun place => totalReuse b (shareOf xs place)).sum +
        if x.1 < k then reusedBlocks b (shareOf xs x.1) x.2 else 0 := by
  have hone : ∀ place, totalReuse b (shareOf (xs ++ [x]) place) =
      totalReuse b (shareOf xs place) +
        if x.1 = place then reusedBlocks b (shareOf xs x.1) x.2 else 0 := by
    intro place
    rw [shareOf_concat]
    by_cases h : x.1 = place
    · rw [if_pos h, if_pos h, totalReuse_concat, h]
    · rw [if_neg h, if_neg h, List.append_nil, Nat.add_zero]
  simp only [hone, List.sum_map_add, sum_single]

-- Sharing out a sequence gains no reuse.
theorem sum_totalReuse_le (b k : Nat) (xs : List (Nat × List α)) :
    ((List.range k).map fun place => totalReuse b (shareOf xs place)).sum ≤
      totalReuse b (xs.map Prod.snd) := by
  induction xs using List.reverseRecOn with
  | nil => simp [shareOf, totalReuse, reuseFrom]
  | append_singleton xs x ih =>
      rw [sum_totalReuse_concat, List.map_append, List.map_singleton, totalReuse_concat]
      have hmono := reusedBlocks_mono (b := b) (shareOf_subset xs x.1) x.2
      split <;> omega

-- It loses none where lists that start with the same block go to the same place.
theorem sum_totalReuse_eq (hk : ∀ x ∈ xs, x.1 < k)
    (hhome : ∀ x ∈ xs, ∀ y ∈ xs, x.2.take b = y.2.take b → x.1 = y.1) :
    ((List.range k).map fun place => totalReuse b (shareOf xs place)).sum =
      totalReuse b (xs.map Prod.snd) := by
  induction xs using List.reverseRecOn with
  | nil => simp [shareOf, totalReuse, reuseFrom]
  | append_singleton xs x ih =>
      have hlast : x ∈ xs ++ [x] := List.mem_append_right _ List.mem_cons_self
      rw [sum_totalReuse_concat, List.map_append, List.map_singleton, totalReuse_concat,
        if_pos (hk x hlast), ih (fun y hy => hk y (List.mem_append_left _ hy)) fun y hy z hz =>
          hhome y (List.mem_append_left _ hy) z (List.mem_append_left _ hz)]
      congr 1
      apply le_antisymm (reusedBlocks_mono (shareOf_subset xs x.1) x.2)
      apply le_of_forall_lt
      intro j hj
      obtain ⟨hlt, s, hs, hpre⟩ := lt_reusedBlocks.mp hj
      obtain ⟨y, hy, rfl⟩ := List.mem_map.mp hs
      -- the first block is among those in common
      have hfirst : x.2.take b = y.2.take b := by
        have hend : (j + 1) * b ≤ x.2.length :=
          (Nat.mul_le_mul_right b hlt).trans (Nat.div_mul_le_self _ _)
        have hle : b ≤ (j + 1) * b := Nat.le_mul_of_pos_left b j.succ_pos
        have htake := List.prefix_iff_eq_take.mp hpre
        have hshort := congrArg (List.take b) htake
        rw [List.length_take, Nat.min_eq_left hend, List.take_take, List.take_take,
          Nat.min_eq_left hle] at hshort
        exact hshort
      refine lt_reusedBlocks.mpr ⟨hlt, y.2, ?_, hpre⟩
      have hsame := hhome x hlast y (List.mem_append_left _ hy) hfirst
      exact List.mem_map.mpr ⟨y, List.mem_filter.mpr ⟨hy, by simp [hsame]⟩, rfl⟩

end Shares

section Known

variable {β : Type} [DecidableEq β] {before xs : List (Nat × List β)} {x : Nat × List β}

-- How many items of `t`, from its first one on, occur in one of the earlier lists.
def knownItems (earlier : List (List β)) (t : List β) : Nat :=
  (t.takeWhile fun a => earlier.any fun s => a ∈ s).length

theorem le_knownItems_iff {earlier : List (List β)} {t : List β} {k : Nat} (hk : k ≤ t.length) :
    k ≤ knownItems earlier t ↔ ∀ a ∈ t.take k, ∃ s ∈ earlier, a ∈ s := by
  induction t generalizing k with
  | nil =>
      obtain rfl := Nat.le_zero.mp hk
      simp
  | cons a t ih =>
      cases k with
      | zero => simp
      | succ k =>
          have hrest := ih (Nat.le_of_succ_le_succ hk)
          rw [knownItems] at hrest ⊢
          by_cases ha : ∃ s ∈ earlier, a ∈ s
          · rw [List.takeWhile_cons_of_pos (by simpa using ha), List.length_cons,
              Nat.succ_le_succ_iff, hrest, List.take_succ_cons]
            simp only [List.mem_cons, forall_eq_or_imp]
            exact ⟨fun h => ⟨ha, h⟩, fun h => h.2⟩
          · rw [List.takeWhile_cons_of_neg (by simpa using ha), List.take_succ_cons]
            simp only [List.mem_cons, forall_eq_or_imp, List.length_nil]
            exact ⟨fun h => absurd h (Nat.not_succ_le_zero k), fun h => absurd h.1 ha⟩

-- What the lists that go to a place know of all the lists before them.
def knownAt (place : Nat) : List (List β) → List (Nat × List β) → Nat
  | _, [] => 0
  | earlier, x :: xs =>
      (if x.1 = place then knownItems earlier x.2 else 0) + knownAt place (earlier ++ [x.2]) xs

def knownFrom : List (List β) → List (List β) → Nat
  | _, [] => 0
  | earlier, t :: ts => knownItems earlier t + knownFrom (earlier ++ [t]) ts

-- What each list of a sequence has of items that the lists before it had, from its first on.
def totalKnown (ts : List (List β)) : Nat := knownFrom [] ts

theorem knownAt_concat (place : Nat) (earlier : List (List β)) (xs : List (Nat × List β))
    (x : Nat × List β) : knownAt place earlier (xs ++ [x]) = knownAt place earlier xs +
      if x.1 = place then knownItems (earlier ++ xs.map Prod.snd) x.2 else 0 := by
  induction xs generalizing earlier with
  | nil => simp [knownAt]
  | cons y xs ih =>
      rw [List.cons_append, knownAt, ih, knownAt, List.map_cons, List.append_assoc, Nat.add_assoc]
      rfl

-- Summed up over the places, it is what one place would know that got all the lists.
theorem sum_knownAt_le (k : Nat) (earlier : List (List β)) (xs : List (Nat × List β)) :
    ((List.range k).map fun place => knownAt place earlier xs).sum ≤
      knownFrom earlier (xs.map Prod.snd) := by
  induction xs generalizing earlier with
  | nil => simp [knownAt, knownFrom]
  | cons x xs ih =>
      simp only [knownAt, knownFrom, List.map_cons, List.sum_map_add, sum_single]
      apply Nat.add_le_add _ (ih (earlier ++ [x.2]))
      split <;> omega

theorem sum_knownAt_eq (k : Nat) (earlier : List (List β)) (xs : List (Nat × List β))
    (hk : ∀ x ∈ xs, x.1 < k) :
    ((List.range k).map fun place => knownAt place earlier xs).sum =
      knownFrom earlier (xs.map Prod.snd) := by
  induction xs generalizing earlier with
  | nil => simp [knownAt, knownFrom]
  | cons x xs ih =>
      simp only [knownAt, knownFrom, List.map_cons, List.sum_map_add, sum_single]
      rw [ih (earlier ++ [x.2]) fun y hy => hk y (List.mem_cons_of_mem x hy),
        if_pos (hk x List.mem_cons_self)]

theorem knownItems_le (earlier : List (List β)) (t : List β) : knownItems earlier t ≤ t.length :=
  (List.takeWhile_prefix _).length_le

end Known

end KVCache.Lib
