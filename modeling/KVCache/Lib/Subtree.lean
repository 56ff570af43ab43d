import KVCache.Lib.Forest
import Mathlib.Algebra.BigOperators.Group.List.Basic
import Mathlib.Algebra.GroupWithZero.Nat
import Mathlib.Data.Finset.Card
import Mathlib.Data.List.Sigma

namespace KVCache.Lib

-- Counting what one of several things applies to, where no two apply together.
theorem card_filter_exists {ι : Type} (s : Finset Nat) (R : ι → Nat → Prop)
    [∀ a, DecidablePred (R a)] {l : List ι}
    (h : l.Pairwise fun a b => ∀ m, R a m → ¬ R b m) :
    (s.filter fun m => ∃ a ∈ l, R a m).card = (l.map fun a => (s.filter (R a)).card).sum := by
  induction l with
  | nil => simp
  | cons a l ih =>
      obtain ⟨ha, hl⟩ := List.pairwise_cons.mp h
      have hsplit : (s.filter fun m => ∃ b ∈ a :: l, R b m) =
          s.filter (R a) ∪ s.filter fun m => ∃ b ∈ l, R b m := by
        rw [← Finset.filter_or]
        refine Finset.filter_congr fun m _ => ?_
        simp
      have hdisj : Disjoint (s.filter (R a)) (s.filter fun m => ∃ b ∈ l, R b m) := by
        refine Finset.disjoint_filter.mpr fun m _ hm => ?_
        rintro ⟨b, hb, hbm⟩
        exact ha b hb m hm hbm
      rw [hsplit, Finset.card_union_of_disjoint hdisj, ih hl, List.map_cons, List.sum_cons]

namespace Forest

variable {κ τ : Type} {F : Forest κ τ}

-- The word of `m` continues the word of `n`.
def Below (F : Forest κ τ) (n m : Nat) : Prop :=
  ∃ c p r, F.word n = some (c, p) ∧ F.word m = some (c, p ++ r)

theorem Wf.below_iff (hw : F.Wf) {n m : Nat} {c : κ} {p : List τ} (hn : F.word n = some (c, p)) :
    F.Below n m ↔ m = n ∨ ∃ t k, F.child n t = some k ∧ F.Below k m := by
  constructor
  · rintro ⟨c', p', r, hn', hm⟩
    rw [hn] at hn'
    cases hn'
    by_cases hr : r = []
    · subst hr
      rw [List.append_nil] at hm
      exact .inl (hw.word_inj hm hn)
    · right
      have hne : p ≠ p ++ r := by simpa using hr
      obtain ⟨k, t, e, r', hc, -, hk, heq⟩ := hw.descend hm hn (List.prefix_append _ _) hne
      exact ⟨t, k, hc, c, _, r', hk, heq ▸ hm⟩
  · rintro (rfl | ⟨t, k, hc, c', p', r, hk, hm⟩)
    · exact ⟨c, p, [], hn, by simpa using hn⟩
    · obtain ⟨e, -, hk'⟩ := hw.child_word hn hc
      rw [hk] at hk'
      cases hk'
      exact ⟨c, p, t :: e ++ r, hn, by rw [hm, List.append_assoc]⟩

-- What is below a child has a longer word, with the letter of the child.
theorem Wf.below_child (hw : F.Wf) {n k m : Nat} {c : κ} {p : List τ} {t : τ}
    (hn : F.word n = some (c, p)) (hc : F.child n t = some k) (hm : F.Below k m) :
    ∃ e, F.word m = some (c, p ++ t :: e) := by
  obtain ⟨c', p', r, hk, hm⟩ := hm
  obtain ⟨e, -, hk'⟩ := hw.child_word hn hc
  rw [hk] at hk'
  cases hk'
  exact ⟨e ++ r, by rw [hm]; simp⟩

open scoped Classical in
-- How many of the first `N` nodes are below `n` and satisfy `Q`.
noncomputable def countBelow (F : Forest κ τ) (N : Nat) (Q : Nat → Prop) (n : Nat) : Nat :=
  ((Finset.range N).filter fun m => F.Below n m ∧ Q m).card

open scoped Classical in
theorem countBelow_le (F : Forest κ τ) (N : Nat) (Q : Nat → Prop) (n : Nat) :
    F.countBelow N Q n ≤ N := by
  unfold countBelow
  exact le_trans (Finset.card_filter_le _ _) (Finset.card_range N).le

open scoped Classical in
theorem countBelow_eq_zero {N : Nat} {Q : Nat → Prop} {n : Nat} (h : ∀ m, F.Below n m → ¬ Q m) :
    F.countBelow N Q n = 0 := by
  unfold countBelow
  rw [Finset.card_eq_zero, Finset.filter_eq_empty_iff]
  exact fun m _ hm => h m hm.1 hm.2

open scoped Classical in
-- A node and what is below its children.
theorem Wf.countBelow_eq (hw : F.Wf) {N n : Nat} {c : κ} {p : List τ} (Q : Nat → Prop)
    (hn : F.word n = some (c, p)) (hbound : n < N) {links : List (Sigma fun _ : τ => Nat)}
    (hlinks : ∀ t k, ⟨t, k⟩ ∈ links ↔ F.child n t = some k) (hkeys : links.NodupKeys) :
    F.countBelow N Q n =
      (if Q n then 1 else 0) + (links.map fun e => F.countBelow N Q e.2).sum := by
  have hsplit : ((Finset.range N).filter fun m => F.Below n m ∧ Q m) =
      ((Finset.range N).filter fun m => m = n ∧ Q m) ∪
        (Finset.range N).filter fun m => ∃ e ∈ links, F.Below e.2 m ∧ Q m := by
    rw [← Finset.filter_or]
    refine Finset.filter_congr fun m _ => ?_
    rw [hw.below_iff hn]
    constructor
    · rintro ⟨rfl | ⟨t, k, hc, hm⟩, hq⟩
      · exact .inl ⟨rfl, hq⟩
      · exact .inr ⟨⟨t, k⟩, (hlinks t k).mpr hc, hm, hq⟩
    · rintro (⟨rfl, hq⟩ | ⟨⟨t, k⟩, he, hm, hq⟩)
      · exact ⟨.inl rfl, hq⟩
      · exact ⟨.inr ⟨t, k, (hlinks t k).mp he, hm⟩, hq⟩
  have hdisj : Disjoint ((Finset.range N).filter fun m => m = n ∧ Q m)
      ((Finset.range N).filter fun m => ∃ e ∈ links, F.Below e.2 m ∧ Q m) := by
    refine Finset.disjoint_filter.mpr fun m _ => ?_
    rintro ⟨rfl, -⟩ ⟨⟨t, k⟩, he, hm, -⟩
    obtain ⟨e, hword⟩ := hw.below_child hn ((hlinks t k).mp he) hm
    rw [hn] at hword
    simp at hword
  have hself : ((Finset.range N).filter fun m => m = n ∧ Q m).card = if Q n then 1 else 0 := by
    by_cases hq : Q n
    · rw [if_pos hq, Finset.card_eq_one]
      refine ⟨n, Finset.ext fun m => ?_⟩
      simp only [Finset.mem_filter, Finset.mem_range, Finset.mem_singleton]
      refine ⟨fun h => h.2.1, fun h => ?_⟩
      subst h
      exact ⟨hbound, rfl, hq⟩
    · rw [if_neg hq, Finset.card_eq_zero, Finset.filter_eq_empty_iff]
      rintro m - ⟨rfl, h⟩
      exact hq h
  have hpair : links.Pairwise fun a b =>
      ∀ m, F.Below a.2 m ∧ Q m → ¬ (F.Below b.2 m ∧ Q m) := by
    refine (List.nodupKeys_iff_pairwise.mp hkeys).imp_of_mem fun {a b} ha hb hne m hm hm' => ?_
    obtain ⟨e, hword⟩ := hw.below_child hn ((hlinks a.1 a.2).mp ha) hm.1
    obtain ⟨e', hword'⟩ := hw.below_child hn ((hlinks b.1 b.2).mp hb) hm'.1
    rw [hword] at hword'
    simp at hword'
    exact hne hword'.1
  have hsum := card_filter_exists (Finset.range N)
    (fun (e : Sigma fun _ : τ => Nat) m => F.Below e.2 m ∧ Q m) hpair
  unfold countBelow
  rw [hsplit, Finset.card_union_of_disjoint hdisj, hself]
  exact congrArg _ hsum

end Forest

end KVCache.Lib
