import Mathlib.Logic.Function.Basic
import Mathlib.Data.List.Basic
import Mathlib.Data.List.Infix

namespace KVCache.Lib

-- Path-compressed trees over node numbers. `word n` is the tree a live node
-- belongs to and the word its path spells; it is `none` for a dead node. Links
-- and edges of dead nodes carry no meaning.
structure Forest (κ τ : Type) where
  word : Nat → Option (κ × List τ)
  edge : Nat → List τ
  child : Nat → τ → Option Nat

namespace Forest

variable {κ τ : Type} [DecidableEq τ]

omit [DecidableEq τ] in
-- A live node after one node got a word: that one, or one that was live.
theorem update_word {f : Nat → Option (κ × List τ)} {m k : Nat} {v w : κ × List τ} :
    Function.update f m (some v) k = some w ↔ (k = m ∧ w = v) ∨ (k ≠ m ∧ f k = some w) := by
  by_cases h : k = m
  · subst h
    simp [eq_comm]
  · simp [h]

-- Links agree with words in both directions, and no word has two nodes.
structure Wf (F : Forest κ τ) : Prop where
  word_inj : ∀ {m n k}, F.word m = some k → F.word n = some k → m = n
  child_word : ∀ {n c p t m}, F.word n = some (c, p) → F.child n t = some m →
    ∃ e, F.edge m = t :: e ∧ F.word m = some (c, p ++ t :: e)
  parent_exists : ∀ {m c p}, F.word m = some (c, p) → p ≠ [] →
    ∃ n q t e, F.word n = some (c, q) ∧ F.child n t = some m ∧ F.edge m = t :: e ∧ p = q ++ t :: e

omit [DecidableEq τ] in
-- Every tree with a live node has a root.
theorem Wf.root_exists {F : Forest κ τ} (hw : F.Wf) {c : κ} {p : List τ} {m : Nat}
    (hm : F.word m = some (c, p)) : ∃ r, F.word r = some (c, []) := by
  induction hl : p.length using Nat.strong_induction_on generalizing m p with
  | _ len ih =>
      by_cases hp : p = []
      · exact ⟨m, hp ▸ hm⟩
      · obtain ⟨n, q, t, e, hn, -, -, hq⟩ := hw.parent_exists hm hp
        exact ih q.length (by rw [← hl, hq]; simp) hn rfl

omit [DecidableEq τ] in
-- A live node below another one hangs under exactly the child that its next
-- letter selects, and the whole edge of that child lies on its word.
theorem Wf.descend {F : Forest κ τ} (hw : F.Wf) {c : κ} {q : List τ} {m : Nat}
    (hm : F.word m = some (c, q)) {p : List τ} {n : Nat} (hn : F.word n = some (c, p))
    (hpre : p <+: q) (hne : p ≠ q) :
    ∃ k t e r, F.child n t = some k ∧ F.edge k = t :: e ∧
      F.word k = some (c, p ++ t :: e) ∧ q = p ++ t :: e ++ r := by
  -- induction on the lower word; the parent of the lower node is above, at or
  -- below the upper node
  induction hl : q.length using Nat.strong_induction_on generalizing q m p n with
  | _ len ih =>
      have hqne : q ≠ [] := by
        rintro rfl
        exact hne (List.prefix_nil.mp hpre)
      obtain ⟨m', q', t, e, hm', hc, he, hq⟩ := hw.parent_exists hm hqne
      have hlen : q'.length < len := by rw [← hl, hq]; simp
      rcases List.prefix_or_prefix_of_prefix hpre ⟨t :: e, hq.symm⟩ with hp | hp
      · by_cases heq : p = q'
        · subst heq
          have : n = m' := hw.word_inj hn hm'
          subst this
          exact ⟨m, t, e, [], hc, he, by rw [← hq]; exact hm, by simpa using hq⟩
        · obtain ⟨k, t', e', r, h1, h2, h3, h4⟩ := ih _ hlen hm' hn hp heq rfl
          exact ⟨k, t', e', r ++ t :: e, h1, h2, h3, by rw [hq, h4]; simp⟩
      · by_cases heq : q' = p
        · subst heq
          have : n = m' := hw.word_inj hn hm'
          subst this
          exact ⟨m, t, e, [], hc, he, by rw [← hq]; exact hm, by simpa using hq⟩
        · -- the upper node lies inside the edge of the lower one: impossible
          have hplen : p.length < len := by
            have h1 := hpre.length_le
            have h2 : p.length ≠ q.length := fun h => hne (hpre.eq_of_length h)
            omega
          obtain ⟨k, t', e', r, h1, h2, h3, h4⟩ := ih _ hplen hn hm' hp heq rfl
          have hin : t' :: (e' ++ r) <+: t :: e := by
            have : q' ++ (t' :: e' ++ r) <+: q' ++ (t :: e) := by
              rw [← List.append_assoc, ← h4, ← hq]; exact hpre
            simpa using (List.prefix_append_right_inj q').mp this
          have htt : t' = t := (List.cons_prefix_cons.mp hin).1
          subst htt
          have hk : k = m := Option.some.inj (h1.symm.trans hc)
          subst hk
          have hee : t' :: e' = t' :: e := h2.symm.trans he
          have : p.length ≤ q.length := hpre.length_le
          have hpq : q <+: p := by rw [h4, hq, hee]; exact List.prefix_append _ _
          exact absurd (hpre.eq_of_length (Nat.le_antisymm this hpq.length_le)) hne

omit [DecidableEq τ] in
-- Below a node without a child for the letter `t`, no live word continues with `t`.
theorem Wf.no_word_of_no_child {F : Forest κ τ} (hw : F.Wf) {c : κ} {p : List τ} {n : Nat} {t : τ}
    (hn : F.word n = some (c, p)) (hc : F.child n t = none) (e : List τ) (m : Nat) :
    F.word m ≠ some (c, p ++ t :: e) := by
  intro hm
  obtain ⟨k, t', e', r, h1, _, _, h4⟩ := hw.descend hm hn (List.prefix_append _ _) (by simp)
  have h4 : t :: e = t' :: (e' ++ r) := by simpa using h4
  rw [← (List.cons.inj h4).1, hc] at h1
  cases h1

omit [DecidableEq τ] in
-- The edge to the child for the next letter of a live word lies on that word.
theorem Wf.child_on_word {F : Forest κ τ} (hw : F.Wf) {c : κ} {p e : List τ} {n m k : Nat} {t : τ}
    (hn : F.word n = some (c, p)) (hm : F.word m = some (c, p ++ t :: e))
    (hc : F.child n t = some k) : F.edge k <+: t :: e := by
  obtain ⟨k', t', e', r, h1, h2, -, h4⟩ := hw.descend hm hn (List.prefix_append _ _) (by simp)
  have h4 : t :: e = t' :: e' ++ r := by simpa using h4
  have htt : t = t' := (List.cons.inj h4).1
  subst htt
  obtain rfl : k = k' := Option.some.inj (hc.symm.trans h1)
  exact ⟨r, by rw [h2, h4]⟩

omit [DecidableEq τ] in
-- No live word ends strictly inside an edge.
theorem Wf.no_word_inside_edge {F : Forest κ τ} (hw : F.Wf) {c : κ} {p : List τ} {n k : Nat} {t : τ}
    (hn : F.word n = some (c, p)) (hc : F.child n t = some k) {e₁ e₂ : List τ}
    (he : F.edge k = e₁ ++ e₂) (h1 : e₁ ≠ []) (h2 : e₂ ≠ []) (m : Nat) :
    F.word m ≠ some (c, p ++ e₁) := by
  intro hm
  obtain ⟨e, hek, -⟩ := hw.child_word hn hc
  obtain ⟨k', t', e', r, hc', he', _, hr⟩ := hw.descend hm hn (List.prefix_append _ _) (by simpa)
  have hr : e₁ = t' :: (e' ++ r) := by simpa using hr
  have htt : t' = t := by
    have : t :: e = t' :: (e' ++ (r ++ e₂)) := by rw [← hek, he, hr]; simp
    exact (List.cons.inj this).1.symm
  subst htt
  have hkk : k' = k := Option.some.inj (hc'.symm.trans hc)
  subst hkk
  have hlen := congrArg List.length (he'.symm.trans he)
  have hlen' := congrArg List.length hr
  have := List.length_pos_of_ne_nil h2
  simp only [List.length_cons, List.length_append] at hlen hlen'
  omega

-- A new tree `c` whose root is the node `r`.
def addRoot (F : Forest κ τ) (r : Nat) (c : κ) : Forest κ τ :=
  { F with word := Function.update F.word r (some (c, [])) }

omit [DecidableEq τ] in
theorem addRoot_word {F : Forest κ τ} {r k : Nat} {c : κ} {w : κ × List τ} :
    (F.addRoot r c).word k = some w ↔ (k = r ∧ w = (c, [])) ∨ (k ≠ r ∧ F.word k = some w) :=
  update_word

omit [DecidableEq τ] in
theorem Wf.addRoot {F : Forest κ τ} (hw : F.Wf) {r : Nat} {c : κ} (hr : F.word r = none)
    (hc : ∀ m, F.word m ≠ some (c, [])) (hleaf : ∀ t, F.child r t = none) : (F.addRoot r c).Wf := by
  have hold : ∀ {k w}, F.word k = some w → (F.addRoot r c).word k = some w := by
    intro k w hk
    have hne : k ≠ r := by
      rintro rfl
      rw [hr] at hk
      cases hk
    exact addRoot_word.mpr (.inr ⟨hne, hk⟩)
  refine ⟨?_, ?_, ?_⟩
  · intro k k' w hk hk'
    rcases addRoot_word.mp hk with ⟨rfl, rfl⟩ | ⟨-, hk⟩
    · rcases addRoot_word.mp hk' with ⟨rfl, -⟩ | ⟨-, hk'⟩
      · rfl
      · exact absurd hk' (hc k')
    · rcases addRoot_word.mp hk' with ⟨-, rfl⟩ | ⟨-, hk'⟩
      · exact absurd hk (hc k)
      · exact hw.word_inj hk hk'
  · intro k c' p t x hk hx
    rcases addRoot_word.mp hk with ⟨rfl, -⟩ | ⟨-, hk⟩
    · cases (hleaf t).symm.trans hx
    · obtain ⟨e, he, hword⟩ := hw.child_word hk hx
      exact ⟨e, he, hold hword⟩
  · intro x c' p hx hp
    rcases addRoot_word.mp hx with ⟨-, h⟩ | ⟨-, hx⟩
    · cases h
      exact absurd rfl hp
    · obtain ⟨n, q, t, e, hn, hnx, he, hq⟩ := hw.parent_exists hx hp
      exact ⟨n, q, t, e, hold hn, hnx, he, hq⟩

-- A new node `m` below `n`, under the letter `t`.
def addLeaf (F : Forest κ τ) (n m : Nat) (c : κ) (p : List τ) (t : τ) (e : List τ) :
    Forest κ τ where
  word := Function.update F.word m (some (c, p ++ t :: e))
  edge := Function.update F.edge m (t :: e)
  child k u := if k = m then none else if k = n ∧ u = t then some m else F.child k u

theorem addLeaf_word {F : Forest κ τ} {n m k : Nat} {c : κ} {p e : List τ} {t : τ}
    {w : κ × List τ} : (F.addLeaf n m c p t e).word k = some w ↔
      (k = m ∧ w = (c, p ++ t :: e)) ∨ (k ≠ m ∧ F.word k = some w) :=
  update_word

theorem addLeaf_child {F : Forest κ τ} {n m k x : Nat} {c : κ} {p e : List τ} {t u : τ}
    (hc : F.child n t = none) : (F.addLeaf n m c p t e).child k u = some x ↔
      k ≠ m ∧ ((k = n ∧ u = t ∧ x = m) ∨ F.child k u = some x) := by
  simp only [Forest.addLeaf]
  by_cases h1 : k = m
  · simp [h1]
  · by_cases h2 : k = n ∧ u = t
    · obtain ⟨rfl, rfl⟩ := h2
      simp [h1, hc, eq_comm]
    · rw [if_neg h1, if_neg h2]
      constructor
      · exact fun h => ⟨h1, .inr h⟩
      · rintro ⟨-, ⟨h3, h4, -⟩ | h⟩
        · exact absurd ⟨h3, h4⟩ h2
        · exact h

theorem Wf.addLeaf {F : Forest κ τ} (hw : F.Wf) {n m : Nat} {c : κ} {p : List τ} {t : τ}
    (e : List τ) (hn : F.word n = some (c, p)) (hm : F.word m = none) (hc : F.child n t = none) :
    (F.addLeaf n m c p t e).Wf := by
  have hfresh := hw.no_word_of_no_child hn hc e
  have hne : ∀ {k w}, F.word k = some w → k ≠ m := by
    rintro k w hk rfl
    rw [hm] at hk
    cases hk
  have hedge : ∀ {k}, k ≠ m → (F.addLeaf n m c p t e).edge k = F.edge k :=
    fun hk => Function.update_of_ne hk _ _
  have hself : (F.addLeaf n m c p t e).edge m = t :: e := Function.update_self ..
  refine ⟨?_, ?_, ?_⟩
  · intro k k' w hk hk'
    rcases addLeaf_word.mp hk with ⟨rfl, rfl⟩ | ⟨-, hk⟩
    · rcases addLeaf_word.mp hk' with ⟨rfl, -⟩ | ⟨-, hk'⟩
      · rfl
      · exact absurd hk' (hfresh k')
    · rcases addLeaf_word.mp hk' with ⟨-, rfl⟩ | ⟨-, hk'⟩
      · exact absurd hk (hfresh k)
      · exact hw.word_inj hk hk'
  · intro k c' q u x hk hx
    obtain ⟨hkm, hx⟩ := (addLeaf_child hc).mp hx
    rcases addLeaf_word.mp hk with ⟨h, -⟩ | ⟨-, hold⟩
    · exact absurd h hkm
    rcases hx with ⟨rfl, rfl, rfl⟩ | hx
    · rw [hn] at hold
      cases hold
      exact ⟨e, hself, addLeaf_word.mpr (.inl ⟨rfl, rfl⟩)⟩
    · obtain ⟨e', he, hword⟩ := hw.child_word hold hx
      exact ⟨e', (hedge (hne hword)).trans he, addLeaf_word.mpr (.inr ⟨hne hword, hword⟩)⟩
  · intro x c' q hx hq
    rcases addLeaf_word.mp hx with ⟨rfl, h⟩ | ⟨hxm, hx⟩
    · cases h
      exact ⟨n, p, t, e, addLeaf_word.mpr (.inr ⟨hne hn, hn⟩),
        (addLeaf_child hc).mpr ⟨hne hn, .inl ⟨rfl, rfl, rfl⟩⟩, hself, rfl⟩
    · obtain ⟨k, q', u, e', hk, hkx, he, hq'⟩ := hw.parent_exists hx hq
      exact ⟨k, q', u, e', addLeaf_word.mpr (.inr ⟨hne hk, hk⟩),
        (addLeaf_child hc).mpr ⟨hne hk, .inr hkx⟩, (hedge hxm).trans he, hq'⟩

-- The edge `e₁ ++ t :: e₂` of `m` is cut after `e₁`. The new node `s` takes the
-- lower part together with the word and the children that `m` had.
def split (F : Forest κ τ) (m s : Nat) (c : κ) (q e₁ : List τ) (t : τ) (e₂ : List τ) :
    Forest κ τ where
  word := Function.update (Function.update F.word s (some (c, q ++ e₁ ++ t :: e₂))) m
    (some (c, q ++ e₁))
  edge := Function.update (Function.update F.edge s (t :: e₂)) m e₁
  child k u := if k = m then (if u = t then some s else none)
    else if k = s then F.child m u else F.child k u

section Split

variable {F : Forest κ τ} {n m s : Nat} {c : κ} {q e₁ e₂ : List τ} {t t₁ : τ}

-- The live nodes after the cut: the upper one, the new lower one, and the others.
theorem split_word {k : Nat} {w : κ × List τ} :
    (F.split m s c q e₁ t e₂).word k = some w ↔ (k = m ∧ w = (c, q ++ e₁)) ∨
      (k ≠ m ∧ k = s ∧ w = (c, q ++ e₁ ++ t :: e₂)) ∨
      (k ≠ m ∧ k ≠ s ∧ F.word k = some w) := by
  rw [Forest.split, update_word, update_word]
  simp only [and_or_left]

theorem split_of_ne {k : Nat} (hm : k ≠ m) (hs : k ≠ s) :
    (F.split m s c q e₁ t e₂).word k = F.word k ∧ (F.split m s c q e₁ t e₂).edge k = F.edge k ∧
      (F.split m s c q e₁ t e₂).child k = F.child k := by
  simp [Forest.split, hm, hs]

omit [DecidableEq τ] in
theorem Wf.word_edge (hw : F.Wf) (hn : F.word n = some (c, q)) (hc : F.child n t₁ = some m) :
    F.word m = some (c, q ++ F.edge m) := by
  obtain ⟨e, he, hm⟩ := hw.child_word hn hc
  rw [he, hm]

omit [DecidableEq τ] in
-- A child is live, and another node than its parent.
theorem Wf.child_ne (hw : F.Wf) {w : κ × List τ} (hn : F.word n = some w)
    (hc : F.child n t₁ = some m) : m ≠ n := by
  rintro rfl
  obtain ⟨e, -, hm⟩ := hw.child_word (c := w.1) (p := w.2) hn hc
  rw [hn] at hm
  have hlen := congrArg (fun w : κ × List τ => w.2.length) (Option.some.inj hm)
  simp at hlen

omit [DecidableEq τ] in
-- An old child is never the new node, and is `m` only below `n`.
theorem Wf.child_of_split (hw : F.Wf) (hn : F.word n = some (c, q)) (hc : F.child n t₁ = some m)
    (hs : F.word s = none) {k x : Nat} {c' : κ} {p : List τ} {u : τ}
    (hk : F.word k = some (c', p)) (hx : F.child k u = some x) :
    x ≠ s ∧ (x = m → k = n ∧ u = t₁) := by
  obtain ⟨e, hem, hm⟩ := hw.child_word hn hc
  obtain ⟨e', he', hword⟩ := hw.child_word hk hx
  refine ⟨fun h => ?_, fun h => ?_⟩
  · rw [h, hs] at hword
    cases hword
  · subst h
    have hee : u :: e' = t₁ :: e := he'.symm.trans hem
    rw [hm, ← hee] at hword
    obtain ⟨rfl, hp⟩ := Prod.mk.inj (Option.some.inj hword)
    obtain rfl : q = p := List.append_cancel_right hp
    exact ⟨hw.word_inj hk hn, (List.cons.inj hee).1⟩

omit [DecidableEq τ] in
-- The first letter of the upper part is the one under which `m` hangs.
theorem Wf.upper_cons (hw : F.Wf) (hn : F.word n = some (c, q)) (hc : F.child n t₁ = some m)
    (he : F.edge m = e₁ ++ t :: e₂) (h1 : e₁ ≠ []) : ∃ e, e₁ = t₁ :: e := by
  obtain ⟨e, hem, -⟩ := hw.child_word hn hc
  obtain ⟨a, e', rfl⟩ := List.exists_cons_of_ne_nil h1
  have hcons : a :: (e' ++ t :: e₂) = t₁ :: e := by rw [← hem, he, List.cons_append]
  exact ⟨e', by rw [(List.cons.inj hcons).1]⟩

theorem Wf.split_word_inj (hw : F.Wf) (hn : F.word n = some (c, q)) (hc : F.child n t₁ = some m)
    (he : F.edge m = e₁ ++ t :: e₂) (h1 : e₁ ≠ []) {k k' : Nat} {w : κ × List τ}
    (hk : (F.split m s c q e₁ t e₂).word k = some w)
    (hk' : (F.split m s c q e₁ t e₂).word k' = some w) : k = k' := by
  have hm := hw.word_edge hn hc
  rw [he, ← List.append_assoc] at hm
  -- no other old node carries one of the two words
  have hupper : ∀ k, F.word k ≠ some (c, q ++ e₁) := hw.no_word_inside_edge hn hc he h1 (by simp)
  rcases split_word.mp hk with ⟨rfl, rfl⟩ | ⟨h2, rfl, rfl⟩ | ⟨h2, h3, hk⟩
  · rcases split_word.mp hk' with ⟨rfl, -⟩ | ⟨-, -, h⟩ | ⟨-, -, hk'⟩
    · rfl
    · simp at h
    · exact absurd hk' (hupper k')
  · rcases split_word.mp hk' with ⟨-, h⟩ | ⟨-, rfl, -⟩ | ⟨h2', -, hk'⟩
    · simp at h
    · rfl
    · exact absurd (hw.word_inj hk' hm) h2'
  · rcases split_word.mp hk' with ⟨-, rfl⟩ | ⟨-, -, rfl⟩ | ⟨-, -, hk'⟩
    · exact absurd hk (hupper k)
    · exact absurd (hw.word_inj hk hm) h2
    · exact hw.word_inj hk hk'

theorem Wf.split_child_word (hw : F.Wf) (hn : F.word n = some (c, q))
    (hc : F.child n t₁ = some m) (he : F.edge m = e₁ ++ t :: e₂) (h1 : e₁ ≠ [])
    (hs : F.word s = none) {k x : Nat} {c' : κ} {p : List τ} {u : τ}
    (hk : (F.split m s c q e₁ t e₂).word k = some (c', p))
    (hx : (F.split m s c q e₁ t e₂).child k u = some x) :
    ∃ e, (F.split m s c q e₁ t e₂).edge x = u :: e ∧
      (F.split m s c q e₁ t e₂).word x = some (c', p ++ u :: e) := by
  have hm := hw.word_edge hn hc
  rw [he, ← List.append_assoc] at hm
  have hms : s ≠ m := by
    rintro rfl
    rw [hs] at hm
    cases hm
  rcases split_word.mp hk with ⟨rfl, hw'⟩ | ⟨h2, rfl, hw'⟩ | ⟨h2, h3, hold⟩
  · -- below the upper node hangs the lower one
    cases hw'
    obtain ⟨rfl, rfl⟩ : u = t ∧ s = x := by
      by_cases hu : u = t
      · simpa [Forest.split, hu] using hx
      · simp [Forest.split, hu] at hx
    exact ⟨e₂, by simp [Forest.split, hms], split_word.mpr (.inr (.inl ⟨hms, rfl, rfl⟩))⟩
  · -- below the lower node hangs what hung below `m`
    cases hw'
    have hx : F.child m u = some x := by simpa [Forest.split, h2] using hx
    obtain ⟨e', he', hword⟩ := hw.child_word hm hx
    have hxm := hw.child_ne hm hx
    have hxs := (hw.child_of_split hn hc hs hm hx).1
    obtain ⟨hword', hedge', -⟩ := split_of_ne (F := F) (c := c) (q := q) (t := t) hxm hxs
    exact ⟨e', hedge'.trans he', hword'.trans hword⟩
  · obtain ⟨-, -, hchild⟩ := split_of_ne (F := F) (c := c) (q := q) (t := t) h2 h3
    rw [hchild] at hx
    obtain ⟨hxs, hxm⟩ := hw.child_of_split hn hc hs hold hx
    by_cases h4 : x = m
    · obtain ⟨rfl, rfl⟩ := hxm h4
      subst h4
      cases hn.symm.trans hold
      obtain ⟨e', rfl⟩ := hw.upper_cons hn hc he h1
      exact ⟨e', by simp [Forest.split], split_word.mpr (.inl ⟨rfl, rfl⟩)⟩
    · obtain ⟨e', he', hword⟩ := hw.child_word hold hx
      obtain ⟨hword', hedge', -⟩ := split_of_ne (F := F) (c := c) (q := q) (t := t) h4 hxs
      exact ⟨e', hedge'.trans he', hword'.trans hword⟩

theorem Wf.split_parent_exists (hw : F.Wf) (hn : F.word n = some (c, q))
    (hc : F.child n t₁ = some m) (he : F.edge m = e₁ ++ t :: e₂) (h1 : e₁ ≠ [])
    (hs : F.word s = none) {x : Nat} {c' : κ} {p : List τ}
    (hx : (F.split m s c q e₁ t e₂).word x = some (c', p)) (hp : p ≠ []) :
    ∃ k q' u e, (F.split m s c q e₁ t e₂).word k = some (c', q') ∧
      (F.split m s c q e₁ t e₂).child k u = some x ∧
      (F.split m s c q e₁ t e₂).edge x = u :: e ∧ p = q' ++ u :: e := by
  have hm := hw.word_edge hn hc
  rw [he, ← List.append_assoc] at hm
  have hms : s ≠ m := by
    rintro rfl
    rw [hs] at hm
    cases hm
  have hne : ∀ {k : Nat} {w : κ × List τ}, F.word k = some w → k ≠ s := by
    rintro k w hk rfl
    rw [hs] at hk
    cases hk
  rcases split_word.mp hx with ⟨rfl, hw'⟩ | ⟨-, rfl, hw'⟩ | ⟨h2, h3, hx⟩
  · cases hw'
    obtain ⟨e', rfl⟩ := hw.upper_cons hn hc he h1
    have hnm := (hw.child_ne hn hc).symm
    obtain ⟨hword', -, hchild'⟩ := split_of_ne (F := F) (c := c) (q := q) (t := t) hnm (hne hn)
    exact ⟨n, q, t₁, e', hword'.trans hn, by rw [hchild', hc], by simp [Forest.split], rfl⟩
  · cases hw'
    exact ⟨m, q ++ e₁, t, e₂, split_word.mpr (.inl ⟨rfl, rfl⟩), by simp [Forest.split],
      by simp [Forest.split, hms], rfl⟩
  · obtain ⟨k, q', u, e', hk, hkx, he', hq'⟩ := hw.parent_exists hx hp
    have hedge' : (F.split m s c q e₁ t e₂).edge x = F.edge x := (split_of_ne h2 h3).2.1
    by_cases h4 : k = m
    · -- the lower node has taken over the children of `m`
      rw [h4] at hk hkx
      cases hm.symm.trans hk
      exact ⟨s, _, u, e', split_word.mpr (.inr (.inl ⟨hms, rfl, rfl⟩)),
        by simpa [Forest.split, hms] using hkx, hedge'.trans he', hq'⟩
    · obtain ⟨hword', -, hchild'⟩ :=
        split_of_ne (F := F) (c := c) (q := q) (t := t) h4 (hne hk)
      exact ⟨k, q', u, e', hword'.trans hk, by rw [hchild', hkx], hedge'.trans he', hq'⟩

theorem Wf.split (hw : F.Wf) (hn : F.word n = some (c, q)) (hc : F.child n t₁ = some m)
    (he : F.edge m = e₁ ++ t :: e₂) (h1 : e₁ ≠ []) (hs : F.word s = none) :
    (F.split m s c q e₁ t e₂).Wf :=
  ⟨hw.split_word_inj hn hc he h1, hw.split_child_word hn hc he h1 hs,
    hw.split_parent_exists hn hc he h1 hs⟩

end Split

-- The childless node `m`, below `n` under the letter `t`, is taken out.
def cut (F : Forest κ τ) (n m : Nat) (t : τ) : Forest κ τ where
  word := Function.update F.word m none
  edge := F.edge
  child k u := if k = n ∧ u = t then none else F.child k u

theorem Wf.cut {F : Forest κ τ} (hw : F.Wf) {n m : Nat} {w : κ × List τ} {t : τ}
    (hn : F.word n = some w) (hc : F.child n t = some m) (hleaf : ∀ u, F.child m u = none) :
    (F.cut n m t).Wf := by
  have hold : ∀ {k w}, (F.cut n m t).word k = some w ↔ k ≠ m ∧ F.word k = some w := by
    intro k w
    by_cases hk : k = m
    · simp [Forest.cut, hk]
    · simp [Forest.cut, hk]
  obtain ⟨e, hem, hm⟩ := hw.child_word (c := w.1) (p := w.2) hn hc
  refine ⟨?_, ?_, ?_⟩
  · intro k k' w hk hk'
    exact hw.word_inj (hold.mp hk).2 (hold.mp hk').2
  · intro k c p u x hk' hx
    have hk : F.word k = some (c, p) := (hold.mp hk').2
    by_cases h1 : k = n ∧ u = t
    · simp [Forest.cut, h1] at hx
    · have hx : F.child k u = some x := by simpa [Forest.cut, h1] using hx
      obtain ⟨e', he', hword⟩ := hw.child_word hk hx
      -- `m` hangs below `n` under `t` only
      have hxm : x ≠ m := by
        rintro rfl
        rw [hm] at hword
        obtain ⟨hcw, hp⟩ := Prod.mk.inj (Option.some.inj hword)
        have hee : u :: e' = t :: e := he'.symm.trans hem
        rw [hee] at hp
        have : F.word k = some w := by rw [hk, ← hcw, ← List.append_cancel_right hp]
        exact h1 ⟨hw.word_inj this hn, (List.cons.inj hee).1⟩
      exact ⟨e', he', hold.mpr ⟨hxm, hword⟩⟩
  · intro x c p hx hp
    obtain ⟨hxm, hx⟩ := hold.mp hx
    obtain ⟨k, q, u, e', hk, hkx, he', hq⟩ := hw.parent_exists hx hp
    have hkm : k ≠ m := by rintro rfl; rw [hleaf u] at hkx; cases hkx
    have hlink : ¬ (k = n ∧ u = t) := by
      rintro ⟨rfl, rfl⟩
      exact hxm (Option.some.inj (hkx.symm.trans hc))
    exact ⟨k, q, u, e', hold.mpr ⟨hkm, hk⟩, by simpa [Forest.cut, hlink] using hkx, he', hq⟩

end Forest

end KVCache.Lib
