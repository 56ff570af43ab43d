import KVCache.Lib.Replay
import Mathlib.Data.List.Nodup
import Mathlib.Data.List.Perm.Basic
import Mathlib.Data.Nat.Find
import Mathlib.Order.Bounds.Basic

namespace KVCache.Lib

variable {α : Type*}

-- A change to a register: something is entered, or all entries of a kind are struck out.
inductive Change (α : Type*) where
  | enter (x : α)
  | strike (gone : α → Bool)

-- A new entry goes to the end, and what is there already is not entered again.
def Change.apply [DecidableEq α] (l : List α) : Change α → List α
  | enter x => if x ∈ l then l else l ++ [x]
  | strike gone => l.filter fun x => !gone x

-- Change `i` of the history enters `x`, and no later one strikes it out.
structure Stands (H : List (Change α)) (x : α) (i : Nat) : Prop where
  entered : H[i]? = some (.enter x)
  kept : ∀ j gone, i < j → H[j]? = some (.strike gone) → gone x = false

-- The first entry of `x` after it was last struck out.
def Since (H : List (Change α)) (x : α) (i : Nat) : Prop := IsLeast {i | Stands H x i} i

-- What the register holds is what stands, in the order in which it came to stand.
structure Registers (H : List (Change α)) (l : List α) : Prop where
  nodup : l.Nodup
  mem : ∀ x, x ∈ l ↔ ∃ i, Stands H x i
  order : l.Pairwise fun x y => ∀ i j, Since H x i → Since H y j → i < j

variable {H : List (Change α)} {x y : α} {i : Nat} {gone : α → Bool} {l l' : List α}

theorem Stands.lt (h : Stands H x i) : i < H.length := (List.getElem?_eq_some_iff.mp h.entered).1

private theorem getElem?_snoc {β : Type*} {l : List β} {a b : β} {i : Nat} :
    (l ++ [a])[i]? = some b ↔ l[i]? = some b ∨ i = l.length ∧ a = b := by
  rcases Nat.lt_trichotomy i l.length with h | rfl | h
  · rw [List.getElem?_append_left h]
    simp [Nat.ne_of_lt h]
  · simp
  · have hlong : (l ++ [a]).length ≤ i := by
      rw [List.length_append, List.length_singleton]
      exact h
    rw [List.getElem?_eq_none hlong, List.getElem?_eq_none h.le]
    simp [Nat.ne_of_gt h]

theorem stands_strike : Stands (H ++ [.strike gone]) x i ↔ Stands H x i ∧ gone x = false := by
  constructor
  · rintro ⟨hentered, hkept⟩
    have hold : H[i]? = some (.enter x) := by
      rcases getElem?_snoc.mp hentered with h | ⟨-, h⟩
      · exact h
      · cases h
    refine ⟨⟨hold, fun j gone' hij hj => hkept j gone' hij (getElem?_snoc.mpr (.inl hj))⟩, ?_⟩
    exact hkept H.length gone (List.getElem?_eq_some_iff.mp hold).1
      (getElem?_snoc.mpr (.inr ⟨rfl, rfl⟩))
  · rintro ⟨h, hgone⟩
    refine ⟨getElem?_snoc.mpr (.inl h.entered), fun j gone' hij hj => ?_⟩
    rcases getElem?_snoc.mp hj with hj | ⟨-, hj⟩
    · exact h.kept j gone' hij hj
    · cases hj
      exact hgone

theorem stands_enter : Stands (H ++ [.enter y]) x i ↔ Stands H x i ∨ i = H.length ∧ y = x := by
  have hstrike : ∀ {j : Nat} {gone : α → Bool}, (H ++ [Change.enter y])[j]? = some (.strike gone) →
      H[j]? = some (.strike gone) := by
    intro j gone hj
    rcases getElem?_snoc.mp hj with hj | ⟨-, hj⟩
    · exact hj
    · cases hj
  constructor
  · rintro ⟨hentered, hkept⟩
    rcases getElem?_snoc.mp hentered with h | ⟨rfl, h⟩
    · exact .inl ⟨h, fun j gone hij hj => hkept j gone hij (getElem?_snoc.mpr (.inl hj))⟩
    · cases h
      exact .inr ⟨rfl, rfl⟩
  · rintro (h | ⟨rfl, rfl⟩)
    · exact ⟨getElem?_snoc.mpr (.inl h.entered),
        fun j gone hij hj => h.kept j gone hij (hstrike hj)⟩
    · refine ⟨getElem?_snoc.mpr (.inr ⟨rfl, rfl⟩), fun j gone hij hj => ?_⟩
      have hlt := (List.getElem?_eq_some_iff.mp (hstrike hj)).1
      omega

-- What stands came to stand at some time.
theorem exists_since (h : ∃ i, Stands H x i) : ∃ i, Since H x i := by
  classical
  exact ⟨Nat.find h, Nat.find_spec h, fun _ hj => Nat.find_min' h hj⟩

theorem Since.lt (h : Since H x i) : i < H.length := h.1.lt

theorem since_strike : Since (H ++ [.strike gone]) x i ↔ Since H x i ∧ gone x = false := by
  unfold Since
  constructor
  · rintro ⟨h, hleast⟩
    obtain ⟨hstands, hgone⟩ := stands_strike.mp h
    exact ⟨⟨hstands, fun j hj => hleast (stands_strike.mpr ⟨hj, hgone⟩)⟩, hgone⟩
  · rintro ⟨⟨h, hleast⟩, hgone⟩
    exact ⟨stands_strike.mpr ⟨h, hgone⟩, fun j hj => hleast (stands_strike.mp hj).1⟩

-- What stands already keeps its place.
theorem since_enter : Since (H ++ [.enter y]) x i ↔
    Since H x i ∨ (i = H.length ∧ y = x ∧ ¬ ∃ j, Stands H x j) := by
  constructor
  · rintro ⟨h, hleast⟩
    by_cases hex : ∃ j, Stands H x j
    · obtain ⟨j, hj, hmin⟩ := exists_since hex
      have hij : i ≤ j := hleast (stands_enter.mpr (.inl hj))
      rcases stands_enter.mp h with h | ⟨rfl, -⟩
      · exact .inl ⟨h, fun k hk => hleast (stands_enter.mpr (.inl hk))⟩
      · have hlt := hj.lt
        omega
    · rcases stands_enter.mp h with h | ⟨hi, hy⟩
      · exact absurd ⟨i, h⟩ hex
      · exact .inr ⟨hi, hy, hex⟩
  · rintro (⟨h, hleast⟩ | ⟨rfl, rfl, hno⟩)
    · refine ⟨stands_enter.mpr (.inl h), fun k hk => ?_⟩
      rcases stands_enter.mp hk with hk | ⟨rfl, -⟩
      · exact hleast hk
      · exact h.lt.le
    · refine ⟨stands_enter.mpr (.inr ⟨rfl, rfl⟩), fun k hk => ?_⟩
      rcases stands_enter.mp hk with hk | ⟨rfl, -⟩
      · exact absurd ⟨k, hk⟩ hno
      · exact le_refl _

namespace Registers

-- One more change.
theorem apply [DecidableEq α] (h : Registers H l) (change : Change α) :
    Registers (H ++ [change]) (change.apply l) := by
  cases change with
  | strike gone =>
      refine ⟨h.nodup.filter _, fun x => ?_, (h.order.imp ?_).filter _⟩
      · rw [Change.apply, List.mem_filter, h.mem]
        simp only [Bool.not_eq_true', stands_strike, exists_and_right]
      · exact fun horder i j hi hj => horder i j (since_strike.mp hi).1 (since_strike.mp hj).1
  | enter y =>
      have hold : l.Pairwise fun a b => ∀ i j, Since (H ++ [.enter y]) a i →
          Since (H ++ [.enter y]) b j → i < j := by
        refine List.Pairwise.imp_of_mem (fun {a b} ha hb horder i j hi hj => ?_) h.order
        rcases since_enter.mp hi with hi | ⟨-, -, hno⟩
        · rcases since_enter.mp hj with hj | ⟨-, -, hno⟩
          · exact horder i j hi hj
          · exact absurd ((h.mem b).mp hb) hno
        · exact absurd ((h.mem a).mp ha) hno
      by_cases hy : y ∈ l
      · rw [Change.apply, if_pos hy]
        refine ⟨h.nodup, fun x => ?_, hold⟩
        rw [h.mem]
        simp only [stands_enter, exists_or]
        refine ⟨.inl, ?_⟩
        rintro (hx | ⟨i, -, rfl⟩)
        · exact hx
        · exact (h.mem y).mp hy
      · rw [Change.apply, if_neg hy]
        have hfresh : ¬ ∃ i, Stands H y i := fun hex => hy ((h.mem y).mpr hex)
        refine ⟨?_, fun x => ?_, ?_⟩
        · rw [List.nodup_append]
          refine ⟨h.nodup, List.nodup_singleton y, ?_⟩
          rintro a ha b hb rfl
          exact hy (List.mem_singleton.mp hb ▸ ha)
        · rw [List.mem_append, List.mem_singleton, h.mem]
          simp only [stands_enter, exists_or, exists_eq_left, eq_comm]
        · rw [List.pairwise_append]
          refine ⟨hold, List.pairwise_singleton _ _, fun a ha b hb i j hi hj => ?_⟩
          obtain rfl := List.mem_singleton.mp hb
          have hj' : j = H.length := by
            rcases since_enter.mp hj with hj | ⟨hj, -⟩
            · exact absurd ⟨j, hj.1⟩ hfresh
            · exact hj
          rcases since_enter.mp hi with hi | ⟨-, -, hno⟩
          · exact hj' ▸ hi.lt
          · exact absurd ((h.mem a).mp ha) hno

theorem nil : Registers ([] : List (Change α)) [] :=
  ⟨List.nodup_nil, fun x => by simpa using fun i (h : Stands [] x i) => by simpa using h.lt, .nil⟩

-- The register is the replay of its history,
theorem of_replay [DecidableEq α] (H : List (Change α)) :
    Registers H (replay Change.apply [] H) := by
  induction H using List.reverseRecOn with
  | nil => exact nil
  | append_singleton H change ih =>
      rw [replay_snoc]
      exact ih.apply change

-- and the history leaves it no choice.
theorem unique (h : Registers H l) (h' : Registers H l') : l = l' := by
  have hperm : l.Perm l' :=
    (List.perm_ext_iff_of_nodup h.nodup h'.nodup).mpr fun x => (h.mem x).trans (h'.mem x).symm
  refine hperm.eq_of_pairwise (fun x y hx hy hxy hyx => ?_) h.order h'.order
  obtain ⟨i, hi⟩ := exists_since ((h.mem x).mp hx)
  obtain ⟨j, hj⟩ := exists_since ((h'.mem y).mp hy)
  exact absurd (hxy i j hi hj) (Nat.lt_asymm (hyx j i hj hi))

end Registers

end KVCache.Lib
