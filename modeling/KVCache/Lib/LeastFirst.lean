import Mathlib.Data.Finset.Card
import Mathlib.Data.Finset.Range

namespace KVCache.Lib

variable {α : Type} {lt : α → α → Prop} {s : Finset α} {l : List α}

-- `l` lists members of `s` in ascending order, and leaves out only larger ones.
structure LeastFirst (lt : α → α → Prop) (s : Finset α) (l : List α) : Prop where
  subset : ∀ a ∈ l, a ∈ s
  sorted : l.Pairwise lt
  least : ∀ a ∈ l, ∀ b ∈ s, b ∉ l → lt a b

namespace LeastFirst

theorem nil : LeastFirst lt s [] :=
  ⟨fun _ h => absurd h List.not_mem_nil, List.Pairwise.nil, fun _ h => absurd h List.not_mem_nil⟩

-- The least member goes in front of a list of the others.
theorem cons [DecidableEq α] {v : α} (hv : v ∈ s) (hleast : ∀ b ∈ s, b ≠ v → lt v b)
    (h : LeastFirst lt (s.erase v) l) : LeastFirst lt s (v :: l) := by
  have hother : ∀ a ∈ l, a ≠ v ∧ a ∈ s := fun a ha => Finset.mem_erase.mp (h.subset a ha)
  refine ⟨fun a ha => ?_, ?_, fun a ha b hb hnot => ?_⟩
  · rcases List.mem_cons.mp ha with rfl | ha
    · exact hv
    · exact (hother a ha).2
  · refine List.pairwise_cons.mpr ⟨fun a ha => ?_, h.sorted⟩
    exact hleast a (hother a ha).2 (hother a ha).1
  · have hbv : b ≠ v := fun hbv => hnot (hbv ▸ List.mem_cons_self)
    rcases List.mem_cons.mp ha with rfl | ha
    · exact hleast b hb hbv
    · exact h.least a ha b (Finset.mem_erase.mpr ⟨hbv, hb⟩)
        fun hmem => hnot (List.mem_cons_of_mem _ hmem)

end LeastFirst

end KVCache.Lib
