import Mathlib.Algebra.BigOperators.Group.List.Basic
import Mathlib.Algebra.GroupWithZero.Nat

namespace KVCache.Lib

-- A loop over a list of things to do. A pass takes one off, counts its value and puts
-- what comes next behind or before the rest.
structure Worklist (α : Type) where
  next : α → List α
  value : α → Nat
  put : List α → List α → List α
  put_perm : ∀ rest new, (put rest new).Perm (new ++ rest)

namespace Worklist

variable {α : Type} (W : Worklist α)

def run : Nat → List α → Nat → List α × Nat
  | 0, work, count => (work, count)
  | _ + 1, [], count => ([], count)
  | fuel + 1, a :: work, count => run fuel (W.put work (W.next a)) (count + W.value a)

variable {W} {P : α → Prop} {size total : α → Nat}

-- Where `size` counts the passes that an element takes and `total` what they add up to,
-- the loop comes to an end within the passes of its elements and returns the totals.
theorem run_eq (hnext : ∀ a, P a → ∀ b ∈ W.next a, P b)
    (hsize : ∀ a, P a → size a = 1 + ((W.next a).map size).sum)
    (htotal : ∀ a, P a → total a = W.value a + ((W.next a).map total).sum) {fuel : Nat}
    {work : List α} (hwork : ∀ a ∈ work, P a) (hfuel : (work.map size).sum ≤ fuel) (count : Nat) :
    W.run fuel work count = ([], count + (work.map total).sum) := by
  induction fuel generalizing work count with
  | zero =>
      cases work with
      | nil => rfl
      | cons a work =>
          have hpos := hsize a (hwork a List.mem_cons_self)
          simp only [List.map_cons, List.sum_cons] at hfuel
          omega
  | succ fuel ih =>
      cases work with
      | nil => rfl
      | cons a work =>
          have ha := hwork a List.mem_cons_self
          have hperm := W.put_perm work (W.next a)
          have hsizes := (hperm.map size).sum_eq
          have htotals := (hperm.map total).sum_eq
          simp only [List.map_append, List.sum_append] at hsizes htotals
          have hwork' : ∀ b ∈ W.put work (W.next a), P b := by
            intro b hb
            rcases List.mem_append.mp (hperm.mem_iff.mp hb) with hb | hb
            · exact hnext a ha b hb
            · exact hwork b (List.mem_cons_of_mem _ hb)
          have hfuel' : ((W.put work (W.next a)).map size).sum ≤ fuel := by
            have hstep := hsize a ha
            simp only [List.map_cons, List.sum_cons] at hfuel
            omega
          have hstep := htotal a ha
          rw [run, ih hwork' hfuel', List.map_cons, List.sum_cons]
          congr 1
          omega

end Worklist

end KVCache.Lib
