import Mathlib.Data.List.Basic
import Mathlib.Data.List.Nodup
import Mathlib.Order.Basic

namespace KVCache.Lib

variable {α κ : Type*}

-- Lists of what was used, the latest first, next to stamps that tell when.
section Recency

variable [DecidableEq α] [Preorder κ] {stamp stamp' : α → κ} {l : List α} {x v : α}

-- The newest stamp is at the front.
def NewestFirst (stamp : α → κ) (l : List α) : Prop := l.Pairwise fun a b => stamp b < stamp a

def moveToFront (x : α) (l : List α) : List α := x :: l.erase x

theorem mem_moveToFront {y : α} (hl : l.Nodup) : y ∈ moveToFront x l ↔ y = x ∨ y ∈ l := by
  rw [moveToFront, List.mem_cons, hl.mem_erase_iff]
  by_cases h : y = x
  · simp [h]
  · simp [h]

theorem nodup_moveToFront (hl : l.Nodup) : (moveToFront x l).Nodup :=
  List.nodup_cons.mpr ⟨hl.not_mem_erase, hl.erase x⟩

theorem length_moveToFront (hx : x ∈ l) : (moveToFront x l).length = l.length := by
  have hpos := List.length_pos_of_mem hx
  rw [moveToFront, List.length_cons, List.length_erase_of_mem hx]
  omega

namespace NewestFirst

omit [DecidableEq α] in
theorem congr (h : NewestFirst stamp l) (hsame : ∀ y ∈ l, stamp' y = stamp y) :
    NewestFirst stamp' l := by
  refine List.Pairwise.imp_of_mem ?_ h
  intro a b ha hb hlt
  rw [hsame a ha, hsame b hb]
  exact hlt

theorem erase (h : NewestFirst stamp l) (x : α) : NewestFirst stamp (l.erase x) :=
  List.Pairwise.sublist List.erase_sublist h

-- What is used gets a stamp above all others.
theorem moveToFront (h : NewestFirst stamp l) (hl : l.Nodup)
    (hsame : ∀ y ∈ l, y ≠ x → stamp' y = stamp y) (hnew : ∀ y ∈ l, stamp y < stamp' x) :
    NewestFirst stamp' (moveToFront x l) := by
  have hother : ∀ y ∈ l.erase x, y ∈ l ∧ y ≠ x := fun y hy => by
    have hmem := hl.mem_erase_iff.mp hy
    exact ⟨hmem.2, hmem.1⟩
  refine List.pairwise_cons.mpr ⟨fun y hy => ?_, (h.erase x).congr fun y hy => ?_⟩
  · obtain ⟨hmem, hne⟩ := hother y hy
    rw [hsame y hmem hne]
    exact hnew y hmem
  · obtain ⟨hmem, hne⟩ := hother y hy
    exact hsame y hmem hne

omit [DecidableEq α] in
-- The last that `p` lets through is the one with the oldest stamp.
theorem getLast?_filter (h : NewestFirst stamp l) (hl : l.Nodup) {p : α → Bool} (hv : v ∈ l)
    (hp : p v) (hleast : ∀ y ∈ l, p y → y ≠ v → ¬ stamp y < stamp v) :
    (l.filter p).getLast? = some v := by
  obtain ⟨before, after, rfl⟩ := List.mem_iff_append.mp hv
  have hnone : after.filter p = [] := by
    apply List.filter_eq_nil_iff.mpr
    intro y hy hpy
    have hlt : stamp y < stamp v :=
      (List.pairwise_cons.mp (List.pairwise_append.mp h).2.1).1 y hy
    have hne : y ≠ v := by
      rintro rfl
      exact (List.nodup_cons.mp (List.nodup_append.mp hl).2.1).1 hy
    exact hleast y (by simp [hy]) hpy hne hlt
  rw [List.filter_append, List.filter_cons_of_pos hp, hnone]
  simp

end NewestFirst

end Recency

end KVCache.Lib
