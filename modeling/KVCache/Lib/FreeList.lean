import Mathlib.Data.Finset.Card
import Mathlib.Data.Finset.Range
import Mathlib.Data.Finset.Image
import Mathlib.Data.Finset.Disjoint
import Mathlib.Logic.Function.Basic

namespace KVCache.Lib

variable {κ : Type}

-- The cells below `n` are dealt out: each is on the free list or held by one owner.
structure DealtOut (n : Nat) (free : List Nat) (cell : κ → Option Nat) : Prop where
  free_nodup : free.Nodup
  free_lt : ∀ {i}, i ∈ free → i < n
  cell_lt : ∀ {k i}, cell k = some i → i < n
  cell_inj : ∀ {k k' i}, cell k = some i → cell k' = some i → k = k'
  not_free : ∀ {k i}, cell k = some i → i ∉ free
  cover : ∀ {i}, i < n → i ∈ free ∨ ∃ k, cell k = some i

namespace DealtOut

variable {n : Nat} {free : List Nat} {cell : κ → Option Nat}

theorem range (n : Nat) : DealtOut n (List.range n) (fun _ : κ => none) where
  free_nodup := List.nodup_range
  free_lt := List.mem_range.mp
  cell_lt h := nomatch h
  cell_inj h := nomatch h
  not_free h := nomatch h
  cover h := .inl (List.mem_range.mpr h)

variable [DecidableEq κ]

-- The first free cell goes to an owner that has none.
theorem take {i : Nat} {rest : List Nat} (h : DealtOut n (i :: rest) cell) {k : κ}
    (hk : cell k = none) : DealtOut n rest (Function.update cell k (some i)) := by
  obtain ⟨hi, hrest⟩ := List.nodup_cons.mp h.free_nodup
  have hother : ∀ {j x}, j ≠ k → Function.update cell k (some i) j = some x → cell j = some x :=
    fun hj hx => by rwa [Function.update_of_ne hj] at hx
  have hself : ∀ {x}, Function.update cell k (some i) k = some x → x = i := fun hx => by
    rw [Function.update_self] at hx
    exact (Option.some.inj hx).symm
  refine ⟨hrest, fun hx => h.free_lt (List.mem_cons_of_mem _ hx), fun {j x} hx => ?_,
    fun {j j' x} hx hx' => ?_, fun {j x} hx => ?_, fun {x} hx => ?_⟩
  · by_cases hj : j = k
    · subst hj
      rw [hself hx]
      exact h.free_lt List.mem_cons_self
    · exact h.cell_lt (hother hj hx)
  · by_cases hj : j = k <;> by_cases hj' : j' = k
    · rw [hj, hj']
    · subst hj
      rw [hself hx] at hx'
      exact absurd List.mem_cons_self (h.not_free (hother hj' hx'))
    · subst hj'
      rw [hself hx'] at hx
      exact absurd List.mem_cons_self (h.not_free (hother hj hx))
    · exact h.cell_inj (hother hj hx) (hother hj' hx')
  · by_cases hj : j = k
    · subst hj
      rw [hself hx]
      exact hi
    · exact fun hmem => h.not_free (hother hj hx) (List.mem_cons_of_mem _ hmem)
  · rcases h.cover hx with hmem | ⟨j, hj⟩
    · rcases List.mem_cons.mp hmem with rfl | hmem
      · exact .inr ⟨k, Function.update_self ..⟩
      · exact .inl hmem
    · refine .inr ⟨j, ?_⟩
      have hjk : j ≠ k := by
        rintro rfl
        rw [hk] at hj
        cases hj
      rw [Function.update_of_ne hjk, hj]

-- An owner gives its cell back.
theorem give {i : Nat} (h : DealtOut n free cell) {k : κ} (hk : cell k = some i) :
    DealtOut n (i :: free) (Function.update cell k none) := by
  have hother : ∀ {j x}, Function.update cell k none j = some x → j ≠ k ∧ cell j = some x := by
    intro j x hx
    by_cases hj : j = k
    · subst hj
      rw [Function.update_self] at hx
      cases hx
    · exact ⟨hj, by rwa [Function.update_of_ne hj] at hx⟩
  refine ⟨List.nodup_cons.mpr ⟨h.not_free hk, h.free_nodup⟩, fun {x} hx => ?_,
    fun hx => h.cell_lt (hother hx).2, fun hx hx' => h.cell_inj (hother hx).2 (hother hx').2,
    fun {j x} hx hmem => ?_, fun {x} hx => ?_⟩
  · rcases List.mem_cons.mp hx with rfl | hx
    · exact h.cell_lt hk
    · exact h.free_lt hx
  · obtain ⟨hjk, hj⟩ := hother hx
    rcases List.mem_cons.mp hmem with rfl | hmem
    · exact hjk (h.cell_inj hj hk)
    · exact h.not_free hj hmem
  · rcases h.cover hx with hmem | ⟨j, hj⟩
    · exact .inl (List.mem_cons_of_mem _ hmem)
    · by_cases hjk : j = k
      · subst hjk
        rw [hk] at hj
        cases hj
        exact .inl List.mem_cons_self
      · exact .inr ⟨j, by rw [Function.update_of_ne hjk, hj]⟩

omit [DecidableEq κ] in
theorem congr {cell' : κ → Option Nat} (h : DealtOut n free cell) (he : ∀ k, cell' k = cell k) :
    DealtOut n free cell' := (funext he : cell' = cell) ▸ h

omit [DecidableEq κ] in
-- The free cells and the owners add up.
theorem length_add_card (h : DealtOut n free cell) {owners : Finset κ}
    (howners : ∀ k, k ∈ owners ↔ (cell k).isSome) : free.length + owners.card = n := by
  classical
  have himage : owners.image (fun k => (cell k).getD 0) = Finset.range n \ free.toFinset := by
    ext i
    simp only [Finset.mem_image, Finset.mem_sdiff, Finset.mem_range, List.mem_toFinset]
    constructor
    · rintro ⟨k, hk, rfl⟩
      obtain ⟨x, hx⟩ := Option.isSome_iff_exists.mp ((howners k).mp hk)
      rw [hx]
      exact ⟨h.cell_lt hx, h.not_free hx⟩
    · rintro ⟨hlt, hnot⟩
      rcases h.cover hlt with hmem | ⟨k, hk⟩
      · exact absurd hmem hnot
      · exact ⟨k, (howners k).mpr (by rw [hk]; rfl), by rw [hk]; rfl⟩
  have hinj : Set.InjOn (fun k => (cell k).getD 0) owners := by
    intro k hk k' hk' heq
    obtain ⟨x, hx⟩ := Option.isSome_iff_exists.mp ((howners k).mp hk)
    obtain ⟨x', hx'⟩ := Option.isSome_iff_exists.mp ((howners k').mp hk')
    simp only [hx, hx', Option.getD_some] at heq
    exact h.cell_inj hx (heq ▸ hx')
  have hsub : free.toFinset ⊆ Finset.range n := fun i hi =>
    Finset.mem_range.mpr (h.free_lt (List.mem_toFinset.mp hi))
  have hcard : owners.card = n - free.length := by
    rw [← Finset.card_image_of_injOn hinj, himage, Finset.card_sdiff_of_subset hsub,
      Finset.card_range, List.toFinset_card_of_nodup h.free_nodup]
  have hle := Finset.card_le_card hsub
  rw [Finset.card_range, List.toFinset_card_of_nodup h.free_nodup] at hle
  omega

end DealtOut

end KVCache.Lib
