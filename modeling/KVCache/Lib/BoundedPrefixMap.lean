import KVCache.Lib.PrefixMap
import Mathlib.Data.Finset.Card

namespace KVCache.Lib

variable {κ τ β : Type} [DecidableEq κ] [DecidableEq τ] {C b : Nat}

-- A map from words of whole blocks of `b` letters to values, closed under the shorter
-- block prefixes of its keys, with at most `C` keys.
structure BoundedPrefixMap (κ τ β : Type) [DecidableEq κ] [DecidableEq τ] (C b : Nat) where
  entries : PrefixMap κ τ β
  keys : Finset (κ × List τ)
  mem_keys : ∀ {c p}, (c, p) ∈ keys ↔ (entries c p).isSome
  card_le : keys.card ≤ C
  closed : ∀ {c p i}, (c, p) ∈ keys → (i + 1) * b ≤ p.length → (c, p.take ((i + 1) * b)) ∈ keys

-- How adding a key can end.
inductive AddOutcome where
  | misfit
  | present
  | orphan
  | full
  | added
deriving DecidableEq, Repr

namespace BoundedPrefixMap

def empty (κ τ β : Type) [DecidableEq κ] [DecidableEq τ] (C b : Nat) :
    BoundedPrefixMap κ τ β C b where
  entries := PrefixMap.empty
  keys := ∅
  mem_keys := by simp [PrefixMap.empty]
  card_le := Nat.zero_le _
  closed h := absurd h (Finset.notMem_empty _)

-- Add a word of `i + 1` blocks whose parent is there, where there is room.
def insert (K : BoundedPrefixMap κ τ β C b) (c : κ) (p : List τ) (i : Nat) (x : β)
    (hlen : p.length = (i + 1) * b) (hnew : (c, p) ∉ K.keys)
    (hparent : ¬ (0 < i ∧ (c, p.take (i * b)) ∉ K.keys)) (hroom : K.keys.card ≠ C) :
    BoundedPrefixMap κ τ β C b where
  entries := K.entries.define c p x
  keys := Insert.insert (c, p) K.keys
  mem_keys := by
    intro c' p'
    have hnone : K.entries c p = none := by
      simpa using fun h => hnew (K.mem_keys.mpr h)
    rw [PrefixMap.define_of_none x hnone, Finset.mem_insert, Prod.mk.injEq, K.mem_keys]
    by_cases h : c' = c ∧ p' = p <;> simp [h]
  card_le := by
    have hle := K.card_le
    rw [Finset.card_insert_of_notMem hnew]
    omega
  closed := by
    intro c' p' j hmem hj
    rcases Finset.mem_insert.mp hmem with heq | hmem
    · obtain ⟨rfl, rfl⟩ := Prod.mk.inj heq
      rw [hlen] at hj
      by_cases hlast : (i + 1) * b ≤ (j + 1) * b
      · rw [List.take_of_length_le (hlen ▸ hlast)]
        exact Finset.mem_insert_self _ _
      · -- a shorter block prefix is one of the parent
        have hji : j + 1 ≤ i := by
          by_contra hlt
          exact hlast (Nat.mul_le_mul_right b (by omega))
        have hmem : (c', p'.take (i * b)) ∈ K.keys := by
          by_contra hno
          exact hparent ⟨by omega, hno⟩
        have hle : (j + 1) * b ≤ i * b := Nat.mul_le_mul_right b hji
        have hib : i * b ≤ p'.length := by
          rw [hlen]
          exact Nat.mul_le_mul_right b (by omega)
        have htake := K.closed hmem (i := j) (by rwa [List.length_take, Nat.min_eq_left hib])
        rw [List.take_take, Nat.min_eq_left hle] at htake
        exact Finset.mem_insert_of_mem htake
    · exact Finset.mem_insert_of_mem (K.closed hmem hj)

-- Add a word as one of `i + 1` blocks, if it fits.
def add (K : BoundedPrefixMap κ τ β C b) (c : κ) (p : List τ) (i : Nat) (x : β) :
    AddOutcome × BoundedPrefixMap κ τ β C b :=
  if hlen : p.length = (i + 1) * b then
    if hnew : (c, p) ∉ K.keys then
      if hparent : ¬ (0 < i ∧ (c, p.take (i * b)) ∉ K.keys) then
        if hroom : K.keys.card ≠ C then (.added, K.insert c p i x hlen hnew hparent hroom)
        else (.full, K)
      else (.orphan, K)
    else (.present, K)
  else (.misfit, K)

variable {K : BoundedPrefixMap κ τ β C b} {c : κ} {p : List τ} {i : Nat} {x : β}

-- By closure, a word of whole blocks chains completely exactly when it is a key.
theorem chain_length_iff (hb : 0 < b) (hlen : p.length = (i + 1) * b) :
    (chain b (K.entries c) p).length = i + 1 ↔ (c, p) ∈ K.keys := by
  rw [chain_length_eq (by rw [hlen, Nat.mul_div_cancel _ hb])]
  constructor
  · intro h
    have hlast := h i (Nat.lt_succ_self i)
    rwa [← hlen, List.take_length, ← K.mem_keys] at hlast
  · intro hmem j hj
    rw [← K.mem_keys]
    exact K.closed hmem (by rw [hlen]; exact Nat.mul_le_mul_right b (by omega))

-- The parent chains completely exactly when it is a key or empty.
theorem parent_chain_length_iff (hb : 0 < b) (hlen : p.length = (i + 1) * b) :
    (chain b (K.entries c) (p.take (i * b))).length = i ↔
      ¬ (0 < i ∧ (c, p.take (i * b)) ∉ K.keys) := by
  have htake : (p.take (i * b)).length = i * b := by
    rw [List.length_take, hlen]
    exact Nat.min_eq_left (Nat.mul_le_mul_right b (Nat.le_succ i))
  cases i with
  | zero =>
      have hle := chain_length_le b (K.entries c) (p.take (0 * b))
      simp at hle ⊢
      exact hle
  | succ i =>
      rw [chain_length_iff hb htake]
      simp

theorem add_of_full (hlen : p.length = (i + 1) * b) (hnew : (c, p) ∉ K.keys)
    (hparent : ¬ (0 < i ∧ (c, p.take (i * b)) ∉ K.keys)) (hroom : K.keys.card = C) :
    K.add c p i x = (.full, K) := by
  rw [add, dif_pos hlen, dif_pos hnew, dif_pos hparent, dif_neg (not_not.mpr hroom)]

theorem add_of_room (hlen : p.length = (i + 1) * b) (hnew : (c, p) ∉ K.keys)
    (hparent : ¬ (0 < i ∧ (c, p.take (i * b)) ∉ K.keys)) (hroom : K.keys.card ≠ C) :
    K.add c p i x = (.added, K.insert c p i x hlen hnew hparent hroom) := by
  rw [add, dif_pos hlen, dif_pos hnew, dif_pos hparent, dif_pos hroom]

theorem add_of_orphan (hlen : p.length = (i + 1) * b) (hnew : (c, p) ∉ K.keys)
    (hparent : 0 < i ∧ (c, p.take (i * b)) ∉ K.keys) : K.add c p i x = (.orphan, K) := by
  rw [add, dif_pos hlen, dif_pos hnew, dif_neg (not_not.mpr hparent)]

theorem add_of_present (hlen : p.length = (i + 1) * b) (hmem : (c, p) ∈ K.keys) :
    K.add c p i x = (.present, K) := by
  rw [add, dif_pos hlen, dif_neg (not_not.mpr hmem)]

theorem add_of_misfit (hlen : p.length ≠ (i + 1) * b) : K.add c p i x = (.misfit, K) := by
  rw [add, dif_neg hlen]

end BoundedPrefixMap

end KVCache.Lib
