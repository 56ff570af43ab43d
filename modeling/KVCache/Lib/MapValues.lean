import Mathlib.Algebra.BigOperators.Group.Finset.Basic
import Mathlib.Algebra.GroupWithZero.Nat
import Mathlib.Data.List.AList

namespace KVCache.Lib

variable {κ ν μ : Type}

private theorem keys_map_values (f : ν → μ) (entries : List (Sigma fun _ : κ => ν)) :
    (entries.map fun e => (⟨e.1, f e.2⟩ : Sigma fun _ : κ => μ)).keys = entries.keys := by
  simp [List.keys, Function.comp_def]

-- An association list with each value replaced, in the same order.
def mapValues (f : ν → μ) (m : AList fun _ : κ => ν) : AList fun _ : κ => μ where
  entries := m.entries.map fun e => ⟨e.1, f e.2⟩
  nodupKeys := by
    rw [List.NodupKeys, keys_map_values]
    exact m.nodupKeys

variable [DecidableEq κ]

private theorem dlookup_map_values (f : ν → μ) (k : κ) (entries : List (Sigma fun _ : κ => ν)) :
    List.dlookup k (entries.map fun e => (⟨e.1, f e.2⟩ : Sigma fun _ : κ => μ)) =
      Option.map f (List.dlookup k entries : Option ν) := by
  induction entries with
  | nil => rfl
  | cons e rest ih =>
      obtain ⟨k', v⟩ := e
      by_cases h : k = k'
      · subst h
        rw [List.map_cons, List.dlookup_cons_eq, List.dlookup_cons_eq]
        rfl
      · rw [List.map_cons, List.dlookup_cons_ne _ _ h, List.dlookup_cons_ne _ _ h, ih]

@[simp] theorem lookup_mapValues (f : ν → μ) (m : AList fun _ : κ => ν) (k : κ) :
    (mapValues f m).lookup k = Option.map f (m.lookup k : Option ν) :=
  dlookup_map_values f k m.entries

-- A sum over the entries is one over the keys.
theorem sum_entries (f : ν → Nat) (m : AList fun _ : κ => ν) :
    (m.entries.map fun e => f e.2).sum =
      ∑ k ∈ m.keys.toFinset, (Option.map f (m.lookup k : Option ν)).getD 0 := by
  rw [List.sum_toFinset _ m.keys_nodup, AList.keys, List.keys, List.map_map]
  refine congrArg List.sum (List.map_congr_left fun e he => ?_)
  have hlookup : m.lookup e.1 = some e.2 := AList.mem_lookup_iff.mpr he
  simp only [Function.comp_apply, hlookup]
  rfl

end KVCache.Lib
