import Mathlib.Data.List.Basic
import Mathlib.Data.List.TakeDrop
import Mathlib.Data.Set.Card
import Mathlib.Logic.Function.Basic

namespace KVCache.Lib

-- A partial map from pairs of a namespace and a word to values.
abbrev PrefixMap (κ τ β : Type) := κ → List τ → Option β

namespace PrefixMap

variable {κ τ β : Type}

def empty : PrefixMap κ τ β := fun _ _ => none

def Injective (M : PrefixMap κ τ β) : Prop :=
  ∀ c p c' p' x, M c p = some x → M c' p' = some x → c' = c ∧ p' = p

theorem Injective.empty : (PrefixMap.empty : PrefixMap κ τ β).Injective := by
  intro c p c' p' x h
  cases h

-- How many keys continue `p` by a word of `K`.
noncomputable def keys (M : PrefixMap κ τ β) (c : κ) (p : List τ) (K : List τ → Prop) : Nat :=
  Set.ncard {q | K q ∧ (M c (p ++ q)).isSome}

section Keys

variable {M : PrefixMap κ τ Nat} {c : κ} {p : List τ} {n : Nat}

private theorem keys_injOn (hinj : M.Injective) (c : κ) (p : List τ) (K : List τ → Prop) :
    Set.InjOn (fun q => (M c (p ++ q)).getD 0) {q | K q ∧ (M c (p ++ q)).isSome} := by
  rintro q ⟨-, hq⟩ q' ⟨-, hq'⟩ heq
  obtain ⟨x, hx⟩ := Option.isSome_iff_exists.mp hq
  obtain ⟨y, hy⟩ := Option.isSome_iff_exists.mp hq'
  simp only [hx, hy, Option.getD_some] at heq
  subst heq
  exact List.append_cancel_left (hinj _ _ _ _ _ hx hy).2.symm

private theorem keys_mapsTo (hn : ∀ c p x, M c p = some x → x < n) (c : κ) (p : List τ)
    (K : List τ → Prop) :
    Set.MapsTo (fun q => (M c (p ++ q)).getD 0) {q | K q ∧ (M c (p ++ q)).isSome}
      (Finset.range n) := by
  rintro q ⟨-, hq⟩
  obtain ⟨x, hx⟩ := Option.isSome_iff_exists.mp hq
  simp only [hx, Option.getD_some, Finset.coe_range, Set.mem_Iio]
  exact hn _ _ _ hx

-- Where no value names two keys, there are no more keys than values.
theorem Injective.keys_le (hinj : M.Injective) (hn : ∀ c p x, M c p = some x → x < n) (c : κ)
    (p : List τ) (K : List τ → Prop) : M.keys c p K ≤ n := by
  have hle := Set.ncard_le_ncard_of_injOn _ (keys_mapsTo hn c p K) (keys_injOn hinj c p K)
    (Finset.range n).finite_toSet
  rwa [Set.ncard_coe_finset, Finset.card_range] at hle

-- A key has more keys below it than any key below it.
theorem Injective.keys_lt (hinj : M.Injective) (hn : ∀ c p x, M c p = some x → x < n)
    {q : List τ} (hq : q ≠ []) (hsome : (M c (p ++ q)).isSome) :
    M.keys c (p ++ q) (fun r => r ≠ []) < M.keys c p (fun r => r ≠ []) := by
  have hfinite : {r | r ≠ [] ∧ (M c (p ++ r)).isSome}.Finite :=
    Set.Finite.of_injOn (keys_mapsTo hn c p _) (keys_injOn hinj c p _)
      (Finset.range n).finite_toSet
  have hbelow : (q ++ ·) '' {r | r ≠ [] ∧ (M c (p ++ q ++ r)).isSome} ⊂
      {r | r ≠ [] ∧ (M c (p ++ r)).isSome} := by
    refine ⟨?_, fun h => ?_⟩
    · rintro - ⟨r, ⟨hr, hkey⟩, rfl⟩
      exact ⟨by simp [hr], by rwa [List.append_assoc] at hkey⟩
    · -- the key itself is not below itself
      obtain ⟨r, ⟨hr, -⟩, heq⟩ := h ⟨hq, hsome⟩
      exact hr (by simpa using heq)
  have hlt := Set.ncard_lt_ncard hbelow hfinite
  rwa [Set.ncard_image_of_injective _ (List.append_right_injective q)] at hlt

end Keys

-- Words of different numbers of blocks are different keys.
theorem take_blocks_ne {b i j : Nat} {t : List τ} (hb : 0 < b) (hi : i * b ≤ t.length)
    (hj : j * b ≤ t.length) (hij : i ≠ j) : t.take (i * b) ≠ t.take (j * b) := by
  intro h
  have hlen := congrArg List.length h
  rw [List.length_take, List.length_take, Nat.min_eq_left hi, Nat.min_eq_left hj] at hlen
  exact hij (Nat.eq_of_mul_eq_mul_right hb hlen)

section Define

variable [DecidableEq κ] [DecidableEq τ]

-- Define a key; a key that is already defined keeps its value.
def define (M : PrefixMap κ τ β) (c : κ) (p : List τ) (x : β) : PrefixMap κ τ β :=
  fun c' p' => if c' = c ∧ p' = p ∧ M c p = none then some x else M c' p'

-- Define the words of lengths `(i + 1) * b`, `(i + 2) * b`, ... of `t` in order.
def defineFrom (b : Nat) (M : PrefixMap κ τ β) (c : κ) (t : List τ) : Nat → List β → PrefixMap κ τ β
  | _, [] => M
  | i, x :: xs => defineFrom b (M.define c (t.take ((i + 1) * b)) x) c t (i + 1) xs

-- No value is given to a second key while it still names another one.
def DefineOk (b : Nat) (M : PrefixMap κ τ β) (c : κ) (t : List τ) : Nat → List β → Prop
  | _, [] => True
  | i, x :: xs => (M c (t.take ((i + 1) * b)) = none → ∀ c' p', M c' p' ≠ some x) ∧
      DefineOk b (M.define c (t.take ((i + 1) * b)) x) c t (i + 1) xs

theorem define_of_some {M : PrefixMap κ τ β} {c : κ} {p : List τ} {x y : β}
    (h : M c p = some y) : M.define c p x = M := by
  funext c' p'
  simp [define, h]

theorem define_of_none {M : PrefixMap κ τ β} {c : κ} {p : List τ} (x : β)
    (h : M c p = none) (c' : κ) (p' : List τ) :
    M.define c p x c' p' = if c' = c ∧ p' = p then some x else M c' p' := by
  simp [define, h]

theorem Injective.define {M : PrefixMap κ τ β} (hinj : M.Injective) {c : κ} {p : List τ} {x : β}
    (hx : M c p = none → ∀ c' p', M c' p' ≠ some x) : (M.define c p x).Injective := by
  cases h : M c p with
  | some y => rwa [define_of_some h]
  | none =>
      have hx := hx h
      intro c₁ p₁ c₂ p₂ y h1 h2
      rw [define_of_none x h] at h1 h2
      split at h1 <;> split at h2
      · rename_i e1 e2
        exact ⟨e2.1.trans e1.1.symm, e2.2.trans e1.2.symm⟩
      · cases h1; exact absurd h2 (hx _ _)
      · cases h2; exact absurd h1 (hx _ _)
      · exact hinj _ _ _ _ _ h1 h2

theorem define_eq_some_of_eq_some {M : PrefixMap κ τ β} {c c' : κ} {p p' : List τ} (x : β) {y : β}
    (h : M c' p' = some y) : M.define c p x c' p' = some y := by
  unfold define
  split
  · rename_i hkey
    rw [hkey.1, hkey.2.1, hkey.2.2] at h
    cases h
  · exact h

theorem defineFrom_eq_some_of_eq_some {b i : Nat} {M : PrefixMap κ τ β} {c c' : κ} {t p' : List τ}
    {y : β} (xs : List β) (h : M c' p' = some y) : defineFrom b M c t i xs c' p' = some y := by
  induction xs generalizing M i with
  | nil => exact h
  | cons x xs ih => exact ih (define_eq_some_of_eq_some x h)

-- Other keys are left alone.
theorem defineFrom_of_ne {b i : Nat} {M : PrefixMap κ τ β} {c c' : κ} {t p' : List τ}
    (xs : List β) (h : c' = c → ∀ j, p' ≠ t.take ((j + 1) * b)) :
    defineFrom b M c t i xs c' p' = M c' p' := by
  induction xs generalizing M i with
  | nil => rfl
  | cons x xs ih =>
      refine ih.trans ?_
      unfold define
      rw [if_neg]
      rintro ⟨hc, hp, -⟩
      exact h hc i hp

-- Where the first keys are defined already, only the last one is new.
theorem defineFrom_append {b i : Nat} {M : PrefixMap κ τ β} {c : κ} {t : List τ} {xs : List β}
    (x : β) (h : ∀ j < xs.length, (M c (t.take ((i + j + 1) * b))).isSome) :
    defineFrom b M c t i (xs ++ [x]) = M.define c (t.take ((i + xs.length + 1) * b)) x := by
  induction xs generalizing i with
  | nil => rfl
  | cons y ys ih =>
      have hfirst := h 0 (by simp)
      obtain ⟨z, hz⟩ := Option.isSome_iff_exists.mp hfirst
      have hrest : ∀ j < ys.length, (M c (t.take ((i + 1 + j + 1) * b))).isSome := by
        intro j hj
        have := h (j + 1) (by simpa using hj)
        rwa [show i + (j + 1) + 1 = i + 1 + j + 1 by omega] at this
      rw [List.cons_append, defineFrom, define_of_some hz, ih hrest, List.length_cons,
        show i + 1 + ys.length + 1 = i + (ys.length + 1) + 1 by omega]

-- Every word that was to be defined has the value it had or the one it was given.
theorem defineFrom_eq_getD {b i k : Nat} {M : PrefixMap κ τ β} {c : κ} {t : List τ} {xs : List β}
    (hb : 0 < b) (ht : (i + xs.length) * b ≤ t.length) (hk : k < xs.length) :
    defineFrom b M c t i xs c (t.take ((i + k + 1) * b)) =
      some ((M c (t.take ((i + k + 1) * b))).getD xs[k]) := by
  induction xs generalizing M i k with
  | nil => cases hk
  | cons x xs ih =>
      cases k with
      | zero =>
          refine defineFrom_eq_some_of_eq_some xs ?_
          cases hkey : M c (t.take ((i + 1) * b)) with
          | some y =>
              rw [define_of_some hkey]
              exact hkey
          | none =>
              rw [define_of_none x hkey, if_pos ⟨rfl, rfl⟩]
              rfl
      | succ k =>
          rw [List.length_cons] at ht hk
          have hne : t.take ((i + 1 + k + 1) * b) ≠ t.take ((i + 1) * b) :=
            take_blocks_ne hb (le_trans (Nat.mul_le_mul_right b (by omega)) ht)
              (le_trans (Nat.mul_le_mul_right b (by omega)) ht) (by omega)
          have hrest := ih (M := M.define c (t.take ((i + 1) * b)) x) (i := i + 1) (k := k)
            (by rwa [show i + 1 + xs.length = i + (xs.length + 1) by omega]) (by omega)
          have hold : M.define c (t.take ((i + 1) * b)) x c (t.take ((i + 1 + k + 1) * b)) =
              M c (t.take ((i + 1 + k + 1) * b)) := by
            unfold define
            rw [if_neg]
            exact fun h => hne h.2.1
          rw [hold] at hrest
          rw [show i + (k + 1) + 1 = i + 1 + k + 1 by omega]
          exact hrest

theorem DefineOk.concat {b i : Nat} {M : PrefixMap κ τ β} {c : κ} {t : List τ} {xs ys : List β}
    (h : DefineOk b M c t i (xs ++ ys)) :
    DefineOk b M c t i xs ∧
      DefineOk b (PrefixMap.defineFrom b M c t i xs) c t (i + xs.length) ys := by
  induction xs generalizing M i with
  | nil => exact ⟨trivial, h⟩
  | cons x xs ih =>
      obtain ⟨hxs, hys⟩ := ih h.2
      refine ⟨⟨h.1, hxs⟩, ?_⟩
      rwa [List.length_cons, show i + (xs.length + 1) = i + 1 + xs.length by omega]

-- If no value ends up with two keys, none has two keys on the way.
theorem DefineOk.of_injective {b i : Nat} {M : PrefixMap κ τ β} {c : κ} {t : List τ} {xs : List β}
    (h : (defineFrom b M c t i xs).Injective) : DefineOk b M c t i xs := by
  induction xs generalizing M i with
  | nil => trivial
  | cons x xs ih =>
      refine ⟨fun hnone c' p' hx => ?_, ih h⟩
      have hnew : (M.define c (t.take ((i + 1) * b)) x) c (t.take ((i + 1) * b)) = some x := by
        simp [define_of_none x hnone]
      obtain ⟨rfl, rfl⟩ := h _ _ _ _ x (defineFrom_eq_some_of_eq_some xs hnew)
        (defineFrom_eq_some_of_eq_some xs (define_eq_some_of_eq_some x hx))
      rw [hnone] at hx
      cases hx

theorem Injective.defineFrom {b i : Nat} {M : PrefixMap κ τ β} {c : κ} {t : List τ} {xs : List β}
    (hinj : M.Injective) (h : DefineOk b M c t i xs) : (defineFrom b M c t i xs).Injective := by
  induction xs generalizing M i with
  | nil => exact hinj
  | cons x xs ih => exact ih (hinj.define h.1) h.2

-- A new value is one of those that were named.
theorem defineFrom_eq_some {b i : Nat} {M : PrefixMap κ τ β} {c c' : κ} {t p : List τ}
    {xs : List β} {y : β} (h : PrefixMap.defineFrom b M c t i xs c' p = some y) :
    y ∈ xs ∨ M c' p = some y := by
  induction xs generalizing M i with
  | nil => exact .inr h
  | cons x xs ih =>
      rcases ih h with hy | hy
      · exact .inl (List.mem_cons_of_mem _ hy)
      · unfold define at hy
        split at hy
        · exact .inl (by simp [← Option.some.inj hy])
        · exact .inr hy

theorem DefineOk.of_fresh {b i : Nat} {M : PrefixMap κ τ β} {c : κ} {t : List τ} {xs : List β}
    (hxs : xs.Nodup) (hfresh : ∀ x ∈ xs, ∀ c p, M c p ≠ some x) : DefineOk b M c t i xs := by
  induction xs generalizing M i with
  | nil => trivial
  | cons x xs ih =>
      obtain ⟨hx, hxs⟩ := List.nodup_cons.mp hxs
      refine ⟨fun _ => hfresh x List.mem_cons_self, ih hxs fun y hy c' p' h => ?_⟩
      unfold define at h
      split at h
      · exact hx (Option.some.inj h ▸ hy)
      · exact hfresh y (List.mem_cons_of_mem _ hy) c' p' h

end Define

section Erase

variable [DecidableEq β]

-- Forget every key that names `x`.
def erase (M : PrefixMap κ τ β) (x : β) : PrefixMap κ τ β :=
  fun c p => if M c p = some x then none else M c p

theorem erase_eq_some {M : PrefixMap κ τ β} {x y : β} {c : κ} {p : List τ} :
    M.erase x c p = some y ↔ M c p = some y ∧ y ≠ x := by
  unfold PrefixMap.erase
  split
  · rename_i h
    simp only [reduceCtorEq, h, Option.some.injEq, false_iff, not_and, not_not]
    exact fun hxy => hxy.symm
  · rename_i h
    constructor
    · rintro h'
      exact ⟨h', by rintro rfl; exact h h'⟩
    · exact And.left

theorem foldl_erase_eq_some {M : PrefixMap κ τ β} {xs : List β} {y : β} {c : κ} {p : List τ} :
    xs.foldl PrefixMap.erase M c p = some y ↔ M c p = some y ∧ y ∉ xs := by
  induction xs generalizing M with
  | nil => simp
  | cons x xs ih =>
      rw [List.foldl_cons, ih, erase_eq_some, List.mem_cons, not_or, and_assoc]

end Erase

end PrefixMap

section Chain

variable {τ β : Type}

-- The values of the words of lengths `(i + 1) * b`, `(i + 2) * b`, ... of `t`, at
-- most `n` of them, up to the first one that is undefined.
def chainFrom (b : Nat) (f : List τ → Option β) (t : List τ) : Nat → Nat → List β
  | _, 0 => []
  | i, n + 1 =>
      match f (t.take ((i + 1) * b)) with
      | none => []
      | some x => x :: chainFrom b f t (i + 1) n

-- The longest chain of defined block prefixes of `t`.
def chain (b : Nat) (f : List τ → Option β) (t : List τ) : List β :=
  chainFrom b f t 0 (t.length / b)

theorem chainFrom_length_le (b : Nat) (f : List τ → Option β) (t : List τ) (i n : Nat) :
    (chainFrom b f t i n).length ≤ n := by
  induction n generalizing i with
  | zero => simp [chainFrom]
  | succ n ih =>
      unfold chainFrom
      split
      · simp
      · simpa using ih (i + 1)

theorem chainFrom_getElem? {b : Nat} {f : List τ → Option β} {t : List τ} {i n k : Nat} {x : β}
    (h : (chainFrom b f t i n)[k]? = some x) : f (t.take ((i + k + 1) * b)) = some x := by
  induction n generalizing i k with
  | zero => simp [chainFrom] at h
  | succ n ih =>
      unfold chainFrom at h
      split at h
      · simp at h
      · rename_i y hy
        cases k with
        | zero => simpa [hy] using h
        | succ k =>
            rw [List.getElem?_cons_succ] at h
            rw [← ih h]
            congr 3
            omega

theorem lt_chainFrom_length {b : Nat} {f : List τ → Option β} {t : List τ} {i n k : Nat} :
    k < (chainFrom b f t i n).length ↔
      k < n ∧ ∀ j ≤ k, (f (t.take ((i + j + 1) * b))).isSome := by
  induction n generalizing i k with
  | zero => simp [chainFrom]
  | succ n ih =>
      unfold chainFrom
      split
      · rename_i hy
        simp only [List.length_nil, Nat.not_lt_zero, false_iff, not_and]
        intro _ hall
        have := hall 0 (Nat.zero_le k)
        simp [hy] at this
      · rename_i y hy
        cases k with
        | zero => simp [hy]
        | succ k =>
            rw [List.length_cons, Nat.succ_lt_succ_iff, ih, Nat.succ_lt_succ_iff]
            refine and_congr_right fun _ => ⟨fun h j hj => ?_, fun h j hj => ?_⟩
            · cases j with
              | zero => simp [hy]
              | succ j =>
                  have := h j (by omega)
                  rwa [show i + 1 + j + 1 = i + (j + 1) + 1 by omega] at this
            · have := h (j + 1) (by omega)
              rwa [show i + (j + 1) + 1 = i + 1 + j + 1 by omega] at this

theorem chainFrom_congr {b : Nat} {f g : List τ → Option β} {t : List τ} {i n : Nat}
    (h : ∀ j, f (t.take ((j + 1) * b)) = g (t.take ((j + 1) * b))) :
    chainFrom b f t i n = chainFrom b g t i n := by
  induction n generalizing i with
  | zero => rfl
  | succ n ih => simp only [chainFrom, h, ih]

theorem chain_congr {b : Nat} {f g : List τ → Option β} {t : List τ}
    (h : ∀ j, f (t.take ((j + 1) * b)) = g (t.take ((j + 1) * b))) : chain b f t = chain b g t :=
  chainFrom_congr h

-- A chain of images is the image of the chain.
theorem chain_map {γ : Type} {b : Nat} {f : List τ → Option β} {g : List τ → Option γ} (h : β → γ)
    (hg : ∀ p, g p = (f p).map h) (t : List τ) : chain b g t = (chain b f t).map h := by
  unfold chain
  generalize t.length / b = n
  generalize 0 = i
  induction n generalizing i with
  | zero => rfl
  | succ n ih =>
      simp only [chainFrom, hg]
      cases f (t.take ((i + 1) * b)) with
      | none => rfl
      | some x => simp only [Option.map_some, List.map_cons, ih]

-- Forgetting a value that is not in the chain leaves the chain as it was.
theorem chain_erase [DecidableEq β] {κ : Type} {b : Nat} {M : PrefixMap κ τ β} {c : κ}
    {t : List τ} {x : β} (h : x ∉ chain b (M c) t) : chain b (M.erase x c) t = chain b (M c) t := by
  unfold chain at h ⊢
  generalize t.length / b = n at h ⊢
  generalize 0 = i at h ⊢
  induction n generalizing i with
  | zero => rfl
  | succ n ih =>
      unfold chainFrom at h ⊢
      cases hy : M c (t.take ((i + 1) * b)) with
      | none => simp [PrefixMap.erase, hy]
      | some y =>
          simp only [hy, List.mem_cons, not_or] at h
          have hkeep : M.erase x c (t.take ((i + 1) * b)) = some y :=
            PrefixMap.erase_eq_some.mpr ⟨hy, Ne.symm h.1⟩
          simp only [hkeep, ih _ h.2]

theorem chain_length_le (b : Nat) (f : List τ → Option β) (t : List τ) :
    (chain b f t).length ≤ t.length / b := chainFrom_length_le b f t 0 _

theorem chain_length_mul_le (b : Nat) (f : List τ → Option β) (t : List τ) :
    (chain b f t).length * b ≤ t.length :=
  Nat.le_trans (Nat.mul_le_mul_right b (chain_length_le b f t)) (Nat.div_mul_le_self _ _)

theorem chain_getElem? {b : Nat} {f : List τ → Option β} {t : List τ} {k : Nat} {x : β}
    (h : (chain b f t)[k]? = some x) : f (t.take ((k + 1) * b)) = some x := by
  simpa using chainFrom_getElem? h

theorem lt_chain_length {b : Nat} {f : List τ → Option β} {t : List τ} {k : Nat} :
    k < (chain b f t).length ↔
      k < t.length / b ∧ ∀ j ≤ k, (f (t.take ((j + 1) * b))).isSome := by
  simpa [chain] using lt_chainFrom_length (b := b) (f := f) (t := t) (i := 0)

-- The chain takes in every block exactly when every block prefix is defined.
theorem chain_length_eq {b : Nat} {f : List τ → Option β} {t : List τ} {n : Nat}
    (hn : t.length / b = n) :
    (chain b f t).length = n ↔ ∀ j < n, (f (t.take ((j + 1) * b))).isSome := by
  have hle := chain_length_le b f t
  cases n with
  | zero => simpa [hn] using hle
  | succ n =>
      constructor
      · intro h j hj
        have : n < (chain b f t).length := by omega
        exact (lt_chain_length.mp this).2 j (by omega)
      · intro h
        have : n < (chain b f t).length :=
          lt_chain_length.mpr ⟨by omega, fun j hj => h j (by omega)⟩
        omega

end Chain

end KVCache.Lib
