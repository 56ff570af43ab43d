import KVCache.Policy.Policies
import KVCache.Prefix.Counts
import Mathlib.Data.Rat.Defs
import Mathlib.Algebra.Order.Field.Rat
import Mathlib.Tactic.IntervalCases
import Mathlib.Tactic.Linarith
import Mathlib.Tactic.Ring

namespace KVCache.Policy

open Lib Prefix

variable {π : Type}

namespace PrefixAwareEvictionPolicy

def NS_PER_SEC : ℚ := 1000000000

-- The score, in exact arithmetic.
def score (f : BlockPolicyFeatures) : ℚ :=
  let age_pressure := (f.age_ns : ℚ) / NS_PER_SEC
  (f.access_count : ℚ) + 2 * f.prefix_child_count + 4 * (if f.is_shared_prefix then 1 else 0) +
    2 * f.descendant_block_count - age_pressure

end PrefixAwareEvictionPolicy

def PrefixAwareEvictionPolicy : EvictionPolicy π where
  name := "prefix_aware"
  chooseVictim _ candidates st :=
    ((minElement (fun a b => PrefixAwareEvictionPolicy.score a < PrefixAwareEvictionPolicy.score b)
      candidates).map (·.id), st)

theorem PrefixAwareEvictionPolicy.picksCandidate :
    (PrefixAwareEvictionPolicy : EvictionPolicy π).PicksCandidate := by
  intro ctx fs st id h
  obtain ⟨f, hf, rfl⟩ := Option.map_eq_some_iff.mp h
  exact ⟨f, minElement_mem hf, rfl⟩

-- Index and block store agree: the ready slots are the values of the map that the index
-- stands for.
structure IndexAndStore (store : BlockStore) (index : PrefixIndex)
    (M : PrefixMap CacheContextHash TokenId BlockId) : Prop where
  block_size : 0 < index.block_size
  slots : store.records.length < 2 ^ 32
  represents : index.Represents M
  ready : ∀ {c p id}, M c p = some id → ∃ r, store.records[id]? = some r ∧ r.state = .Ready
  indexed : ∀ {id : BlockId} {r : BlockRecord}, store.records[id]? = some r → r.state = .Ready →
    ∃ c p, M c p = some id

-- What the blocks below a prefix add to the score of its block, halved: those one block
-- further, those anywhere below, and 2 where there are some one block further.
noncomputable def treeWeight (M : PrefixMap CacheContextHash TokenId BlockId) (block_size : Nat)
    (c : CacheContextHash) (p : List TokenId) : Nat :=
  let children := M.keys c p fun q => q.length = block_size
  children + (if 0 < children then 2 else 0) + M.keys c p fun q => q ≠ []

namespace IndexAndStore

variable {store : BlockStore} {index : PrefixIndex}
  {M : PrefixMap CacheContextHash TokenId BlockId} {c : CacheContextHash} {p q : List TokenId}
  {id : BlockId} {now_ns : Nat} {f : BlockPolicyFeatures}

theorem id_lt (ha : IndexAndStore store index M) :
    ∀ c p x, M c p = some x → x < store.records.length := by
  intro c p x hx
  obtain ⟨r, hr, -⟩ := ha.ready hx
  exact (List.getElem?_eq_some_iff.mp hr).1

-- The features count what the map has.
theorem features (ha : IndexAndStore store index M) (hp : M c p = some f.id)
    (hf : buildFeatures store index f.id now_ns = .ok f) :
    f.prefix_child_count = M.keys c p (fun q => q.length = index.block_size) ∧
      f.is_shared_prefix = decide (0 < M.keys c p (fun q => q.length = index.block_size)) ∧
      f.descendant_block_count = M.keys c p (fun q => q ≠ []) := by
  have hsmall : ∀ K, M.keys c p K < 2 ^ 32 := fun K =>
    lt_of_le_of_lt (ha.represents.injective.keys_le ha.id_lt c p K) ha.slots
  obtain ⟨hchild, hdescendant⟩ := ha.represents.counts_eq ha.block_size hp
  rw [Nat.mod_eq_of_lt (hsmall _)] at hchild hdescendant
  obtain ⟨r, hr, -⟩ := ha.ready hp
  have hget : store.get f.id = .ok r := BlockStore.get_eq_ok.mpr hr
  simp only [buildFeatures, hget, bind, Except.bind, pure, Except.pure, Except.ok.injEq] at hf
  rw [← hchild, ← hdescendant]
  generalize hid : f.id = id at *
  subst hf
  exact ⟨rfl, rfl, rfl⟩

theorem score_eq (ha : IndexAndStore store index M) (hp : M c p = some f.id)
    (hf : buildFeatures store index f.id now_ns = .ok f) :
    PrefixAwareEvictionPolicy.score f = f.access_count + 2 * treeWeight M index.block_size c p -
      f.age_ns / PrefixAwareEvictionPolicy.NS_PER_SEC := by
  obtain ⟨hchild, hshared, hdescendant⟩ := ha.features hp hf
  simp only [PrefixAwareEvictionPolicy.score, hchild, hshared, hdescendant, treeWeight,
    decide_eq_true_eq]
  split <;> push_cast <;> ring

-- A block below another weighs less, unless it has more children.
theorem treeWeight_lt (ha : IndexAndStore store index M) (hq : q ≠ [])
    (hsome : (M c (p ++ q)).isSome)
    (hchildren : M.keys c (p ++ q) (fun r => r.length = index.block_size) ≤
      M.keys c p fun r => r.length = index.block_size) :
    treeWeight M index.block_size c (p ++ q) < treeWeight M index.block_size c p := by
  have hbelow := ha.represents.injective.keys_lt ha.id_lt hq hsome
  simp only [treeWeight]
  split <;> split <;> omega

end IndexAndStore

namespace PrefixAwareEvictionPolicy

variable {store : BlockStore} {index : PrefixIndex}
  {M : PrefixMap CacheContextHash TokenId BlockId} {now_ns : Nat} {fs : List BlockPolicyFeatures}
  {fa fb : BlockPolicyFeatures}

-- The policy does not choose what scores higher than another candidate.
theorem chooseVictim_ne (hfs : ∀ f ∈ fs, f.id = fa.id → f = fa) (hb : fb ∈ fs)
    (hlt : score fb < score fa) (ctx : EvictionContext) (st : π) :
    (PrefixAwareEvictionPolicy.chooseVictim ctx fs st).1 ≠ some fa.id := by
  intro h
  obtain ⟨f, hmin, hid⟩ := Option.map_eq_some_iff.mp h
  obtain ⟨before, after, rfl, hbefore, hafter⟩ := minElement_split score hmin
  have hf : f = fa := hfs f (by simp) hid
  subst hf
  rcases List.mem_append.mp hb with hb | hb
  · exact lt_asymm hlt (hbefore fb hb)
  · rcases List.mem_cons.mp hb with rfl | hb
    · exact lt_irrefl _ hlt
    · exact not_le_of_gt hlt (hafter fb hb)

-- A block that was used at least as often and as lately as one that continues its prefix
-- is not chosen before it where it outweighs it in the tree, as it does unless the other
-- one has more children. Where it does not outweigh it, and both were used alike, it is.
theorem keeps_path (ha : IndexAndStore store index M)
    (hfs : ∀ f ∈ fs, buildFeatures store index f.id now_ns = .ok f) :
    (∀ c p q fa fb, fa ∈ fs → fb ∈ fs → M c p = some fa.id → M c (p ++ q) = some fb.id →
      q ≠ [] → fb.access_count ≤ fa.access_count → fa.age_ns ≤ fb.age_ns →
      treeWeight M index.block_size c (p ++ q) < treeWeight M index.block_size c p →
      ∀ ctx (st : π), (PrefixAwareEvictionPolicy.chooseVictim ctx fs st).1 ≠ some fa.id) ∧
    (∀ c p q, q ≠ [] → (M c (p ++ q)).isSome →
      M.keys c (p ++ q) (fun r => r.length = index.block_size) ≤
        M.keys c p (fun r => r.length = index.block_size) →
      treeWeight M index.block_size c (p ++ q) < treeWeight M index.block_size c p) ∧
    (∀ c p q fa fb, fa ∈ fs → fb ∈ fs → M c p = some fa.id → M c (p ++ q) = some fb.id →
      fb.access_count = fa.access_count → fa.age_ns = fb.age_ns →
      ¬ treeWeight M index.block_size c (p ++ q) < treeWeight M index.block_size c p →
      ∀ ctx (st : π), (PrefixAwareEvictionPolicy.chooseVictim ctx [fa, fb] st).1 = some fa.id) := by
  have hns : (0 : ℚ) < NS_PER_SEC := by norm_num [NS_PER_SEC]
  refine ⟨?_, fun c p q => ha.treeWeight_lt, ?_⟩
  · intro c p q fa fb hfa hfb hpa hpb _ haccess hage hweight ctx st
    have hlt : score fb < score fa := by
      rw [ha.score_eq hpa (hfs fa hfa), ha.score_eq hpb (hfs fb hfb)]
      have haccess : (fb.access_count : ℚ) ≤ fa.access_count := by exact_mod_cast haccess
      have hweight : (treeWeight M index.block_size c (p ++ q) : ℚ) <
          treeWeight M index.block_size c p := by exact_mod_cast hweight
      have hage : (fa.age_ns : ℚ) / NS_PER_SEC ≤ fb.age_ns / NS_PER_SEC :=
        div_le_div_of_nonneg_right (by exact_mod_cast hage) hns.le
      linarith
    refine chooseVictim_ne (fun f hf hid => ?_) hfb hlt ctx st
    have hbuilt := hfs f hf
    rw [hid, hfs fa hfa] at hbuilt
    exact (Except.ok.inj hbuilt).symm
  · intro c p q fa fb hfa hfb hpa hpb haccess hage hweight ctx st
    have hle : ¬ score fb < score fa := by
      rw [ha.score_eq hpa (hfs fa hfa), ha.score_eq hpb (hfs fb hfb), haccess, hage]
      have hweight : (treeWeight M index.block_size c p : ℚ) ≤
          treeWeight M index.block_size c (p ++ q) := by exact_mod_cast not_lt.mp hweight
      linarith
    simp only [PrefixAwareEvictionPolicy, minElement, List.foldl_cons, List.foldl_nil]
    rw [if_neg (by simpa using hle)]
    rfl

-- A block, one that continues it, and three that continue that one, which are used more.
private abbrev fanFirst : PrefixIndex × PrefixMap CacheContextHash TokenId BlockId :=
  stepBoth ({ block_size := 1 }, PrefixMap.empty) (.insert 7 [1, 2, 3] [0, 1, 2])

private abbrev fanSecond : PrefixIndex × PrefixMap CacheContextHash TokenId BlockId :=
  stepBoth fanFirst (.insert 7 [1, 2, 4] [0, 1, 3])

private abbrev fanState : PrefixIndex × PrefixMap CacheContextHash TokenId BlockId :=
  stepBoth fanSecond (.insert 7 [1, 2, 5] [0, 1, 4])

private abbrev fanStore (uses : Nat) : BlockStore where
  records := (List.range 5).map fun id =>
    { id := id, state := .Ready, access_count := if id < 2 then 1 else uses }

private abbrev fanFeatures (uses : Nat) (ids : List BlockId) : List BlockPolicyFeatures :=
  ids.filterMap fun id => (buildFeatures (fanStore uses) fanState.1 id 0).toOption

-- A block is added below blocks that are there.
private theorem extended {M : PrefixMap CacheContextHash TokenId BlockId} {t : List TokenId}
    {n : Nat} {xs : List BlockId} (h : M.Injective ∧ ∀ c p x, M c p = some x → x < n)
    (hxs : ∀ x ∈ xs, x < n) (hmapped : ∀ j < xs.length, (M 7 (t.take ((0 + j + 1) * 1))).isSome) :
    (PrefixMap.defineFrom 1 M 7 t 0 (xs ++ [n])).Injective ∧
      ∀ c p x, PrefixMap.defineFrom 1 M 7 t 0 (xs ++ [n]) c p = some x → x < n + 1 := by
  constructor
  · rw [PrefixMap.defineFrom_append n hmapped]
    exact h.1.define fun _ c p hn => Nat.lt_irrefl n (h.2 c p n hn)
  · intro c p x hx
    rcases PrefixMap.defineFrom_eq_some hx with hx | hx
    · rcases List.mem_append.mp hx with hx | hx
      · exact Nat.lt_succ_of_lt (hxs x hx)
      · exact List.mem_singleton.mp hx ▸ Nat.lt_succ_self n
    · exact Nat.lt_succ_of_lt (h.2 c p x hx)

private theorem fan_agrees (uses : Nat) :
    IndexAndStore (fanStore uses) fanState.1 fanState.2 := by
  have h₁ : fanFirst.2.Injective ∧ ∀ c p x, fanFirst.2 c p = some x → x < 3 := by
    refine ⟨PrefixMap.Injective.empty.defineFrom (.of_fresh (by decide) fun _ _ _ _ h => ?_),
      fun c p x hx => ?_⟩
    · cases h
    · rcases PrefixMap.defineFrom_eq_some hx with hx | hx
      · have hall : ∀ x ∈ [0, 1, 2], x < 3 := by decide
        exact hall x hx
      · cases hx
  have h₂ := @extended fanFirst.2 [1, 2, 4] 3 [0, 1] h₁ (by decide) (by decide)
  have h₃ := @extended fanSecond.2 [1, 2, 5] 4 [0, 1] h₂ (by decide) (by decide)
  have hstart : IndexRun 1 { block_size := 1 } PrefixMap.empty := Steps.refl _
  have hrun : IndexRun 1 fanState.1 fanState.2 :=
    ((hstart.snoc (.insert 7 [1, 2, 3] [0, 1, 2]) ⟨by decide, h₁.1⟩).snoc
      (.insert 7 [1, 2, 4] [0, 1, 3]) ⟨by decide, h₂.1⟩).snoc
      (.insert 7 [1, 2, 5] [0, 1, 4]) ⟨by decide, h₃.1⟩
  obtain ⟨hsize, hrep⟩ := PrefixIndex.run_represents (by decide) hrun (by decide +kernel)
  refine ⟨by rw [hsize]; decide, by simp, hrep, fun {c p id} hid => ?_, fun {id r} hr _ => ?_⟩
  · have hlt : id < 5 := h₃.2 c p id hid
    interval_cases id <;> exact ⟨_, rfl, rfl⟩
  · have hlt : id < 5 := (List.getElem?_eq_some_iff.mp hr).1
    interval_cases id
    · exact ⟨7, [1], by decide⟩
    · exact ⟨7, [1, 2], by decide⟩
    · exact ⟨7, [1, 2, 3], by decide⟩
    · exact ⟨7, [1, 2, 4], by decide⟩
    · exact ⟨7, [1, 2, 5], by decide⟩

-- The block above is chosen although it was used as often and as lately as the one that
-- continues it.
theorem cuts_path :
    IndexAndStore (fanStore 100) fanState.1 fanState.2 ∧
      (∀ f ∈ fanFeatures 100 [0, 1, 2, 3, 4],
        buildFeatures (fanStore 100) fanState.1 f.id 0 = .ok f) ∧
      ∃ fa ∈ fanFeatures 100 [0, 1, 2, 3, 4], ∃ fb ∈ fanFeatures 100 [0, 1, 2, 3, 4],
        fanState.2 7 [1] = some fa.id ∧ fanState.2 7 ([1] ++ [2]) = some fb.id ∧
          fb.access_count ≤ fa.access_count ∧ fa.age_ns ≤ fb.age_ns ∧
          ((PrefixAwareEvictionPolicy : EvictionPolicy Unit).chooseVictim ⟨.GpuSim, 0, 0⟩
            (fanFeatures 100 [0, 1, 2, 3, 4]) ()).1 = some fa.id :=
  ⟨fan_agrees 100, by decide +kernel, by decide +kernel⟩

-- A block that nothing continues does not cost one above it.
theorem keeps_path_of_leaf :
    ((PrefixAwareEvictionPolicy : EvictionPolicy Unit).chooseVictim ⟨.GpuSim, 0, 0⟩
      (fanFeatures 1 [0, 2]) ()).1 ≠ some 0 := by
  have ha := fan_agrees 1
  have hsize : fanState.1.block_size = 1 := by decide +kernel
  have hleaf : fanState.2.keys 7 [1, 2, 3] (fun r => r.length = 1) = 0 := by
    have hid : fanState.2 7 [1, 2, 3] = some 2 := by decide +kernel
    have hchild := (ha.represents.counts_eq ha.block_size hid).1
    have hle := ha.represents.keys_le hid fun r => r.length = 1
    have hzero : fanState.1.blockChildCount 2 = 0 := by decide +kernel
    have hnodes : fanState.1.nodes.length = 6 := by decide +kernel
    rw [hzero, hsize] at hchild
    rw [hnodes] at hle
    omega
  obtain ⟨hkeeps, hfewer, -⟩ := @keeps_path Unit (fanStore 1) fanState.1 fanState.2 0
    (fanFeatures 1 [0, 2]) ha (by decide +kernel)
  rw [hsize] at hkeeps hfewer
  have hweight := hfewer 7 [1] [2, 3] (by decide) (by decide +kernel) (hleaf ▸ Nat.zero_le _)
  obtain ⟨fa, hfa, fb, hfb, hpa, hpb, haccess, hage, hid⟩ :
      ∃ fa ∈ fanFeatures 1 [0, 2], ∃ fb ∈ fanFeatures 1 [0, 2],
        fanState.2 7 [1] = some fa.id ∧ fanState.2 7 ([1] ++ [2, 3]) = some fb.id ∧
          fb.access_count ≤ fa.access_count ∧ fa.age_ns ≤ fb.age_ns ∧ fa.id = 0 := by
    decide +kernel
  have hne := hkeeps 7 [1] [2, 3] fa fb hfa hfb hpa hpb (by decide) haccess hage hweight
    ⟨.GpuSim, 0, 0⟩ ()
  rwa [hid] at hne

end PrefixAwareEvictionPolicy

end KVCache.Policy
