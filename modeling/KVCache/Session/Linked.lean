import KVCache.Prefix.Linked
import KVCache.Prefix.Storage
import KVCache.Session.Agreement

namespace KVCache

open Lib Controller Policy Prefix Sim Tier

namespace Controller

variable {π : Type} {env : Env π} {s s' : Stack π} {ctx : AdmissionContext}
  {candidate : BlockCandidate}

-- The index has the block size of the stack and its links are in order.
structure Stack.Linked (s : Stack π) : Prop where
  size : s.index.block_size = s.block_size
  index : s.index.Linked

namespace Stack.Linked

theorem of_index (h : s.Linked) (hindex : s'.index = s.index)
    (hsize : s'.block_size = s.block_size) : s'.Linked :=
  ⟨by rw [hindex, hsize]; exact h.size, hindex ▸ h.index⟩

theorem removed (h : s.Linked) {id : BlockId} (hindex : s'.index = s.index.remove id)
    (hsize : s'.block_size = s.block_size) : s'.Linked := by
  refine ⟨?_, hindex ▸ h.index.remove id⟩
  rw [hindex, hsize, PrefixIndex.remove_block_size]
  exact h.size

-- The blocks that a lookup of the cache hits lie within the tokens.
theorem localHits_le (h : s.Linked) (env : Env π) (ctx : CacheKeyContext)
    (tokens : List TokenId) :
    (LocalCache.localHits env s ctx tokens).length * s.block_size ≤ tokens.length := by
  have hhits : (LocalCache.localHits env s ctx tokens).length ≤
      (s.index.lookup (computeContextHash env.xxh3 ctx) tokens).blocks.length :=
    (List.takeWhile_prefix _).length_le
  have hblocks := h.index.lookup_length_le (computeContextHash env.xxh3 ctx) tokens
  rw [h.size] at hblocks
  exact le_trans (Nat.mul_le_mul_right _ (le_trans hhits hblocks)) (Nat.div_mul_le_self _ _)

end Stack.Linked

namespace AdmissionController

theorem Room.linked (hl : s.Linked) {s₁ : Stack π} (h : Room env ctx candidate s s₁) :
    s₁.Linked ∧ s₁.block_size = s.block_size := by
  cases h with
  | free hroom hq => exact ⟨hl.of_index hq.index hq.block_size, hq.block_size⟩
  | @evicted s₀ _ id r tm hroom hv hq hr hready href hrem hq' =>
      have hev : (s₀.evicted id env.eviction.name ctx.timestamp_ns tm).Linked :=
        (hl.of_index hq.index hq.block_size).removed rfl rfl
      exact ⟨hev.of_index hq'.index hq'.block_size, hq'.block_size.trans hq.block_size⟩

-- An admission keeps the links, also where it names a block twice.
theorem AdmitCase.linked (hl : s.Linked) {res : Except Fault AdmitResult}
    (hcase : AdmitCase env ctx candidate s res s') (hnodes : s'.index.nodes.length < 2 ^ 32) :
    s'.Linked := by
  cases hcase with
  | badLength h => exact hl
  | present htokens h => exact hl
  | noParent htokens habsent h => exact hl
  | rejected he hd hq => exact hl.of_index hq.index hq.block_size
  | noSpace he hd hroom hvictim hq => exact hl.of_index hq.index hq.block_size
  | evictRefused e he hvictim hnot hq => exact hl.of_index hq.index hq.block_size
  | evictStuck e he hvictim hq hr hready href hstuck =>
      exact (hl.of_index hq.index hq.block_size).removed rfl rfl
  | leaked e he hd hroom hfree hmis => exact (hroom.linked hl).1.of_index rfl rfl
  | @admitted s₁ s₂ id rest tm ext ref he hd hroom hfree hplace hs₂ =>
      subst hs₂
      obtain ⟨hl₁, hsize⟩ := hroom.linked hl
      have htokens : (parentBlocks env s candidate ++ [id]).length * s₁.index.block_size ≤
          candidate.tokens.length := by
        rw [List.length_append, he.parent, he.tokens, hl₁.size, hsize, List.length_singleton]
      refine ⟨?_, hl₁.index.insert _ htokens hnodes⟩
      exact (PrefixIndex.insert_block_size _ _ _ _).trans hl₁.size

theorem Room.index_block_size {s₁ : Stack π} (h : Room env ctx candidate s s₁) :
    s₁.index.block_size = s.index.block_size := by
  cases h with
  | free hroom hq => rw [hq.index]
  | evicted hroom hv hq hr hready href hrem hq' =>
      rw [hq'.index]
      exact (PrefixIndex.remove_block_size _ _).trans (by rw [hq.index])

-- A block that gets in takes at most a root and as many nodes as its prefix has tokens for
-- each block of it.
theorem AdmitCase.nodes_le_add {res : Except Fault AdmitResult}
    (hcase : AdmitCase env ctx candidate s res s') :
    s'.index.nodes.length ≤ s.index.nodes.length +
      (Session.admitted candidate (res, s')).length * (1 + (candidate.block_index.toNat + 1) *
        ((candidate.block_index.toNat + 1) * s.index.block_size)) := by
  cases hcase with
  | badLength h => exact Nat.le_add_right _ _
  | present htokens h => exact Nat.le_add_right _ _
  | noParent htokens habsent h => exact Nat.le_add_right _ _
  | rejected he hd hq => exact hq.index ▸ Nat.le_add_right _ _
  | noSpace he hd hroom hvictim hq => exact hq.index ▸ Nat.le_add_right _ _
  | evictRefused e he hvictim hnot hq => exact hq.index ▸ Nat.le_add_right _ _
  | evictStuck e he hvictim hq hr hready href hstuck =>
      rw [← hq.index]
      exact (PrefixIndex.remove_length _ _).le.trans (Nat.le_add_right _ _)
  | leaked e he hd hroom hfree hmis =>
      exact hroom.nodes_eq ▸ Nat.le_add_right _ _
  | @admitted s₁ s₂ id rest tm ext ref he hd hroom hfree hplace hs₂ =>
      subst hs₂
      have hgrow := PrefixIndex.insert_length_le_add s₁.index
        (computeContextHash env.xxh3 candidate.context) candidate.tokens
        (parentBlocks env s candidate ++ [id])
      rw [hroom.nodes_eq, hroom.index_block_size, List.length_append, he.parent] at hgrow
      simpa [Session.admitted, Stack.admitted] using hgrow

end AdmissionController

end Controller

namespace Session

variable {π : Type} {env : Env π} {s : Session π}

-- What no look at a cache changes stands over any number of them, and nothing is admitted.
theorem looks_invariant {I : Session π → Prop} {s' : Session π}
    (hstep : ∀ s op, s.cache.manager.InStep → op.Looks → I s → I (step env s op))
    (hrun : Run env (fun _ op => op.Looks) s s') (hs : s.cache.manager.InStep) (hI : I s) :
    I s' ∧ s'.admissions = s.admissions := by
  have hkept : s'.cache.manager.InStep ∧ I s' ∧ s'.admissions = s.admissions := by
    refine Steps.invariant (I := fun s' : Session π => s'.cache.manager.InStep ∧ I s' ∧
      s'.admissions = s.admissions) ?_ hrun ⟨hs, hI, rfl⟩
    rintro s' op ⟨hs', hI', hadm⟩ hop
    obtain ⟨m, -, -, hadm'⟩ := step_looks env hs' hop
    exact ⟨step_inStep env hs' op, hstep s' op hs' hop hI', hadm'.trans hadm⟩
  exact hkept.2

theorem step_linked (hs : s.cache.manager.InStep) (hl : s.cache.Linked) {op : SessionOp}
    (hop : op.Public) (hnodes : (step env s op).cache.index.nodes.length < 2 ^ 32) :
    (step env s op).cache.Linked := by
  rcases hop with hop | ⟨candidate, rfl⟩
  · obtain ⟨m, hm, -⟩ := step_looks env hs hop
    rw [hm]
    exact hl.of_index rfl rfl
  · exact (admitBlock_cases env hs candidate).linked
      (hl.of_index s.cache.ticked_quiet.index s.cache.ticked_quiet.block_size) hnodes

theorem constructed_linked {c : LocalCache π} (h : LocalCache.Constructed c) : c.Linked := by
  cases h with
  | untiered capacity block_size clock policy_state => exact ⟨rfl, .empty block_size⟩
  | tiered capacity block_size clock policy_state tm st => exact ⟨rfl, .empty block_size⟩

-- The links are in order throughout every run of the public operations.
theorem run_linked {c₀ : LocalCache π} (hc : LocalCache.Constructed c₀)
    (hrun : Run env (fun _ op => op.Public) { cache := c₀ } s)
    (hnodes : s.cache.index.nodes.length < 2 ^ 32) :
    s.cache.manager.InStep ∧ s.cache.block_size = c₀.block_size ∧ s.cache.Linked := by
  have hs₀ : c₀.manager.InStep := by
    obtain ⟨capacity, clock, hm⟩ := hc.manager_eq
    rw [hm]
    exact BlockManager.new_inStep capacity clock
  have hinv : s.cache.manager.InStep ∧
      (s.cache.index.nodes.length < 2 ^ 32 → s.cache.Linked) := by
    refine Steps.invariant (I := fun s : Session π => s.cache.manager.InStep ∧
      (s.cache.index.nodes.length < 2 ^ 32 → s.cache.Linked)) ?_ hrun
      ⟨hs₀, fun _ => constructed_linked hc⟩
    rintro s op ⟨hs, hl⟩ hop
    refine ⟨step_inStep env hs op, fun hnodes => ?_⟩
    exact step_linked hs (hl (lt_of_le_of_lt (step_nodes_le hs hop) hnodes)) hop hnodes
  exact ⟨hinv.1, (run_inStep hrun hs₀).2, hinv.2 hnodes⟩

end Session

end KVCache
