import KVCache.Lib.Reuse
import KVCache.Session.Occupancy
import Mathlib.Data.List.TakeWhile

namespace KVCache

open Lib Controller Policy Prefix Sim Tier

variable {π : Type} {env : Env π}

-- A policy that turns no block away.
def Policy.AdmissionPolicy.AlwaysAdmits (p : AdmissionPolicy π) : Prop :=
  ∀ ctx f st, (p.decide ctx f st).1 = .Admit

namespace Session

variable {s : Session π} {b bi C n : Nat} {ctx : CacheKeyContext} {ts : List (List TokenId)}
  {tokens : List TokenId} {candidate : BlockCandidate}

-- The blocks that were admitted, each as the tokens up to its end.
def admittedPrefixes (s : Session π) : List (List TokenId) :=
  s.admissions.map fun a => a.candidate.tokens

-- The cache has the block prefixes of these lists, in their context, and no others: its index
-- stands for them, and each was admitted, once.
structure Stocked (env : Env π) (b : Nat) (ctx : CacheKeyContext) (ts : List (List TokenId))
    (s : Session π) : Prop where
  index : ∃ M, s.cache.Agrees env b M s.lastCandidate ∧
    ∀ p, (M (computeContextHash env.xxh3 ctx) p).isSome ↔ ∃ t ∈ ts, BlockPrefix b p t
  context : ∀ a ∈ s.admissions, a.candidate.context = ctx
  once : s.admittedPrefixes.Nodup
  admitted : ∀ p, p ∈ s.admittedPrefixes ↔ ∃ t ∈ ts, BlockPrefix b p t

theorem new_stocked (env : Env π) (capacity b : Nat) (ctx : CacheKeyContext) (clock : Clock)
    (policy_state : π) :
    Stocked env b ctx [] { cache := .new capacity b clock policy_state } where
  index := ⟨_, new_agrees env capacity b clock policy_state, fun p => by simp [PrefixMap.empty]⟩
  context := by simp
  once := List.nodup_nil
  admitted := by simp [admittedPrefixes]

namespace Stocked

theorem of_iff (h : Stocked env b ctx ts s) {ts' : List (List TokenId)}
    (hsame : ∀ p, (∃ t ∈ ts', BlockPrefix b p t) ↔ ∃ t ∈ ts, BlockPrefix b p t) :
    Stocked env b ctx ts' s := by
  obtain ⟨M, ha, hkeys⟩ := h.index
  exact ⟨⟨M, ha, fun p => (hkeys p).trans (hsame p).symm⟩, h.context, h.once,
    fun p => (h.admitted p).trans (hsame p).symm⟩

theorem looks (h : Stocked env b ctx ts s) (hs : s.cache.manager.InStep) {op : SessionOp}
    (hop : op.Looks) : Stocked env b ctx ts (step env s op) := by
  obtain ⟨⟨M, ha, hkeys⟩, hcontext, honce, hadmitted⟩ := h
  obtain ⟨m, hm, hsame, hadm⟩ := step_looks env hs hop
  have hlast : (step env s op).lastCandidate = s.lastCandidate := by
    funext id
    unfold lastCandidate lastAdmission
    rw [hadm]
  have hprefixes : (step env s op).admittedPrefixes = s.admittedPrefixes := by
    rw [admittedPrefixes, hadm, admittedPrefixes]
  rw [← hadm] at hcontext
  rw [← hprefixes] at honce hadmitted
  refine ⟨⟨M, ?_, hkeys⟩, hcontext, honce, hadmitted⟩
  rw [hm, hlast]
  exact ha.sameBlocks hsame rfl rfl

-- A lookup hits the blocks that the tokens have in common with one of the lists.
theorem localHits (h : Stocked env b ctx ts s) (hb : 0 < b) (tokens : List TokenId) :
    (LocalCache.localHits env s.cache ctx tokens).length = reusedBlocks b ts tokens := by
  obtain ⟨M, ha, hkeys⟩ := h.index
  have hall : LocalCache.localHits env s.cache ctx tokens =
      (s.cache.index.lookup (computeContextHash env.xxh3 ctx) tokens).blocks := by
    apply List.takeWhile_eq_self_iff.mpr
    intro id hid
    exact decide_eq_true (agrees_acquirable ha hb _ tokens id hid)
  rw [hall, ha.lookup_blocks hb]
  exact chain_length_eq_reused hb hkeys tokens

-- What was reused is there already.
theorem begin (h : Stocked env b ctx ts s) (tokens : List TokenId) :
    Stocked env b ctx (ts ++ [tokens.take (reusedBlocks b ts tokens * b)]) s := by
  refine h.of_iff fun p => ⟨?_, ?_⟩
  · rintro ⟨t, ht, hp⟩
    rcases List.mem_append.mp ht with ht | ht
    · exact ⟨t, ht, hp⟩
    · rw [List.mem_singleton.mp ht] at hp
      exact blockPrefix_reused hp
  · rintro ⟨t, ht, hp⟩
    exact ⟨t, List.mem_append_left _ ht, hp⟩

end Stocked

-- The next block of these tokens, which they have in common with none of the lists.
structure NextBlock (b bi : Nat) (ts : List (List TokenId)) (all : List TokenId)
    (candidate : BlockCandidate) : Prop where
  index : candidate.block_index.toNat = bi
  tokens : candidate.tokens = all.take ((bi + 1) * b)
  fits : (bi + 1) * b ≤ all.length
  new : reusedBlocks b ts all ≤ bi

open AdmissionController in
-- The checks of an admission find the blocks before a new block, and no more.
theorem Stocked.eligible (h : Stocked env b candidate.context (ts ++ [tokens.take (bi * b)]) s)
    (hb : 0 < b) (hnext : NextBlock b bi ts tokens candidate) :
    Eligible env s.cache.ticked candidate := by
  obtain ⟨M, ha, hkeys⟩ := h.index
  have hticked := ha.quiet s.cache.ticked_quiet
  have hfits := hnext.fits
  have hstep : (bi + 1) * b = bi * b + b := Nat.succ_mul bi b
  refine ⟨?_, ?_, ?_⟩
  · rw [hnext.index, hnext.tokens, List.length_take, Nat.min_eq_left hfits, hticked.block_size]
  · rw [fullBlocks, hticked.lookup_blocks hb, hnext.index, hnext.tokens,
      chain_length_eq_reused hb hkeys, reusedBlocks_next hb hfits hnext.new]
    omega
  · rw [parentBlocks, existingBlocks, hticked.block_size, hticked.lookup_blocks hb, hnext.index,
      hnext.tokens, List.take_take, Nat.min_eq_left (by omega),
      chain_length_eq_reused hb hkeys, reusedBlocks_self hb (by omega)]

-- The block prefix that ends with a new block was not admitted before.
theorem Stocked.not_admitted (h : Stocked env b ctx (ts ++ [tokens.take (bi * b)]) s) (hb : 0 < b)
    (hnext : NextBlock b bi ts tokens candidate) :
    candidate.tokens ∉ s.admittedPrefixes := by
  have hfits := hnext.fits
  rw [h.admitted, hnext.tokens]
  rintro ⟨t, ht, hp⟩
  rcases List.mem_append.mp ht with ht | ht
  · have hlt : bi < reusedBlocks b ts tokens :=
      lt_reusedBlocks.mpr ⟨(Nat.le_div_iff_mul_le hb).mpr hfits, t, ht, hp.2.2⟩
    exact absurd hnext.new (Nat.not_le.mpr hlt)
  · rw [List.mem_singleton.mp ht] at hp
    have hlen := hp.2.2.length_le
    rw [List.length_take, List.length_take, Nat.succ_mul] at hlen
    rw [Nat.succ_mul] at hfits
    omega

theorem admitted_eq {out : Except Fault AdmitResult × LocalCache π} {handle : BlockHandle}
    (h : out.1 = .ok ⟨.Admitted, some handle⟩) :
    ∃ a, admitted candidate out = [a] ∧ a.candidate = candidate := by
  obtain ⟨res, cache⟩ := out
  obtain rfl : res = .ok ⟨.Admitted, some handle⟩ := h
  exact ⟨_, rfl, rfl⟩

open AdmissionController in
-- Where there is room, a new block gets in, and is the only one that the index did not have.
private theorem admitBlock_enters (hadmits : env.admission.AlwaysAdmits)
    (hs : s.cache.Settled C n) (hroom : n < C)
    (h : Stocked env b candidate.context (ts ++ [tokens.take (bi * b)]) s) (hb : 0 < b)
    (hnext : NextBlock b bi ts tokens candidate)
    (hnodes : (step env s (.admitBlock candidate)).cache.index.nodes.length < 2 ^ 32)
    {res : AdmitResult}
    (hres : ((LocalCache.admitBlock env candidate).run s.cache).1 = .ok res) :
    res.status = .Admitted ∧
      (∃ a, (step env s (.admitBlock candidate)).admissions = a :: s.admissions ∧
        a.candidate = candidate) ∧
      ∃ M, (step env s (.admitBlock candidate)).cache.Agrees env b M
          (step env s (.admitBlock candidate)).lastCandidate ∧
        ∀ p, (M (computeContextHash env.xxh3 candidate.context) p).isSome ↔
          ∃ t ∈ ts ++ [tokens.take ((bi + 1) * b)], BlockPrefix b p t := by
  have he := h.eligible hb hnext
  obtain ⟨M, ha, hkeys⟩ := h.index
  have hlast : (step env s (.admitBlock candidate)).lastCandidate =
      admittedLast candidate s.lastCandidate
        ((LocalCache.admitBlock env candidate).run s.cache).1 :=
    lastCandidate_admitted candidate _ rfl
  have hadm : (step env s (.admitBlock candidate)).admissions =
      Session.admitted candidate ((LocalCache.admitBlock env candidate).run s.cache) ++
        s.admissions := rfl
  have hcase := admitBlock_cases env hs.inStep candidate
  have hless := hcase.nodes_le
  have hticked := hs.quiet s.cache.ticked_quiet
  have hfree : ∀ target, noRoom s.cache.ticked target = false := by
    intro target
    rw [← Bool.not_eq_true, noRoom_iff hticked]
    omega
  have hnone : admissionVictim env (LocalCache.admitContext env candidate s.cache) candidate
      s.cache.ticked = none := admissionVictim_of_room (hfree _)
  rw [hlast, hadm, hres]
  rw [hres] at hcase
  generalize (step env s (.admitBlock candidate)).cache = s' at hcase hnodes hless
  cases hcase with
  | badLength hlen => exact absurd he.tokens hlen
  | present hlen hfull => exact absurd hfull he.absent
  | noParent hlen habsent hparent => exact absurd he.parent hparent
  | rejected he hd hq =>
      have hadmit := hadmits (LocalCache.admitContext env candidate s.cache)
        (candidateFeatures candidate s.cache.ticked.block_size) s.cache.ticked.policy_state
      rw [decision, hadmit] at hd
      cases hd
  | noSpace he hd hroom hv hq =>
      rw [hfree] at hroom
      cases hroom
  | @admitted s₁ s₂ id rest tm ext ref he hd hroom hfreed hplace hs₂ =>
      obtain ⟨M₁, hsame, hnew, -, hagrees⟩ := hroom.entered (ha.quiet s.cache.ticked_quiet) hb
        hticked.inStep (lt_of_le_of_lt hless hnodes) he hd (not_evictsAncestor_of_ne fun id _ => by
          rw [hnone]
          exact (Option.some_ne_none id).symm) hfreed hs₂ hnodes
      obtain rfl := hsame (hfree _)
      obtain ⟨a, hone, hcandidate⟩ : ∃ a, Session.admitted candidate
          ((LocalCache.admitBlock env candidate).run s.cache) = [a] ∧ a.candidate = candidate :=
        admitted_eq hres
      refine ⟨rfl, ⟨a, by rw [hone, List.singleton_append], hcandidate⟩, _, hagrees, fun p => ?_⟩
      rw [exists_blockPrefix_succ hb hnext.fits, ← hnext.tokens, ← hkeys p,
        PrefixMap.define_of_none id hnew]
      by_cases hp : p = candidate.tokens
      · simp [hp]
      · simp [hp]

-- Where there is room, the next block of these tokens gets in.
theorem admitBlock_next (hadmits : env.admission.AlwaysAdmits) (hs : s.cache.Settled C n)
    (hroom : n < C)
    (h : Stocked env b candidate.context (ts ++ [tokens.take (bi * b)]) s) (hb : 0 < b)
    (hnext : NextBlock b bi ts tokens candidate)
    (hnodes : (step env s (.admitBlock candidate)).cache.index.nodes.length < 2 ^ 32)
    {res : AdmitResult}
    (hres : ((LocalCache.admitBlock env candidate).run s.cache).1 = .ok res) :
    res.status = .Admitted ∧
      (step env s (.admitBlock candidate)).admissions.length = s.admissions.length + 1 ∧
      Stocked env b candidate.context (ts ++ [tokens.take ((bi + 1) * b)])
        (step env s (.admitBlock candidate)) := by
  have hnot := h.not_admitted hb hnext
  obtain ⟨hstatus, ⟨a, hadm, hcandidate⟩, hindex⟩ :=
    admitBlock_enters hadmits hs hroom h hb hnext hnodes hres
  have hprefixes : (step env s (.admitBlock candidate)).admittedPrefixes =
      candidate.tokens :: s.admittedPrefixes := by
    rw [admittedPrefixes, hadm, List.map_cons, hcandidate, admittedPrefixes]
  refine ⟨hstatus, by rw [hadm, List.length_cons], hindex, fun a' ha' => ?_, ?_, fun p => ?_⟩
  · rw [hadm] at ha'
    rcases List.mem_cons.mp ha' with rfl | ha'
    · rw [hcandidate]
    · exact h.context a' ha'
  · rw [hprefixes]
    exact List.nodup_cons.mpr ⟨hnot, h.once⟩
  · rw [hprefixes, List.mem_cons, h.admitted, hnext.tokens,
      exists_blockPrefix_succ hb hnext.fits]

end Session

end KVCache
