import KVCache.Core.ContentHash
import KVCache.Core.BlockStore
import KVCache.Prefix.PrefixIndex

namespace KVCache.Policy

structure BlockPolicyFeatures where
  id : BlockId
  hash : ContentHash
  tier : Tier
  payload_bytes : Nat
  age_ns : Nat
  last_access_ns : Nat
  access_count : Nat
  prefix_depth_blocks : UInt32
  prefix_child_count : Nat
  descendant_block_count : Nat
  is_shared_prefix : Bool
  is_remote_origin : Bool
  estimated_recompute_cost_ns : Nat
  estimated_refetch_cost_ns : Nat
deriving DecidableEq, Repr

structure BlockCandidateFeatures where
  hash : ContentHash
  block_index : UInt32
  token_count : UInt16
  payload_bytes : Nat
  origin : BlockOrigin
  prefix_depth_blocks : UInt32
  estimated_recompute_cost_ns : Nat
deriving DecidableEq, Repr

-- `BlockFeatureBuilder::build`.
def buildFeatures (store : BlockStore) (index : Prefix.PrefixIndex) (id : BlockId) (now_ns : Nat) :
    Except Fault BlockPolicyFeatures := do
  let record ← store.get id
  let child_count := index.blockChildCount id
  let last_ns := record.last_access_ns
  return {
    id := id
    hash := record.hash
    tier := record.tier
    payload_bytes := 0
    age_ns := if last_ns ≤ now_ns then now_ns - last_ns else 0
    last_access_ns := last_ns
    access_count := record.access_count
    prefix_depth_blocks := record.block_index
    prefix_child_count := child_count
    descendant_block_count := index.blockDescendantCount id
    is_shared_prefix := 0 < child_count
    is_remote_origin := false
    estimated_recompute_cost_ns := 0
    estimated_refetch_cost_ns := 0 }

structure AdmissionContext where
  request_id : Nat
  context_hash : CacheContextHash
  missing_blocks : Nat
  timestamp_ns : Nat
deriving DecidableEq, Repr

structure EvictionContext where
  tier : Tier
  needed_bytes : Nat
  timestamp_ns : Nat
deriving DecidableEq, Repr

structure PlacementContext where
  gpu_sim_used_blocks : Nat
  gpu_sim_capacity_blocks : Nat
  host_used_blocks : Nat
  host_capacity_blocks : Nat
  timestamp_ns : Nat
deriving DecidableEq, Repr

-- `PromotionContext` and `DemotionContext`.
structure MigrationContext where
  gpu_sim_used_blocks : Nat
  gpu_sim_capacity_blocks : Nat
  timestamp_ns : Nat
deriving DecidableEq, Repr

inductive AdmissionDecision where
  | Admit
  | Reject
deriving DecidableEq, Repr

-- The policies are virtual and may keep state of their own: `π` is the state of all
-- the policy objects of a stack together.
structure AdmissionPolicy (π : Type) where
  name : String
  decide : AdmissionContext → BlockCandidateFeatures → π → AdmissionDecision × π

structure EvictionPolicy (π : Type) where
  name : String
  chooseVictim : EvictionContext → List BlockPolicyFeatures → π → Option BlockId × π

structure TierPlacementPolicy (π : Type) where
  chooseTier : PlacementContext → BlockCandidateFeatures → π → Tier × π

-- `PromotionPolicy` and `DemotionPolicy`: whether the block is to move.
structure MigrationPolicy (π : Type) where
  decide : MigrationContext → BlockPolicyFeatures → π → Bool × π

-- An eviction policy that returns nothing or one of the candidates it was given.
def EvictionPolicy.PicksCandidate {π : Type} (p : EvictionPolicy π) : Prop :=
  ∀ ctx candidates st id, (p.chooseVictim ctx candidates st).1 = some id →
    ∃ f ∈ candidates, f.id = id

-- What a stack of controllers is built with.
structure Env (π : Type) where
  xxh3 : XXH3
  admission : AdmissionPolicy π
  eviction : EvictionPolicy π
  placement : TierPlacementPolicy π
  promotion : MigrationPolicy π
  demotion : MigrationPolicy π

section Shipped

variable {π : Type}

def AlwaysAdmitPolicy : AdmissionPolicy π where
  name := "always_admit"
  decide _ _ st := (.Admit, st)

def NoEvictionPolicy : EvictionPolicy π where
  name := "no_eviction"
  chooseVictim _ _ st := (none, st)

-- `std::min_element`: the first of the smallest.
def minElement (less : BlockPolicyFeatures → BlockPolicyFeatures → Bool) :
    List BlockPolicyFeatures → Option BlockPolicyFeatures
  | [] => none
  | f :: fs => some (fs.foldl (fun best g => if less g best then g else best) f)

def LruEvictionPolicy : EvictionPolicy π where
  name := "lru"
  chooseVictim _ candidates st :=
    ((minElement (fun a b => a.last_access_ns < b.last_access_ns) candidates).map (·.id), st)

def GpuFirstPlacementPolicy : TierPlacementPolicy π where
  chooseTier ctx _ st :=
    (if ctx.gpu_sim_used_blocks < ctx.gpu_sim_capacity_blocks then .GpuSim else .Host, st)

def NoMigrationPolicy : MigrationPolicy π where
  decide _ _ st := (false, st)

theorem minElement_mem {less : BlockPolicyFeatures → BlockPolicyFeatures → Bool}
    {fs : List BlockPolicyFeatures} {f : BlockPolicyFeatures} (h : minElement less fs = some f) :
    f ∈ fs := by
  cases fs with
  | nil => cases h
  | cons g gs =>
      have hfold : ∀ (l : List BlockPolicyFeatures) (best : BlockPolicyFeatures),
          l.foldl (fun best g => if less g best then g else best) best ∈ best :: l := by
        intro l
        induction l with
        | nil => intro best; simp
        | cons x xs ih =>
            intro best
            rw [List.foldl_cons]
            rcases List.mem_cons.mp (ih (if less x best then x else best)) with h | h
            · rw [h]
              split <;> simp
            · exact List.mem_cons_of_mem _ (List.mem_cons_of_mem _ h)
      cases h
      exact hfold gs g

-- The scan of `minElement` from `best` on, which it has found in the part before.
private theorem foldl_min_split {κ : Type} [LinearOrder κ] (key : BlockPolicyFeatures → κ)
    (rest before after : List BlockPolicyFeatures) {best f : BlockPolicyFeatures}
    (hb : ∀ g ∈ before, key best < key g) (ha : ∀ g ∈ after, key best ≤ key g)
    (hf : rest.foldl (fun best g => if decide (key g < key best) then g else best) best = f) :
    ∃ before' after', before ++ best :: after ++ rest = before' ++ f :: after' ∧
      (∀ g ∈ before', key f < key g) ∧ ∀ g ∈ after', key f ≤ key g := by
  induction rest generalizing before after best with
  | nil =>
      rw [List.foldl_nil] at hf
      subst hf
      exact ⟨before, after, by simp, hb, ha⟩
  | cons x rest ih =>
      rw [List.foldl_cons] at hf
      by_cases hx : key x < key best
      · have hbefore : ∀ g ∈ before ++ best :: after, key x < key g := by
          intro g hg
          rcases List.mem_append.mp hg with hg | hg
          · exact hx.trans (hb g hg)
          · rcases List.mem_cons.mp hg with rfl | hg
            · exact hx
            · exact lt_of_lt_of_le hx (ha g hg)
        rw [if_pos (decide_eq_true hx)] at hf
        obtain ⟨before', after', heq, hb', ha'⟩ :=
          ih (before ++ best :: after) [] hbefore (fun g hg => absurd hg List.not_mem_nil) hf
        exact ⟨before', after', by rw [← heq]; simp, hb', ha'⟩
      · have hafter : ∀ g ∈ after ++ [x], key best ≤ key g := by
          intro g hg
          rcases List.mem_append.mp hg with hg | hg
          · exact ha g hg
          · rw [List.mem_singleton.mp hg]
            exact not_lt.mp hx
        rw [if_neg (by simpa using hx)] at hf
        obtain ⟨before', after', heq, hb', ha'⟩ := ih before (after ++ [x]) hb hafter hf
        exact ⟨before', after', by rw [← heq]; simp, hb', ha'⟩

-- The element that is found has a smallest key, and all before it have a larger one.
theorem minElement_split {κ : Type} [LinearOrder κ] (key : BlockPolicyFeatures → κ)
    {fs : List BlockPolicyFeatures} {f : BlockPolicyFeatures}
    (h : minElement (fun a b => key a < key b) fs = some f) :
    ∃ before after, fs = before ++ f :: after ∧ (∀ g ∈ before, key f < key g) ∧
      ∀ g ∈ after, key f ≤ key g := by
  cases fs with
  | nil => cases h
  | cons g gs =>
      exact foldl_min_split key gs [] [] (fun g hg => absurd hg List.not_mem_nil)
        (fun g hg => absurd hg List.not_mem_nil) (Option.some.inj h)

theorem NoEvictionPolicy.picksCandidate : (NoEvictionPolicy : EvictionPolicy π).PicksCandidate := by
  intro ctx candidates st id h
  cases h

theorem LruEvictionPolicy.picksCandidate :
    (LruEvictionPolicy : EvictionPolicy π).PicksCandidate := by
  intro ctx candidates st id h
  obtain ⟨f, hf, rfl⟩ := Option.map_eq_some_iff.mp h
  exact ⟨f, minElement_mem hf, rfl⟩

end Shipped

end KVCache.Policy
