import KVCache.Policy.Routing
import Mathlib.Data.List.Basic

namespace KVCache.Bench

open Policy

variable {κ : Type}

def BLOCK_SIZE : UInt32 := 16
def PREFIX_BLOCKS : UInt32 := 4
def SUFFIX_BLOCKS : UInt32 := 1
def FAMILY_PREFIX_BLOCKS : UInt32 := 3
def NUM_FAMILIES : UInt32 := 4
def CHURN_BLOCKS : UInt32 := 6

structure BenchArgs where
  routing : String := "hash_first_block"
  eviction : String := "lru"
  workload : String := "shared_system_prompt"
  num_workers : UInt32 := 2
  capacity_per_worker : UInt32 := 12
  num_requests : UInt32 := 200
  seed : UInt32 := 42
deriving DecidableEq, Repr

structure BenchRequest where
  request_id : UInt32
  tokens : List TokenId
  family_id : UInt32 := 0
deriving DecidableEq, Repr

def drawTokens (rng : Rng κ) (lo hi : TokenId) : Nat → κ → List TokenId × κ
  | 0, st => ([], st)
  | n + 1, st =>
      let (t, st') := rng.token lo hi st
      let (ts, st'') := drawTokens rng lo hi n st'
      (t :: ts, st'')

-- The loop over the requests, each of which takes what it needs from the generator.
def generate (makeTokens : UInt32 → κ → List TokenId × κ) (family : UInt32 → UInt32) :
    List UInt32 → κ → List BenchRequest
  | [], _ => []
  | req :: reqs, st =>
      let (tokens, st') := makeTokens req st
      ⟨req, tokens, family req⟩ :: generate makeTokens family reqs st'

def requestIds (args : BenchArgs) : List UInt32 :=
  (List.range args.num_requests.toNat).map UInt32.ofNat

-- The tokens from `base` on.
def countUp (base count : UInt32) : List TokenId :=
  (List.range count.toNat).map fun t => (base + UInt32.ofNat t).toInt32

def generateSharedSystemPrompt (rng : Rng κ) (args : BenchArgs) : List BenchRequest :=
  let prefix_tokens := PREFIX_BLOCKS * BLOCK_SIZE
  let suffix_tokens := SUFFIX_BLOCKS * BLOCK_SIZE
  generate (fun _ st =>
    let (suffix, st') := drawTokens rng 10000 99999 suffix_tokens.toNat st
    (countUp 1 prefix_tokens ++ suffix, st')) (fun _ => 0) (requestIds args) (rng.seed args.seed)

def generateFewShotFamilies (rng : Rng κ) (args : BenchArgs) : List BenchRequest :=
  let prefix_tokens := FAMILY_PREFIX_BLOCKS * BLOCK_SIZE
  let suffix_tokens := SUFFIX_BLOCKS * BLOCK_SIZE
  generate (fun req st =>
    let family := req % NUM_FAMILIES
    let base := (family + 1) * 1000
    let (suffix, st') := drawTokens rng 10000 99999 suffix_tokens.toNat st
    (countUp base prefix_tokens ++ suffix, st')) (fun req => req % NUM_FAMILIES)
    (requestIds args) (rng.seed args.seed)

def generateAdversarialChurn (rng : Rng κ) (args : BenchArgs) : List BenchRequest :=
  let total_tokens := CHURN_BLOCKS * BLOCK_SIZE
  generate (fun _ st => drawTokens rng 1 999999 total_tokens.toNat st) (fun _ => 0)
    (requestIds args) (rng.seed args.seed)

def generateWorkload (rng : Rng κ) (args : BenchArgs) : List BenchRequest :=
  if args.workload = "few_shot_families" then generateFewShotFamilies rng args
  else if args.workload = "adversarial_churn" then generateAdversarialChurn rng args
  else generateSharedSystemPrompt rng args

theorem length_drawTokens (rng : Rng κ) (lo hi : TokenId) (n : Nat) (st : κ) :
    (drawTokens rng lo hi n st).1.length = n := by
  induction n generalizing st with
  | zero => rfl
  | succ n ih => rw [drawTokens, List.length_cons, ih]

theorem length_countUp (base count : UInt32) : (countUp base count).length = count.toNat := by
  simp [countUp]

theorem length_generate (makeTokens : UInt32 → κ → List TokenId × κ) (family : UInt32 → UInt32)
    (reqs : List UInt32) (st : κ) : (generate makeTokens family reqs st).length = reqs.length := by
  induction reqs generalizing st with
  | nil => rfl
  | cons req reqs ih => rw [generate, List.length_cons, ih, List.length_cons]

-- What holds of the tokens of every request.
theorem generate_tokens {makeTokens : UInt32 → κ → List TokenId × κ} {family : UInt32 → UInt32}
    {P : List TokenId → Prop} (h : ∀ req st, P (makeTokens req st).1) (reqs : List UInt32)
    (st : κ) : ∀ r ∈ generate makeTokens family reqs st, P r.tokens := by
  induction reqs generalizing st with
  | nil => exact fun r hr => absurd hr List.not_mem_nil
  | cons req reqs ih =>
      intro r hr
      rcases List.mem_cons.mp hr with rfl | hr
      · exact h req st
      · exact ih _ r hr

-- The requests of a workload are as many as were asked for, and all of one length, a number
-- of whole blocks.
theorem generateWorkload_uniform (rng : Rng κ) (args : BenchArgs) :
    (generateWorkload rng args).length = args.num_requests.toNat ∧
      ∃ n, 0 < n ∧ n ≤ 6 ∧
        ∀ r ∈ generateWorkload rng args, r.tokens.length = n * BLOCK_SIZE.toNat := by
  unfold generateWorkload
  split
  · refine ⟨by simp [generateFewShotFamilies, length_generate, requestIds], 4, by decide,
      by decide, ?_⟩
    simp only [generateFewShotFamilies]
    apply generate_tokens (P := fun tokens => tokens.length = 4 * BLOCK_SIZE.toNat)
    intro req st
    rw [List.length_append, length_countUp, length_drawTokens]
    rfl
  · split
    · refine ⟨by simp [generateAdversarialChurn, length_generate, requestIds], 6, by decide,
        by decide, ?_⟩
      simp only [generateAdversarialChurn]
      apply generate_tokens (P := fun tokens => tokens.length = 6 * BLOCK_SIZE.toNat)
      intro req st
      rw [length_drawTokens]
      rfl
    · refine ⟨by simp [generateSharedSystemPrompt, length_generate, requestIds], 5, by decide,
        by decide, ?_⟩
      simp only [generateSharedSystemPrompt]
      apply generate_tokens (P := fun tokens => tokens.length = 5 * BLOCK_SIZE.toNat)
      intro req st
      rw [List.length_append, length_countUp, length_drawTokens]
      rfl

end KVCache.Bench
