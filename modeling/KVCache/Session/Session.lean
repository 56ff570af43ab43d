import KVCache.Core.CachePaths
import KVCache.Lib.Steps
import Mathlib.Algebra.Order.Group.Multiset

namespace KVCache

open Lib Controller Policy Prefix Tier

variable {π : Type}

-- What an `Admitted` result tells its caller about the block, next to the candidate.
structure Admission where
  candidate : BlockCandidate
  block_id : BlockId
  generation : Nat
deriving DecidableEq, Repr

-- A cache with the handle variables of its user, and what the user has had admitted,
-- the latest first. A variable that was moved from or has died is `none`.
structure Session (π : Type) where
  cache : LocalCache π
  handles : List (Option BlockHandle) := []
  admissions : List Admission := []

-- What a user can do with a cache, with the controllers of its stack, and with handles.
inductive SessionOp where
  | admitBlock (candidate : BlockCandidate)
  | lookupPrefix (ctx : CacheKeyContext) (tokens : List TokenId)
  | getBlock (id : BlockId) (generation : Nat)
  | serveBlockFetch (id : BlockId) (generation : Nat)
  | admitCandidate (candidate : BlockCandidate) (ctx : AdmissionContext)
  | makeSpace (request : MakeSpaceRequest)
  | promotionScan (timestamp_ns : Nat) (candidates : List BlockId)
  | demotionScan (timestamp_ns : Nat) (candidates : List BlockId)
  -- a new variable takes over the handle of variable `i`
  | moveHandle (i : Nat)
  -- variable `i` takes over the handle of variable `j`
  | assignHandle (i j : Nat)
  -- variable `i` dies
  | dropHandle (i : Nat)

namespace Session

def handleAt (s : Session π) (i : Nat) : Option BlockHandle := (s.handles[i]?).join

-- The end of the handle in a variable, if there is one.
def release (cache : LocalCache π) : Option BlockHandle → LocalCache π
  | none => cache
  | some h => { cache with manager := cache.manager.released h.slot }

-- The session after a call: the handles it hands out go to new variables.
def called {α : Type} (s : Session π) (out : Except Fault α × LocalCache π)
    (handles : α → List (Option BlockHandle)) : Session π :=
  { s with
    cache := out.2
    handles := s.handles ++ BlockManager.handed handles out.1 }

def admitted (candidate : BlockCandidate) : Except Fault AdmitResult × LocalCache π → List Admission
  | (.ok ⟨.Admitted, some h⟩, cache) =>
      [⟨candidate, h.slot, (cache.manager.store.records.getD h.slot {}).generation⟩]
  | _ => []

def step (env : Env π) (s : Session π) : SessionOp → Session π
  | .admitBlock candidate =>
      let out := (LocalCache.admitBlock env candidate).run s.cache
      { s.called out (fun res => [res.handle]) with
        admissions := admitted candidate out ++ s.admissions }
  | .lookupPrefix ctx tokens =>
      s.called ((LocalCache.lookupPrefix env ctx tokens).run s.cache) fun out =>
        out.matched_blocks.map some
  | .getBlock id generation =>
      s.called ((LocalCache.getBlock id generation).run s.cache) fun res => [res.handle]
  | .serveBlockFetch id generation =>
      s.called ((LocalCache.serveBlockFetch id generation).run s.cache) fun _ => []
  | .admitCandidate candidate ctx =>
      let out := (AdmissionController.admitCandidate env candidate ctx).run s.cache
      { s.called out (fun res => [res.handle]) with
        admissions := admitted candidate out ++ s.admissions }
  | .makeSpace request =>
      s.called ((EvictionController.makeSpace env request).run s.cache) fun _ => []
  | .promotionScan timestamp_ns candidates =>
      s.called (((PromotionController env).runScan timestamp_ns candidates).run s.cache) fun _ => []
  | .demotionScan timestamp_ns candidates =>
      s.called (((DemotionController env).runScan timestamp_ns candidates).run s.cache) fun _ => []
  | .moveHandle i => { s with handles := s.handles.set i none ++ [s.handleAt i] }
  | .assignHandle i j =>
      if i = j ∨ s.handles.length ≤ i then s
      else
        { s with
          cache := release s.cache (s.handleAt i)
          handles := (s.handles.set i (s.handleAt j)).set j none }
  | .dropHandle i =>
      { s with
        cache := release s.cache (s.handleAt i)
        handles := s.handles.set i none }

-- The slots that the live handles point to, each as often as it has handles.
def live (s : Session π) : Multiset Nat := BlockManager.slots s.handles

def held (s : Session π) : Held π := ⟨s.cache, s.live⟩

-- The last admission that got the slot `id`.
def lastAdmission (s : Session π) (id : BlockId) : Option Admission :=
  s.admissions.find? fun a => a.block_id = id

-- A run of a session whose operations are all `allowed` where they are made.
abbrev Run (env : Env π) (allowed : Session π → SessionOp → Prop) : Session π → Session π → Prop :=
  Steps (step env) allowed

section Handles

open BlockManager

variable {hs : List (Option BlockHandle)} {i j : Nat}

private theorem cons_perm_cons_set {α : Type} {l : List α} {i : Nat} {a : α} (h : l[i]? = some a)
    (b : α) : (b :: l).Perm (a :: l.set i b) := by
  induction l generalizing i with
  | nil => cases h
  | cons x xs ih =>
      cases i with
      | zero =>
          obtain rfl : x = a := by simpa using h
          exact .swap _ _ _
      | succ i =>
          have hperm := ih (by simpa using h)
          exact (List.Perm.swap x b xs).trans
            ((hperm.cons x).trans (.swap a x (xs.set i b)))

-- Writing a variable exchanges its handle.
theorem slots_set (h : i < hs.length) (new : Option BlockHandle) :
    slots [(hs[i]?).join] + slots (hs.set i new) = slots [new] + slots hs := by
  have hget := List.getElem?_eq_getElem h
  rw [← slots_append, ← slots_append, hget]
  exact (slots_perm (cons_perm_cons_set hget new)).symm

theorem slots_set_none (hs : List (Option BlockHandle)) (i : Nat) :
    slots [(hs[i]?).join] + slots (hs.set i none) = slots hs := by
  by_cases h : i < hs.length
  · simpa using slots_set h none
  · have hout := Nat.not_lt.mp h
    rw [List.getElem?_eq_none hout, List.set_eq_of_length_le hout]
    simp

theorem slots_assign (hi : i < hs.length) (hij : i ≠ j) :
    slots [(hs[i]?).join] + slots ((hs.set i (hs[j]?).join).set j none) = slots hs := by
  have hset := slots_set hi (hs[j]?).join
  have hrest := slots_set_none (hs.set i (hs[j]?).join) j
  rw [List.getElem?_set_ne hij] at hrest
  rw [← hrest, ← add_assoc, add_comm (slots [(hs[i]?).join]), add_assoc] at hset
  exact add_left_cancel hset

end Handles

section Step

variable {env : Env π} {ok : Multiset Nat → Prop} {s : Session π}

theorem called_live {α : Type} (s : Session π) (out : Except Fault α × LocalCache π)
    (handles : α → List (Option BlockHandle)) : (s.called out handles).live =
      BlockManager.slots (BlockManager.handed handles out.1) + s.live := by
  rw [live, called, BlockManager.slots_append, add_comm]
  rfl

private theorem called_held {α : Type} {out : Except Fault α × LocalCache π}
    {handles : α → List (Option BlockHandle)}
    (h : Transitions env ok ⟨s.cache, s.live⟩
      ⟨out.2, BlockManager.slots (BlockManager.handed handles out.1) + s.live⟩) :
    Transitions env ok s.held (s.called out handles).held := by
  rw [held, held, called_live]
  exact h

-- A call that hands out nothing.
private theorem called_none_held {α : Type} {out : Except Fault α × LocalCache π}
    (h : Transitions env ok ⟨s.cache, s.live⟩ ⟨out.2, s.live⟩) :
    Transitions env ok s.held (s.called out fun _ => []).held := by
  refine called_held ?_
  have hnone : BlockManager.slots (BlockManager.handed (fun _ => []) out.1) = 0 := by
    cases out.1 <;> rfl
  rw [hnone, zero_add]
  exact h

-- The end of a handle.
def Released (x x' : Held π) : Prop :=
  ∃ slot ∈ x.held,
    x' = ⟨{ x.stack with manager := x.stack.manager.released slot }, x.held.erase slot⟩

private theorem release_held {hs : List (Option BlockHandle)} {i : Nat}
    (hrest : BlockManager.slots [s.handleAt i] + BlockManager.slots hs = s.live) :
    Transitions env ok s.held ⟨release s.cache (s.handleAt i), BlockManager.slots hs⟩ ∨
      Released s.held ⟨release s.cache (s.handleAt i), BlockManager.slots hs⟩ := by
  cases hi : s.handleAt i with
  | none =>
      left
      rw [hi] at hrest
      simp only [BlockManager.slots_none, BlockManager.slots_nil, zero_add] at hrest
      rw [hrest]
      exact .refl
  | some h =>
      right
      rw [hi] at hrest
      simp only [BlockManager.slots_some, BlockManager.slots_nil, Multiset.cons_add,
        zero_add] at hrest
      refine ⟨h.slot, by simp [held, ← hrest], ?_⟩
      simp only [held, ← hrest, release, Multiset.erase_cons_head]

-- One operation is a run of transitions or the end of one handle.
theorem step_cases (env : Env π) (hs : s.cache.manager.InStep) (hok : ok s.live) (op : SessionOp) :
    Transitions env ok s.held (step env s op).held ∨ Released s.held (step env s op).held := by
  cases op with
  | admitBlock candidate =>
      exact .inl (called_held (LocalCache.admitBlock_transitions hs hok candidate))
  | lookupPrefix ctx tokens =>
      exact .inl (called_held (LocalCache.lookupPrefix_transitions hs ctx tokens))
  | getBlock id generation =>
      exact .inl (called_held (LocalCache.getBlock_transitions hs id generation))
  | serveBlockFetch id generation =>
      exact .inl (called_none_held (LocalCache.serveBlockFetch_transitions hs id generation))
  | admitCandidate candidate ctx =>
      exact .inl (called_held (AdmissionController.admit_transitions env hs hok candidate ctx))
  | makeSpace request =>
      exact .inl (called_none_held (EvictionController.makeSpace_transitions env hs hok request))
  | promotionScan timestamp_ns candidates =>
      exact .inl (called_none_held
        (ScanKind.runScan_transitions (PromotionController_migrates env) _ _ _))
  | demotionScan timestamp_ns candidates =>
      exact .inl (called_none_held
        (ScanKind.runScan_transitions (DemotionController_migrates env) _ _ _))
  | moveHandle i =>
      left
      have hlive : (step env s (.moveHandle i)).live = s.live := by
        rw [live, step, BlockManager.slots_append, add_comm]
        exact slots_set_none s.handles i
      have hheld : (step env s (.moveHandle i)).held = s.held := by
        rw [held, hlive]
        rfl
      rw [hheld]
  | assignHandle i j =>
      simp only [step]
      split
      · exact .inl .refl
      · rename_i h
        have hij : i ≠ j := fun heq => h (.inl heq)
        have hi : i < s.handles.length := Nat.not_le.mp fun hle => h (.inr hle)
        exact release_held (slots_assign hi hij)
  | dropHandle i => exact release_held (slots_set_none s.handles i)

variable {J : Held π → Prop} {allowed : Session π → SessionOp → Prop} {s₀ : Session π}

private theorem transitions_invariant
    (hJ : ∀ x x', x.stack.manager.InStep → J x → Transition env ok x x' → J x') {x x' : Held π}
    (h : Transitions env ok x x') (hx : x.stack.manager.InStep) (hjx : J x) :
    x'.stack.manager.InStep ∧ J x' :=
  Exec.reach_invariant (J := fun x => x.stack.manager.InStep ∧ J x)
    (fun _ _ ⟨hx, hjx⟩ h => ⟨h.inStep hx, hJ _ _ hx hjx h⟩) h ⟨hx, hjx⟩

theorem Released.inStep {x x' : Held π} (h : Released x x') (hx : x.stack.manager.InStep) :
    x'.stack.manager.InStep := by
  obtain ⟨slot, -, rfl⟩ := h
  exact (BlockManager.released_sameBlocks _ slot).inStep hx

-- What transitions and ends of handles keep, a run keeps.
theorem run_invariant (ok : Multiset Nat → Prop) (hok : ∀ s op, allowed s op → ok s.live)
    (hJ : ∀ x x', x.stack.manager.InStep → J x → Transition env ok x x' → J x')
    (hrel : ∀ x x', x.stack.manager.InStep → J x → Released x x' → J x')
    (hrun : Run env allowed s₀ s) (hs₀ : s₀.cache.manager.InStep) (hj₀ : J s₀.held) :
    s.cache.manager.InStep ∧ J s.held := by
  refine Steps.invariant (I := fun s : Session π => s.cache.manager.InStep ∧ J s.held) ?_ hrun
    ⟨hs₀, hj₀⟩
  rintro s op ⟨hs, hj⟩ hop
  rcases step_cases env hs (hok s op hop) op with h | h
  · exact transitions_invariant hJ h hs hj
  · exact ⟨h.inStep hs, hrel _ _ hs hj h⟩

-- No operation brings pool and store out of step or changes the block size.
theorem run_inStep (hrun : Run env allowed s₀ s) (hs₀ : s₀.cache.manager.InStep) :
    s.cache.manager.InStep ∧ s.cache.block_size = s₀.cache.block_size := by
  refine run_invariant (J := fun x => x.stack.block_size = s₀.cache.block_size) (fun _ => True)
    (fun _ _ _ => trivial) (fun x x' _ hx h => h.block_size.trans hx) (fun x x' _ hx h => ?_) hrun
    hs₀ rfl
  obtain ⟨slot, -, rfl⟩ := h
  exact hx

end Step

end Session

-- A digest, a context, a clock and candidates for runs on fixed inputs.
namespace Sample

def xxh3 : XXH3 where
  bits64 bytes := bytes.foldl (fun h byte => h * 257 + byte.toUInt64 + 1) 0
  bits128 bytes := ⟨bytes.foldl (fun h byte => h * 257 + byte.toUInt64 + 1) 0, 0⟩

def context (block_size : UInt32) : CacheKeyContext where
  model_id := 1
  tokenizer_id := 1
  block_size := block_size
  dtype := .FP16
  num_layers := 1
  num_kv_heads := 1
  head_dim := 1
  rope_config_hash := 0
  kv_layout_hash := 0

def clock : Clock where
  readings n := n

-- The last block of the tokens, with the hash that the planner computes for it.
def candidate (block_size : Nat) (tokens : List TokenId) (payload : List UInt8) :
    BlockCandidate where
  context := context (UInt32.ofNat block_size)
  block_index := UInt32.ofNat (tokens.length / block_size - 1)
  tokens := tokens
  hash := computeContentHash xxh3
    (computeContextHash xxh3 (context (UInt32.ofNat block_size)))
    (UInt32.ofNat (tokens.length / block_size - 1)) (UInt16.ofNat block_size)
    (tokens.drop (tokens.length - block_size))
  payload := payload
  origin := .LocallyComputed
  source_ref := none

-- The policies of the first constructor, but for the eviction policy.
def lruEnv : Env Unit := { LocalCache.phase1Env xxh3 with eviction := LruEvictionPolicy }

end Sample

end KVCache
