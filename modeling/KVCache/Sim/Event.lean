import KVCache.Core.Ids
import KVCache.Lib.Replay
import Mathlib.Data.Finset.Card

namespace KVCache.Sim

open Lib

-- The events that the cache and the request pipeline record.
inductive Event where
  | BlockAdmitted (id : BlockId) (context_hash : CacheContextHash) (tier : Tier)
      (origin : BlockOrigin) (timestamp_ns : Nat)
  | BlockEvicted (id : BlockId) (policy_name : String) (timestamp_ns : Nat)
  | BlockPromoted (id : BlockId) (from_tier to_tier : Tier) (timestamp_ns : Nat)
  | BlockDemoted (id : BlockId) (from_tier to_tier : Tier) (timestamp_ns : Nat)
  | RemoteFetchStarted (hash : ContentHash) (source_node : NodeId) (timestamp_ns : Nat)
  | RemoteFetchCompleted (hash : ContentHash) (source_node : NodeId) (bytes_fetched : Nat)
      (timestamp_ns : Nat)
  | RemoteFetchFailed (hash : ContentHash) (source_node : NodeId) (reason : FetchFailReason)
      (timestamp_ns : Nat)
  | CoordinatorStaleRef (node : NodeId) (block_id : BlockId) (generation : Nat)
      (timestamp_ns : Nat)
deriving DecidableEq, Repr

inductive Decision where
  | EvictionDecision (chosen_block : BlockId) (policy_name : String) (candidates : List BlockId)
      (timestamp_ns : Nat)
  | AdmissionRecord (admitted : Bool) (policy_name : String) (candidate_hash : ContentHash)
      (timestamp_ns : Nat)
deriving DecidableEq, Repr

-- The tiers of the blocks that a log speaks of.
abbrev BlockMap := Nat → Option Tier

namespace Event

-- What an event does to the map of the blocks.
def apply (m : BlockMap) : Event → BlockMap
  | .BlockAdmitted id _ tier _ _ => Function.update m id (some tier)
  | .BlockEvicted id _ _ => Function.update m id none
  | .BlockPromoted id _ to_tier _ => Function.update m id (some to_tier)
  | .BlockDemoted id _ to_tier _ => Function.update m id (some to_tier)
  | _ => m

-- The map that an event is true of: a block comes where there is none, and leaves or
-- moves from where it is.
def Fits (m : BlockMap) : Event → Prop
  | .BlockAdmitted id _ _ _ _ => m id = none
  | .BlockEvicted id _ _ => ∃ tier, m id = some tier
  | .BlockPromoted id from_tier _ _ => m id = some from_tier
  | .BlockDemoted id from_tier _ _ => m id = some from_tier
  | _ => True

def isAdmitted : Event → Bool
  | .BlockAdmitted .. => true
  | _ => false

def isEvicted : Event → Bool
  | .BlockEvicted .. => true
  | _ => false

-- The event reports that the block in slot `id` was evicted.
def evicts (id : BlockId) : Event → Bool
  | .BlockEvicted victim _ _ => victim = id
  | _ => false

-- The events of the two scans.
def isMove : Event → Bool
  | .BlockPromoted .. => true
  | .BlockDemoted .. => true
  | _ => false

end Event

def blocksAfter (events : List Event) : BlockMap := replay Event.apply (fun _ => none) events

-- A log that is true of an empty cache.
abbrev TrueLog (events : List Event) : Prop := Fitting Event.apply Event.Fits (fun _ => none) events

-- As many blocks are there as came and did not leave.
theorem TrueLog.count {events : List Event} (h : TrueLog events) :
    ∃ blocks : Finset Nat, (∀ id, id ∈ blocks ↔ (blocksAfter events id).isSome) ∧
      events.countP Event.isAdmitted = blocks.card + events.countP Event.isEvicted := by
  refine Fitting.induction (I := fun events => ∃ blocks : Finset Nat,
    (∀ id, id ∈ blocks ↔ (blocksAfter events id).isSome) ∧
      events.countP Event.isAdmitted = blocks.card + events.countP Event.isEvicted) ?_ ?_ h
  · exact ⟨∅, by simp [blocksAfter], rfl⟩
  · rintro log e - he ⟨blocks, hmem, hcount⟩
    have hsnoc : blocksAfter (log ++ [e]) = e.apply (blocksAfter log) := replay_snoc
    have hmoved : ∀ (id : Nat) (tier tier' : Tier), blocksAfter log id = some tier →
        ∀ j, j ∈ blocks ↔ (Function.update (blocksAfter log) id (some tier') j).isSome := by
      intro id tier tier' hid j
      rw [hmem]
      by_cases hj : j = id
      · subst hj
        simp [hid]
      · rw [Function.update_of_ne hj]
    simp only [List.countP_append, List.countP_singleton, hsnoc]
    cases e with
    | BlockAdmitted id context_hash tier origin ns =>
        have hnone : blocksAfter log id = none := he
        have hnot : id ∉ blocks := by simp [hmem, hnone]
        refine ⟨insert id blocks, fun j => ?_, ?_⟩
        · by_cases hj : j = id
          · subst hj
            simp [Event.apply]
          · simp [Event.apply, hj, hmem]
        · rw [Finset.card_insert_of_notMem hnot]
          simp only [Event.isAdmitted, Event.isEvicted, if_true, Bool.false_eq_true, if_false]
          omega
    | BlockEvicted id policy_name ns =>
        obtain ⟨tier, htier⟩ : ∃ tier, blocksAfter log id = some tier := he
        have hin : id ∈ blocks := by simp [hmem, htier]
        refine ⟨blocks.erase id, fun j => ?_, ?_⟩
        · by_cases hj : j = id
          · subst hj
            simp [Event.apply]
          · simp [Event.apply, hj, hmem]
        · have hcard := Finset.card_erase_add_one hin
          simp only [Event.isAdmitted, Event.isEvicted, if_true, Bool.false_eq_true, if_false]
          omega
    | BlockPromoted id from_tier to_tier ns =>
        exact ⟨blocks, hmoved id from_tier to_tier he, hcount⟩
    | BlockDemoted id from_tier to_tier ns =>
        exact ⟨blocks, hmoved id from_tier to_tier he, hcount⟩
    | _ => exact ⟨blocks, hmem, hcount⟩

end KVCache.Sim
