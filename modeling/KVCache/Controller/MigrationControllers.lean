import KVCache.Controller.Stack

namespace KVCache.Controller

open Lib Policy Prefix Sim Tier

variable {π : Type}

-- The two scans are one loop. `source` is the tier that is scanned and `target` the
-- one that blocks move to.
structure ScanKind (π : Type) where
  source : KVCache.Tier
  target : KVCache.Tier
  policy : MigrationPolicy π
  move : BlockId → TierManager.Op TierOpResult
  moved : BlockId → Nat → Event

namespace ScanKind

def scanLoop (kind : ScanKind π) (ctx : MigrationContext) (timestamp_ns : Nat) :
    List BlockId → Nat → Stack.Op π Nat
  | [], count => return count
  | id :: ids, count => do
      match ← Exec.read fun s => s.tier_manager with
      | none => return count
      | some tm =>
          if tm.hasCapacity kind.target = false then return count
          else do
            let features ← Exec.check fun s =>
              buildFeatures s.manager.store s.index id timestamp_ns
            let move ← Stack.ask (kind.policy.decide ctx features)
            if move = false then scanLoop kind ctx timestamp_ns ids count
            else do
              let result ← Stack.onTier tm (kind.move id)
              if result.status = .Success then do
                Stack.record (kind.moved id timestamp_ns)
                scanLoop kind ctx timestamp_ns ids (count + 1)
              else scanLoop kind ctx timestamp_ns ids count

-- `candidates` lists the blocks of the source tier in the order of the set's iterator.
def runScan (kind : ScanKind π) (timestamp_ns : Nat) (candidates : List BlockId) :
    Stack.Op π Nat := do
  match ← Exec.read fun s => s.tier_manager with
  | none => return 0
  | some tm => do
      let gpu_stats := tm.stats .GpuSim
      let _ ← Exec.check fun _ => tm.tierStore kind.source
      scanLoop kind ⟨gpu_stats.used_blocks, gpu_stats.capacity_blocks, timestamp_ns⟩ timestamp_ns
        candidates 0

end ScanKind

def PromotionController (env : Env π) : ScanKind π where
  source := .Host
  target := .GpuSim
  policy := env.promotion
  move id := TierManager.promote id .GpuSim
  moved id timestamp_ns := .BlockPromoted id .Host .GpuSim timestamp_ns

def DemotionController (env : Env π) : ScanKind π where
  source := .GpuSim
  target := .Host
  policy := env.demotion
  move id := TierManager.demote id .Host
  moved id timestamp_ns := .BlockDemoted id .GpuSim .Host timestamp_ns

end KVCache.Controller
