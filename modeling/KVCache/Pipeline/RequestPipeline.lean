import KVCache.Pipeline.RemoteResolution
import KVCache.Session.Session

namespace KVCache

open Lib Policy

variable {π σ : Type}

namespace Session

-- `LocalCache::lookupPrefix` for a caller that keeps the handles.
def lookupPrefix (env : Env π) (ctx : CacheKeyContext) (tokens : List TokenId) :
    Exec Fault (Session π) LocalLookupOutcome := ⟨fun s =>
  (((LocalCache.lookupPrefix env ctx tokens).run s.cache).1, s.step env (.lookupPrefix ctx tokens))⟩

-- `LocalCache::admitBlock` for a caller that keeps the handle.
def admitBlock (env : Env π) (candidate : BlockCandidate) : Exec Fault (Session π) AdmitResult :=
  ⟨fun s =>
    (((LocalCache.admitBlock env candidate).run s.cache).1, s.step env (.admitBlock candidate))⟩

-- The handle variables from `i` on die.
def unwind (env : Env π) (i : Nat) (s : Session π) : Session π :=
  (List.range' i (s.handles.length - i)).foldl (fun s j => s.step env (.dropHandle j)) s

end Session

namespace Pipeline

structure AdmissionOutcome where
  admitted_handles : List BlockHandle := []
  admitted_count : UInt32 := 0
  rejected_count : UInt32 := 0
deriving DecidableEq, Repr

structure RouteResult where
  reusable_blocks : List BlockHandle
  matched_tokens : UInt32
  miss_token_offset : UInt32
  local_hit_blocks : UInt32
  remote_hit_blocks : UInt32
deriving DecidableEq, Repr

-- A worker among its collaborators: where its session is in the shared state, and the
-- policies of its cache.
structure Wiring (σ π : Type) extends Remote σ where
  worker : σ → Session π
  setWorker : σ → Session π → σ
  env : Env π

def Wiring.onWorker {α : Type} (w : Wiring σ π) (x : Exec Fault (Session π) α) : Exec Fault σ α :=
  Exec.on w.worker w.setWorker x

namespace AdmissionStage

def admitOne (outcome : AdmissionOutcome) (result : AdmitResult) : AdmissionOutcome :=
  if result.status = .Admitted ∨ result.status = .AlreadyPresent then
    { outcome with
      admitted_handles := outcome.admitted_handles ++ result.handle.toList
      admitted_count := outcome.admitted_count + 1 }
  else { outcome with rejected_count := outcome.rejected_count + 1 }

-- The loop over the fetched blocks, with the outcome so far.
def admitAll (env : Env π) :
    List BlockCandidate → AdmissionOutcome → Exec Fault (Session π) AdmissionOutcome
  | [], outcome => return outcome
  | candidate :: rest, outcome => do
      let result ← Session.admitBlock env candidate
      admitAll env rest (admitOne outcome result)

def admitRemoteBlocks (env : Env π) (remote : RemoteResolutionOutcome) :
    Exec Fault (Session π) AdmissionOutcome :=
  admitAll env remote.fetched_blocks {}

def admitComputedBlocks (env : Env π) (blocks : List BlockCandidate) :
    Exec Fault (Session π) AdmissionOutcome :=
  admitAll env blocks {}

end AdmissionStage

namespace ResultAssembler

def assemble (req : RouteRequest) (loc : LocalLookupOutcome) (admission : AdmissionOutcome) :
    RouteResult :=
  let reusable_blocks := loc.matched_blocks ++ admission.admitted_handles
  let matched_tokens := UInt32.ofNat reusable_blocks.length * req.context.block_size
  { reusable_blocks
    matched_tokens
    miss_token_offset := matched_tokens
    local_hit_blocks := UInt32.ofNat loc.matched_blocks.length
    remote_hit_blocks := admission.admitted_count }

end ResultAssembler

namespace RequestPipeline

def stages (w : Wiring σ π) (req : RouteRequest) : Exec Fault σ RouteResult := do
  let loc ← w.onWorker (Session.lookupPrefix w.env req.context req.tokens)
  let remote ← RemoteResolutionStage.run w.toRemote w.env.xxh3 req loc
  let admission ← w.onWorker (AdmissionStage.admitRemoteBlocks w.env remote)
  return ResultAssembler.assemble req loc admission

-- Where a stage throws, the handles that the run has got so far die.
def run (w : Wiring σ π) (req : RouteRequest) : Exec Fault σ RouteResult :=
  (stages w req).onThrow fun before after =>
    w.setWorker after ((w.worker after).unwind w.env (w.worker before).handles.length)

end RequestPipeline

end Pipeline

end KVCache
