import Mathlib.Algebra.GroupWithZero.Nat
import Mathlib.Logic.Basic

namespace KVCache

-- Identifiers and counters that the code keeps in 64 bits are natural numbers;
-- where one of them can wrap, the operation that wraps takes the remainder. Fields
-- that are hashed keep their machine width, since the hash reads their bytes.
abbrev BlockId := Nat
abbrev NodeId := Nat
abbrev TokenId := Int32
abbrev CacheContextHash := UInt64

structure ContentHash where
  lo : UInt64
  hi : UInt64
deriving DecidableEq, Repr

structure GlobalBlockRef where
  node_id : NodeId
  block_id : BlockId
  generation : Nat
deriving DecidableEq, Repr

inductive BlockOrigin where
  | LocallyComputed
  | RemoteFetch
deriving DecidableEq, Repr

inductive FetchFailReason where
  | NotFound
  | StaleGeneration
  | HashMismatch
  | TransportError
deriving DecidableEq, Repr

inductive DType where
  | BF16
  | FP16
  | FP32
  | INT8
deriving DecidableEq, Repr

inductive Tier where
  | GpuSim
  | Host
deriving DecidableEq, Repr

structure CacheKeyContext where
  model_id : UInt64
  tokenizer_id : UInt64
  block_size : UInt32
  dtype : DType
  num_layers : UInt32
  num_kv_heads : UInt32
  head_dim : UInt32
  rope_config_hash : UInt64
  kv_layout_hash : UInt64
deriving DecidableEq, Repr

-- `tokens` holds the whole sequence from position 0 through the end of the block.
structure BlockCandidate where
  context : CacheKeyContext
  block_index : UInt32
  tokens : List TokenId
  hash : ContentHash
  payload : List UInt8
  origin : BlockOrigin
  source_ref : Option GlobalBlockRef
deriving DecidableEq, Repr

-- How a call can end other than by returning: a C++ exception, or an operation
-- whose behaviour the language leaves undefined.
inductive Fault where
  | logic_error (what : String)
  | runtime_error (what : String)
  | undefined_behavior (what : String)
deriving DecidableEq, Repr

end KVCache
