import KVCache.Core.Ids

namespace KVCache.Tier

-- `PayloadRef`, whose default is the invalid reference.
structure PayloadRef where
  index : Nat := 2 ^ 64 - 1
deriving DecidableEq, Repr

namespace PayloadRef

def INVALID : Nat := 2 ^ 64 - 1

def valid (ref : PayloadRef) : Bool := ref.index ≠ INVALID

end PayloadRef

-- The back of the free list is the head here: `put` takes from it and `remove` puts
-- there. Without bytes there are no buffers and no free list.
structure PayloadStore where
  max_blocks : Nat
  bytes_per_block : Nat
  buffers : List (List UInt8)
  free_list : List Nat
deriving DecidableEq

namespace PayloadStore

def new (max_blocks bytes_per_block : Nat) : PayloadStore :=
  if 0 < bytes_per_block then
    { max_blocks, bytes_per_block
      buffers := List.replicate max_blocks (List.replicate bytes_per_block 0)
      free_list := List.range max_blocks }
  else { max_blocks, bytes_per_block, buffers := [], free_list := [] }

def put (p : PayloadStore) (bytes : List UInt8) : Except Fault (PayloadRef × PayloadStore) :=
  if p.bytes_per_block = 0 then .ok ({ index := PayloadRef.INVALID }, p)
  else
    match p.free_list with
    | [] => .error (.runtime_error "PayloadStore::put: no free slots")
    | slot :: rest =>
        let copy_len := min bytes.length p.bytes_per_block
        .ok ({ index := slot },
          { p with
            free_list := rest
            buffers := p.buffers.modify slot fun b => bytes.take copy_len ++ b.drop copy_len })

def get (p : PayloadStore) (ref : PayloadRef) : Except Fault (List UInt8) :=
  if ref.valid = false ∨ p.bytes_per_block = 0 then .ok []
  else
    match p.buffers[ref.index]? with
    | none => .error (.logic_error "PayloadStore::get: invalid PayloadRef index")
    | some b => .ok b

def remove (p : PayloadStore) (ref : PayloadRef) : Except Fault PayloadStore :=
  if ref.valid = false ∨ p.bytes_per_block = 0 then .ok p
  else if p.buffers.length ≤ ref.index then
    .error (.logic_error "PayloadStore::remove: invalid PayloadRef index")
  else .ok { p with free_list := ref.index :: p.free_list }

def bytesUsed (p : PayloadStore) : Nat :=
  if p.bytes_per_block = 0 then 0
  else
    let used := (p.max_blocks + (2 ^ 64 - p.free_list.length % 2 ^ 64)) % 2 ^ 64
    used * p.bytes_per_block % 2 ^ 64

end PayloadStore

end KVCache.Tier
