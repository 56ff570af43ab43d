import KVCache.Core.Ids
import KVCache.Tier.PayloadStore

namespace KVCache

open Tier (PayloadRef)

inductive BlockState where
  | Free
  | Admitting
  | Ready
  | Fetching
  | Migrating
  | Evicting
deriving DecidableEq, Repr

structure BlockRecord where
  id : BlockId := 0
  generation : Nat := 0
  hash : ContentHash := ⟨0, 0⟩
  block_index : UInt32 := 0
  token_count : UInt16 := 0
  tier : Tier := .GpuSim
  refcount : Nat := 0
  last_access_ns : Nat := 0
  access_count : Nat := 0
  payload : PayloadRef := {}
  state : BlockState := .Free
deriving DecidableEq, Repr

-- A handle that is not moved-from: the slot of the record it points to.
structure BlockHandle where
  slot : Nat
deriving DecidableEq, Repr

structure BlockStore where
  records : List BlockRecord
deriving DecidableEq

namespace BlockStore

def new (capacity : Nat) : BlockStore := ⟨List.replicate capacity {}⟩

def get (st : BlockStore) (id : BlockId) : Except Fault BlockRecord :=
  match st.records[id]? with
  | none => .error (.logic_error "BlockStore::get: slot out of range")
  | some record => .ok record

-- A write to one record; `out_of_range` is what the writer throws.
def write (st : BlockStore) (out_of_range : String) (id : BlockId)
    (f : BlockRecord → BlockRecord) : Except Fault BlockStore :=
  if st.records.length ≤ id then .error (.logic_error out_of_range)
  else .ok ⟨st.records.modify id f⟩

def initializeRecord (st : BlockStore) (id : BlockId) (generation : Nat) (hash : ContentHash)
    (block_index : UInt32) (token_count : UInt16) (tier : Tier) (initial_state : BlockState) :
    Except Fault BlockStore :=
  st.write "BlockStore::initialize: slot out of range" id fun _ =>
    { id, generation, hash, block_index, token_count, tier
      refcount := 0
      last_access_ns := 0
      access_count := 0
      payload := {}
      state := initial_state }

def setState (st : BlockStore) (id : BlockId) (state : BlockState) : Except Fault BlockStore :=
  st.write "BlockStore::setState: slot out of range" id fun record => { record with state := state }

def setTier (st : BlockStore) (id : BlockId) (tier : Tier) : Except Fault BlockStore :=
  st.write "BlockStore::setTier: slot out of range" id fun record => { record with tier := tier }

def setPayload (st : BlockStore) (id : BlockId) (payload : PayloadRef) : Except Fault BlockStore :=
  st.write "BlockStore::setPayload: slot out of range" id fun record =>
    { record with payload := payload }

def markAccessed (st : BlockStore) (id : BlockId) (now_ns : Nat) : Except Fault BlockStore :=
  st.write "BlockStore::markAccessed: slot out of range" id fun record =>
    { record with last_access_ns := now_ns, access_count := (record.access_count + 1) % 2 ^ 64 }

-- A new handle counts itself in its record.
def createHandle (st : BlockStore) (id : BlockId) : Except Fault BlockStore :=
  st.write "BlockStore::createHandle: slot out of range" id fun record =>
    { record with refcount := (record.refcount + 1) % 2 ^ 32 }

-- What the destructor of a handle does to its record.
def dropHandle (st : BlockStore) (h : BlockHandle) : BlockStore :=
  ⟨st.records.modify h.slot fun record =>
    { record with refcount := (record.refcount + (2 ^ 32 - 1)) % 2 ^ 32 }⟩

theorem get_eq_ok {st : BlockStore} {id : BlockId} {record : BlockRecord} :
    st.get id = .ok record ↔ st.records[id]? = some record := by
  unfold get
  cases st.records[id]? <;> simp

theorem write_of_lt {st : BlockStore} {what : String} {id : BlockId}
    {f : BlockRecord → BlockRecord} (h : id < st.records.length) :
    st.write what id f = .ok ⟨st.records.modify id f⟩ := by
  unfold write
  rw [if_neg (Nat.not_le.mpr h)]

-- The records after a write, one by one.
theorem getElem?_modify_eq (st : List BlockRecord) (id j : Nat) (f : BlockRecord → BlockRecord) :
    (st.modify id f)[j]? = if j = id then (st[j]?).map f else st[j]? := by
  rw [List.getElem?_modify]
  by_cases h : j = id
  · subst h; simp
  · simp [h, Ne.symm h]

end BlockStore

end KVCache
