import KVCache.Core.Ids

namespace KVCache

-- The back of the free list is the head here: `allocate` takes from it and `free`
-- puts there.
structure BlockPool where
  capacity : Nat
  generations : List Nat
  in_use : List Bool
  free_list : List BlockId
deriving DecidableEq

namespace BlockPool

def new (capacity : Nat) : BlockPool where
  capacity := capacity
  generations := List.replicate capacity 0
  in_use := List.replicate capacity false
  free_list := List.range capacity

def allocate (p : BlockPool) : Option (BlockId × Nat) × BlockPool :=
  match p.free_list with
  | [] => (none, p)
  | id :: rest =>
      let generation := if p.generations.getD id 0 = 0 then 1 else p.generations.getD id 0
      (some (id, generation),
        { p with
          free_list := rest
          generations := p.generations.set id generation
          in_use := p.in_use.set id true })

def free (p : BlockPool) (id : BlockId) : Except Fault BlockPool :=
  if p.capacity ≤ id ∨ p.in_use.getD id false = false then
    .error (.logic_error "BlockPool::free: double-free or invalid BlockId")
  else
    .ok { p with
      in_use := p.in_use.set id false
      generations := p.generations.set id ((p.generations.getD id 0 + 1) % 2 ^ 64)
      free_list := id :: p.free_list }

theorem free_eq {p : BlockPool} {id : BlockId} (hlt : id < p.capacity)
    (huse : p.in_use.getD id false = true) :
    p.free id = .ok { p with
      in_use := p.in_use.set id false
      generations := p.generations.set id ((p.generations.getD id 0 + 1) % 2 ^ 64)
      free_list := id :: p.free_list } := by
  unfold free
  rw [if_neg]
  rintro (h | h)
  · exact Nat.not_le.mpr hlt h
  · rw [huse] at h
    cases h

theorem free_error_iff {p : BlockPool} {id : BlockId} :
    (∃ e, p.free id = .error e) ↔ p.capacity ≤ id ∨ p.in_use.getD id false = false := by
  unfold free
  split
  · rename_i h
    exact ⟨fun _ => h, fun _ => ⟨_, rfl⟩⟩
  · rename_i h
    refine ⟨?_, fun h' => absurd h' h⟩
    rintro ⟨e, he⟩
    cases he

def available (p : BlockPool) : Nat := p.free_list.length

end BlockPool

end KVCache
