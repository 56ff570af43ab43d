import KVCache.Lib.Subtree
import KVCache.Lib.Worklist
import KVCache.Prefix.Refinement

namespace KVCache.Prefix.PrefixIndex

open KVCache.Lib

variable {idx : PrefixIndex} {word : Words} {M : PrefixMap CacheContextHash TokenId BlockId}

-- The nodes that a node of `blockChildCount` puts into the queue, with what is then left
-- until the block boundary.
def childWork (idx : PrefixIndex) (n rem : Nat) : List (Nat × Nat) :=
  (idx.node n).children.entries.filterMap fun e =>
    let edge_len := (idx.node e.2).edge_tokens.length
    if edge_len ≤ rem then some (e.2, rem - edge_len) else none

def childWorklist (idx : PrefixIndex) : Worklist (Nat × Nat) where
  next a := if a.2 = 0 then [] else idx.childWork a.1 a.2
  value a := if a.2 = 0 ∧ (idx.node a.1).terminal_block.isSome then 1 else 0
  put rest new := rest ++ new
  put_perm _ _ := List.perm_append_comm

-- The nodes that a node of `blockDescendantCount` puts onto the stack.
def descendantWork (idx : PrefixIndex) (n : Nat) : List Nat :=
  ((idx.node n).children.entries.map (·.2)).reverse

def descendantWorklist (idx : PrefixIndex) : Worklist Nat where
  next := idx.descendantWork
  value n := if (idx.node n).terminal_block.isSome then 1 else 0
  put rest new := new ++ rest
  put_perm _ _ := .refl _

theorem childCountLoop_eq_run (idx : PrefixIndex) (fuel : Nat) (queue : List (Nat × Nat))
    (count : Nat) :
    idx.childCountLoop fuel queue count = idx.childWorklist.run fuel queue count := by
  induction fuel generalizing queue count with
  | zero => rfl
  | succ fuel ih =>
      cases queue with
      | nil => rfl
      | cons a queue =>
          obtain ⟨n, rem⟩ := a
          rw [Worklist.run, childCountLoop]
          by_cases hrem : rem = 0
          · rw [if_pos hrem, ih]
            by_cases ht : (idx.node n).terminal_block.isSome <;> simp [childWorklist, hrem, ht]
          · rw [if_neg hrem, ih]
            simp [childWorklist, hrem, childWork]

theorem descendantCountLoop_eq_run (idx : PrefixIndex) (fuel : Nat) (stack : List Nat)
    (count : Nat) :
    idx.descendantCountLoop fuel stack count = idx.descendantWorklist.run fuel stack count := by
  induction fuel generalizing stack count with
  | zero => rfl
  | succ fuel ih =>
      cases stack with
      | nil => rfl
      | cons n stack =>
          rw [Worklist.run, descendantCountLoop, ih]
          by_cases ht : (idx.node n).terminal_block.isSome <;>
            simp [descendantWorklist, descendantWork, ht]

-- The nodes whose word continues `p` by a word of `K`, with a terminal.
def KeyNode (idx : PrefixIndex) (word : Words) (c : CacheContextHash) (p : List TokenId)
    (K : List TokenId → Prop) (m : Nat) : Prop :=
  (idx.node m).terminal_block.isSome ∧ ∃ r, word m = some (c, p ++ r) ∧ K r

-- They are as many as the keys.
theorem countBelow_keyNode (hi : idx.Inv word) (hM : idx.Holds word M) {c : CacheContextHash}
    {p : List TokenId} {n : Nat} (hn : word n = some (c, p)) (K : List TokenId → Prop) :
    (idx.forest word).countBelow idx.nodes.length (idx.KeyNode word c p K) n =
      M.keys c p K := by
  classical
  let f : Nat → List TokenId := fun m => ((word m).elim [] fun w => w.2).drop p.length
  have hf : ∀ {m r}, word m = some (c, p ++ r) → f m = r := by
    intro m r hm
    simp [f, hm]
  let nodes := (Finset.range idx.nodes.length).filter fun m =>
    (idx.forest word).Below n m ∧ idx.KeyNode word c p K m
  have hinj : Set.InjOn f nodes := by
    intro m hm m' hm' heq
    obtain ⟨-, -, -, r, hr, -⟩ := Finset.mem_filter.mp hm
    obtain ⟨-, -, -, r', hr', -⟩ := Finset.mem_filter.mp hm'
    rw [hf hr, hf hr'] at heq
    exact hi.wf.word_inj hr (heq ▸ hr')
  have himage : f '' nodes = {q | K q ∧ (M c (p ++ q)).isSome} := by
    ext q
    constructor
    · rintro ⟨m, hm, rfl⟩
      obtain ⟨-, -, ht, r, hr, hK⟩ := Finset.mem_filter.mp hm
      obtain ⟨id, hid⟩ := Option.isSome_iff_exists.mp ht
      have hkey := (hM c (p ++ r) id).mpr ⟨m, hr, hid⟩
      rw [hf hr]
      exact ⟨hK, by rw [hkey]; rfl⟩
    · rintro ⟨hK, hsome⟩
      obtain ⟨id, hid⟩ := Option.isSome_iff_exists.mp hsome
      obtain ⟨m, hm, ht⟩ := (hM c (p ++ q) id).mp hid
      refine ⟨m, Finset.mem_filter.mpr ⟨Finset.mem_range.mpr (hi.bound hm), ?_, ?_⟩, hf hm⟩
      · exact ⟨c, p, q, hn, hm⟩
      · exact ⟨by rw [ht]; rfl, q, hm, hK⟩
  rw [PrefixMap.keys, ← himage, hinj.ncard_image, Set.ncard_coe_finset]
  unfold Forest.countBelow
  congr 1

section Recurrences

variable {c : CacheContextHash} {p : List TokenId}

open scoped Classical in
theorem countBelow_step (hi : idx.Inv word) {n : Nat} {w : CacheContextHash × List TokenId}
    (hn : word n = some w) (Q : Nat → Prop) :
    (idx.forest word).countBelow idx.nodes.length Q n = (if Q n then 1 else 0) +
      ((idx.node n).children.entries.map fun e =>
        (idx.forest word).countBelow idx.nodes.length Q e.2).sum :=
  hi.wf.countBelow_eq Q (c := w.1) (p := w.2) hn (hi.bound hn)
    (fun _ _ => AList.mem_lookup_iff.symm) (idx.node n).children.nodupKeys

-- A word that continues `p` by less than a block has only edges that stay in the block.
theorem edge_le_of_short (hi : idx.Inv word) {n k : Nat} {r : List TokenId} {t : TokenId}
    (hb : 0 < idx.block_size) (hp : idx.block_size ∣ p.length) (hn : word n = some (c, p ++ r))
    (hr : r.length < idx.block_size) (hk : (idx.node n).children.lookup t = some k) :
    r.length + (idx.node k).edge_tokens.length ≤ idx.block_size := by
  obtain ⟨j, hj⟩ := hp
  have hin := hi.in_block hn hk
  have hdiv : (p ++ r).length / idx.block_size = j := by
    rw [List.length_append, hj, Nat.mul_add_div hb, Nat.div_eq_of_lt hr, Nat.add_zero]
  rw [hdiv, List.length_append, hj, Nat.add_mul, Nat.mul_comm j] at hin
  omega

-- A node of the queue of `blockChildCount`: what its word and the rest make up is a block.
def Pending (idx : PrefixIndex) (word : Words) (c : CacheContextHash) (p : List TokenId)
    (a : Nat × Nat) : Prop :=
  ∃ r, word a.1 = some (c, p ++ r) ∧ r.length + a.2 = idx.block_size

theorem childWork_eq (hi : idx.Inv word) (hb : 0 < idx.block_size)
    (hp : idx.block_size ∣ p.length) {a : Nat × Nat} (ha : idx.Pending word c p a)
    (hrem : a.2 ≠ 0) :
    idx.childWork a.1 a.2 = (idx.node a.1).children.entries.map fun e =>
      (e.2, a.2 - (idx.node e.2).edge_tokens.length) := by
  obtain ⟨r, hn, hlen⟩ := ha
  unfold childWork
  rw [← List.filterMap_eq_map]
  refine List.filterMap_congr fun e he => ?_
  have hk := AList.mem_lookup_iff.mpr he
  have hle := edge_le_of_short hi hb hp hn (by omega) hk
  exact if_pos (by omega)

theorem pending_next (hi : idx.Inv word) (hb : 0 < idx.block_size)
    (hp : idx.block_size ∣ p.length) {a : Nat × Nat} (ha : idx.Pending word c p a) :
    ∀ x ∈ idx.childWorklist.next a, idx.Pending word c p x := by
  intro x hx
  by_cases hrem : a.2 = 0
  · simp [childWorklist, hrem] at hx
  · simp only [childWorklist, if_neg hrem, childWork_eq hi hb hp ha hrem, List.mem_map] at hx
    obtain ⟨e, he, rfl⟩ := hx
    obtain ⟨r, hn, hlen⟩ := ha
    have hk := AList.mem_lookup_iff.mpr he
    have hle := edge_le_of_short hi hb hp hn (by omega) hk
    obtain ⟨rest, hedge, hword⟩ := hi.wf.child_word hn hk
    have hedge : (idx.node e.2).edge_tokens = e.1 :: rest := hedge
    refine ⟨r ++ e.1 :: rest, by rw [← List.append_assoc]; exact hword, ?_⟩
    rw [hedge] at hle ⊢
    rw [List.length_append]
    omega

open scoped Classical in
-- What is counted at a node of the queue, of nodes at most a block away, is counted at the
-- node itself and at those that it puts into the queue.
theorem countBelow_pending (hi : idx.Inv word) (hb : 0 < idx.block_size)
    (hp : idx.block_size ∣ p.length) {Q : Nat → Prop}
    (hQ : ∀ m, Q m → ∃ r, word m = some (c, p ++ r) ∧ r.length ≤ idx.block_size) {a : Nat × Nat}
    (ha : idx.Pending word c p a) :
    (idx.forest word).countBelow idx.nodes.length Q a.1 = (if Q a.1 then 1 else 0) +
      ((idx.childWorklist.next a).map fun x =>
        (idx.forest word).countBelow idx.nodes.length Q x.1).sum := by
  obtain ⟨r, hn, hlen⟩ := id ha
  rw [countBelow_step hi hn Q]
  congr 1
  by_cases hrem : a.2 = 0
  · simp only [childWorklist, if_pos hrem, List.map_nil, List.sum_nil]
    refine List.sum_eq_zero fun x hx => ?_
    obtain ⟨e, he, rfl⟩ := List.mem_map.mp hx
    refine Forest.countBelow_eq_zero fun m hm hq => ?_
    -- the words below the children are longer than a block
    obtain ⟨rest, hword⟩ := hi.wf.below_child hn (AList.mem_lookup_iff.mpr he) hm
    obtain ⟨r', hword', hle⟩ := hQ m hq
    have hword : word m = _ := hword
    rw [hword'] at hword
    have hlengths := congrArg (fun w => w.2.length) (Option.some.inj hword)
    simp only [List.length_append, List.length_cons] at hlengths
    omega
  · simp only [childWorklist, if_neg hrem, childWork_eq hi hb hp ha hrem, List.map_map]
    rfl

open scoped Classical in
-- The walk of `blockChildCount` ends, and has counted the keys one block further.
theorem childCountLoop_eq (hi : idx.Inv word) (hb : 0 < idx.block_size)
    (hp : idx.block_size ∣ p.length) {n : Nat} (hn : word n = some (c, p)) {fuel : Nat}
    (hfuel : idx.nodes.length ≤ fuel) :
    idx.childCountLoop fuel (idx.childWork n idx.block_size) 0 = ([],
      (idx.forest word).countBelow idx.nodes.length
        (idx.KeyNode word c p fun r => r.length = idx.block_size) n) := by
  let near : Nat → Prop := fun m => ∃ r, word m = some (c, p ++ r) ∧ r.length ≤ idx.block_size
  let key : Nat → Prop := idx.KeyNode word c p fun r => r.length = idx.block_size
  let size : Nat × Nat → Nat := fun a => (idx.forest word).countBelow idx.nodes.length near a.1
  let total : Nat × Nat → Nat := fun a => (idx.forest word).countBelow idx.nodes.length key a.1
  have hsize : ∀ a, idx.Pending word c p a →
      size a = 1 + ((idx.childWorklist.next a).map size).sum := by
    intro a ha
    have hnear : near a.1 := by
      obtain ⟨r, hr, hlen⟩ := ha
      exact ⟨r, hr, by omega⟩
    have hstep := countBelow_pending hi hb hp (Q := near) (fun m hm => hm) ha
    rwa [if_pos hnear] at hstep
  have htotal : ∀ a, idx.Pending word c p a →
      total a = idx.childWorklist.value a + ((idx.childWorklist.next a).map total).sum := by
    intro a ha
    have hstep := countBelow_pending hi hb hp (Q := key)
      (fun m hm => by
        obtain ⟨-, r, hr, hlen⟩ := hm
        exact ⟨r, hr, hlen.le⟩) ha
    have hkey : key a.1 ↔ a.2 = 0 ∧ (idx.node a.1).terminal_block.isSome := by
      obtain ⟨r, hr, hlen⟩ := ha
      constructor
      · rintro ⟨ht, r', hr', hlen'⟩
        rw [hr] at hr'
        have hrr : r = r' := by simpa using hr'
        subst hrr
        exact ⟨by omega, ht⟩
      · rintro ⟨hrem, ht⟩
        exact ⟨ht, r, hr, by omega⟩
    have hvalue : (if key a.1 then 1 else 0) = idx.childWorklist.value a := by
      simp only [hkey, childWorklist]
    rwa [hvalue] at hstep
  have hstart : idx.Pending word c p (n, idx.block_size) := ⟨[], by simpa using hn, by simp⟩
  have hwork : idx.childWorklist.next (n, idx.block_size) = idx.childWork n idx.block_size := by
    simp only [childWorklist]
    rw [if_neg (Nat.pos_iff_ne_zero.mp hb)]
  have hsize₀ := hsize _ hstart
  have htotal₀ := htotal _ hstart
  have hvalue₀ : idx.childWorklist.value (n, idx.block_size) = 0 := by
    simp [childWorklist, Nat.pos_iff_ne_zero.mp hb]
  have hle : size (n, idx.block_size) ≤ idx.nodes.length := Forest.countBelow_le _ _ _ _
  rw [childCountLoop_eq_run, ← hwork, Worklist.run_eq (fun a ha => pending_next hi hb hp ha) hsize
    htotal (pending_next hi hb hp hstart) (by omega)]
  congr 1
  change 0 + _ = total (n, idx.block_size)
  omega

open scoped Classical in
-- The walk of `blockDescendantCount` ends, and has counted all longer keys.
theorem descendantCountLoop_eq (hi : idx.Inv word) {n : Nat} (hn : word n = some (c, p))
    {fuel : Nat} (hfuel : idx.nodes.length ≤ fuel) :
    idx.descendantCountLoop fuel (idx.descendantWork n) 0 = ([],
      (idx.forest word).countBelow idx.nodes.length
        (idx.KeyNode word c p fun r => r ≠ []) n) := by
  let key : Nat → Prop := idx.KeyNode word c p fun r => r ≠ []
  let size : Nat → Nat := (idx.forest word).countBelow idx.nodes.length fun _ => True
  let total : Nat → Nat := (idx.forest word).countBelow idx.nodes.length key
  let P : Nat → Prop := fun m => ∃ r, word m = some (c, p ++ r) ∧ r ≠ []
  have hsum : ∀ (f : Nat → Nat) (m : Nat), ((idx.descendantWorklist.next m).map f).sum =
      ((idx.node m).children.entries.map fun e => f e.2).sum := by
    intro f m
    simp only [descendantWorklist, descendantWork, List.map_reverse, List.sum_reverse, List.map_map]
    rfl
  have hnext : ∀ m r, word m = some (c, p ++ r) → ∀ k ∈ idx.descendantWorklist.next m, P k := by
    intro m r hm k hk
    obtain ⟨e, he, rfl⟩ := List.mem_map.mp (List.mem_reverse.mp hk)
    obtain ⟨rest, -, hword⟩ := hi.wf.child_word hm (AList.mem_lookup_iff.mpr he)
    exact ⟨r ++ e.1 :: rest, by rw [← List.append_assoc]; exact hword, by simp⟩
  have hsize : ∀ m r, word m = some (c, p ++ r) →
      size m = 1 + ((idx.descendantWorklist.next m).map size).sum := by
    intro m r hm
    have hstep := countBelow_step hi hm fun _ => True
    rwa [if_pos trivial, ← hsum] at hstep
  have htotal : ∀ m, P m → total m = idx.descendantWorklist.value m +
      ((idx.descendantWorklist.next m).map total).sum := by
    rintro m ⟨r, hm, hr⟩
    have hstep := countBelow_step hi hm key
    have hkey : key m ↔ (idx.node m).terminal_block.isSome :=
      ⟨fun h => h.1, fun h => ⟨h, r, hm, hr⟩⟩
    have hvalue : (if key m then 1 else 0) = idx.descendantWorklist.value m := by
      simp only [hkey, descendantWorklist]
    rwa [hvalue, ← hsum] at hstep
  have hself : ¬ key n := by
    rintro ⟨-, r, hr, hne⟩
    rw [hn] at hr
    exact hne (by simpa using hr)
  have hstart : word n = some (c, p ++ []) := by simpa using hn
  have hsize₀ := hsize n [] hstart
  have htotal₀ := countBelow_step hi hn key
  rw [if_neg hself, ← hsum] at htotal₀
  have hle : size n ≤ idx.nodes.length := Forest.countBelow_le _ _ _ _
  rw [descendantCountLoop_eq_run,
    show idx.descendantWork n = idx.descendantWorklist.next n from rfl,
    Worklist.run_eq (fun m ⟨r, hm, _⟩ => hnext m r hm) (fun m ⟨r, hm, _⟩ => hsize m r hm) htotal
      (hnext n [] hstart) (by omega)]
  congr 1
  exact htotal₀.symm

end Recurrences

-- The counts of a mapped block, as far as 32 bits take them.
theorem Represents.counts_eq (hr : idx.Represents M) (hb : 0 < idx.block_size)
    {c : CacheContextHash} {p : List TokenId} {id : BlockId} (hid : M c p = some id) :
    idx.blockChildCount id = M.keys c p (fun q => q.length = idx.block_size) % 2 ^ 32 ∧
      idx.blockDescendantCount id = M.keys c p (fun q => q ≠ []) % 2 ^ 32 := by
  obtain ⟨word, hi, -, hM⟩ := hr
  obtain ⟨n, hn, ht⟩ := (hM c p id).mp hid
  have hlookup := hi.indexed.mpr ⟨⟨_, hn⟩, ht⟩
  have hfuel : idx.nodes.length ≤ idx.nodes.length + 1 := Nat.le_succ _
  have hchild := childCountLoop_eq hi hb (hi.aligned hn ht).2 hn hfuel
  have hdescendant := descendantCountLoop_eq hi hn hfuel
  rw [countBelow_keyNode hi hM hn] at hchild hdescendant
  constructor
  · have hcount : idx.blockChildCount id = (idx.childCountLoop (idx.nodes.length + 1)
        (idx.childWork n idx.block_size) 0).2 % 2 ^ 32 := by
      simp only [blockChildCount, hlookup, childWork]
    rw [hcount, hchild]
  · have hcount : idx.blockDescendantCount id = (idx.descendantCountLoop (idx.nodes.length + 1)
        (idx.descendantWork n) 0).2 % 2 ^ 32 := by
      simp only [blockDescendantCount, hlookup, descendantWork]
    rw [hcount, hdescendant]

-- There are no more keys than nodes.
theorem Represents.keys_le (hr : idx.Represents M) {c : CacheContextHash} {p : List TokenId}
    {id : BlockId} (hid : M c p = some id) (K : List TokenId → Prop) :
    M.keys c p K ≤ idx.nodes.length := by
  obtain ⟨word, hi, -, hM⟩ := hr
  obtain ⟨n, hn, -⟩ := (hM c p id).mp hid
  have hcount := countBelow_keyNode hi hM hn K
  exact hcount ▸ Forest.countBelow_le _ _ _ _

-- The counts that the features of a block are made of are those of the map: its children
-- are the keys one block longer, its descendants all longer ones. A block that has no key
-- has none of either. Both walks end within as many passes as there are nodes.
theorem counts_exact {b : Nat} (hb : 0 < b) (hrun : IndexRun b idx M)
    (hroom : idx.nodes.length < 2 ^ 32 - 1) :
    (∀ c p id, M c p = some id →
      idx.blockChildCount id = M.keys c p (fun q => q.length = b) ∧
        idx.blockDescendantCount id = M.keys c p (fun q => q ≠ [])) ∧
    (∀ id, (∀ c p, M c p ≠ some id) →
      idx.blockChildCount id = 0 ∧ idx.blockDescendantCount id = 0) ∧
    (∀ id n fuel, idx.block_node_index.lookup id = some n → idx.nodes.length ≤ fuel →
      (idx.childCountLoop fuel (idx.childWork n b) 0).1 = [] ∧
        (idx.descendantCountLoop fuel (idx.descendantWork n) 0).1 = []) := by
  obtain ⟨rfl, hr⟩ := run_represents hb hrun (by omega)
  obtain ⟨word, hi, -, hM⟩ := id hr
  have hterminal : ∀ {id n}, idx.block_node_index.lookup id = some n →
      ∃ c p, word n = some (c, p) ∧ M c p = some id ∧ idx.block_size ∣ p.length := by
    intro id n hlookup
    obtain ⟨⟨⟨c, p⟩, hn⟩, ht⟩ := hi.indexed.mp hlookup
    exact ⟨c, p, hn, (hM c p id).mpr ⟨n, hn, ht⟩, (hi.aligned hn ht).2⟩
  refine ⟨fun c p id hid => ?_, fun id hnone => ?_, fun id n fuel hlookup hfuel => ?_⟩
  · have hsmall : ∀ K, M.keys c p K < 2 ^ 32 :=
      fun K => lt_of_le_of_lt (hr.keys_le hid K) (by omega)
    have hcounts := hr.counts_eq hb hid
    rwa [Nat.mod_eq_of_lt (hsmall _), Nat.mod_eq_of_lt (hsmall _)] at hcounts
  · have hlookup : idx.block_node_index.lookup id = none := by
      cases hlookup : idx.block_node_index.lookup id with
      | none => rfl
      | some n =>
          obtain ⟨c, p, -, hid, -⟩ := hterminal hlookup
          exact absurd hid (hnone c p)
    simp only [blockChildCount, blockDescendantCount, hlookup, and_self]
  · obtain ⟨c, p, hn, -, hp⟩ := hterminal hlookup
    exact ⟨by rw [childCountLoop_eq hi hb hp hn hfuel], by rw [descendantCountLoop_eq hi hn hfuel]⟩

private abbrev chainState : PrefixIndex × PrefixMap CacheContextHash TokenId BlockId :=
  stepBoth ({ block_size := 2 }, PrefixMap.empty) (.insert 7 [1, 2, 3, 4, 5, 6] [10, 11, 12])

theorem counts_exact_chain :
    chainState.1.blockChildCount 10 = 1 ∧ chainState.1.blockDescendantCount 10 = 2 ∧
      chainState.2.keys 7 [1, 2] (fun q => q.length = 2) = 1 ∧
      chainState.2.keys 7 [1, 2] (fun q => q ≠ []) = 2 := by
  have hstart : IndexRun 2 { block_size := 2 } PrefixMap.empty := Steps.refl _
  have hrun : IndexRun 2 chainState.1 chainState.2 := by
    refine hstart.snoc (.insert 7 [1, 2, 3, 4, 5, 6] [10, 11, 12]) ⟨by decide, ?_⟩
    refine ((PrefixMap.Injective.empty.define fun _ _ _ => by simp [PrefixMap.empty]).define
      fun _ c p => ?_).define fun _ c p => ?_
    · rw [PrefixMap.define_of_none _ rfl]
      split <;> simp [PrefixMap.empty]
    · rw [PrefixMap.define_of_none _ rfl]
      split
      · simp
      · rw [PrefixMap.define_of_none _ rfl]
        split <;> simp [PrefixMap.empty]
  have hchild : chainState.1.blockChildCount 10 = 1 := by decide +kernel
  have hdescendant : chainState.1.blockDescendantCount 10 = 2 := by decide +kernel
  obtain ⟨hkeys, hkeys'⟩ := (counts_exact (by decide) hrun (by decide +kernel)).1 7 [1, 2] 10
    (by decide +kernel)
  exact ⟨hchild, hdescendant, hkeys ▸ hchild, hkeys' ▸ hdescendant⟩

end KVCache.Prefix.PrefixIndex
