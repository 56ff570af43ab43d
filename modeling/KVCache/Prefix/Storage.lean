import KVCache.Prefix.Refinement
import Mathlib.Data.Finset.Max
import Mathlib.Algebra.BigOperators.Group.Finset.Basic

namespace KVCache.Prefix

open KVCache.Lib

namespace IndexOp

variable {M : PrefixMap CacheContextHash TokenId BlockId}

-- The namespace that an operation inserts into.
def namespaces : IndexOp → Finset CacheContextHash
  | insert ctx_hash _ blocks => if blocks = [] then ∅ else {ctx_hash}
  | remove _ => ∅

-- The lengths of the prefixes that `PrefixMap.defineFrom` newly defines.
def newTokensFrom (b : Nat) (M : PrefixMap CacheContextHash TokenId BlockId)
    (c : CacheContextHash) (tokens : List TokenId) : Nat → List BlockId → Nat
  | _, [] => 0
  | i, block :: blocks =>
      (if M c (tokens.take ((i + 1) * b)) = none then (tokens.take ((i + 1) * b)).length else 0) +
        newTokensFrom b (M.define c (tokens.take ((i + 1) * b)) block) c tokens (i + 1) blocks

def newTokens (b : Nat) (M : PrefixMap CacheContextHash TokenId BlockId) : IndexOp → Nat
  | insert ctx_hash tokens blocks => newTokensFrom b M ctx_hash tokens 0 blocks
  | remove _ => 0

end IndexOp

-- The index, the map that it stands for, and what has been put in so far.
structure StorageState where
  index : PrefixIndex
  mapped : PrefixMap CacheContextHash TokenId BlockId
  namespaces : Finset CacheContextHash
  tokens : Nat

namespace StorageState

def init (b : Nat) : StorageState := ⟨{ block_size := b }, PrefixMap.empty, ∅, 0⟩

def step (s : StorageState) (op : IndexOp) : StorageState where
  index := op.apply s.index
  mapped := op.applyMap s.index.block_size s.mapped
  namespaces := s.namespaces ∪ op.namespaces
  tokens := s.tokens + op.newTokens s.index.block_size s.mapped

-- The namespaces that were ever inserted into and the lengths of all prefixes that were
-- ever mapped, each counted as often as it was newly mapped.
def total (s : StorageState) : Nat := s.namespaces.card + s.tokens

abbrev Run (b : Nat) (s : StorageState) : Prop :=
  Steps step (fun s op => op.Allowed b s.mapped) (init b) s

-- At most one prefix is mapped, and it is one block long.
def OneBlock (b : Nat) (M : PrefixMap CacheContextHash TokenId BlockId) : Prop :=
  ∀ c p x, M c p = some x → p.length = b ∧ ∀ c' p' x', M c' p' = some x' → c' = c ∧ p' = p

abbrev ChurnRun (b : Nat) (s : StorageState) : Prop :=
  Steps step
    (fun s op => op.Allowed b s.mapped ∧ OneBlock b (op.applyMap s.index.block_size s.mapped))
    (init b) s

end StorageState

namespace PrefixIndex

variable {idx : PrefixIndex} {word : Words} {M : PrefixMap CacheContextHash TokenId BlockId}
  {b : Nat} {c : CacheContextHash} {tokens : List TokenId} {blocks : List BlockId}

section Bound

-- A block takes no nodes if its prefix is mapped, and otherwise at most one for each token.
theorem insertBlocks_length_le_new {k : Nat} {cur : Cursor} (hb : 0 < b)
    (hcur : cur.At word M b c tokens) (hpos : cur.pos = k * b)
    (htokens : (k + blocks.length) * b ≤ tokens.length)
    (hok : PrefixMap.DefineOk b M c tokens k blocks)
    (hroom : cur.index.nodes.length + IndexOp.newTokensFrom b M c tokens k blocks < 2 ^ 32) :
    (insertBlocks tokens k blocks cur).index.nodes.length ≤
      cur.index.nodes.length + IndexOp.newTokensFrom b M c tokens k blocks := by
  induction blocks generalizing k cur word M with
  | nil => exact Nat.le_add_right _ _
  | cons block blocks ih =>
      have hnext : (k + 1) * b = k * b + b := Nat.succ_mul k b
      have hall : (k + (block :: blocks).length) * b = (k + 1 + blocks.length) * b := by
        rw [List.length_cons, Nat.add_right_comm, Nat.add_assoc]
      have hle : (k + 1) * b ≤ (k + 1 + blocks.length) * b :=
        Nat.mul_le_mul_right b (Nat.le_add_right _ _)
      have hkey : (tokens.take ((k + 1) * b)).length = (k + 1) * b :=
        List.length_take_of_le (by omega)
      simp only [insertBlocks, hcur.size, IndexOp.newTokensFrom, hkey] at hroom ⊢
      have hgrow := insertSegment_length_le_add tokens block ((k + 1) * b)
        ((k + 1) * b - cur.pos) cur
      obtain ⟨word', cur', hrun, hcur', hpos', -, hcount⟩ := insertSegment_passes _
        ⟨hcur, by omega, by omega, by omega⟩ (le_refl _) hok.1 fun hnone => by
          rw [if_pos hnone] at hroom
          omega
      rw [hrun] at hgrow ⊢
      have hseg : cur'.index.nodes.length ≤ cur.index.nodes.length +
          (if M c (tokens.take ((k + 1) * b)) = none then (k + 1) * b else 0) := by
        rcases hcount with hsame | hnone
        · omega
        · rw [if_pos hnone]
          omega
      have hrest := ih hcur' hpos' (by omega) hok.2 (by omega)
      omega

-- Blocks of no tokens leave the cursor where it is.
theorem insertBlocks_zero {k : Nat} {cur : Cursor} (hsize : cur.index.block_size = 0) :
    insertBlocks tokens k blocks cur = cur := by
  induction blocks generalizing k with
  | nil => rfl
  | cons block blocks ih =>
      simp only [insertBlocks, hsize, Nat.mul_zero, Nat.zero_sub, insertSegment]
      exact ih

theorem getOrCreateRoot_length (idx : PrefixIndex) (c : CacheContextHash) :
    (idx.getOrCreateRoot c).2.nodes.length =
      idx.nodes.length + if (idx.namespace_roots.lookup c).isSome then 0 else 1 := by
  unfold getOrCreateRoot
  cases hroot : idx.namespace_roots.lookup c with
  | some root => rfl
  | none => simp

theorem getOrCreateRoot_roots (idx : PrefixIndex) (c c' : CacheContextHash) :
    ((idx.getOrCreateRoot c).2.namespace_roots.lookup c').isSome =
      ((idx.namespace_roots.lookup c').isSome || decide (c' = c)) := by
  unfold getOrCreateRoot
  cases hroot : idx.namespace_roots.lookup c with
  | some root =>
      by_cases hc : c' = c
      · subst hc
        simp [hroot]
      · simp [hc]
  | none =>
      by_cases hc : c' = c
      · subst hc
        simp
      · simp [hc, AList.lookup_insert_ne hc]

-- The namespaces with a root are the ones that were there and the new one.
theorem apply_roots (idx : PrefixIndex) (op : IndexOp) (c : CacheContextHash) :
    ((op.apply idx).namespace_roots.lookup c).isSome ↔
      (idx.namespace_roots.lookup c).isSome ∨ c ∈ op.namespaces := by
  cases op with
  | insert c' tokens blocks =>
      simp only [IndexOp.apply, IndexOp.namespaces]
      by_cases hne : blocks = []
      · simp [insert, hne]
      · rw [insert_eq idx c' tokens hne, insertBlocks_roots, if_neg hne, Finset.mem_singleton]
        change ((idx.getOrCreateRoot c').2.namespace_roots.lookup c).isSome ↔ _
        rw [getOrCreateRoot_roots]
        simp
  | remove id =>
      simp only [IndexOp.apply, IndexOp.namespaces, (remove_fields idx id).2.1, Finset.notMem_empty,
        or_false]

-- Whatever the index looks like, a block takes at most as many nodes as there are tokens up
-- to its end.
theorem insertBlocks_length_le_add (tokens : List TokenId) (k : Nat) (blocks : List BlockId)
    (cur : Cursor) : (insertBlocks tokens k blocks cur).index.nodes.length ≤
      cur.index.nodes.length + blocks.length * ((k + blocks.length) * cur.index.block_size) := by
  induction blocks generalizing k cur with
  | nil => exact Nat.le_add_right _ _
  | cons block blocks ih =>
      have hrest := ih (k + 1) (insertSegment tokens block ((k + 1) * cur.index.block_size)
        ((k + 1) * cur.index.block_size - cur.pos) cur)
      have hone := insertSegment_length_le_add tokens block ((k + 1) * cur.index.block_size)
        ((k + 1) * cur.index.block_size - cur.pos) cur
      rw [insertSegment_block_size] at hrest
      have hend : (k + 1) * cur.index.block_size ≤ (k + 1 + blocks.length) * cur.index.block_size :=
        Nat.mul_le_mul_right _ (by omega)
      have hsucc : (blocks.length + 1) * ((k + 1 + blocks.length) * cur.index.block_size) =
          blocks.length * ((k + 1 + blocks.length) * cur.index.block_size) +
            (k + 1 + blocks.length) * cur.index.block_size := Nat.succ_mul _ _
      rw [insertBlocks, List.length_cons, show k + (blocks.length + 1) = k + 1 + blocks.length by
        omega]
      omega

theorem insert_length_le_add (idx : PrefixIndex) (c : CacheContextHash) (tokens : List TokenId)
    (blocks : List BlockId) : (idx.insert c tokens blocks).nodes.length ≤
      idx.nodes.length + (1 + blocks.length * (blocks.length * idx.block_size)) := by
  by_cases hne : blocks = []
  · rw [insert, if_pos hne]
    exact Nat.le_add_right _ _
  · have hroot := getOrCreateRoot_length idx c
    have hblocks := insertBlocks_length_le_add tokens 0 blocks
      ⟨(idx.getOrCreateRoot c).2, (idx.getOrCreateRoot c).1, 0⟩
    simp only [getOrCreateRoot_block_size, Nat.zero_add] at hblocks
    have hone : (if (idx.namespace_roots.lookup c).isSome then 0 else 1) ≤ 1 := by
      split <;> omega
    rw [insert, if_neg hne]
    change (insertBlocks tokens 0 blocks
      ⟨(idx.getOrCreateRoot c).2, (idx.getOrCreateRoot c).1, 0⟩).index.nodes.length ≤ _
    omega

-- An insertion makes at most a root for a new namespace and a node for each new token.
theorem insert_length_le_new (hr : 0 < idx.block_size → idx.Represents M)
    (hop : (IndexOp.insert c tokens blocks).Allowed idx.block_size M) (hne : blocks ≠ [])
    (hroom : (idx.insertStart c).index.nodes.length +
      IndexOp.newTokensFrom idx.block_size M c tokens 0 blocks < 2 ^ 32) :
    (idx.insert c tokens blocks).nodes.length ≤ (idx.insertStart c).index.nodes.length +
      IndexOp.newTokensFrom idx.block_size M c tokens 0 blocks := by
  rw [insert_eq idx c tokens hne]
  rcases Nat.eq_zero_or_pos idx.block_size with hzero | hb
  · have hsize : (idx.insertStart c).index.block_size = 0 :=
      (getOrCreateRoot_block_size idx c).trans hzero
    rw [insertBlocks_zero hsize]
    exact Nat.le_add_right _ _
  · obtain ⟨word, hstart⟩ := insertStart_at (hr hb) c tokens (by omega)
    exact insertBlocks_length_le_new hb hstart (by simp [insertStart])
      (by rw [Nat.zero_add]; exact hop.1) (PrefixMap.DefineOk.of_injective hop.2) hroom

-- Where nothing is mapped, the roots have no children: the lowest node would be a dead end.
theorem no_child_of_empty (hi : idx.Inv word) (hd : idx.NoDeadEnd word none)
    (hM : idx.Holds word PrefixMap.empty) {n : Nat} (hn : word n = some (c, [])) (t : TokenId) :
    (idx.node n).children.lookup t = none := by
  set depth : Nat → Nat := fun m => (word m).elim 0 fun w => w.2.length with hdepth
  have hword : ∀ {m c' p}, word m = some (c', p) → depth m = p.length := by
    intro m c' p hm
    simp [hdepth, hm]
  have hlive : ∀ {m c' p}, word m = some (c', p) → m ∈ Finset.range idx.nodes.length :=
    fun hm => Finset.mem_range.mpr (hi.bound hm)
  cases hchild : (idx.node n).children.lookup t with
  | none => rfl
  | some m =>
      obtain ⟨e, -, hm⟩ := hi.wf.child_word (F := idx.forest word) hn hchild
      obtain ⟨low, -, hmax⟩ := Finset.exists_max_image _ depth ⟨m, hlive hm⟩
      have hpos : 0 < depth low := by
        have := hmax m (hlive hm)
        rw [hword hm] at this
        simp at this
        omega
      cases hlow : word low with
      | none => simp [hdepth, hlow] at hpos
      | some w =>
          obtain ⟨c', p⟩ := w
          have hp : p ≠ [] := by
            rintro rfl
            rw [hword hlow] at hpos
            exact absurd hpos (lt_irrefl _)
          have hterm : (idx.node low).terminal_block = none := by
            cases hterm : (idx.node low).terminal_block with
            | none => rfl
            | some id =>
                exact absurd ((hM c' p id).mpr ⟨low, hlow, hterm⟩) (by simp [PrefixMap.empty])
          obtain ⟨u, k, hk⟩ := hd low c' p hlow hp (by simp) hterm
          obtain ⟨e', -, hkw⟩ := hi.wf.child_word (F := idx.forest word) hlow hk
          have := hmax k (hlive hkw)
          rw [hword hlow, hword hkw] at this
          simp at this

-- A block that goes into an empty layout takes a new node, though others are unused.
theorem insert_length_of_empty (hr : idx.Represents PrefixMap.empty) (hb : 0 < idx.block_size)
    (c : CacheContextHash) (block : BlockId) (htokens : tokens.length = idx.block_size) :
    idx.nodes.length + 1 ≤ (idx.insert c tokens [block]).nodes.length := by
  have hinsert : idx.insert c tokens [block] =
      (insertBlocks tokens 0 [block] (idx.insertStart c)).index := insert_eq idx c tokens (by simp)
  rw [hinsert]
  cases hroot : idx.namespace_roots.lookup c with
  | none =>
      refine le_trans ?_ (insertBlocks_length_le _ _ _ _)
      change _ ≤ (idx.getOrCreateRoot c).2.nodes.length
      rw [getOrCreateRoot_length, hroot]
      exact le_refl _
  | some root =>
      obtain ⟨word, hi, hd, hM⟩ := hr
      have hstart : idx.insertStart c = ⟨idx, root, 0⟩ := by
        simp only [insertStart, getOrCreateRoot, hroot]
      have hnone : (idx.insertStart c).child tokens = none := by
        rw [hstart]
        exact no_child_of_empty hi hd hM (hi.root.mp hroot) _
      have hsize : (idx.insertStart c).index.block_size = idx.block_size :=
        getOrCreateRoot_block_size idx c
      have hpos : (idx.insertStart c).pos = 0 := rfl
      obtain ⟨fuel, hfuel⟩ : ∃ fuel, (0 + 1) * idx.block_size - 0 = fuel + 1 :=
        ⟨idx.block_size - 1, by omega⟩
      simp only [insertBlocks, hsize, hpos, hfuel]
      rw [insertSegment_leaf (by rw [hpos]; omega) hnone, appendLeaf_length, hstart]

end Bound

end PrefixIndex

namespace StorageState

open PrefixIndex

variable {b : Nat} {s : StorageState}

-- What every operation keeps, as long as the total fits in 32 bits.
structure Inv (b : Nat) (s : StorageState) : Prop where
  size : s.index.block_size = b
  rooted : ∀ c, c ∈ s.namespaces ↔ (s.index.namespace_roots.lookup c).isSome
  layout : s.total < 2 ^ 32 → s.index.nodes.length ≤ s.total ∧ (0 < b → s.index.Represents s.mapped)

theorem total_le_step (s : StorageState) (op : IndexOp) : s.total ≤ (s.step op).total :=
  Nat.add_le_add (Finset.card_le_card Finset.subset_union_left) (Nat.le_add_right _ _)

-- The nodes that an operation makes are in the total after it.
theorem Inv.length_le (hi : s.Inv b) {op : IndexOp} (hop : op.Allowed b s.mapped)
    (htotal : (s.step op).total < 2 ^ 32) :
    (op.apply s.index).nodes.length ≤ (s.step op).total := by
  obtain ⟨hlength, hr⟩ := hi.layout (lt_of_le_of_lt (total_le_step s op) htotal)
  have hmono := total_le_step s op
  have hsize := hi.size
  subst hsize
  cases op with
  | remove id =>
      simp only [IndexOp.apply, remove_length]
      omega
  | insert c tokens blocks =>
      by_cases hne : blocks = []
      · simp only [IndexOp.apply, PrefixIndex.insert, if_pos hne]
        omega
      · have hstart : (s.index.insertStart c).index.nodes.length ≤
            (s.namespaces ∪ {c}).card + s.tokens := by
          change (s.index.getOrCreateRoot c).2.nodes.length ≤ _
          unfold total at hlength
          rw [getOrCreateRoot_length]
          by_cases hmem : c ∈ s.namespaces
          · rw [if_pos ((hi.rooted c).mp hmem),
              Finset.union_eq_left.mpr (Finset.singleton_subset_iff.mpr hmem)]
            omega
          · rw [if_neg fun h => hmem ((hi.rooted c).mpr h),
              Finset.card_union_of_disjoint (Finset.disjoint_singleton_right.mpr hmem),
              Finset.card_singleton]
            omega
        have hnew : (s.step (.insert c tokens blocks)).total = (s.namespaces ∪ {c}).card +
            (s.tokens + IndexOp.newTokensFrom s.index.block_size s.mapped c tokens 0 blocks) := by
          simp only [total, step, IndexOp.namespaces, IndexOp.newTokens, if_neg hne]
        have hle := insert_length_le_new hr hop hne (by omega)
        simp only [IndexOp.apply]
        omega

theorem Inv.step (hi : s.Inv b) {op : IndexOp} (hop : op.Allowed b s.mapped) :
    (s.step op).Inv b := by
  refine ⟨(apply_block_size s.index op).trans hi.size, fun c => ?_, fun htotal => ?_⟩
  · simp only [StorageState.step, Finset.mem_union]
    rw [apply_roots, hi.rooted]
  · have hlength := hi.length_le hop htotal
    refine ⟨hlength, fun hb => ?_⟩
    obtain ⟨-, hr⟩ := hi.layout (lt_of_le_of_lt (total_le_step s op) htotal)
    have hsize := hi.size
    exact apply_represents (hr hb) (hsize ▸ hb) (hsize ▸ hop) (lt_of_le_of_lt hlength htotal)

theorem Run.indexRun (hrun : Run b s) : IndexRun b s.index s.mapped :=
  Steps.invariant (I := fun s : StorageState => IndexRun b s.index s.mapped)
    (fun _ op h hop => h.snoc op hop) hrun (Steps.refl _)

theorem run_inv (hrun : Run b s) : s.Inv b := by
  refine Steps.invariant (I := fun s => s.Inv b) (fun s op hi hop => hi.step hop) hrun ?_
  exact ⟨rfl, by simp [init], fun _ => ⟨Nat.zero_le _, fun _ => empty_represents b⟩⟩

section Churn

theorem ChurnRun.run (h : ChurnRun b s) : Run b s := Steps.mono (fun _ _ hop => hop.1) h

private theorem define_empty (c : CacheContextHash) (p : List TokenId) (x : BlockId) :
    PrefixMap.empty.define c p x =
      fun c' p' => if c' = c ∧ p' = p then some x else PrefixMap.empty c' p' :=
  funext fun c' => funext fun p' => PrefixMap.define_of_none x rfl c' p'

-- One block comes and goes.
theorem ChurnRun.round (h : ChurnRun b s) (hempty : s.mapped = PrefixMap.empty)
    (hsize : s.index.block_size = b) {tokens : List TokenId} (htokens : tokens.length = b)
    (c : CacheContextHash) (block : BlockId) :
    ∃ s', ChurnRun b s' ∧ s'.mapped = PrefixMap.empty ∧
      s'.index.nodes.length = (s.index.insert c tokens [block]).nodes.length := by
  have hmap : IndexOp.applyMap b s.mapped (.insert c tokens [block]) =
      fun c' p' => if c' = c ∧ p' = tokens then some block else none := by
    have htake : tokens.take ((0 + 1) * b) = tokens := List.take_of_length_le (by omega)
    simp only [IndexOp.applyMap, PrefixMap.defineFrom, hempty, htake, define_empty]
    rfl
  have herase : PrefixMap.erase (fun c' p' => if c' = c ∧ p' = tokens then some block else none)
      block = (PrefixMap.empty : PrefixMap CacheContextHash TokenId BlockId) := by
    funext c' p'
    by_cases hkey : c' = c ∧ p' = tokens <;> simp [PrefixMap.erase, PrefixMap.empty, hkey]
  have hone : OneBlock b fun c' p' => if c' = c ∧ p' = tokens then some block else none := by
    intro c' p' x hx
    have hkey : c' = c ∧ p' = tokens := by
      by_contra hkey
      simp [hkey] at hx
    refine ⟨hkey.2 ▸ htokens, fun c'' p'' x' hx' => ?_⟩
    have hkey' : c'' = c ∧ p'' = tokens := by
      by_contra hkey'
      simp [hkey'] at hx'
    exact ⟨hkey'.1.trans hkey.1.symm, hkey'.2.trans hkey.2.symm⟩
  have hinj : (IndexOp.applyMap b s.mapped (.insert c tokens [block])).Injective := by
    rw [hmap]
    intro c' p' c'' p'' x hx hx'
    exact (hone c' p' x hx).2 c'' p'' x hx'
  have hin := h.snoc (.insert c tokens [block])
    ⟨⟨by simp [htokens], hinj⟩, by rw [hsize, hmap]; exact hone⟩
  have hmapped : (s.step (.insert c tokens [block])).mapped =
      fun c' p' => if c' = c ∧ p' = tokens then some block else none := by
    simp only [StorageState.step, hsize]
    exact hmap
  have hout := hin.snoc (.remove block) ⟨trivial, by
    simp only [IndexOp.applyMap, hmapped, herase]
    intro c' p' x hx
    cases hx⟩
  refine ⟨_, hout, ?_, ?_⟩
  · change PrefixMap.erase _ _ = _
    rw [hmapped, herase]
  · change ((s.index.insert c tokens [block]).remove block).nodes.length = _
    exact remove_length _ _

-- One live block after the other takes up any number of nodes.
theorem exists_churnRun (hb : 0 < b) {N : Nat} (hN : N ≤ 2 ^ 32) :
    ∃ s, ChurnRun b s ∧ s.mapped = PrefixMap.empty ∧ N ≤ s.index.nodes.length := by
  induction N with
  | zero => exact ⟨init b, Steps.refl _, rfl, Nat.zero_le _⟩
  | succ N ih =>
      obtain ⟨s, hrun, hempty, hle⟩ := ih (by omega)
      by_cases hlt : N < s.index.nodes.length
      · exact ⟨s, hrun, hempty, hlt⟩
      · have hsize := (run_inv hrun.run).size
        obtain ⟨-, hr⟩ := run_represents hb hrun.run.indexRun (by omega)
        have htokens : (List.replicate b (0 : TokenId)).length = b := List.length_replicate
        obtain ⟨s', hrun', hempty', hlen⟩ := hrun.round hempty hsize htokens 0 0
        refine ⟨s', hrun', hempty', ?_⟩
        have hgrow := insert_length_of_empty (hempty ▸ hr) (hsize ▸ hb) 0 0
          (htokens.trans hsize.symm)
        omega

-- Nodes are never given back. The vector holds at most a root for each namespace and a node
-- for each token of the prefixes that were ever mapped, which keeps the node numbers in range
-- while that total does; the prefixes that are mapped at a time do not bound it.
theorem storage_bound (hrun : Run b s) :
    (s.total < 2 ^ 32 → s.index.nodes.length ≤ s.total ∧
      ∀ n, n < s.index.nodes.length → n < INVALID_NODE) ∧
    (∀ op : IndexOp, s.index.nodes.length ≤ (op.apply s.index).nodes.length) ∧
    (0 < b → ∀ N ≤ 2 ^ 32, ∃ s', ChurnRun b s' ∧ N ≤ s'.index.nodes.length) := by
  refine ⟨fun htotal => ?_, fun op => apply_length_le s.index op, fun hb N hN => ?_⟩
  · obtain ⟨hle, -⟩ := (run_inv hrun).layout htotal
    refine ⟨hle, fun n hn => ?_⟩
    unfold INVALID_NODE
    omega
  · obtain ⟨s', hrun', -, hle⟩ := exists_churnRun hb hN
    exact ⟨s', hrun', hle⟩

private abbrev emptiedState : StorageState :=
  ((init 1).step (.insert 7 [1] [10])).step (.remove 10)

private theorem emptiedState_run : Run 1 emptiedState := by
  have hstart : Run 1 (init 1) := Steps.refl _
  refine (hstart.snoc (.insert 7 [1] [10]) ⟨by decide, ?_⟩).snoc (.remove 10) trivial
  exact PrefixMap.Injective.empty.define fun _ _ _ => by simp [PrefixMap.empty]

theorem storage_bound_emptied :
    emptiedState.index.nodes.length ≤ 2 ∧
      ∀ n, n < emptiedState.index.nodes.length → n < INVALID_NODE := by
  have htotal : emptiedState.total = 2 := by decide +kernel
  have hbound := (storage_bound emptiedState_run).1 (by rw [htotal]; decide)
  rwa [htotal] at hbound

-- The prefixes that are mapped at the end do not bound the vector.
theorem nodes_exceed_mapped :
    ¬ ∀ (b : Nat) (s : StorageState), Run b s →
      ∀ K : Finset (CacheContextHash × List TokenId),
        (∀ c p, (c, p) ∈ K ↔ (s.mapped c p).isSome) →
          s.index.nodes.length ≤ s.namespaces.card + K.sum fun k => k.2.length := by
  intro h
  have hnone : ∀ c p, emptiedState.mapped c p = none := by
    intro c p
    cases hid : emptiedState.mapped c p with
    | none => rfl
    | some id =>
        obtain ⟨hdef, hne⟩ := PrefixMap.erase_eq_some.mp hid
        have hnew := PrefixMap.defineFrom_eq_some hdef
        rcases hnew with hmem | hold
        · exact absurd (List.mem_singleton.mp hmem) hne
        · cases hold
  have hle := h 1 emptiedState emptiedState_run ∅ fun c p => by simp [hnone]
  exact absurd hle (by decide +kernel)

end Churn

end StorageState

end KVCache.Prefix
