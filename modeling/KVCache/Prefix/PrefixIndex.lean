import KVCache.Core.Ids
import Mathlib.Data.List.AList

namespace KVCache

-- `std::unordered_map`; the order of the entries is one of those it may iterate in.
abbrev UnorderedMap (κ ν : Type) := AList fun _ : κ => ν

namespace Prefix

def INVALID_NODE : Nat := 2 ^ 32 - 1

structure Node where
  edge_tokens : List TokenId := []
  terminal_block : Option BlockId := none
  children : UnorderedMap TokenId Nat := ∅
  parent_idx : Nat := INVALID_NODE
  first_edge_token : TokenId := 0

structure PrefixIndexLookup where
  blocks : List BlockId
  matched_tokens : Nat
deriving DecidableEq, Repr

structure PrefixIndex where
  block_size : Nat
  nodes : List Node := []
  namespace_roots : UnorderedMap CacheContextHash Nat := ∅
  block_node_index : UnorderedMap BlockId Nat := ∅

namespace PrefixIndex

def node (idx : PrefixIndex) (i : Nat) : Node := idx.nodes.getD i {}

def modifyNode (idx : PrefixIndex) (i : Nat) (f : Node → Node) : PrefixIndex :=
  { idx with nodes := idx.nodes.modify i f }

def newNode (idx : PrefixIndex) : Nat × PrefixIndex :=
  (idx.nodes.length % 2 ^ 32, { idx with nodes := idx.nodes ++ [{}] })

def getOrCreateRoot (idx : PrefixIndex) (ctx_hash : CacheContextHash) : Nat × PrefixIndex :=
  match idx.namespace_roots.lookup ctx_hash with
  | some root => (root, idx)
  | none =>
      let (root, idx) := idx.newNode
      (root, { idx with namespace_roots := idx.namespace_roots.insert ctx_hash root })

-- The descent of `lookup`. Every pass consumes an edge, so there are at most as
-- many passes as tokens.
def lookupLoop (idx : PrefixIndex) (tokens : List TokenId) : Nat → Nat → Nat → List BlockId
  | 0, _, _ => []
  | fuel + 1, node_idx, pos =>
      match tokens[pos]? with
      | none => []
      | some first =>
          match (idx.node node_idx).children.lookup first with
          | none => []
          | some child_idx =>
              let edge := (idx.node child_idx).edge_tokens
              if tokens.length - pos < edge.length then []
              else if (tokens.drop pos).take edge.length ≠ edge then []
              else
                let pos := pos + edge.length
                -- at a block boundary there must be a terminal, or the walk stops
                if pos % idx.block_size = 0 then
                  match (idx.node child_idx).terminal_block with
                  | some id => id :: lookupLoop idx tokens fuel child_idx pos
                  | none => []
                else lookupLoop idx tokens fuel child_idx pos

def lookupBlocks (idx : PrefixIndex) (ctx_hash : CacheContextHash) (tokens : List TokenId) :
    List BlockId :=
  match idx.namespace_roots.lookup ctx_hash with
  | none => []
  | some root => lookupLoop idx tokens tokens.length root 0

def lookup (idx : PrefixIndex) (ctx_hash : CacheContextHash) (tokens : List TokenId) :
    PrefixIndexLookup :=
  let blocks := idx.lookupBlocks ctx_hash tokens
  ⟨blocks, blocks.length * idx.block_size % 2 ^ 32⟩

-- How many leading tokens two lists share.
def lcpLength : List TokenId → List TokenId → Nat
  | x :: xs, y :: ys => if x = y then lcpLength xs ys + 1 else 0
  | _, _ => 0

-- No path for `first` below `node_idx`: a leaf that covers the rest of the block.
def appendLeaf (idx : PrefixIndex) (node_idx : Nat) (first : TokenId) (edge : List TokenId)
    (block : BlockId) : Nat × PrefixIndex :=
  let (new_idx, idx) := idx.newNode
  let idx := idx.modifyNode new_idx fun n =>
    { n with
      edge_tokens := edge
      terminal_block := some block
      parent_idx := node_idx
      first_edge_token := first }
  let idx := { idx with block_node_index := idx.block_node_index.insert block new_idx }
  (new_idx, idx.modifyNode node_idx fun n => { n with children := n.children.insert first new_idx })

-- The linked nodes get the parent `parent_idx`.
def reparent (idx : PrefixIndex) (links : List (Sigma fun _ : TokenId => Nat)) (parent_idx : Nat) :
    PrefixIndex :=
  links.foldl (fun idx e => idx.modifyNode e.2 fun n => { n with parent_idx := parent_idx }) idx

-- A block, if there is one, is found at `node_idx` from now on.
def pointBlock (idx : PrefixIndex) (id : Option BlockId) (node_idx : Nat) : PrefixIndex :=
  { idx with
    block_node_index :=
      match id with
      | some id => idx.block_node_index.insert id node_idx
      | none => idx.block_node_index }

-- The first half of a split after `lcp` tokens: a new node takes the lower part of
-- the edge, the terminal and the children.
def splitLower (idx : PrefixIndex) (child_idx lcp : Nat) : Nat × PrefixIndex :=
  let child := idx.node child_idx
  let split_edge := child.edge_tokens.drop lcp
  let (split_idx, idx) := idx.newNode
  let idx := idx.modifyNode split_idx fun n =>
    { n with
      edge_tokens := split_edge
      terminal_block := child.terminal_block
      children := child.children
      parent_idx := child_idx
      first_edge_token := split_edge.headD 0 }
  let idx := idx.reparent child.children.entries split_idx
  (split_idx, idx.pointBlock child.terminal_block split_idx)

-- The second half: the cut node keeps the upper part above the new node.
def splitEdge (idx : PrefixIndex) (child_idx lcp : Nat) : PrefixIndex :=
  let child := idx.node child_idx
  let (split_idx, idx) := idx.splitLower child_idx lcp
  idx.modifyNode child_idx fun n =>
    { n with
      edge_tokens := child.edge_tokens.take lcp
      terminal_block := none
      children := AList.insert ((child.edge_tokens.drop lcp).headD 0) split_idx ∅ }

-- An empty terminal takes the block; an existing one is kept.
def claimTerminal (idx : PrefixIndex) (node_idx : Nat) (block : BlockId) : PrefixIndex :=
  match (idx.node node_idx).terminal_block with
  | some _ => idx
  | none =>
      { idx.modifyNode node_idx (fun n => { n with terminal_block := some block }) with
        block_node_index := idx.block_node_index.insert block node_idx }

structure Cursor where
  index : PrefixIndex
  node_idx : Nat
  pos : Nat

-- The inner loop of `insert`, which takes the cursor to the end of one block. Each
-- pass that does not finish moves the cursor on, so `segment_end - pos` passes do.
def insertSegment (tokens : List TokenId) (block : BlockId) (segment_end : Nat) :
    Nat → Cursor → Cursor
  | 0, cur => cur
  | fuel + 1, cur =>
      if cur.pos < segment_end then
        let first := tokens.getD cur.pos 0
        match (cur.index.node cur.node_idx).children.lookup first with
        | none =>
            let edge := (tokens.take segment_end).drop cur.pos
            let (new_idx, idx) := cur.index.appendLeaf cur.node_idx first edge block
            ⟨idx, new_idx, segment_end⟩
        | some child_idx =>
            let edge := (cur.index.node child_idx).edge_tokens
            let lcp := lcpLength ((tokens.take segment_end).drop cur.pos) edge
            if lcp = edge.length then
              if cur.pos + lcp = segment_end then
                ⟨cur.index.claimTerminal child_idx block, child_idx, segment_end⟩
              else insertSegment tokens block segment_end fuel ⟨cur.index, child_idx, cur.pos + lcp⟩
            else
              insertSegment tokens block segment_end fuel
                ⟨cur.index.splitEdge child_idx lcp, child_idx, cur.pos + lcp⟩
      else cur

-- The outer loop of `insert`, one block at a time.
def insertBlocks (tokens : List TokenId) : Nat → List BlockId → Cursor → Cursor
  | _, [], cur => cur
  | block_counter, block :: blocks, cur =>
      let segment_end := (block_counter + 1) * cur.index.block_size
      insertBlocks tokens (block_counter + 1) blocks
        (insertSegment tokens block segment_end (segment_end - cur.pos) cur)

def insert (idx : PrefixIndex) (ctx_hash : CacheContextHash) (tokens : List TokenId)
    (blocks : List BlockId) : PrefixIndex :=
  if blocks = [] then idx
  else
    let (root, idx) := idx.getOrCreateRoot ctx_hash
    (insertBlocks tokens 0 blocks ⟨idx, root, 0⟩).index

-- Unlink `node_idx` and then its ancestors for as long as they carry nothing.
def pruneIfEmpty (idx : PrefixIndex) : Nat → Nat → PrefixIndex
  | 0, _ => idx
  | fuel + 1, node_idx =>
      let node := idx.node node_idx
      if node.children.entries ≠ [] ∨ node.terminal_block.isSome then idx
      else if node.parent_idx = INVALID_NODE then idx
      else
        (idx.modifyNode node.parent_idx fun n =>
          { n with children := n.children.erase node.first_edge_token }).pruneIfEmpty
          fuel node.parent_idx

def remove (idx : PrefixIndex) (id : BlockId) : PrefixIndex :=
  match idx.block_node_index.lookup id with
  | none => idx
  | some node_idx =>
      let idx := { idx with block_node_index := idx.block_node_index.erase id }
      let idx := idx.modifyNode node_idx fun n => { n with terminal_block := none }
      idx.pruneIfEmpty idx.nodes.length node_idx

-- The queue of `blockChildCount`: nodes still to visit, with the tokens that are
-- left until the next block boundary. A pass visits one node.
def childCountLoop (idx : PrefixIndex) : Nat → List (Nat × Nat) → Nat → List (Nat × Nat) × Nat
  | 0, queue, count => (queue, count)
  | _ + 1, [], count => ([], count)
  | fuel + 1, (n, rem) :: queue, count =>
      if rem = 0 then
        childCountLoop idx fuel queue
          (if (idx.node n).terminal_block.isSome then count + 1 else count)
      else
        let next := (idx.node n).children.entries.filterMap fun e =>
          let edge_len := (idx.node e.2).edge_tokens.length
          if edge_len ≤ rem then some (e.2, rem - edge_len) else none
        childCountLoop idx fuel (queue ++ next) count

def blockChildCount (idx : PrefixIndex) (id : BlockId) : Nat :=
  match idx.block_node_index.lookup id with
  | none => 0
  | some start_idx =>
      let queue := (idx.node start_idx).children.entries.filterMap fun e =>
        let edge_len := (idx.node e.2).edge_tokens.length
        if edge_len ≤ idx.block_size then some (e.2, idx.block_size - edge_len) else none
      (childCountLoop idx (idx.nodes.length + 1) queue 0).2 % 2 ^ 32

-- The stack of `blockDescendantCount`. A pass visits one node.
def descendantCountLoop (idx : PrefixIndex) : Nat → List Nat → Nat → List Nat × Nat
  | 0, stack, count => (stack, count)
  | _ + 1, [], count => ([], count)
  | fuel + 1, n :: stack, count =>
      descendantCountLoop idx fuel (((idx.node n).children.entries.map (·.2)).reverse ++ stack)
        (if (idx.node n).terminal_block.isSome then count + 1 else count)

def blockDescendantCount (idx : PrefixIndex) (id : BlockId) : Nat :=
  match idx.block_node_index.lookup id with
  | none => 0
  | some start_idx =>
      let stack := ((idx.node start_idx).children.entries.map (·.2)).reverse
      (descendantCountLoop idx (idx.nodes.length + 1) stack 0).2 % 2 ^ 32

end PrefixIndex

end Prefix

end KVCache
