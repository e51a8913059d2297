import JKain.Consensus.Checkpoint
import JKain.Executor.Op

/-!
# The key-value state and its Merkle tree

The state is a partition of keys and values with a sparse Merkle tree beside it. A path of the tree
is the digest of a key, 256 bits with the most significant one first. The node hashes are those of
the padded tree of `Consensus.Checkpoint`: the two modules of the program spell the same functions.
-/

namespace JKain

open Std

/-! ## The sparse Merkle tree -/

/-- `DEPTH`. -/
def treeDepth : ℕ := 256

/-- `bit`: whether the path goes to the right at this depth. -/
def pathBit (path : Digest) (depth : ℕ) : Bool := path.testBit (treeDepth - 1 - depth)

/-- `flip`. -/
def pathFlip (path : Digest) (depth : ℕ) : Digest := path ^^^ 2 ^ (treeDepth - 1 - depth)

/-- `mask`: the first `depth` bits of the path, the rest zero. -/
def pathMask (path : Digest) (depth : ℕ) : Digest :=
  path / 2 ^ (treeDepth - depth) * 2 ^ (treeDepth - depth)

/-- `merkle::leaf_hash`. -/
def stateLeafHash (sha : Sha256) (key value : List UInt8) : Digest :=
  sha (0x00 :: (writeBytes key ++ writeBytes value))

/-- `SparseMerkleTree`. -/
structure SparseMerkleTree where
  leaves : ExtTreeMap Digest Digest
  nodes : ExtTreeMap (ℕ × Digest) Digest
  root : Digest

namespace SparseMerkleTree

variable (sha : Sha256)

/-- `SparseMerkleTree::new`. -/
def new : SparseMerkleTree := ⟨∅, ∅, emptyHash sha⟩

/-- `subtree_hash`. -/
def subtreeHash (tree : SparseMerkleTree) (depth : ℕ) (path : Digest) : Digest :=
  if depth = treeDepth then tree.leaves[path]?.getD (emptyHash sha)
  else tree.nodes[(depth, pathMask path depth)]?.getD (emptyHash sha)

/-- `set_branch`: an empty node is not stored. -/
def setBranch (tree : SparseMerkleTree) (depth : ℕ) (path hash : Digest) : SparseMerkleTree :=
  if hash = emptyHash sha then { tree with nodes := tree.nodes.erase (depth, path) }
  else { tree with nodes := tree.nodes.insert (depth, path) hash }

/-- `for depth in (0..DEPTH).rev()`: the node above the current one is computed and stored, up to
the root. The first argument counts the levels that are left. -/
def climb (path : Digest) : ℕ → Digest → SparseMerkleTree → SparseMerkleTree
  | 0, current, tree => { tree with root := current }
  | depth + 1, current, tree =>
    let sibling := tree.subtreeHash sha (depth + 1) (pathFlip path depth)
    let parent :=
      if pathBit path depth then combineHash sha sibling current
      else combineHash sha current sibling
    climb path depth parent (tree.setBranch sha depth (pathMask path depth) parent)

/-- `SparseMerkleTree::insert`. -/
def insert (tree : SparseMerkleTree) (key value : List UInt8) : SparseMerkleTree :=
  let leaf := stateLeafHash sha key value
  climb sha (sha key) treeDepth leaf { tree with leaves := tree.leaves.insert (sha key) leaf }

/-- `SparseMerkleTree::delete`, without the flag that no caller reads. -/
def delete (tree : SparseMerkleTree) (key : List UInt8) : SparseMerkleTree :=
  if tree.leaves.contains (sha key) then
    climb sha (sha key) treeDepth (emptyHash sha)
      { tree with leaves := tree.leaves.erase (sha key) }
  else tree

end SparseMerkleTree

/-! ## The state -/

/-- `State`: the partition and the tree. -/
structure State where
  kv : ExtTreeMap (List UInt8) (List UInt8)
  tree : SparseMerkleTree

namespace State

variable (sha : Sha256)

/-- `State::new` over an empty partition. -/
def new : State := ⟨∅, SparseMerkleTree.new sha⟩

/-- `State::get`. -/
def get (state : State) (key : List UInt8) : Option (List UInt8) := state.kv[key]?

/-- `State::contains`. -/
def contains (state : State) (key : List UInt8) : Bool := (state.get key).isSome

/-- `State::root`. -/
def root (state : State) : Digest := state.tree.root

/-- `State::apply` when the write to the partition succeeds. -/
def apply (state : State) : Op → State
  | .put key value => ⟨state.kv.insert key value, state.tree.insert sha key value⟩
  | .delete key => ⟨state.kv.erase key, state.tree.delete sha key⟩

/-- `State::to_bytes`. -/
def toBytes (state : State) : List UInt8 :=
  state.kv.toList.flatMap fun (key, value) => writeBytes key ++ writeBytes value

/-- One pair of `State::from_bytes`. -/
def takePair : Reader PUnit (List UInt8 × List UInt8) := do
  let key ← takeBytes ⟨⟩
  let value ← takeBytes ⟨⟩
  return (key, value)

/-- What the partition does on a write: `true` makes the next one fail. When the list is used up the
writes succeed. -/
abbrev WriteFaults := List Bool

/-- The loop of `State::from_bytes`: the state after the pairs that were written, whether all of
them were, and the faults that are left. Keys have to increase strictly. A pair takes at least eight
bytes, so the number of bytes is enough fuel. -/
def loadPairs : ℕ → Option (List UInt8) → List UInt8 → WriteFaults → State →
    State × Bool × WriteFaults
  | _, _, [], faults, state => (state, true, faults)
  | 0, _, _ :: _, faults, state => (state, false, faults)
  | fuel + 1, prevKey, cursor@(_ :: _), faults, state =>
    match takePair cursor with
    | .error _ => (state, false, faults)
    | .ok ((key, value), rest) =>
      if prevKey.any (fun prev => (compare key prev).isLE) then (state, false, faults)
      else if faults.headD false then (state, false, faults.tail)
      else loadPairs fuel (some key) rest faults.tail (state.apply sha (.put key value))

/-- `State::from_bytes` over an empty partition. On failure the pairs before the bad one stay in the
partition, so the state reached is returned as well. -/
def fromBytes (faults : WriteFaults) (bytes : List UInt8) : State × Bool × WriteFaults :=
  loadPairs sha bytes.length none bytes faults (new sha)

/-- `State::root_of_bytes`, which writes to no partition. -/
def rootOfBytes (bytes : List UInt8) : Option Digest :=
  match fromBytes sha [] bytes with
  | (state, true, _) => some state.root
  | (_, false, _) => none

end State

end JKain
