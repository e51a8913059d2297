import JKain.Consensus.PaddedTree
import JKain.Executor.State
import JKain.Lib.SparseTree

/-!
# The sparse Merkle tree stores a function of the entries

The tree keeps a map of leaves, a map of inner nodes and a root, and an update rewrites one path of
it. What it stores is described by the hash at every path, with no regard to the updates that led
there: the inner node over a path is the fold of the leaves below it, and empty nodes are not
stored. While an update climbs from the leaf to the root, the nodes at and below the current depth
are those of the new leaves and the nodes above it still those of the old ones.
-/

namespace JKain

open Std JKain.Lib

/-! ## Proofs of inclusion -/

/-- `proof_siblings`: the siblings of the path of a key, from the leaf's up to the root's child. -/
def SparseMerkleTree.proofSiblings (sha : Sha256) (tree : SparseMerkleTree) (key : List UInt8) :
    Option (List Digest) :=
  if tree.leaves.contains (sha key) then
    some ((List.range treeDepth).reverse.map fun depth =>
      tree.subtreeHash sha (depth + 1) (pathFlip (sha key) depth))
  else none

/-- `MerkleProof`. -/
structure MerkleProof where
  key : List UInt8
  value : List UInt8
  siblings : List Digest

/-- The hash above the current node and its sibling at a depth of a path. -/
def parentHash (sha : Sha256) (path : Digest) (depth : ℕ) (current sibling : Digest) : Digest :=
  if pathBit path depth then combineHash sha sibling current else combineHash sha current sibling

/-- `MerkleProof::verify`. -/
def MerkleProof.verify (sha : Sha256) (proof : MerkleProof) (root : Digest) : Bool :=
  if proof.siblings.length ≠ treeDepth then false
  else
    let current := ((List.range treeDepth).reverse.zip proof.siblings).foldl
      (fun current (depth, sibling) => parentHash sha (sha proof.key) depth current sibling)
      (stateLeafHash sha proof.key proof.value)
    current = root

/-! ## Paths -/

section Paths

variable {path depth : ℕ}

theorem pathBit_eq (path depth : ℕ) :
    pathBit path depth = decide (path / 2 ^ (treeDepth - 1 - depth) % 2 = 1) := by
  rw [pathBit, Nat.testBit_eq_decide_div_mod_eq]

theorem pathFlip_div (path depth : ℕ) :
    pathFlip path depth / 2 ^ (treeDepth - 1 - depth) =
      path / 2 ^ (treeDepth - 1 - depth) ^^^ 1 := by
  rw [pathFlip, ← Nat.shiftRight_eq_div_pow, Nat.shiftRight_xor_distrib,
    Nat.shiftRight_eq_div_pow, Nat.shiftRight_eq_div_pow, Nat.div_self (Nat.two_pow_pos _)]

theorem pathFlip_lt (hpath : path < 2 ^ treeDepth) (hdepth : depth < treeDepth) :
    pathFlip path depth < 2 ^ treeDepth :=
  Nat.xor_lt_two_pow hpath (Nat.pow_lt_pow_right (by decide) (by omega))

theorem pathMask_div (path depth : ℕ) :
    pathMask path depth / 2 ^ (treeDepth - depth) = path / 2 ^ (treeDepth - depth) := by
  rw [pathMask, Nat.mul_div_cancel _ (Nat.two_pow_pos _)]

theorem pathMask_pathMask (path depth : ℕ) :
    pathMask (pathMask path depth) depth = pathMask path depth := by
  rw [pathMask, pathMask_div, ← pathMask]

theorem pathMask_le (path depth : ℕ) : pathMask path depth ≤ path := Nat.div_mul_le_self _ _

end Paths

/-! ## The node over a path -/

section Nodes

variable {sha : Sha256} {leaf leaf' : ℕ → Digest} {path depth : ℕ}

/-- The hash of the node at a depth over a path, from the hashes of all leaves. -/
def subtreeAt (sha : Sha256) (leaf : ℕ → Digest) (depth path : ℕ) : Digest :=
  foldTree (combineHash sha) leaf (treeDepth - depth) (path / 2 ^ (treeDepth - depth))

@[simp]
theorem subtreeAt_treeDepth (path : ℕ) : subtreeAt sha leaf treeDepth path = leaf path := by
  simp [subtreeAt, foldTree]

@[simp]
theorem subtreeAt_pathMask (depth path : ℕ) :
    subtreeAt sha leaf depth (pathMask path depth) = subtreeAt sha leaf depth path := by
  rw [subtreeAt, pathMask_div, subtreeAt]

/-- A node is computed from the node below it on a path and that node's sibling. -/
theorem subtreeAt_eq_parentHash (sha : Sha256) (leaf : ℕ → Digest) (hdepth : depth < treeDepth)
    (path : ℕ) :
    subtreeAt sha leaf depth path =
      parentHash sha path depth (subtreeAt sha leaf (depth + 1) path)
        (subtreeAt sha leaf (depth + 1) (pathFlip path depth)) := by
  have hheight : treeDepth - depth = (treeDepth - 1 - depth) + 1 := by omega
  have hbelow : treeDepth - (depth + 1) = treeDepth - 1 - depth := by omega
  rw [subtreeAt, subtreeAt, subtreeAt, hheight, hbelow, div_two_pow_succ, foldTree_succ_div_two,
    pathFlip_div, parentHash, pathBit_eq]
  simp only [decide_eq_true_eq]

/-- A changed leaf changes no node off its path. -/
theorem subtreeAt_eq_of_off_path {q : ℕ} (h : ∀ p, p ≠ path → leaf p = leaf' p)
    (hq : pathMask q depth ≠ pathMask path depth) :
    subtreeAt sha leaf depth q = subtreeAt sha leaf' depth q := by
  refine foldTree_eq_of_off_path h fun heq => hq ?_
  rw [pathMask, pathMask, heq]

/-- What is stored for an inner node: nothing when it is empty. -/
def storedNode (sha : Sha256) (leaf : ℕ → Digest) (depth path : ℕ) : Option Digest :=
  if depth < treeDepth ∧ path < 2 ^ treeDepth ∧ pathMask path depth = path ∧
      subtreeAt sha leaf depth path ≠ emptyHash sha then
    some (subtreeAt sha leaf depth path)
  else none

theorem storedNode_pathMask (hdepth : depth < treeDepth) (hpath : path < 2 ^ treeDepth) :
    storedNode sha leaf depth (pathMask path depth) =
      if subtreeAt sha leaf depth path = emptyHash sha then none
      else some (subtreeAt sha leaf depth path) := by
  have hlt : pathMask path depth < 2 ^ treeDepth := (pathMask_le path depth).trans_lt hpath
  simp only [storedNode, subtreeAt_pathMask, pathMask_pathMask, hdepth, hlt, true_and, ne_eq,
    ite_not]

theorem storedNode_eq_of_off_path {q : ℕ} (h : ∀ p, p ≠ path → leaf p = leaf' p)
    (hq : q ≠ pathMask path depth) :
    storedNode sha leaf depth q = storedNode sha leaf' depth q := by
  by_cases hmask : pathMask q depth = q
  · have hoff : pathMask q depth ≠ pathMask path depth := by rwa [hmask]
    rw [storedNode, storedNode, subtreeAt_eq_of_off_path h hoff]
  · simp [storedNode, hmask]

end Nodes

/-! ## What a tree stores -/

namespace SparseMerkleTree

variable {sha : Sha256} {leaf leaf' : ℕ → Digest} {tree tree' : SparseMerkleTree} {path depth : ℕ}

/-- The tree stores the leaves that are not empty, the inner nodes above them, and the root. -/
structure Stores (sha : Sha256) (leaf : ℕ → Digest) (tree : SparseMerkleTree) : Prop where
  leaves : ∀ path, tree.leaves[path]? =
    if leaf path = emptyHash sha then none else some (leaf path)
  nodes : ∀ depth path, tree.nodes[(depth, path)]? = storedNode sha leaf depth path
  root : tree.root = subtreeAt sha leaf 0 0

/-- The tree during an update, when the nodes at `depth` and below it have been rewritten. -/
structure Rewriting (sha : Sha256) (leaf leaf' : ℕ → Digest) (depth : ℕ)
    (tree : SparseMerkleTree) : Prop where
  leaves : ∀ path, tree.leaves[path]? =
    if leaf' path = emptyHash sha then none else some (leaf' path)
  above : ∀ d < depth, ∀ path, tree.nodes[(d, path)]? = storedNode sha leaf d path
  below : ∀ d, depth ≤ d → ∀ path, tree.nodes[(d, path)]? = storedNode sha leaf' d path

/-- Trees that store the same leaves are the same tree. -/
theorem Stores.unique (h : Stores sha leaf tree) (h' : Stores sha leaf tree') : tree = tree' := by
  have hleaves : tree.leaves = tree'.leaves :=
    ExtTreeMap.ext_getElem? fun path => (h.leaves path).trans (h'.leaves path).symm
  have hnodes : tree.nodes = tree'.nodes :=
    ExtTreeMap.ext_getElem? fun k => (h.nodes k.1 k.2).trans (h'.nodes k.1 k.2).symm
  have hroot : tree.root = tree'.root := h.root.trans h'.root.symm
  cases tree
  cases tree'
  simp_all

/-- `subtree_hash` reads the node over the path. -/
theorem subtreeHash_eq
    (hleaves : ∀ path, tree.leaves[path]? =
      if leaf path = emptyHash sha then none else some (leaf path))
    (hnodes : ∀ path, tree.nodes[(depth, path)]? = storedNode sha leaf depth path)
    (hdepth : depth ≤ treeDepth) (hpath : path < 2 ^ treeDepth) :
    tree.subtreeHash sha depth path = subtreeAt sha leaf depth path := by
  rw [subtreeHash]
  by_cases hbottom : depth = treeDepth
  · subst hbottom
    rw [if_pos rfl, hleaves, subtreeAt_treeDepth]
    split <;> simp_all
  · rw [if_neg hbottom, hnodes, storedNode_pathMask (by omega) hpath]
    split <;> simp_all

theorem getElem?_setBranch (tree : SparseMerkleTree) (depth path hash : ℕ) (k : ℕ × ℕ) :
    (tree.setBranch sha depth path hash).nodes[k]? =
      if (depth, path) = k then if hash = emptyHash sha then none else some hash
      else tree.nodes[k]? := by
  rw [setBranch]
  split
  · rw [ExtTreeMap.getElem?_erase]
    simp only [Std.compare_eq_iff_eq]
  · rw [ExtTreeMap.getElem?_insert]
    simp only [Std.compare_eq_iff_eq]

theorem leaves_setBranch (tree : SparseMerkleTree) (depth path hash : ℕ) :
    (tree.setBranch sha depth path hash).leaves = tree.leaves := by
  rw [setBranch]
  split <;> rfl

/-- One level of an update: only the node over the path can change at this depth. -/
theorem Rewriting.setBranch (h : Rewriting sha leaf leaf' (depth + 1) tree)
    (hdepth : depth < treeDepth) (hpath : path < 2 ^ treeDepth)
    (hoff : ∀ p, p ≠ path → leaf p = leaf' p) :
    Rewriting sha leaf leaf' depth
      (tree.setBranch sha depth (pathMask path depth) (subtreeAt sha leaf' depth path)) where
  leaves p := by rw [leaves_setBranch, h.leaves]
  above d hd q := by
    have hne : (depth, pathMask path depth) ≠ (d, q) := fun heq => by
      have := congrArg Prod.fst heq
      omega
    rw [getElem?_setBranch, if_neg hne, h.above d (by omega)]
  below d hd q := by
    rw [getElem?_setBranch]
    by_cases heq : (depth, pathMask path depth) = (d, q)
    · obtain ⟨rfl, rfl⟩ := Prod.mk.inj heq
      rw [if_pos rfl, storedNode_pathMask hdepth hpath]
    · rw [if_neg heq]
      rcases Nat.eq_or_lt_of_le hd with rfl | hlt
      · have hq : q ≠ pathMask path depth := fun hq => heq (by rw [hq])
        rw [h.above depth (by omega), storedNode_eq_of_off_path hoff hq]
      · exact h.below d hlt q

/-- The climb ends with the tree that stores the new leaves. -/
theorem Rewriting.climb (h : Rewriting sha leaf leaf' depth tree) (hdepth : depth ≤ treeDepth)
    (hpath : path < 2 ^ treeDepth) (hoff : ∀ p, p ≠ path → leaf p = leaf' p) :
    Stores sha leaf' (tree.climb sha path depth (subtreeAt sha leaf' depth path)) := by
  induction depth generalizing tree with
  | zero =>
    have hroot : subtreeAt sha leaf' 0 path = subtreeAt sha leaf' 0 0 := by
      rw [subtreeAt, subtreeAt, Nat.sub_zero, Nat.div_eq_of_lt hpath, Nat.zero_div]
    rw [SparseMerkleTree.climb]
    refine ⟨h.leaves, fun d q => h.below d (Nat.zero_le d) q, ?_⟩
    simp only [hroot]
  | succ depth ih =>
    have hsibling : tree.subtreeHash sha (depth + 1) (pathFlip path depth) =
        subtreeAt sha leaf' (depth + 1) (pathFlip path depth) :=
      subtreeHash_eq h.leaves (h.below (depth + 1) le_rfl) hdepth (pathFlip_lt hpath hdepth)
    -- the loop computes the node above the current one
    have hparent : (if pathBit path depth then
          combineHash sha (tree.subtreeHash sha (depth + 1) (pathFlip path depth))
            (subtreeAt sha leaf' (depth + 1) path)
        else combineHash sha (subtreeAt sha leaf' (depth + 1) path)
          (tree.subtreeHash sha (depth + 1) (pathFlip path depth))) =
        subtreeAt sha leaf' depth path := by
      rw [hsibling, subtreeAt_eq_parentHash sha leaf' hdepth, parentHash]
    rw [SparseMerkleTree.climb]
    simp only [hparent]
    exact ih (h.setBranch hdepth hpath hoff) (by omega)

/-- An update starts by replacing the leaf of a path. -/
theorem Stores.rewriting (h : Stores sha leaf tree) (hoff : ∀ p, p ≠ path → leaf p = leaf' p)
    {leaves : ExtTreeMap Digest Digest}
    (hleaves : ∀ p, leaves[p]? = if path = p then
      if leaf' path = emptyHash sha then none else some (leaf' path) else tree.leaves[p]?) :
    Rewriting sha leaf leaf' treeDepth { tree with leaves := leaves } where
  leaves p := by
    rw [hleaves]
    by_cases hp : path = p
    · subst hp
      rw [if_pos rfl]
    · rw [if_neg hp, h.leaves, hoff p (Ne.symm hp)]
  above d _ q := h.nodes d q
  below d hd q := by
    have hbottom : ¬ d < treeDepth := by omega
    rw [h.nodes, storedNode, storedNode, if_neg fun hc => hbottom hc.1,
      if_neg fun hc => hbottom hc.1]

/-- The leaves after one of them has been replaced. -/
theorem off_path_update (leaf : ℕ → Digest) (path hash : ℕ) :
    ∀ p, p ≠ path → leaf p = Function.update leaf path hash p :=
  fun _ hp => (Function.update_of_ne hp hash leaf).symm

theorem Stores.insert (h : Stores sha leaf tree) {key value : List UInt8}
    (hpath : sha key < 2 ^ treeDepth) (hne : stateLeafHash sha key value ≠ emptyHash sha) :
    Stores sha (Function.update leaf (sha key) (stateLeafHash sha key value))
      (tree.insert sha key value) := by
  have hoff := off_path_update leaf (sha key) (stateLeafHash sha key value)
  have hstart : Rewriting sha leaf _ treeDepth
      { tree with leaves := tree.leaves.insert (sha key) (stateLeafHash sha key value) } :=
    h.rewriting hoff fun _ => by
      rw [ExtTreeMap.getElem?_insert, Function.update_self, if_neg hne]
      simp only [Std.compare_eq_iff_eq]
  have hclimb := hstart.climb le_rfl hpath hoff
  rwa [subtreeAt_treeDepth, Function.update_self] at hclimb

theorem Stores.delete (h : Stores sha leaf tree) {key : List UInt8}
    (hpath : sha key < 2 ^ treeDepth) :
    Stores sha (Function.update leaf (sha key) (emptyHash sha)) (tree.delete sha key) := by
  rw [SparseMerkleTree.delete]
  split
  · have hoff := off_path_update leaf (sha key) (emptyHash sha)
    have hstart : Rewriting sha leaf _ treeDepth
        { tree with leaves := tree.leaves.erase (sha key) } :=
      h.rewriting hoff fun _ => by
        rw [ExtTreeMap.getElem?_erase, Function.update_self, if_pos rfl]
        simp only [Std.compare_eq_iff_eq]
    have hclimb := hstart.climb le_rfl hpath hoff
    rwa [subtreeAt_treeDepth, Function.update_self] at hclimb
  · -- the leaf was empty before, so nothing changes
    rename_i habsent
    have hempty : leaf (sha key) = emptyHash sha := by
      by_contra hne
      apply habsent
      rw [ExtTreeMap.contains_eq_isSome_getElem?, h.leaves, if_neg hne, Option.isSome_some]
    rwa [← hempty, Function.update_eq_self]

/-- The empty tree stores no leaf. -/
theorem stores_new (sha : Sha256) : Stores sha (fun _ => emptyHash sha) (new sha) := by
  have hfold : ∀ height p,
      foldTree (combineHash sha) (fun _ => emptyHash sha) height p = emptyHash sha := by
    intro height
    induction height with
    | zero => intro p; rfl
    | succ height ih => intro p; rw [foldTree, ih, ih, combineHash, if_pos rfl, if_pos rfl]
  refine ⟨fun path => ?_, fun depth path => ?_, (hfold _ _).symm⟩
  · rw [if_pos rfl]
    exact ExtTreeMap.getElem?_empty
  · rw [storedNode, if_neg fun hc => hc.2.2.2 (hfold _ _)]
    exact ExtTreeMap.getElem?_empty

/-! ## Proofs from a tree -/

/-- Going up past the siblings of a path recomputes the nodes of the path. -/
theorem foldl_siblings (sha : Sha256) (leaf : ℕ → Digest) (path : ℕ) {levels : ℕ}
    (hlevels : levels ≤ treeDepth) :
    ((List.range levels).reverse.zip ((List.range levels).reverse.map fun depth =>
        subtreeAt sha leaf (depth + 1) (pathFlip path depth))).foldl
      (fun current (depth, sibling) => parentHash sha path depth current sibling)
      (subtreeAt sha leaf levels path) = subtreeAt sha leaf 0 path := by
  induction levels with
  | zero => rw [List.range_zero, List.reverse_nil, List.zip_nil_left, List.foldl_nil]
  | succ levels ih =>
    have hnode := subtreeAt_eq_parentHash sha leaf hlevels path
    rw [List.range_succ, List.reverse_append, List.reverse_singleton, List.singleton_append,
      List.map_cons, List.zip_cons_cons, List.foldl_cons]
    simp only [← hnode]
    exact ih (by omega)

theorem Stores.proofSiblings_eq (h : Stores sha leaf tree) {key : List UInt8}
    (hpath : sha key < 2 ^ treeDepth) (hne : leaf (sha key) ≠ emptyHash sha) :
    tree.proofSiblings sha key = some ((List.range treeDepth).reverse.map fun depth =>
      subtreeAt sha leaf (depth + 1) (pathFlip (sha key) depth)) := by
  have hcontains : tree.leaves.contains (sha key) = true := by
    rw [ExtTreeMap.contains_eq_isSome_getElem?, h.leaves, if_neg hne, Option.isSome_some]
  rw [proofSiblings, if_pos hcontains]
  refine congrArg some (List.map_congr_left fun depth hdepth => ?_)
  have hlt : depth < treeDepth := List.mem_range.mp (List.mem_reverse.mp hdepth)
  exact subtreeHash_eq h.leaves (h.nodes (depth + 1)) hlt (pathFlip_lt hpath hlt)

/-- The siblings of a stored leaf make a proof of it. -/
theorem Stores.verify_proofSiblings (h : Stores sha leaf tree) {key value : List UInt8}
    (hpath : sha key < 2 ^ treeDepth) (hne : leaf (sha key) ≠ emptyHash sha)
    (hleaf : leaf (sha key) = stateLeafHash sha key value) :
    ∃ siblings, tree.proofSiblings sha key = some siblings ∧
      MerkleProof.verify sha ⟨key, value, siblings⟩ tree.root = true := by
  refine ⟨_, h.proofSiblings_eq hpath hne, ?_⟩
  have hlength : ((List.range treeDepth).reverse.map fun depth =>
      subtreeAt sha leaf (depth + 1) (pathFlip (sha key) depth)).length = treeDepth := by
    rw [List.length_map, List.length_reverse, List.length_range]
  have hroot : tree.root = subtreeAt sha leaf 0 (sha key) := by
    rw [h.root, subtreeAt, subtreeAt, Nat.sub_zero, Nat.div_eq_of_lt hpath, Nat.zero_div]
  have hfold := foldl_siblings sha leaf (sha key) le_rfl
  rw [subtreeAt_treeDepth, hleaf] at hfold
  rw [MerkleProof.verify, if_neg (not_not_intro hlength), hroot]
  exact decide_eq_true hfold

end SparseMerkleTree

end JKain
