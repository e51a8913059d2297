import JKain.Consensus.Checkpoint
import JKain.Executor.CodecSpec
import JKain.Lib.HashTree

/-!
# The padded Merkle tree

The roots of the records and of the window are folds of `combine_hash` over leaves padded to a power
of two. Nodes with one child and nodes with two children are hashed behind two different bytes, and
an empty subtree is a string of one byte. If the strings of the leaves start with neither of the two
bytes and have more than one, the fold is the root of a tree whose entries are the leaves, as long
as the hash has no collision among the strings that are hashed for it.
-/

namespace JKain

open Lib

/-! ## The strings that are hashed -/

section Messages

variable (sha : Sha256)

/-- The string whose hash is the result of `combine_hash`. -/
def combineMessage (left right : Digest) : List UInt8 :=
  if left = emptyHash sha then
    if right = emptyHash sha then [0x00] else 0x01 :: digestBytes right
  else if right = emptyHash sha then 0x01 :: digestBytes left
  else 0x02 :: (digestBytes left ++ digestBytes right)

/-- The strings hashed for one level of the tree. -/
def levelMessages : List Digest → List (List UInt8)
  | left :: right :: rest => combineMessage sha left right :: levelMessages rest
  | _ => []

/-- The strings hashed for all levels above the given one. -/
def foldMessages : ℕ → List Digest → List (List UInt8)
  | 0, _ => []
  | height + 1, level =>
    if level.length > 1 then levelMessages sha level ++ foldMessages height (combineLevel sha level)
    else []

/-- The strings hashed for the root over leaves that are the hashes of the given strings. -/
def paddedMessages (leaves : List (List UInt8)) : List (List UInt8) :=
  let padded := leaves.map sha ++
    List.replicate (nextPowerOfTwo leaves.length - leaves.length) (emptyHash sha)
  [0x00] :: (leaves ++ foldMessages sha padded.length padded)

theorem combineHash_eq (left right : Digest) :
    combineHash sha left right = sha (combineMessage sha left right) := by
  rw [combineHash, combineMessage]
  split <;> split <;> rfl

end Messages

/-! ## The tree -/

variable {α : Type}

/-- The padded tree over entries with the given strings, as a scheme of hashed messages. -/
def treeScheme (sha : Sha256) (leafMsg : α → List UInt8) : HashScheme α (List UInt8) Digest where
  hash := sha
  emptyMsg := [0x00]
  leafMsg := leafMsg
  singleMsg d := 0x01 :: digestBytes d
  nodeMsg d d' := 0x02 :: (digestBytes d ++ digestBytes d')

/-- Strings of entries that cannot be taken for those of nodes. -/
structure LeafStrings (leafMsg : α → List UInt8) : Prop where
  inj : Function.Injective leafMsg
  long : ∀ a, 1 < (leafMsg a).length
  not_single : ∀ a, (leafMsg a).head? ≠ some 0x01
  not_node : ∀ a, (leafMsg a).head? ≠ some 0x02

variable {sha : Sha256} {leafMsg : α → List UInt8} {D : Set (List UInt8)}

theorem digestBytes_injOn {d d' : Digest} (h : d < 256 ^ 32) (h' : d' < 256 ^ 32)
    (heq : digestBytes d = digestBytes d') : d = d' := beBytes_injOn h h' heq

/-- The first bytes tell the three kinds of nodes apart, and the digests of a node have one length.
-/
theorem treeScheme_splits (hleaf : LeafStrings leafMsg) (hsha : ∀ bytes, sha bytes < 256 ^ 32) :
    (treeScheme sha leafMsg).Splits where
  leaf_ne_empty a h := by
    have hlong := hleaf.long a
    rw [show leafMsg a = [0x00] from h] at hlong
    exact absurd hlong (by decide)
  single_ne_empty d h := by simp [treeScheme] at h
  node_ne_empty d d' h := by simp [treeScheme] at h
  leaf_ne_single a d h := hleaf.not_single a (congrArg List.head? h)
  leaf_ne_node a d d' h := hleaf.not_node a (congrArg List.head? h)
  single_ne_node d d' d'' h := by simp [treeScheme] at h
  leaf_inj h := hleaf.inj h
  single_inj {m m'} h := digestBytes_injOn (hsha m) (hsha m') (List.cons.inj h).2
  node_inj {m n m' n'} h := by
    obtain ⟨hleft, hright⟩ := List.append_inj (List.cons.inj h).2 (by simp)
    exact ⟨digestBytes_injOn (hsha m) (hsha m') hleft, digestBytes_injOn (hsha n) (hsha n') hright⟩
  node_left {m m' d d'} h := by
    obtain ⟨hleft, -⟩ := List.append_inj (List.cons.inj h).2 (by simp)
    exact digestBytes_injOn (hsha m) (hsha m') hleft
  node_right {m m' d d'} h := by
    obtain ⟨-, hright⟩ := List.append_inj (List.cons.inj h).2 (by simp)
    exact digestBytes_injOn (hsha m) (hsha m') hright

variable {ts : List (HashTree α)}

section Fold

variable (hleaf : LeafStrings leafMsg) (hsha : ∀ bytes, sha bytes < 256 ^ 32)
  (hD : Set.InjOn sha D) (hempty : [0x00] ∈ D)
include hleaf hsha hD hempty

/-- A level of roots is the level of the combined trees. -/
theorem combineLevel_map_root (hts : HashTree.Within (treeScheme sha leafMsg) D ts)
    (hmsgs : ∀ m ∈ levelMessages sha (ts.map (HashTree.root (treeScheme sha leafMsg))), m ∈ D) :
    combineLevel sha (ts.map (HashTree.root (treeScheme sha leafMsg))) =
        (HashTree.combineTrees ts).map (HashTree.root (treeScheme sha leafMsg)) ∧
      HashTree.Within (treeScheme sha leafMsg) D (HashTree.combineTrees ts) := by
  induction ts using HashTree.combineTrees.induct with
  | case1 l r rest ih =>
    simp only [HashTree.Within, List.forall_mem_cons] at hts
    obtain ⟨hl, hr, hrest⟩ := hts
    simp only [List.map_cons, levelMessages, List.forall_mem_cons] at hmsgs
    obtain ⟨hmsg, hmsgs⟩ := hmsgs
    have hmessage : (l.combine r).message (treeScheme sha leafMsg) = combineMessage sha _ _ :=
      HashTree.message_combine (treeScheme_splits hleaf hsha).toSeparated hD hempty hl hr
    obtain ⟨hlevel, hwithin⟩ := ih hrest hmsgs
    constructor
    · rw [List.map_cons, List.map_cons, combineLevel, HashTree.combineTrees, List.map_cons, hlevel,
        combineHash_eq, ← hmessage]
      rfl
    · rw [HashTree.combineTrees, HashTree.Within, List.forall_mem_cons]
      exact ⟨HashTree.messages_combine_subset hl hr (hmessage ▸ hmsg), hwithin⟩
  | case2 ts hshort =>
    cases ts with
    | nil => exact ⟨rfl, fun t ht => absurd ht List.not_mem_nil⟩
    | cons l rest =>
      cases rest with
      | nil => exact ⟨rfl, fun t ht => absurd ht List.not_mem_nil⟩
      | cons r rest => exact absurd rfl (hshort l r rest)

/-- The loop over the levels computes the root of a tree with the leaves of the level it starts
from. -/
theorem foldLevels_map_root {k height : ℕ} (hlen : ts.length = 2 ^ k) (hk : k ≤ height)
    (hts : HashTree.Within (treeScheme sha leafMsg) D ts)
    (hmsgs : ∀ m ∈ foldMessages sha height (ts.map (HashTree.root (treeScheme sha leafMsg))),
      m ∈ D) :
    ∃ t : HashTree α,
      foldLevels sha height (ts.map (HashTree.root (treeScheme sha leafMsg))) =
          t.root (treeScheme sha leafMsg) ∧
        t.messages (treeScheme sha leafMsg) ⊆ D ∧ t.leaves = ts.flatMap HashTree.leaves := by
  induction k generalizing height ts with
  | zero =>
    obtain ⟨t, rfl⟩ := List.length_eq_one_iff.mp hlen
    refine ⟨t, ?_, hts t List.mem_cons_self, by simp⟩
    cases height <;> rfl
  | succ k ih =>
    obtain ⟨height, rfl⟩ : ∃ h, height = h + 1 := ⟨height - 1, by omega⟩
    have hlen' : ts.length = 2 * 2 ^ k := by rw [hlen, pow_succ]; omega
    have hmany : (ts.map (HashTree.root (treeScheme sha leafMsg))).length > 1 := by
      have hpos : 0 < 2 ^ k := Nat.pow_pos (by decide)
      rw [List.length_map]
      omega
    rw [foldMessages, if_pos hmany] at hmsgs
    obtain ⟨hlevel, hwithin⟩ := combineLevel_map_root hleaf hsha hD hempty hts
      fun m hm => hmsgs m (List.mem_append_left _ hm)
    rw [hlevel] at hmsgs
    obtain ⟨t, hroot, hmessages, hleaves⟩ := ih (HashTree.length_combineTrees hlen') (by omega)
      hwithin fun m hm => hmsgs m (List.mem_append_right _ hm)
    refine ⟨t, ?_, hmessages, hleaves.trans (HashTree.leaves_combineTrees hlen')⟩
    rw [foldLevels, if_pos hmany, hlevel, hroot]

end Fold

/-! ## The root -/

/-- The padded length is the power of two in `[len, 2 * len)`. -/
theorem nextPowerOfTwo_spec {len : ℕ} (h : 0 < len) :
    ∃ j, nextPowerOfTwo len = 2 ^ j ∧ len ≤ 2 ^ j ∧ 2 ^ j < 2 * len := by
  rw [nextPowerOfTwo]
  split
  · exact ⟨0, rfl, by omega, by omega⟩
  · have hne : len - 1 ≠ 0 := by omega
    have hlow : 2 ^ Nat.log2 (len - 1) ≤ len - 1 := Nat.log2_self_le hne
    have hhigh : len - 1 < 2 ^ (Nat.log2 (len - 1) + 1) := Nat.lt_log2_self
    exact ⟨_, rfl, by omega, by rw [pow_succ]; omega⟩

/-- The padded length is a power of two for any number of leaves; no leaves are padded with one. -/
theorem exists_padded_length_eq (len : ℕ) : ∃ k, len + (nextPowerOfTwo len - len) = 2 ^ k := by
  rcases Nat.eq_zero_or_pos len with rfl | hpos
  · exact ⟨0, rfl⟩
  · obtain ⟨k, hk, hle, -⟩ := nextPowerOfTwo_spec hpos
    exact ⟨k, by omega⟩

/-- The lowest level of the tree: the entries, and empty trees behind them. -/
def bottomTrees (entries : List α) : List (HashTree α) :=
  entries.map HashTree.leaf ++
    List.replicate (nextPowerOfTwo entries.length - entries.length) HashTree.empty

theorem map_root_bottomTrees (entries : List α) :
    (bottomTrees entries).map (HashTree.root (treeScheme sha leafMsg)) =
      (entries.map leafMsg).map sha ++
        List.replicate (nextPowerOfTwo entries.length - entries.length) (emptyHash sha) := by
  rw [bottomTrees, List.map_append, List.map_replicate, List.map_map, List.map_map]
  rfl

theorem leaves_bottomTrees (entries : List α) :
    (bottomTrees entries).flatMap HashTree.leaves = entries := by
  simp [bottomTrees, List.flatMap_append, List.flatMap_map, List.flatMap_replicate,
    HashTree.leaves]

theorem within_bottomTrees {entries : List α} (hempty : [0x00] ∈ D)
    (hleaves : ∀ m ∈ entries.map leafMsg, m ∈ D) :
    HashTree.Within (treeScheme sha leafMsg) D (bottomTrees entries) := by
  intro t ht
  rcases List.mem_append.mp ht with ht | ht
  · obtain ⟨a, ha, rfl⟩ := List.mem_map.mp ht
    exact Set.singleton_subset_iff.mpr (hleaves _ (List.mem_map_of_mem ha))
  · rw [List.eq_of_mem_replicate ht]
    exact Set.singleton_subset_iff.mpr hempty

/-- The root over entries is the root of a tree whose leaves are the entries. -/
theorem exists_tree_of_paddedRoot (hleaf : LeafStrings leafMsg)
    (hsha : ∀ bytes, sha bytes < 256 ^ 32) (hD : Set.InjOn sha D) (entries : List α)
    (hmsgs : ∀ m ∈ paddedMessages sha (entries.map leafMsg), m ∈ D) :
    ∃ t : HashTree α,
      t.root (treeScheme sha leafMsg) = paddedRoot sha ((entries.map leafMsg).map sha) ∧
        t.messages (treeScheme sha leafMsg) ⊆ D ∧ t.leaves = entries := by
  simp only [paddedMessages, List.forall_mem_cons, List.forall_mem_append] at hmsgs
  obtain ⟨hempty, hleaves, hfold⟩ := hmsgs
  rw [List.length_map, ← map_root_bottomTrees] at hfold
  obtain ⟨k, hk⟩ := exists_padded_length_eq entries.length
  have hlen : (bottomTrees entries).length = 2 ^ k := by
    rw [bottomTrees, List.length_append, List.length_map, List.length_replicate, hk]
  have hheight :
      k ≤ ((bottomTrees entries).map (HashTree.root (treeScheme sha leafMsg))).length := by
    rw [List.length_map, hlen]
    exact Nat.lt_two_pow_self.le
  obtain ⟨t, hroot, hmessages, htleaves⟩ := foldLevels_map_root hleaf hsha hD hempty hlen hheight
    (within_bottomTrees hempty hleaves) hfold
  refine ⟨t, ?_, hmessages, by rw [htleaves, leaves_bottomTrees]⟩
  rw [← hroot, map_root_bottomTrees, paddedRoot, List.length_map, List.length_map]

/-- Entries with one root are the same entries, as long as the hash has no collision among the
strings that are hashed for the two roots. -/
theorem entries_eq_of_paddedRoot_eq {P : α → Prop}
    (hleaf : LeafStrings fun a : {a // P a} => leafMsg a.val)
    (hsha : ∀ bytes, sha bytes < 256 ^ 32) (hD : Set.InjOn sha D) {entries entries' : List α}
    (hP : ∀ a ∈ entries, P a) (hP' : ∀ a ∈ entries', P a)
    (hmsgs : ∀ m ∈ paddedMessages sha (entries.map leafMsg), m ∈ D)
    (hmsgs' : ∀ m ∈ paddedMessages sha (entries'.map leafMsg), m ∈ D)
    (h : paddedRoot sha ((entries.map leafMsg).map sha) =
      paddedRoot sha ((entries'.map leafMsg).map sha)) : entries = entries' := by
  lift entries to List {a // P a} using hP
  lift entries' to List {a // P a} using hP'
  have hmap (l : List {a // P a}) : (l.map Subtype.val).map leafMsg =
      l.map fun a => leafMsg a.val := List.map_map
  rw [hmap] at hmsgs hmsgs'
  rw [hmap, hmap] at h
  obtain ⟨t, ht, hmessages, rfl⟩ := exists_tree_of_paddedRoot hleaf hsha hD entries hmsgs
  obtain ⟨t', ht', hmessages', rfl⟩ := exists_tree_of_paddedRoot hleaf hsha hD entries' hmsgs'
  have hroot := ht.trans (h.trans ht'.symm)
  rw [HashTree.eq_of_root_eq (treeScheme_splits hleaf hsha).toSeparated hD hmessages hmessages'
    hroot]

end JKain
