import JKain.Consensus.PaddedTree
import JKain.Lib.Checks

/-!
# The records root commits to the records

The strings of the items start with a zero byte and have more than one byte, so they are no strings
of the inner nodes. So the root determines the items, as long as the hash has no collision among the
strings that are hashed for it.
-/

namespace JKain

open Lib

/-! ## The strings that are hashed -/

/-- The string hashed by `leaf_hash`. -/
def leafBytes (item : RecordsRootItem) : List UInt8 :=
  0x00 :: (digestBytes item.eventHash ++ beBytes 4 item.txIndex ++
    beBytes 4 item.txPayload.length ++ item.txPayload)

/-- The strings hashed for the records root. -/
def recordsMessages (sha : Sha256) (items : List RecordsRootItem) : List (List UInt8) :=
  let leaves := items.map leafBytes
  let padded := leaves.map sha ++
    List.replicate (nextPowerOfTwo items.length - items.length) (emptyHash sha)
  [0x00] :: (leaves ++ foldMessages sha padded.length padded)

/-- An item whose fields are within their types. -/
def RecordsRootItem.Bounded (item : RecordsRootItem) : Prop :=
  item.eventHash < 256 ^ 32 ∧ item.txIndex < 256 ^ 4 ∧ item.txPayload.length < 2 ^ 32

/-- The items that can be hashed. -/
abbrev BoundedItem := {item : RecordsRootItem // item.Bounded}

variable {sha : Sha256} {D : Set (List UInt8)} {items items' : List RecordsRootItem}

theorem recordsMessages_eq (items : List RecordsRootItem) :
    recordsMessages sha items = paddedMessages sha (items.map leafBytes) := by
  rw [recordsMessages, paddedMessages, List.length_map]

theorem leafBytes_injOn {item item' : RecordsRootItem} (h : item.Bounded) (h' : item'.Bounded)
    (heq : leafBytes item = leafBytes item') : item = item' := by
  obtain ⟨hhash, hindex, hlen⟩ := h
  obtain ⟨hhash', hindex', hlen'⟩ := h'
  simp only [leafBytes, List.append_assoc] at heq
  obtain ⟨heq₁, heq⟩ := List.append_inj (List.cons.inj heq).2 (by simp)
  obtain ⟨heq₂, heq⟩ := List.append_inj heq (by simp)
  obtain ⟨-, heq₃⟩ := List.append_inj heq (by simp)
  have hhash_eq : item.eventHash = item'.eventHash := beBytes_injOn hhash hhash' heq₁
  have hindex_eq : item.txIndex = item'.txIndex := beBytes_injOn hindex hindex' heq₂
  cases item
  cases item'
  simp_all

theorem leafStrings_leafBytes : LeafStrings fun item : BoundedItem => leafBytes item.val where
  inj item item' h := Subtype.ext (leafBytes_injOn item.2 item'.2 h)
  long item := by
    simp only [leafBytes, List.length_cons, List.length_append, length_digestBytes]
    omega
  not_single item := by simp [leafBytes]
  not_node item := by simp [leafBytes]

/-! ## The root -/

theorem tryLeafHash_eq_ok {item : RecordsRootItem} (h : item.txPayload.length < 2 ^ 32) :
    tryLeafHash sha item = .ok (sha (leafBytes item)) := by
  rw [tryLeafHash, tryU32, if_pos h]
  rfl

/-- An item is hashed only if its payload is not too long for its length prefix. -/
theorem payload_lt_of_tryLeafHash {item : RecordsRootItem} {leaf : Digest}
    (h : tryLeafHash sha item = .ok leaf) : item.txPayload.length < 2 ^ 32 := by
  rw [tryLeafHash, bind_eq_ok_iff, tryU32] at h
  obtain ⟨len, hlen, -⟩ := h
  split at hlen
  · assumption
  · cases hlen

/-- A root is computed only if no payload is too long for its length prefix. -/
theorem payload_lt_of_recordsRoot {root : Digest}
    (h : tryComputeRecordsRoot sha items = .ok root) :
    ∀ item ∈ items, item.txPayload.length < 2 ^ 32 := by
  intro item hitem
  rw [tryComputeRecordsRoot, if_neg (by simpa using List.ne_nil_of_mem hitem),
    bind_eq_ok_iff] at h
  obtain ⟨leaves, hleaves, -⟩ := h
  obtain ⟨leaf, hleaf⟩ := exists_of_mapM_eq_ok hleaves hitem
  exact payload_lt_of_tryLeafHash hleaf

theorem mapM_tryLeafHash (h : ∀ item ∈ items, item.txPayload.length < 2 ^ 32) :
    items.mapM (tryLeafHash sha) = .ok ((items.map leafBytes).map sha) := by
  rw [List.map_map]
  exact mapM_eq_pure_map fun item hitem => tryLeafHash_eq_ok (h item hitem)

/-- The root of items without overlong payloads; without items the padding is all there is. -/
theorem recordsRoot_eq_ok (h : ∀ item ∈ items, item.txPayload.length < 2 ^ 32) :
    tryComputeRecordsRoot sha items = .ok (paddedRoot sha ((items.map leafBytes).map sha)) := by
  rw [tryComputeRecordsRoot, mapM_tryLeafHash h]
  split
  · rename_i hnil
    rw [List.isEmpty_iff.mp hnil]
    rfl
  · rfl

/-- The root of items is the root of a tree whose leaves are the items. -/
theorem exists_tree_of_recordsRoot (hsha : ∀ bytes, sha bytes < 256 ^ 32) (hD : Set.InjOn sha D)
    (hitems : ∀ item ∈ items, item.Bounded) (hmsgs : ∀ m ∈ recordsMessages sha items, m ∈ D)
    {root : Digest} (hroot : tryComputeRecordsRoot sha items = .ok root) :
    ∃ t : HashTree BoundedItem,
      t.root (treeScheme sha fun item : BoundedItem => leafBytes item.val) = root ∧
        t.messages (treeScheme sha fun item : BoundedItem => leafBytes item.val) ⊆ D ∧
        t.leaves.map Subtype.val = items := by
  rw [recordsRoot_eq_ok fun item hitem => (hitems item hitem).2.2] at hroot
  obtain rfl := Except.ok.inj hroot
  rw [recordsMessages_eq] at hmsgs
  lift items to List BoundedItem using hitems
  have hmap : (items.map Subtype.val).map leafBytes =
      items.map fun item : BoundedItem => leafBytes item.val := List.map_map
  rw [hmap] at hmsgs ⊢
  obtain ⟨t, ht, hmessages, hleaves⟩ :=
    exists_tree_of_paddedRoot leafStrings_leafBytes hsha hD items hmsgs
  exact ⟨t, ht, hmessages, by rw [hleaves]⟩

/-- Items with one records root are the same items, as long as the hash has no collision among the
strings that are hashed for the two roots. -/
theorem items_eq_of_recordsRoot_eq (hsha : ∀ bytes, sha bytes < 256 ^ 32) (hD : Set.InjOn sha D)
    (hitems : ∀ item ∈ items, item.Bounded) (hitems' : ∀ item ∈ items', item.Bounded)
    (hmsgs : ∀ m ∈ recordsMessages sha items, m ∈ D)
    (hmsgs' : ∀ m ∈ recordsMessages sha items', m ∈ D) {root : Digest}
    (hroot : tryComputeRecordsRoot sha items = .ok root)
    (hroot' : tryComputeRecordsRoot sha items' = .ok root) : items = items' := by
  rw [recordsRoot_eq_ok fun item hitem => (hitems item hitem).2.2] at hroot
  rw [recordsRoot_eq_ok fun item hitem => (hitems' item hitem).2.2] at hroot'
  rw [recordsMessages_eq] at hmsgs hmsgs'
  exact entries_eq_of_paddedRoot_eq leafStrings_leafBytes hsha hD hitems hitems' hmsgs hmsgs'
    ((Except.ok.inj hroot).trans (Except.ok.inj hroot').symm)

end JKain
