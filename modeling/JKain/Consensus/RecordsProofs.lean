import JKain.Consensus.RecordsTree
import Mathlib.Data.Nat.Bitwise

/-!
# Inclusion proofs of record items

A proof of an item is the list of its siblings in the levels of the padded tree. A proof built from
the items is accepted against their root. Conversely, an item accepted with any list of siblings is
one of the items: the walk from its leaf ends with the root, and every string hashed on the way is
one of the strings of the tree.
-/

namespace JKain

open Lib

/-! ## Building and verifying -/

/-- `RecordsProofStep`. -/
structure RecordsProofStep where
  siblingHash : Digest
  siblingIsRight : Bool
  deriving DecidableEq

/-- `RecordsProof`. -/
structure RecordsProof where
  itemIndex : ℕ
  steps : List RecordsProofStep
  deriving DecidableEq

section Build

variable (sha : Sha256)

/-- `levels` of `try_build_records_proofs`: the given level and all above it, with the height of the
tree as fuel. -/
def buildLevels : ℕ → List Digest → List (List Digest)
  | 0, level => [level]
  | height + 1, level =>
    if level.length > 1 then level :: buildLevels height (combineLevel sha level) else [level]

/-- The loop over the levels below the root. -/
def proofSteps : ℕ → List (List Digest) → List RecordsProofStep
  | _, [] => []
  | curIdx, level :: rest =>
    match level[curIdx ^^^ 1]? with
    | some siblingHash => ⟨siblingHash, curIdx % 2 == 0⟩ :: proofSteps (curIdx / 2) rest
    | none => proofSteps (curIdx / 2) rest

/-- `try_build_records_proofs`. -/
def tryBuildRecordsProofs (items : List RecordsRootItem) : Except OutOfRange (List RecordsProof) :=
  if items.isEmpty then .ok []
  else do
    let leaves ← items.mapM (tryLeafHash sha)
    let padded := leaves ++
      List.replicate (nextPowerOfTwo leaves.length - leaves.length) (emptyHash sha)
    let levels := buildLevels sha padded.length padded
    (List.range items.length).mapM fun idx => do
      let steps := proofSteps idx levels.dropLast
      let itemIndex ← tryU32 "RecordsRootItem index" idx
      return ⟨itemIndex, steps⟩

/-- One step of the walk of `verify_records_proof`. -/
def proofStep (cur : Digest) (step : RecordsProofStep) : Digest :=
  if step.siblingIsRight then combineHash sha cur step.siblingHash
  else combineHash sha step.siblingHash cur

/-- `verify_records_proof`. -/
def verifyRecordsProof (root : Digest) (item : RecordsRootItem) (proof : RecordsProof) : Bool :=
  match tryLeafHash sha item with
  | .error _ => false
  | .ok leaf => proof.steps.foldl (proofStep sha) leaf == root

end Build

variable {sha : Sha256}

/-! ## Proofs that were built are accepted -/

/-- The entry of the next level over a pair of entries. -/
theorem getElem?_combineLevel {level : List Digest} {i : ℕ} {left right : Digest}
    (hleft : level[2 * i]? = some left) (hright : level[2 * i + 1]? = some right) :
    (combineLevel sha level)[i]? = some (combineHash sha left right) := by
  induction level using combineLevel.induct generalizing i with
  | case1 l r rest ih =>
    cases i with
    | zero =>
      obtain rfl := Option.some.inj hleft
      obtain rfl := Option.some.inj hright
      rfl
    | succ i => exact ih hleft hright
  | case2 level hshort =>
    match level, hshort with
    | [], _ => exact absurd hleft (by simp)
    | [d], _ => exact absurd hright (by simp)
    | l :: r :: rest, hshort => exact absurd rfl (hshort l r rest)

theorem length_combineLevel {level : List Digest} {k : ℕ} (h : level.length = 2 * k) :
    (combineLevel sha level).length = k := by
  induction level using combineLevel.induct generalizing k with
  | case1 l r rest ih =>
    rw [List.length_cons, List.length_cons] at h
    rw [combineLevel, List.length_cons, ih (show rest.length = 2 * (k - 1) by omega)]
    omega
  | case2 level hshort =>
    cases level with
    | nil =>
      rw [List.length_nil] at h
      exact (show (0 : ℕ) = k by omega)
    | cons d rest =>
      cases rest with
      | nil =>
        rw [List.length_singleton] at h
        omega
      | cons r rest => exact absurd rfl (hshort d r rest)

theorem buildLevels_ne_nil (height : ℕ) (level : List Digest) :
    buildLevels sha height level ≠ [] := by
  cases height with
  | zero => exact List.cons_ne_nil _ _
  | succ height =>
    rw [buildLevels]
    split <;> exact List.cons_ne_nil _ _

/-- In a level of even length every entry has a sibling, and the two are combined in the next level.
-/
theorem exists_sibling (sha : Sha256) {level : List Digest} {k idx : ℕ} {cur : Digest}
    (hlen : level.length = 2 * k) (hcur : level[idx]? = some cur) :
    ∃ sibling, level[idx ^^^ 1]? = some sibling ∧
      (combineLevel sha level)[idx / 2]? =
        some (proofStep sha cur ⟨sibling, idx % 2 == 0⟩) := by
  have hidx : idx < level.length := (List.getElem?_eq_some_iff.mp hcur).1
  rcases Nat.even_or_odd' idx with ⟨i, rfl | rfl⟩
  · -- An even entry is the left one of its pair.
    have hsibling : 2 * i + 1 < level.length := by omega
    refine ⟨level[2 * i + 1], ?_, ?_⟩
    · rw [Nat.xor_one_of_even (even_two_mul i)]
      exact List.getElem?_eq_getElem hsibling
    · rw [Nat.mul_div_cancel_left i (by decide), Nat.mul_mod_right,
        getElem?_combineLevel hcur (List.getElem?_eq_getElem hsibling)]
      rfl
  · have hsibling : 2 * i < level.length := by omega
    refine ⟨level[2 * i], ?_, ?_⟩
    · rw [Nat.xor_one_of_odd (odd_two_mul_add_one i), Nat.add_sub_cancel]
      exact List.getElem?_eq_getElem hsibling
    · rw [show (2 * i + 1) / 2 = i by omega, show (2 * i + 1) % 2 = 1 by omega,
        getElem?_combineLevel (List.getElem?_eq_getElem hsibling) hcur]
      rfl

/-- The walk along the siblings of an entry ends with the root of the level. -/
theorem foldl_proofSteps {level : List Digest} {k height idx : ℕ} {cur : Digest}
    (hlen : level.length = 2 ^ k) (hk : k ≤ height) (hcur : level[idx]? = some cur) :
    (proofSteps idx (buildLevels sha height level).dropLast).foldl (proofStep sha) cur =
      foldLevels sha height level := by
  induction k generalizing height level idx cur with
  | zero =>
    obtain ⟨d, rfl⟩ := List.length_eq_one_iff.mp hlen
    obtain ⟨hidx, hd⟩ := List.getElem?_eq_some_iff.mp hcur
    obtain rfl : idx = 0 := by simpa using hidx
    cases height <;> exact hd.symm
  | succ k ih =>
    obtain ⟨height, rfl⟩ : ∃ h, height = h + 1 := ⟨height - 1, by omega⟩
    have hlen' : level.length = 2 * 2 ^ k := by rw [hlen, pow_succ]; omega
    have hpos : 0 < 2 ^ k := Nat.two_pow_pos k
    have hmany : level.length > 1 := by omega
    obtain ⟨sibling, hsibling, hnext⟩ := exists_sibling sha hlen' hcur
    rw [buildLevels, if_pos hmany, List.dropLast_cons_of_ne_nil (buildLevels_ne_nil _ _),
      proofSteps, hsibling, List.foldl_cons, foldLevels, if_pos hmany]
    exact ih (length_combineLevel hlen') (by omega) hnext

/-- The proof built for an index. -/
def builtProof (sha : Sha256) (leaves : List Digest) (idx : ℕ) : RecordsProof :=
  let padded := leaves ++
    List.replicate (nextPowerOfTwo leaves.length - leaves.length) (emptyHash sha)
  ⟨idx, proofSteps idx (buildLevels sha padded.length padded).dropLast⟩

/-- The loop over the items ends with a proof for each index, unless an index does not fit. -/
theorem mapM_indices_eq_ok_iff {steps : ℕ → List RecordsProofStep} {count : ℕ}
    {proofs : List RecordsProof} :
    (List.range count).mapM (fun idx => do
        let itemIndex ← tryU32 "RecordsRootItem index" idx
        return (⟨itemIndex, steps idx⟩ : RecordsProof)) = .ok proofs ↔
      count ≤ 2 ^ 32 ∧ proofs = (List.range count).map fun idx => ⟨idx, steps idx⟩ := by
  have hloop (hcount : count ≤ 2 ^ 32) : (List.range count).mapM (fun idx => do
      let itemIndex ← tryU32 "RecordsRootItem index" idx
      return (⟨itemIndex, steps idx⟩ : RecordsProof)) =
        .ok ((List.range count).map fun idx => ⟨idx, steps idx⟩) := by
    refine mapM_eq_pure_map fun idx hidx => ?_
    rw [tryU32, if_pos ((List.mem_range.mp hidx).trans_le hcount)]
    rfl
  constructor
  · intro h
    have hcount : count ≤ 2 ^ 32 := by
      by_contra hlong
      obtain ⟨proof, hproof⟩ := exists_of_mapM_eq_ok h
        (List.mem_range.mpr (Nat.lt_of_not_le hlong))
      cases hproof
    exact ⟨hcount, Except.ok.inj (h.symm.trans (hloop hcount))⟩
  · rintro ⟨hcount, rfl⟩
    exact hloop hcount

/-- Proofs are built exactly if no payload is too long and the indices fit; there is one for each
item. -/
theorem tryBuildRecordsProofs_eq_ok_iff {items : List RecordsRootItem}
    {proofs : List RecordsProof} :
    tryBuildRecordsProofs sha items = .ok proofs ↔
      (∀ item ∈ items, item.txPayload.length < 2 ^ 32) ∧ items.length ≤ 2 ^ 32 ∧
        proofs =
          (List.range items.length).map (builtProof sha ((items.map leafBytes).map sha)) := by
  rw [tryBuildRecordsProofs]
  by_cases hnil : items = []
  · subst hnil
    simp [eq_comm]
  rw [if_neg (by simpa using hnil), bind_eq_ok_iff]
  simp only [mapM_indices_eq_ok_iff]
  constructor
  · rintro ⟨leaves, hleaves, hcount, rfl⟩
    have hpayload : ∀ item ∈ items, item.txPayload.length < 2 ^ 32 := fun item hitem =>
      have ⟨_, hleaf⟩ := exists_of_mapM_eq_ok hleaves hitem
      payload_lt_of_tryLeafHash hleaf
    obtain rfl := Except.ok.inj ((mapM_tryLeafHash hpayload).symm.trans hleaves)
    exact ⟨hpayload, hcount, rfl⟩
  · rintro ⟨hpayload, hcount, rfl⟩
    exact ⟨_, mapM_tryLeafHash hpayload, hcount, rfl⟩

/-- The proof built for an item is accepted against the root of the items. -/
theorem verifyRecordsProof_builtProof {items : List RecordsRootItem} {item : RecordsRootItem}
    {idx : ℕ} (hpayload : ∀ item ∈ items, item.txPayload.length < 2 ^ 32)
    (hitem : items[idx]? = some item) :
    verifyRecordsProof sha (paddedRoot sha ((items.map leafBytes).map sha)) item
      (builtProof sha ((items.map leafBytes).map sha) idx) = true := by
  have hleaf : tryLeafHash sha item = .ok (sha (leafBytes item)) :=
    tryLeafHash_eq_ok (hpayload item (List.mem_of_getElem? hitem))
  have hcur : ((items.map leafBytes).map sha)[idx]? = some (sha (leafBytes item)) := by
    rw [List.getElem?_map, List.getElem?_map, hitem]
    rfl
  have hidx : idx < ((items.map leafBytes).map sha).length := (List.getElem?_eq_some_iff.mp hcur).1
  rw [verifyRecordsProof, hleaf, beq_iff_eq]
  generalize (items.map leafBytes).map sha = leaves at hcur hidx ⊢
  obtain ⟨k, hk⟩ := exists_padded_length_eq leaves.length
  refine foldl_proofSteps (k := k) ?_ ?_ ?_
  · rw [List.length_append, List.length_replicate, hk]
  · rw [List.length_append, List.length_replicate, hk]
    exact Nat.lt_two_pow_self.le
  · rw [List.getElem?_append_left hidx, hcur]

/-! ## What is accepted is one of the items -/

section Sound

variable (sha)

/-- The string over the digest of a node and its sibling. -/
def stepMessage (m : List UInt8) (step : RecordsProofStep) : List UInt8 :=
  if step.siblingIsRight then combineMessage sha (sha m) step.siblingHash
  else combineMessage sha step.siblingHash (sha m)

/-- The strings hashed on the walk from a leaf. -/
def walkMessages (m : List UInt8) : List RecordsProofStep → List (List UInt8)
  | [] => [m]
  | step :: steps => m :: walkMessages (stepMessage sha m step) steps

/-- The strings hashed by `verify_records_proof`. -/
def proofMessages (item : RecordsRootItem) (proof : RecordsProof) : List (List UInt8) :=
  walkMessages sha (leafBytes item) proof.steps

end Sound

/-- The walk of the verifier is a path past the siblings of the proof. -/
theorem foldl_proofStep_eq {α : Type} (leafMsg : α → List UInt8) (m : List UInt8)
    (steps : List RecordsProofStep) :
    steps.foldl (proofStep sha) (sha m) = sha ((treeScheme sha leafMsg).climbMsg m
      (steps.map fun step => (step.siblingHash, step.siblingIsRight))) := by
  induction steps generalizing m with
  | nil => rfl
  | cons step steps ih =>
    have hstep : proofStep sha (sha m) step = sha (stepMessage sha m step) := by
      rw [proofStep, stepMessage, combineHash_eq, combineHash_eq]
      split <;> rfl
    rw [List.foldl_cons, hstep, ih]
    rfl

theorem climbMsgs_eq_walkMessages {α : Type} (leafMsg : α → List UInt8) (m : List UInt8)
    (steps : List RecordsProofStep) :
    (treeScheme sha leafMsg).climbMsgs m
      (steps.map fun step => (step.siblingHash, step.siblingIsRight)) =
        walkMessages sha m steps := by
  induction steps generalizing m with
  | nil => rfl
  | cons step steps ih => exact congrArg (m :: ·) (ih _)

/-- An item accepted with any siblings against the root of items is one of the items. -/
theorem mem_of_verifyRecordsProof {D : Set (List UInt8)} (hsha : ∀ bytes, sha bytes < 256 ^ 32)
    (hD : Set.InjOn sha D) {items : List RecordsRootItem} {item : RecordsRootItem}
    {proof : RecordsProof} (hitems : ∀ item ∈ items, item.Bounded) (hitem : item.Bounded)
    (hmsgs : ∀ m ∈ recordsMessages sha items, m ∈ D)
    (hproof : ∀ m ∈ proofMessages sha item proof, m ∈ D) {root : Digest}
    (hroot : tryComputeRecordsRoot sha items = .ok root)
    (h : verifyRecordsProof sha root item proof = true) : item ∈ items := by
  obtain ⟨t, rfl, hmessages, rfl⟩ := exists_tree_of_recordsRoot hsha hD hitems hmsgs hroot
  have hS := treeScheme_splits leafStrings_leafBytes hsha
  rw [verifyRecordsProof, tryLeafHash_eq_ok hitem.2.2, beq_iff_eq,
    foldl_proofStep_eq (fun item : BoundedItem => leafBytes item.val)] at h
  rw [proofMessages, ← climbMsgs_eq_walkMessages fun item : BoundedItem => leafBytes item.val]
    at hproof
  have hempty : [0x00] ∈ D := hmsgs _ List.mem_cons_self
  have hleaf : (treeScheme sha fun item : BoundedItem => leafBytes item.val).leafMsg ⟨item, hitem⟩ ∈
      t.messages _ :=
    HashTree.mem_messages_of_climbMsg hS hD hempty hmessages (hS.leaf_ne_empty ⟨item, hitem⟩)
      hproof h
  exact List.mem_map_of_mem (HashTree.mem_leaves_of_leafMsg_mem hS.toSeparated hleaf)

/-- The numbers of an item are within their types. -/
def RecordsRootItem.Typed (item : RecordsRootItem) : Prop :=
  item.eventHash < 256 ^ 32 ∧ item.txIndex < 256 ^ 4

/-- Proofs are built for all items whose root is computed, unless there are more than `2 ^ 32` of
them, and each proof that is built is accepted against the root. Items with one root are equal, and
what is accepted with any proof is one of the items, as long as the hash has no collision among the
strings that are hashed. -/
theorem records_root_and_proofs (hsha : ∀ bytes, sha bytes < 256 ^ 32) :
    (∀ {items root}, tryComputeRecordsRoot sha items = .ok root → items.length ≤ 2 ^ 32 →
      ∃ proofs, tryBuildRecordsProofs sha items = .ok proofs) ∧
    (∀ {items root proofs}, tryComputeRecordsRoot sha items = .ok root →
      tryBuildRecordsProofs sha items = .ok proofs →
        proofs.length = items.length ∧ ∀ {idx item}, items[idx]? = some item →
          ∃ proof, proofs[idx]? = some proof ∧ proof.itemIndex = idx ∧
            verifyRecordsProof sha root item proof = true) ∧
    (∀ {items items' root}, (∀ item ∈ items ++ items', item.Typed) →
      Set.InjOn sha {m | m ∈ recordsMessages sha items ++ recordsMessages sha items'} →
      tryComputeRecordsRoot sha items = .ok root → tryComputeRecordsRoot sha items' = .ok root →
        items = items') ∧
    (∀ {items root item proof}, (∀ item ∈ items, item.Typed) → item.Typed →
      Set.InjOn sha {m | m ∈ recordsMessages sha items ++ proofMessages sha item proof} →
      tryComputeRecordsRoot sha items = .ok root →
      verifyRecordsProof sha root item proof = true → item ∈ items) := by
  have hbounded {items : List RecordsRootItem} {root : Digest}
      (hroot : tryComputeRecordsRoot sha items = .ok root) (htyped : ∀ item ∈ items, item.Typed) :
      ∀ item ∈ items, item.Bounded := fun item hitem =>
    ⟨(htyped item hitem).1, (htyped item hitem).2, payload_lt_of_recordsRoot hroot item hitem⟩
  refine ⟨fun hroot hcount => ?_, fun hroot hproofs => ?_, fun htyped hfree hroot hroot' => ?_,
    fun {items root item proof} htyped hitem hfree hroot h => ?_⟩
  · exact ⟨_, tryBuildRecordsProofs_eq_ok_iff.mpr ⟨payload_lt_of_recordsRoot hroot, hcount, rfl⟩⟩
  · obtain ⟨hpayload, -, rfl⟩ := tryBuildRecordsProofs_eq_ok_iff.mp hproofs
    rw [recordsRoot_eq_ok hpayload] at hroot
    obtain rfl := Except.ok.inj hroot
    refine ⟨by rw [List.length_map, List.length_range], fun {idx item} hitem => ?_⟩
    have hidx := (List.getElem?_eq_some_iff.mp hitem).1
    refine ⟨_, ?_, rfl, verifyRecordsProof_builtProof hpayload hitem⟩
    rw [List.getElem?_map, List.getElem?_range hidx]
    rfl
  · rw [List.forall_mem_append] at htyped
    exact items_eq_of_recordsRoot_eq hsha hfree (hbounded hroot htyped.1)
      (hbounded hroot' htyped.2) (fun m hm => List.mem_append_left _ hm)
      (fun m hm => List.mem_append_right _ hm) hroot hroot'
  · -- The verifier refuses an item it cannot hash.
    have hpayload : item.txPayload.length < 2 ^ 32 := by
      rw [verifyRecordsProof] at h
      split at h
      · cases h
      · exact payload_lt_of_tryLeafHash ‹_›
    exact mem_of_verifyRecordsProof hsha hfree (hbounded hroot htyped) ⟨hitem.1, hitem.2, hpayload⟩
      (fun m hm => List.mem_append_left _ hm) (fun m hm => List.mem_append_right _ hm) hroot h

/-- Three items with small numbers. -/
def threeItems : List RecordsRootItem := [⟨1, 0, [7]⟩, ⟨1, 1, []⟩, ⟨2, 0, [7, 8]⟩]

/-- The proof of the last of three items, whose sibling is a padding leaf. -/
theorem records_root_and_proofs_three :
    ∃ root proofs proof, tryComputeRecordsRoot rollingHash threeItems = .ok root ∧
      tryBuildRecordsProofs rollingHash threeItems = .ok proofs ∧ proofs.length = 3 ∧
      proofs[2]? = some proof ∧ proof.steps.length = 2 ∧
      verifyRecordsProof rollingHash root ⟨2, 0, [7, 8]⟩ proof = true ∧
      ⟨2, 0, [7, 8]⟩ ∈ threeItems := by
  obtain ⟨hbuilt, haccepted, -, hsound⟩ := records_root_and_proofs rollingHash_lt
  have htyped : ∀ item ∈ threeItems, item.Typed := by simp [threeItems, RecordsRootItem.Typed]
  have hroot : tryComputeRecordsRoot rollingHash threeItems = .ok _ := recordsRoot_eq_ok (by decide)
  obtain ⟨proofs, hproofs⟩ := hbuilt hroot (by decide)
  obtain ⟨hlen, hverified⟩ := haccepted hroot hproofs
  obtain ⟨proof, hproof, -, hverify⟩ := @hverified 2 ⟨2, 0, [7, 8]⟩ rfl
  obtain ⟨-, -, rfl⟩ := tryBuildRecordsProofs_eq_ok_iff.mp hproofs
  obtain rfl := Option.some.inj hproof
  let strings := recordsMessages rollingHash threeItems ++ proofMessages rollingHash ⟨2, 0, [7, 8]⟩
    (builtProof rollingHash ((threeItems.map leafBytes).map rollingHash) 2)
  have hfree : ∀ m ∈ strings, ∀ m' ∈ strings, rollingHash m = rollingHash m' → m = m' := by
    decide +kernel
  exact ⟨_, _, _, hroot, hproofs, hlen, hproof, by decide +kernel, hverify,
    hsound htyped ⟨by decide, by decide⟩ (fun m hm m' hm' => hfree m hm m' hm') hroot hverify⟩

end JKain
