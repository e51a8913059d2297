import JKain.Consensus.RecordsTree
import JKain.Stream.VerifySpec
import JKain.Mirror.VerifySpec

/-!
# The two verifiers

The mirror and the consensus node check a record file with the same hash function and the same
signature scheme, but not with the same rules. The mirror does not look at the lengths of the window
root, of the root of the roster history and of event hashes, nor at the keys of members that have not
signed; the consensus node puts a key of its own in place of an empty BLS key. On the files where none
of this matters they accept the same.
-/

namespace JKain.Mirror

open Std Lib JKain.Stream

/-- A digest has the given bytes if it is the number they spell. -/
theorem digestBytes_eq_iff {d : Digest} {bytes : List UInt8} (hd : d < 256 ^ 32)
    (hbytes : bytes.length = 32) : digestBytes d = bytes ↔ d = fromBe bytes := by
  constructor
  · rintro rfl
    exact (fromBe_digestBytes hd).symm
  · rintro rfl
    exact digestBytes_fromBe hbytes

/-! ## The records root -/

section RecordsRoot

variable {sha : Sha256} {items : List Pb.RecordItem}

/-- The doubled length is the power of two in `[len, 2 * len)`. -/
theorem paddedLen_spec {fuel k len : ℕ} (hfuel : len ≤ 2 ^ k * 2 ^ fuel) (hk : 2 ^ k < 2 * len) :
    ∃ j, paddedLen fuel (2 ^ k) len = 2 ^ j ∧ len ≤ 2 ^ j ∧ 2 ^ j < 2 * len := by
  induction fuel generalizing k with
  | zero => exact ⟨k, rfl, by simpa using hfuel, hk⟩
  | succ fuel ih =>
    rw [paddedLen]
    split
    · rename_i hlt
      rw [← pow_succ]
      refine ih ?_ (by rw [pow_succ]; omega)
      rw [pow_succ, mul_assoc, ← pow_succ']
      exact hfuel
    · rename_i hge
      exact ⟨k, rfl, Nat.not_lt.mp hge, hk⟩

/-- Both pad to the same length. -/
theorem paddedLen_eq {len : ℕ} (h : 0 < len) : paddedLen len 1 len = nextPowerOfTwo len := by
  obtain ⟨i, hi, hlow, hhigh⟩ := paddedLen_spec (k := 0) (by simpa using Nat.lt_two_pow_self.le)
    (show 2 ^ 0 < 2 * len by omega)
  obtain ⟨j, hj, hlow', hhigh'⟩ := nextPowerOfTwo_spec h
  rw [pow_zero] at hi
  -- Two powers of two less than a factor two apart are the same.
  have hle : ∀ {a b : ℕ}, len ≤ 2 ^ a → 2 ^ b < 2 * len → b ≤ a := fun {a b} ha hb => by
    refine Nat.le_of_lt_succ ((Nat.pow_lt_pow_iff_right (by decide : 1 < 2)).mp ?_)
    rw [pow_succ]
    omega
  rw [hi, hj, (hle hlow' hhigh).antisymm (hle hlow hhigh')]

/-- On items whose event hashes have 32 bytes and whose payloads have a length of 32 bits, both
compute one root. -/
theorem recordsRootFromItems_eq {suite : Suite}
    (hitems : ∀ item ∈ items, item.eventHash.length = 32 ∧ item.txPayload.length < 2 ^ 32) :
    recordsRootFromItems suite items = .ok (some (computeRecordsRoot suite.crypto.sha items)) := by
  have hconverted : items.mapM recordsRootItem? = some (items.map fun item =>
      ⟨fromBe item.eventHash, item.txIndex.toNat, item.txPayload⟩) := by
    refine mapM_eq_pure_map fun item hitem => ?_
    rw [recordsRootItem?, digest?_eq_some_iff.mpr ⟨(hitems item hitem).1, rfl⟩]
    rfl
  rw [recordsRootFromItems, hconverted]
  have hleaf : ∀ item ∈ items, tryLeafHash suite.crypto.sha
      ⟨fromBe item.eventHash, item.txIndex.toNat, item.txPayload⟩ =
        .ok ((leafHash suite.crypto.sha item).toOption.getD (emptyHash suite.crypto.sha)) := by
    intro item hitem
    obtain ⟨hhash, hpayload⟩ := hitems item hitem
    rw [tryLeafHash, tryU32, if_pos hpayload, leafHash, if_neg (by omega),
      digestBytes_fromBe hhash]
    rfl
  have hleaves : (items.map fun item =>
      (⟨fromBe item.eventHash, item.txIndex.toNat, item.txPayload⟩ : RecordsRootItem)).mapM
        (tryLeafHash suite.crypto.sha) = .ok (items.map fun item =>
          (leafHash suite.crypto.sha item).toOption.getD (emptyHash suite.crypto.sha)) := by
    rw [List.mapM_map]
    exact mapM_eq_pure_map hleaf
  cases hempty : items.isEmpty with
  | true =>
    rw [List.isEmpty_iff.mp hempty]
    rfl
  | false =>
    have hpos : 0 < items.length := List.length_pos_iff.mpr (by simpa using hempty)
    simp only [tryComputeRecordsRoot, computeRecordsRoot, hleaves, List.isEmpty_map, hempty,
      paddedLen_eq hpos, List.length_map, Bool.false_eq_true, if_false]
    change Except.ok (some (paddedRoot _ _)) = _
    simp only [paddedRoot, List.length_map]

/-! A root is a value of the hash function, and so it has 32 bytes. -/

theorem combineLevel_lt {bound : ℕ} (hsha : ∀ bytes, sha bytes < bound) (level : List Digest) :
    ∀ d ∈ combineLevel sha level, d < bound := by
  have hcombine : ∀ left right, combineHash sha left right < bound := by
    intro left right
    rw [combineHash]
    split <;> split <;> exact hsha _
  induction level using combineLevel.induct with
  | case1 left right rest ih =>
    rw [combineLevel, List.forall_mem_cons]
    exact ⟨hcombine left right, ih⟩
  | case2 level hshort =>
    rw [combineLevel]
    · exact fun d hd => absurd hd List.not_mem_nil
    · exact hshort

theorem foldLevels_lt {bound height : ℕ} (hsha : ∀ bytes, sha bytes < bound)
    {level : List Digest} (hlevel : ∀ d ∈ level, d < bound) :
    foldLevels sha height level < bound := by
  have hhead : ∀ {level : List Digest}, (∀ d ∈ level, d < bound) →
      level.headD (emptyHash sha) < bound := by
    intro level hlevel
    cases level with
    | nil => exact hsha _
    | cons d level => exact hlevel d List.mem_cons_self
  induction height generalizing level with
  | zero => exact hhead hlevel
  | succ height ih =>
    rw [foldLevels]
    split
    · exact ih (combineLevel_lt hsha level)
    · exact hhead hlevel

theorem computeRecordsRoot_lt {bound : ℕ} (hsha : ∀ bytes, sha bytes < bound) :
    computeRecordsRoot sha items < bound := by
  have hleaf : ∀ item : Pb.RecordItem,
      (leafHash sha item).toOption.getD (emptyHash sha) < bound := by
    intro item
    rw [leafHash]
    split <;> exact hsha _
  rw [computeRecordsRoot]
  split
  · exact hsha _
  · refine foldLevels_lt hsha fun d hd => ?_
    rcases List.mem_append.mp hd with hd | hd
    · obtain ⟨item, -, rfl⟩ := List.mem_map.mp hd
      exact hleaf item
    · rw [List.eq_of_mem_replicate hd]
      exact hsha _

end RecordsRoot

/-! ## Rosters -/

section Roster

variable {suite : Suite} {members : List Pb.CheckpointRosterMember}

/-- The members by their ids; the last entry of an id is kept. -/
def memberMap (members : List Pb.CheckpointRosterMember) : ExtTreeMap NodeId MemberKeys :=
  members.foldl (fun keys m => keys.insert m.nodeId.toNat ⟨m.key, m.blsKey⟩) ∅

/-- The widths of the keys of the members. -/
def KeyWidths (members : List Pb.CheckpointRosterMember) : Prop :=
  ∀ m ∈ members, m.key.length = 32 ∧ m.blsKey.length = 48

/-- What the mirror does not ask of a member: keys and a proof of possession that the consensus node
takes as they are. -/
structure RegularMember (suite : Suite) (m : Pb.CheckpointRosterMember) : Prop where
  validKey : suite.crypto.validKey m.key = true
  blsKey_ne_nil : m.blsKey ≠ []
  validPublicKey : suite.bls.validPublicKey m.blsKey = true
  pop : m.pop = [] ∨ m.pop.length = 96

theorem rosterEntries_eq_ok_iff {entries : ExtTreeMap NodeId MemberKeys} :
    rosterEntries members = .ok entries ↔ KeyWidths members ∧ entries = memberMap members := by
  rw [rosterEntries, memberMap]
  generalize (∅ : ExtTreeMap NodeId MemberKeys) = start
  induction members generalizing start with
  | nil =>
    rw [List.foldlM_nil, List.foldl_nil]
    exact ⟨fun h => ⟨fun m hm => absurd hm List.not_mem_nil, (Except.ok.inj h).symm⟩,
      fun h => congrArg Except.ok h.2.symm⟩
  | cons m members ih =>
    rw [List.foldlM_cons, bind_eq_ok_iff, List.foldl_cons, KeyWidths, List.forall_mem_cons]
    constructor
    · rintro ⟨next, hstep, hrest⟩
      split at hstep
      · cases hstep
      · split at hstep
        · cases hstep
        · rename_i hkey hbls
          obtain rfl := Except.ok.inj hstep
          obtain ⟨hwidths, hentries⟩ := (ih _).mp hrest
          exact ⟨⟨⟨not_not.mp hkey, not_not.mp hbls⟩, hwidths⟩, hentries⟩
    · rintro ⟨⟨⟨hkey, hbls⟩, hwidths⟩, hentries⟩
      refine ⟨_, ?_, (ih _).mpr ⟨hwidths, hentries⟩⟩
      rw [if_neg (not_not.mpr hkey), if_neg (not_not.mpr hbls)]

/-- A regular member with a new id is added if its keys have the right widths. -/
theorem addMember_eq_some_iff {registry registry' : MembershipRegistry}
    {m : Pb.CheckpointRosterMember} (hregular : RegularMember suite m)
    (hnew : registry.contains m.nodeId.toNat = false) :
    addMember suite registry m = some registry' ↔
      (m.key.length = 32 ∧ m.blsKey.length = 48) ∧
        registry' = registry.register m.nodeId.toNat m.key m.blsKey := by
  have hempty : m.blsKey.isEmpty = false := by simpa using hregular.blsKey_ne_nil
  have hpop : m.pop.isEmpty = true ∨ m.pop.length = 96 := by
    simpa only [List.isEmpty_iff] using hregular.pop
  simp only [addMember, Option.bind_eq_bind, Option.bind_eq_some_iff, guard_eq_some_iff,
    exists_const, hnew, hregular.validKey, hempty, hpop, Bool.not_false, and_true, true_and,
    Bool.false_eq_true, if_false]
  by_cases hbls : m.blsKey.length = 48
  · simp only [hbls, if_true, Option.bind_some, guard, hregular.validPublicKey, and_true]
    exact and_congr_right fun _ => Option.some_inj.trans eq_comm
  · simp [hbls]

theorem rosterFromMembers_eq_some_iff {registry : MembershipRegistry}
    (hregular : ∀ m ∈ members, RegularMember suite m)
    (hids : (members.map fun m => m.nodeId.toNat).Nodup) :
    rosterFromMembers suite members = some registry ↔
      KeyWidths members ∧ registry = ⟨memberMap members⟩ := by
  -- No id of the members that are left is in the registry so far.
  have hfold : ∀ (members : List Pb.CheckpointRosterMember) (start : MembershipRegistry),
      (∀ m ∈ members, RegularMember suite m) → (members.map fun m => m.nodeId.toNat).Nodup →
      (∀ m ∈ members, m.nodeId.toNat ∉ start.keys) →
      (members.foldlM (addMember suite) start = some registry ↔ KeyWidths members ∧
        registry = ⟨members.foldl (fun keys m => keys.insert m.nodeId.toNat ⟨m.key, m.blsKey⟩)
          start.keys⟩) := by
    intro members
    induction members with
    | nil =>
      intro start _ _ _
      rw [List.foldlM_nil, List.foldl_nil]
      exact ⟨fun h => ⟨fun m hm => absurd hm List.not_mem_nil, (Option.some.inj h).symm⟩,
        fun h => congrArg some h.2.symm⟩
    | cons m members ih =>
      intro start hregular hids hnew
      obtain ⟨hm, hregular⟩ := List.forall_mem_cons.mp hregular
      obtain ⟨hmnew, hnew⟩ := List.forall_mem_cons.mp hnew
      rw [List.map_cons, List.nodup_cons] at hids
      have hstart : start.contains m.nodeId.toNat = false := by
        rw [MembershipRegistry.contains, ← Bool.not_eq_true, ExtTreeMap.contains_iff_mem]
        exact hmnew
      have hnext : ∀ m' ∈ members,
          m'.nodeId.toNat ∉ (start.register m.nodeId.toNat m.key m.blsKey).keys := by
        intro m' hm' hmem
        rw [MembershipRegistry.register, ExtTreeMap.mem_insert, Nat.compare_eq_eq] at hmem
        rcases hmem with heq | hmem
        · exact hids.1 (heq ▸ List.mem_map_of_mem hm')
        · exact hnew m' hm' hmem
      rw [List.foldlM_cons, Option.bind_eq_bind, Option.bind_eq_some_iff, List.foldl_cons,
        KeyWidths, List.forall_mem_cons]
      constructor
      · rintro ⟨next, hstep, hrest⟩
        obtain ⟨hwidth, rfl⟩ := (addMember_eq_some_iff hm hstart).mp hstep
        obtain ⟨hwidths, hregistry⟩ := (ih _ hregular hids.2 hnext).mp hrest
        exact ⟨⟨hwidth, hwidths⟩, hregistry⟩
      · rintro ⟨⟨hwidth, hwidths⟩, hregistry⟩
        exact ⟨_, (addMember_eq_some_iff hm hstart).mpr ⟨hwidth, rfl⟩,
          (ih _ hregular hids.2 hnext).mpr ⟨hwidths, hregistry⟩⟩
  exact hfold members .new hregular hids fun m _ => ExtTreeMap.not_mem_empty

theorem blsKeyById_eq : blsKeyById members = (memberMap members).map fun _ keys => keys.blsKey := by
  have hstep : ∀ (keys : ExtTreeMap NodeId MemberKeys) (m : Pb.CheckpointRosterMember),
      (keys.map fun _ keys => keys.blsKey).insert m.nodeId.toNat m.blsKey =
        (keys.insert m.nodeId.toNat ⟨m.key, m.blsKey⟩).map fun _ keys => keys.blsKey := by
    intro keys m
    refine ExtTreeMap.ext_getElem? fun id => ?_
    rw [ExtTreeMap.getElem?_insert, ExtTreeMap.getElem?_map, ExtTreeMap.getElem?_map,
      ExtTreeMap.getElem?_insert]
    split <;> rfl
  rw [blsKeyById, memberMap]
  have hempty : (∅ : ExtTreeMap NodeId (List UInt8)) =
      (∅ : ExtTreeMap NodeId MemberKeys).map fun _ keys => keys.blsKey := by
    refine ExtTreeMap.ext_getElem? fun id => ?_
    simp
  rw [hempty]
  generalize (∅ : ExtTreeMap NodeId MemberKeys) = start
  induction members generalizing start with
  | nil => rfl
  | cons m members ih => rw [List.foldl_cons, List.foldl_cons, hstep, ih]

/-- The keys in the map are those of members. -/
theorem exists_member_of_memberMap {id : NodeId} {keys : MemberKeys}
    (h : (memberMap members)[id]? = some keys) :
    ∃ m ∈ members, keys = ⟨m.key, m.blsKey⟩ := by
  have hfold : ∀ (members : List Pb.CheckpointRosterMember) (start : ExtTreeMap NodeId MemberKeys),
      (members.foldl (fun keys m => keys.insert m.nodeId.toNat ⟨m.key, m.blsKey⟩) start)[id]? =
        some keys → (∃ m ∈ members, keys = ⟨m.key, m.blsKey⟩) ∨ start[id]? = some keys := by
    intro members
    induction members with
    | nil => exact fun start h => .inr h
    | cons m members ih =>
      intro start h
      rcases ih _ h with ⟨m', hm', hkeys⟩ | h
      · exact .inl ⟨m', List.mem_cons_of_mem m hm', hkeys⟩
      · rw [ExtTreeMap.getElem?_insert] at h
        split at h
        · exact .inl ⟨m, List.mem_cons_self, (Option.some.inj h).symm⟩
        · exact .inr h
  refine (hfold members ∅ h).resolve_right ?_
  simp

end Roster

/-! ## Checkpoints -/

section Checkpoint

variable {suite : Suite} {cp : Pb.SignedCheckpoint} {trusted : Digest}
  {items : List Pb.RecordItem}

/-- The bytes that are signed are the same if no field has to be cut or filled up. -/
theorem signingBytes_convertedCheckpoint (h : Widths cp) (registry : MembershipRegistry) :
    (convertedCheckpoint cp registry).payload.signingBytes = checkpointSigningBytes cp := by
  simp only [CheckpointPayload.signingBytes, convertedCheckpoint, checkpointSigningBytes,
    digestBytes_fromBe h.stateHash, digestBytes_fromBe h.rosterHash,
    digestBytes_fromBe h.recordsRoot, digestBytes_fromBe h.prevCheckpointHash,
    digestBytes_fromBe h.windowRoot, digestBytes_fromBe h.rosterHistoryRoot,
    copy32_of_length h.stateHash, copy32_of_length h.rosterHash, copy32_of_length h.recordsRoot,
    copy32_of_length h.prevCheckpointHash, copy32_of_length h.windowRoot,
    copy32_of_length h.rosterHistoryRoot]

/-- The checkpoints on which the two verifiers agree. -/
structure RegularCheckpoint (suite : Suite) (cp : Pb.SignedCheckpoint) : Prop where
  windowRoot : cp.windowRoot.length = 32
  rosterHistoryRoot : cp.rosterHistoryRoot.length = 32
  ids : (cp.rosterSnapshot.map fun m => m.nodeId.toNat).Nodup
  members : ∀ m ∈ cp.rosterSnapshot, RegularMember suite m

/-- The keys of signers that are members, in the order of their ids. -/
def sortedKeys (cp : Pb.SignedCheckpoint) : List (List UInt8) :=
  ((cp.signers.map UInt64.toNat).insertionSort (· ≤ ·)).map fun id =>
    (blsKeyById cp.rosterSnapshot)[id]?.getD []

theorem RegularCheckpoint.validPublicKey (h : RegularCheckpoint suite cp) {id : NodeId}
    {blsKey : List UInt8} (hid : (blsKeyById cp.rosterSnapshot)[id]? = some blsKey) :
    suite.bls.validPublicKey blsKey = true := by
  rw [blsKeyById_eq, ExtTreeMap.getElem?_map] at hid
  obtain ⟨keys, hkeys, rfl⟩ := Option.map_eq_some_iff.mp hid
  obtain ⟨m, hm, rfl⟩ := exists_member_of_memberMap hkeys
  exact (h.members m hm).validPublicKey

/-- The mirror takes the keys of signers that are members. -/
theorem RegularCheckpoint.signerKeys_iff (h : RegularCheckpoint suite cp)
    (hsigners : ∀ s ∈ cp.signers.map UInt64.toNat, s ∈ blsKeyById cp.rosterSnapshot)
    {pks : List (List UInt8)} : SignerKeys suite.bls cp pks ↔ pks = sortedKeys cp := by
  have hkeys : ((cp.signers.map UInt64.toNat).insertionSort (· ≤ ·)).mapM
      (signerKey suite.bls (blsKeyById cp.rosterSnapshot)) = .ok (sortedKeys cp) := by
    refine mapM_eq_pure_map fun id hid => ?_
    rw [List.mem_insertionSort] at hid
    obtain ⟨blsKey, hblsKey⟩ := Option.isSome_iff_exists.mp
      (ExtTreeMap.isSome_getElem?_iff_mem.mpr (hsigners id hid))
    rw [signerKey, hblsKey, Option.getD_some]
    simp [h.validPublicKey hblsKey, pure, Except.pure]
  rw [SignerKeys, hkeys]
  exact ⟨fun h => (Except.ok.inj h).symm, fun h => congrArg Except.ok h.symm⟩

/-- The consensus node takes the same keys. -/
theorem RegularCheckpoint.mapM_blsKeyFor (h : RegularCheckpoint suite cp)
    (hsigners : ∀ s ∈ cp.signers.map UInt64.toNat, s ∈ blsKeyById cp.rosterSnapshot) :
    ((cp.signers.map UInt64.toNat).mergeSort).mapM (fun signer =>
      ((MembershipRegistry.mk (memberMap cp.rosterSnapshot)).blsKeyFor signer).filter
        suite.bls.validPublicKey) = some (sortedKeys cp) := by
  rw [List.mergeSort_eq_insertionSort (· ≤ ·)]
  refine mapM_eq_pure_map fun id hid => ?_
  rw [List.mem_insertionSort] at hid
  obtain ⟨blsKey, hblsKey⟩ := Option.isSome_iff_exists.mp
    (ExtTreeMap.isSome_getElem?_iff_mem.mpr (hsigners id hid))
  have hsame : (MembershipRegistry.mk (memberMap cp.rosterSnapshot)).blsKeyFor id =
      (blsKeyById cp.rosterSnapshot)[id]? := by
    rw [blsKeyById_eq, ExtTreeMap.getElem?_map]
    rfl
  rw [hsame, hblsKey, Option.getD_some]
  simp [Option.filter, h.validPublicKey hblsKey, pure]

/-- On a regular checkpoint with the widths of the consensus node, the quorum of the mirror is that of
the consensus node. -/
theorem RegularCheckpoint.verify_iff (h : RegularCheckpoint suite cp) (hwidths : Widths cp) :
    (convertedCheckpoint cp ⟨memberMap cp.rosterSnapshot⟩).verify suite.bls = true ↔
      (cp.signers.map UInt64.toNat).Nodup ∧ (blsKeyById cp.rosterSnapshot).size ≠ 0 ∧
        cp.signers.length * 3 > (blsKeyById cp.rosterSnapshot).size * 2 ∧
        (∀ s ∈ cp.signers.map UInt64.toNat, s ∈ blsKeyById cp.rosterSnapshot) ∧
        ∃ pks, SignerKeys suite.bls cp pks ∧
          suite.bls.verifyAggregate cp.aggregateSig (checkpointSigningBytes cp) pks := by
  have hlen : (MembershipRegistry.mk (memberMap cp.rosterSnapshot)).len =
      (blsKeyById cp.rosterSnapshot).size := by
    rw [blsKeyById_eq, ExtTreeMap.size_map]
    rfl
  have hcontains : ∀ s, (MembershipRegistry.mk (memberMap cp.rosterSnapshot)).contains s = true ↔
      s ∈ blsKeyById cp.rosterSnapshot := by
    intro s
    rw [blsKeyById_eq, ExtTreeMap.mem_map]
    exact ExtTreeMap.contains_iff_mem
  rw [SignedCheckpoint.verify_eq_true_iff, signingBytes_convertedCheckpoint hwidths]
  simp only [convertedCheckpoint, hlen, hcontains, List.length_map]
  constructor
  · rintro ⟨hsize, hnodup, hmembers, hquorum, keys, hkeys, hverify⟩
    refine ⟨hnodup, hsize, hquorum, hmembers, keys, ?_, hverify⟩
    rw [h.mapM_blsKeyFor hmembers] at hkeys
    exact (h.signerKeys_iff hmembers).mpr (Option.some.inj hkeys).symm
  · rintro ⟨hnodup, hsize, hquorum, hmembers, pks, hpks, hverify⟩
    obtain rfl := (h.signerKeys_iff hmembers).mp hpks
    exact ⟨hsize, hnodup, hmembers, hquorum, _, h.mapM_blsKeyFor hmembers, hverify⟩

/-- The mirror hashes the snapshot as the consensus node does. -/
theorem rosterCanonicalBytes_eq_ok_iff {members : List Pb.CheckpointRosterMember}
    {bytes : List UInt8} : rosterCanonicalBytes members = .ok bytes ↔
      KeyWidths members ∧ bytes = (MembershipRegistry.mk (memberMap members)).toBytes := by
  rw [rosterCanonicalBytes, bind_eq_ok_iff]
  simp only [rosterEntries_eq_ok_iff]
  constructor
  · rintro ⟨entries, ⟨hwidths, rfl⟩, hbytes⟩
    exact ⟨hwidths, (Except.ok.inj hbytes).symm⟩
  · rintro ⟨hwidths, rfl⟩
    exact ⟨_, ⟨hwidths, rfl⟩, rfl⟩

/-- The two checks of a checkpoint against the items agree. -/
theorem RegularCheckpoint.binding_iff (h : RegularCheckpoint suite cp)
    (hitems : ∀ item ∈ items, item.eventHash.length = 32 ∧ item.txPayload.length < 2 ^ 32)
    (hsha : ∀ bytes, suite.crypto.sha bytes < 256 ^ 32) (htrusted : trusted < 256 ^ 32) :
    verifyCheckpointBinding suite.crypto.sha suite.bls cp items (digestBytes trusted) = .ok () ↔
      verifyCheckpointBindingSet suite cp [trusted] items = .ok true := by
  have hroot : computeRecordsRoot suite.crypto.sha items < 256 ^ 32 := computeRecordsRoot_lt hsha
  rw [verifyCheckpointBinding_eq_ok_iff, verifyCheckpointQuorum_eq_ok_iff,
    verifyCheckpointBindingSet_eq_true_iff, recordsRootFromItems_eq hitems]
  simp only [protoToSignedCheckpoint_eq_some_iff, rosterCanonicalBytes_eq_ok_iff,
    rosterFromMembers_eq_some_iff h.members h.ids, length_digestBytes]
  constructor
  · rintro ⟨hstate, hroster, hrecords, hprev, hcomputed, -, -, -, -, ⟨_, ⟨hkeys, rfl⟩, hhash⟩, -,
      htrust, haggregate, hnodup, hsize, hquorum, hmembers, hvalid, hverify⟩
    have hwidths : Widths cp := ⟨hstate, hroster, hrecords, hprev, h.windowRoot,
      h.rosterHistoryRoot, haggregate⟩
    refine ⟨_, ⟨hwidths, hvalid, _, ⟨hkeys, rfl⟩,
      (digestBytes_eq_iff (hsha _) hroster).mp hhash, rfl⟩, ?_, ?_, ?_⟩
    · have htrust := htrust.resolve_left (by decide)
      exact List.mem_singleton.mpr
        ((digestBytes_eq_iff htrusted hroster).mp htrust.symm).symm
    · exact (h.verify_iff hwidths).mpr ⟨hnodup, hsize, hquorum, hmembers, hverify⟩
    · exact congrArg (Except.ok ∘ some) ((digestBytes_eq_iff hroot hrecords).mp hcomputed)
  · rintro ⟨sc, ⟨hwidths, hvalid, _, ⟨hkeys, rfl⟩, hhash, rfl⟩, htrust, hverify, hcomputed⟩
    obtain ⟨hnodup, hsize, hquorum, hmembers, hpks⟩ := (h.verify_iff hwidths).mp hverify
    have hroster : cp.rosterHash = digestBytes trusted :=
      ((digestBytes_eq_iff htrusted hwidths.rosterHash).mpr
        (List.mem_singleton.mp htrust).symm).symm
    exact ⟨hwidths.stateHash, hwidths.rosterHash, hwidths.recordsRoot, hwidths.prevCheckpointHash,
      (digestBytes_eq_iff hroot hwidths.recordsRoot).mpr
        (Option.some.inj (Except.ok.inj hcomputed)),
      hwidths.stateHash, hwidths.rosterHash, .inl hwidths.recordsRoot, hwidths.prevCheckpointHash,
      ⟨_, ⟨hkeys, rfl⟩, (digestBytes_eq_iff (hsha _) hwidths.rosterHash).mpr hhash⟩, .inr trivial,
      .inr hroster, hwidths.aggregateSig, hnodup, hsize, hquorum, hmembers, hvalid, hpks⟩

end Checkpoint

/-! ## Files -/

section File

variable {suite : Suite} {trusted : Digest} {file : Pb.RecordStreamFile}

theorem runningHashOrErr_eq_ok_iff_bind {hash : Option Pb.HashObject} {d : Digest} :
    runningHashOrErr hash = .ok d ↔ hash.bind hashObjectDigest = some d := by
  simp only [runningHashOrErr_eq_ok_iff, Option.bind_eq_some_iff, hashObjectDigest_eq_some_iff]

/-- The files on which the two verifiers agree: the items and the checkpoint are such that what one
of them does not look at, or replaces, makes no difference. -/
structure RegularFile (suite : Suite) (file : Pb.RecordStreamFile) : Prop where
  items : ∀ item ∈ file.items, item.eventHash.length = 32 ∧ item.txPayload.length < 2 ^ 32
  checkpoint : ∀ cp, file.checkpoint = some cp → RegularCheckpoint suite cp

/-- What agreement on a file is: both accept it or both do not, both compute one records root and one
string of 200 signed bytes, and neither accepts a checkpoint with a field of a wrong width. -/
structure VerifiersAgree (suite : Suite) (trusted : Digest) (file : Pb.RecordStreamFile) :
    Prop where
  accept : verifyRecordFile suite.crypto.sha suite.bls file (digestBytes trusted) = .ok () ↔
    checkRecordFile suite [trusted] (.ok file) = .ok ()
  recordsRoot : recordsRootFromItems suite file.items =
    .ok (some (computeRecordsRoot suite.crypto.sha file.items))
  signingBytes : ∀ cp sc, file.checkpoint = some cp → protoToSignedCheckpoint suite cp = some sc →
    sc.payload.signingBytes = checkpointSigningBytes cp ∧ sc.payload.signingBytes.length = 200
  widths : ∀ cp, file.checkpoint = some cp → ¬Widths cp →
    verifyRecordFile suite.crypto.sha suite.bls file (digestBytes trusted) ≠ .ok () ∧
      checkRecordFile suite [trusted] (.ok file) ≠ .ok ()

end File

/-! ## One file that both accept, and one that only the mirror accepts -/

/-- The payload of a round without transactions. -/
def emptyRoundPayload : CheckpointPayload := soloPayload 1 [] 0 9

/-- The primitives of the example: every key is valid, and one message has been signed. -/
def soloSuite : Suite where
  crypto := ⟨rollingHash, fun _ => true, fun _ _ _ => true, fun _ _ => true⟩
  bls := signsOnly [emptyRoundPayload.signingBytes]
  ikmKey _ := none

/-- The hash of the roster of the only member. -/
def soloDigest : Digest := soloRoster.hash rollingHash

/-- The file of the round. -/
def emptyRoundFile : Pb.RecordStreamFile := soloFile emptyRoundPayload 0 []

theorem regularFile_emptyRoundFile : RegularFile soloSuite emptyRoundFile where
  items item hitem := absurd hitem List.not_mem_nil
  checkpoint cp hcp := by
    obtain rfl := Option.some.inj hcp
    refine ⟨length_digestBytes _, length_digestBytes _, List.nodup_singleton _, fun m hm => ?_⟩
    obtain rfl := List.mem_singleton.mp hm
    exact ⟨rfl, by decide, rfl, .inr rfl⟩

/-- The file with one byte more in the window root of its checkpoint. -/
def longWindowRootFile : Pb.RecordStreamFile :=
  { emptyRoundFile with
    checkpoint := emptyRoundFile.checkpoint.map fun cp =>
      { cp with windowRoot := cp.windowRoot ++ [1] } }

end JKain.Mirror
