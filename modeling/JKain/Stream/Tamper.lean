import JKain.Consensus.RecordsTree
import JKain.Gossip.WireSpec
import JKain.Mirror.Chained
import JKain.Stream.VerifySpec

/-!
# What a record stream commits to

The quorum signs the round, the records root and the hashes of a checkpoint, and the directory is
verified file by file. Two directories that both verify hold the same items and payloads as far as
these are signed. The verifier looks neither at the state diffs, nor at the round in the name of a
file, nor at the hash of the previous checkpoint.
-/

namespace JKain

open Std Lib

/-! ## Payloads -/

namespace CheckpointPayload

/-- The numbers of a payload are within their types. -/
structure Bounded (p : CheckpointPayload) : Prop where
  round : p.round < 256 ^ 8
  recordsRoot : p.recordsRoot < 256 ^ 32
  stateHash : p.stateHash < 256 ^ 32
  rosterHash : p.rosterHash < 256 ^ 32
  prevCheckpointHash : p.prevCheckpointHash < 256 ^ 32
  windowRoot : p.windowRoot < 256 ^ 32
  rosterHistoryRoot : p.rosterHistoryRoot < 256 ^ 32

/-- Payloads with the same signed bytes are the same up to the roster, of which the hash is signed. -/
theorem eq_of_signingBytes_eq {p p' : CheckpointPayload} (h : p.Bounded) (h' : p'.Bounded)
    (hbytes : p.signingBytes = p'.signingBytes) :
    p = { p' with rosterSnapshot := p.rosterSnapshot } := by
  simp only [signingBytes] at hbytes
  obtain ⟨hbytes, hhistory⟩ := List.append_inj hbytes (by simp)
  obtain ⟨hbytes, hwindow⟩ := List.append_inj hbytes (by simp)
  obtain ⟨hbytes, hprev⟩ := List.append_inj hbytes (by simp)
  obtain ⟨hbytes, hhash⟩ := List.append_inj hbytes (by simp)
  obtain ⟨hbytes, hstate⟩ := List.append_inj hbytes (by simp)
  obtain ⟨hround, hrecords⟩ := List.append_inj hbytes (by simp)
  have hround := beBytes_injOn h.round h'.round hround
  have hrecords := digestBytes_injOn h.recordsRoot h'.recordsRoot hrecords
  have hstate := digestBytes_injOn h.stateHash h'.stateHash hstate
  have hhash := digestBytes_injOn h.rosterHash h'.rosterHash hhash
  have hprev := digestBytes_injOn h.prevCheckpointHash h'.prevCheckpointHash hprev
  have hwindow := digestBytes_injOn h.windowRoot h'.windowRoot hwindow
  have hhistory := digestBytes_injOn h.rosterHistoryRoot h'.rosterHistoryRoot hhistory
  cases p
  cases p'
  simp_all

end CheckpointPayload

/-! ## Rosters -/

namespace MembershipRegistry

variable {c : Crypto} {registry registry' : MembershipRegistry}

/-- A registry is determined by its bytes. -/
theorem eq_of_toBytes_eq (h : registry.Fits c) (h' : registry'.Fits c)
    (hbytes : registry.toBytes = registry'.toBytes) : registry = registry' := by
  have hread := fromBytes_toBytes h
  rw [hbytes, fromBytes_toBytes h'] at hread
  exact (Option.some.inj hread).symm

theorem fits_new : MembershipRegistry.new.Fits c := by
  intro p hp
  rw [ExtTreeMap.mem_toList_iff_getElem?_eq_some] at hp
  simp [MembershipRegistry.new] at hp

theorem Fits.register (h : registry.Fits c) {node : NodeId} {key blsKey : List UInt8}
    (hnode : node < 256 ^ 8) (hkey : IsKey c key) (hbls : blsKey.length = 48) :
    (registry.register node key blsKey).Fits c := by
  intro p hp
  rw [ExtTreeMap.mem_toList_iff_getElem?_eq_some, MembershipRegistry.register,
    ExtTreeMap.getElem?_insert] at hp
  split at hp
  · rename_i hsame
    have hp2 := Option.some.inj hp
    rw [← Std.compare_eq_iff_eq.mp hsame, ← hp2]
    exact ⟨hnode, hkey, hbls⟩
  · exact h p (ExtTreeMap.mem_toList_iff_getElem?_eq_some.mpr hp)

end MembershipRegistry

/-- The key that is made from a seed has the width of a key. -/
def Suite.IkmWidth (suite : Suite) : Prop :=
  ∀ byte key, suite.ikmKey byte = some key → key.length = 48

namespace Stream

variable {suite : Suite} {trusted : List Digest} {file file' : Pb.RecordStreamFile}
  {cp cp' : Pb.SignedCheckpoint} {sc sc' : SignedCheckpoint} {D : Set (List UInt8)}

/-- A member that is added has keys of the right widths. -/
theorem addMember_fits (hikm : suite.IkmWidth) {registry registry' : MembershipRegistry}
    {member : Pb.CheckpointRosterMember} (hfits : registry.Fits suite.crypto)
    (h : addMember suite registry member = some registry') : registry'.Fits suite.crypto := by
  have hregister : ∀ blsKey, blsKey.length = 48 → member.key.length = 32 →
      suite.crypto.validKey member.key = true →
      (registry.register member.nodeId.toNat member.key blsKey).Fits suite.crypto :=
    fun blsKey hbls hwidth hvalid => hfits.register member.nodeId.toNat_lt ⟨hwidth, hvalid⟩ hbls
  simp only [addMember, Option.bind_eq_bind, Option.bind_eq_some_iff, guard_eq_some_iff,
    exists_const] at h
  obtain ⟨-, ⟨hwidth, hvalid⟩, h⟩ := h
  split at h
  · simp only [Option.bind_eq_some_iff, guard_eq_some_iff, exists_const] at h
    obtain ⟨blsKey, hblsKey, -, -, hregistry⟩ := h
    rw [← Option.some.inj hregistry]
    exact hregister blsKey (hikm _ _ hblsKey) hwidth hvalid
  · split at h
    · rename_i hlen
      simp only [Option.bind_some, Option.bind_eq_some_iff, guard_eq_some_iff, exists_const] at h
      obtain ⟨-, -, hregistry⟩ := h
      rw [← Option.some.inj hregistry]
      exact hregister _ hlen hwidth hvalid
    · cases h

theorem rosterFromMembers_fits (hikm : suite.IkmWidth) {registry : MembershipRegistry}
    {members : List Pb.CheckpointRosterMember}
    (h : rosterFromMembers suite members = some registry) : registry.Fits suite.crypto := by
  have hfold : ∀ (members : List Pb.CheckpointRosterMember) (start : MembershipRegistry),
      start.Fits suite.crypto → members.foldlM (addMember suite) start = some registry →
      registry.Fits suite.crypto := by
    intro members
    induction members with
    | nil => exact fun start hstart h => Option.some.inj h ▸ hstart
    | cons m members ih =>
      intro start hstart h
      rw [List.foldlM_cons, Option.bind_eq_bind, Option.bind_eq_some_iff] at h
      obtain ⟨next, hnext, hrest⟩ := h
      exact ih next (addMember_fits hikm hstart hnext) hrest
  exact hfold members .new MembershipRegistry.fits_new h

/-- The payload of a converted checkpoint is within its types. -/
theorem bounded_of_converted (h : protoToSignedCheckpoint suite cp = some sc) :
    sc.payload.Bounded := by
  obtain ⟨hwidths, -, registry, -, -, rfl⟩ := protoToSignedCheckpoint_eq_some_iff.mp h
  have hlt : ∀ {bytes : List UInt8}, bytes.length = 32 → fromBe bytes < 256 ^ 32 := by
    intro bytes hbytes
    exact hbytes ▸ fromBe_lt bytes
  exact ⟨cp.round.toNat_lt, hlt hwidths.recordsRoot, hlt hwidths.stateHash,
    hlt hwidths.rosterHash, hlt hwidths.prevCheckpointHash, hlt hwidths.windowRoot,
    hlt hwidths.rosterHistoryRoot⟩

/-! ## Items -/

/-- The item of a file for an item of the records root. -/
def recordItemOf (item : RecordsRootItem) : Pb.RecordItem :=
  ⟨digestBytes item.eventHash, .ofNat item.txIndex, item.txPayload⟩

theorem recordsRootItem?_undo {item : Pb.RecordItem} {converted : RecordsRootItem}
    (h : recordsRootItem? item = some converted) :
    recordItemOf converted = item ∧ converted.eventHash < 256 ^ 32 ∧
      converted.txIndex < 256 ^ 4 := by
  rw [recordsRootItem?, Option.bind_eq_bind, Option.bind_eq_some_iff] at h
  obtain ⟨hash, hhash, hconverted⟩ := h
  obtain ⟨hlen, rfl⟩ := digest?_eq_some_iff.mp hhash
  obtain rfl := Option.some.inj hconverted
  refine ⟨?_, hlen ▸ fromBe_lt item.eventHash, item.txIndex.toNat_lt⟩
  rw [recordItemOf, digestBytes_fromBe hlen, UInt32.ofNat_toNat]

/-- A root is computed for items that can be converted, with payloads not too long. -/
theorem recordsRootFromItems_eq_some {items : List Pb.RecordItem} {root : Digest}
    (h : recordsRootFromItems suite items = .ok (some root)) :
    ∃ converted, items.mapM recordsRootItem? = some converted ∧
      tryComputeRecordsRoot suite.crypto.sha converted = .ok root ∧
      converted.map recordItemOf = items ∧ ∀ item ∈ converted, item.Bounded := by
  rw [recordsRootFromItems] at h
  split at h
  · cases h
  · rename_i converted hconverted
    obtain ⟨hundo, hbounds⟩ := mapM_undo (fun _ _ => recordsRootItem?_undo) hconverted
    split at h
    · rename_i root' hroot
      obtain rfl : root' = root := Option.some.inj (Except.ok.inj h)
      refine ⟨converted, hconverted, hroot, hundo, fun item hitem => ?_⟩
      refine ⟨(hbounds item hitem).1, (hbounds item hitem).2, ?_⟩
      exact payload_lt_of_recordsRoot hroot item hitem
    · cases h

/-! ## Quorums -/

/-- A checkpoint that a quorum of a trusted roster has signed. -/
structure Signed (suite : Suite) (trusted : List Digest) (sc : SignedCheckpoint) : Prop where
  bounded : sc.payload.Bounded
  verified : sc.verify suite.bls = true
  rosterHash : sc.payload.rosterHash ∈ trusted
  snapshot : sc.payload.rosterSnapshot.hash suite.crypto.sha = sc.payload.rosterHash

/-- Quorums are honest: under one roster they sign at most one payload for a round. -/
def OnePayload (suite : Suite) (trusted : List Digest) : Prop :=
  ∀ ⦃sc sc'⦄, Signed suite trusted sc → Signed suite trusted sc' →
    sc.payload.round = sc'.payload.round → sc.payload.rosterHash = sc'.payload.rosterHash →
    sc.payload.signingBytes = sc'.payload.signingBytes

/-- The trusted rosters follow one another: one of them signs for a round, and what it signs holds the
hash of the payload of the round before. -/
structure Succession (suite : Suite) (trusted : List Digest) : Prop where
  oneRoster : ∀ ⦃sc sc'⦄, Signed suite trusted sc → Signed suite trusted sc' →
    sc.payload.round = sc'.payload.round → sc.payload.rosterHash = sc'.payload.rosterHash
  prev : ∀ ⦃sc sc'⦄, Signed suite trusted sc → Signed suite trusted sc' →
    sc'.payload.round = sc.payload.round + 1 →
    sc'.payload.prevCheckpointHash = sc.payload.signingBytesHash suite.crypto.sha

/-! ## Files -/

/-- The payload of the checkpoint of a file. -/
def payloadOf (suite : Suite) (file : Pb.RecordStreamFile) : Option CheckpointPayload :=
  (file.checkpoint.bind (protoToSignedCheckpoint suite)).map SignedCheckpoint.payload

/-- The strings hashed for the records root and the roster of a file. -/
def hashedStrings (suite : Suite) (file : Pb.RecordStreamFile) : List (List UInt8) :=
  ((file.items.mapM recordsRootItem?).map (recordsMessages suite.crypto.sha)).getD [] ++
    (payloadOf suite file).toList.map fun p => p.rosterSnapshot.toBytes

/-- The two files hold the same. -/
structure SameFile (suite : Suite) (file file' : Pb.RecordStreamFile) : Prop where
  round : file.round = file'.round
  payload : ∃ p, payloadOf suite file = some p ∧ payloadOf suite file' = some p
  items : file.items = file'.items
  stateDiffs : file.stateDiffs = file'.stateDiffs

variable {start start' finish finish' : Digest}

theorem Accepted.payloadOf_eq (h : Accepted suite trusted file start finish cp sc) :
    payloadOf suite file = some sc.payload := by
  rw [payloadOf, h.checkpoint_eq, Option.bind_some, h.converted, Option.map_some]

theorem Accepted.round_toNat (h : Accepted suite trusted file start finish cp sc) :
    sc.payload.round = file.round.toNat := by
  obtain ⟨-, -, registry, -, -, hsc⟩ := protoToSignedCheckpoint_eq_some_iff.mp h.converted
  rw [hsc, h.round_eq]
  rfl

theorem Accepted.signed (h : Accepted suite trusted file start finish cp sc) :
    Signed suite trusted sc := by
  refine ⟨bounded_of_converted h.converted, h.verified, h.rosterHash, ?_⟩
  obtain ⟨-, -, registry, -, hhash, hsc⟩ := protoToSignedCheckpoint_eq_some_iff.mp h.converted
  rw [hsc]
  exact hhash

theorem Accepted.fits (hikm : suite.IkmWidth)
    (h : Accepted suite trusted file start finish cp sc) :
    sc.payload.rosterSnapshot.Fits suite.crypto := by
  obtain ⟨-, -, registry, hregistry, -, hsc⟩ := protoToSignedCheckpoint_eq_some_iff.mp h.converted
  rw [hsc]
  exact rosterFromMembers_fits hikm hregistry

/-- Accepted files with the same signed bytes hold the same payload and the same items. -/
theorem Accepted.same_of_signingBytes (hsha : ∀ bytes, suite.crypto.sha bytes < 256 ^ 32)
    (hikm : suite.IkmWidth) (hD : Set.InjOn suite.crypto.sha D)
    (h : Accepted suite trusted file start finish cp sc)
    (h' : Accepted suite trusted file' start' finish' cp' sc')
    (hstrings : ∀ m ∈ hashedStrings suite file, m ∈ D)
    (hstrings' : ∀ m ∈ hashedStrings suite file', m ∈ D)
    (hbytes : sc.payload.signingBytes = sc'.payload.signingBytes)
    (hroster : sc.payload.rosterHash = sc'.payload.rosterHash) :
    sc.payload = sc'.payload ∧ file.items = file'.items := by
  simp only [hashedStrings, List.forall_mem_append, h.payloadOf_eq, h'.payloadOf_eq,
    Option.toList_some, List.map_singleton, List.forall_mem_singleton] at hstrings hstrings'
  -- The roster hash determines the snapshot, and with it the whole payload.
  have hsnapshot : sc.payload.rosterSnapshot = sc'.payload.rosterSnapshot := by
    refine MembershipRegistry.eq_of_toBytes_eq (h.fits hikm) (h'.fits hikm) ?_
    refine hD hstrings.2 hstrings'.2 ?_
    exact h.signed.snapshot.trans (hroster.trans h'.signed.snapshot.symm)
  have hpayload : sc.payload = sc'.payload := by
    rw [CheckpointPayload.eq_of_signingBytes_eq h.signed.bounded h'.signed.bounded hbytes,
      hsnapshot]
  refine ⟨hpayload, ?_⟩
  -- The payload determines the records root, and with it the items.
  obtain ⟨items, hitems, hroot, hundo, hbounded⟩ := recordsRootFromItems_eq_some h.recordsRoot
  obtain ⟨items', hitems', hroot', hundo', hbounded'⟩ :=
    recordsRootFromItems_eq_some h'.recordsRoot
  rw [hitems, Option.map_some, Option.getD_some] at hstrings
  rw [hitems', Option.map_some, Option.getD_some] at hstrings'
  rw [← hpayload] at hroot'
  have hsame := items_eq_of_recordsRoot_eq hsha hD hbounded hbounded' hstrings.1 hstrings'.1
    hroot hroot'
  rw [← hundo, ← hundo', hsame]

/-! ## Directories -/

section Directories

variable {dir dir' : Dir}

theorem mem_recordFilesIn_iff {round : ℕ} {name : List Char} {content : Content} :
    (round, name, content) ∈ recordFilesIn dir ↔
      (name, content) ∈ dir ∧ recordNameRound name = some round := by
  simp only [recordFilesIn, List.mem_insertionSort, List.mem_filterMap, Option.map_eq_some_iff,
    Prod.mk.injEq]
  constructor
  · rintro ⟨⟨name', content'⟩, hmem, round', hround, rfl, rfl, rfl⟩
    exact ⟨hmem, hround⟩
  · rintro ⟨hmem, hround⟩
    exact ⟨(name, content), hmem, round, hround, rfl, rfl, rfl⟩

/-- Every file of a directory that verifies is accepted. -/
theorem exists_accepted_of_verifyRecords {files : List (ℕ × List Char × Content)}
    {previousEnd : Option Digest} {previousRound : Option ℕ}
    (h : verifyRecords suite trusted previousEnd previousRound files = .ok ()) :
    ∀ f ∈ files, ∃ file start finish checkpoint sc, f.2.2 = .ok file ∧
      Accepted suite trusted file start finish checkpoint sc := by
  induction files generalizing previousEnd previousRound with
  | nil => exact fun f hf => absurd hf List.not_mem_nil
  | cons f files ih =>
    obtain ⟨round, name, content⟩ := f
    rw [verifyRecords, bind_eq_ok_iff] at h
    obtain ⟨_, -, h⟩ := h
    obtain ⟨finish, hrecord, hrest⟩ := bind_eq_ok_iff.mp h
    obtain ⟨file, checkpoint, sc, hcontent, haccepted⟩ := verifyRecord_eq_ok_iff.mp hrecord
    rw [List.forall_mem_cons]
    exact ⟨⟨file, _, finish, checkpoint, sc, hcontent, haccepted⟩, ih hrest⟩

theorem exists_accepted_of_verified (h : verifyRecordStreamDirRosters suite dir trusted = .ok ())
    {name : List Char} {content : Content} {round : ℕ} (hmem : (name, content) ∈ dir)
    (hround : recordNameRound name = some round) :
    ∃ file start finish checkpoint sc, content = .ok file ∧
      Accepted suite trusted file start finish checkpoint sc := by
  rw [verifyRecordStreamDirRosters] at h
  split at h
  · cases h
  · split at h
    · cases h
    · exact exists_accepted_of_verifyRecords h _ (mem_recordFilesIn_iff.mpr ⟨hmem, hround⟩)

/-- The strings hashed for the files of a directory. -/
def hashedIn (suite : Suite) (dir : Dir) : List (List UInt8) :=
  dir.flatMap fun (_, content) => (content.toOption.map (hashedStrings suite)).getD []

theorem mem_hashedIn {name : List Char} {m : List UInt8} (hmem : (name, .ok file) ∈ dir)
    (hm : m ∈ hashedStrings suite file) : m ∈ hashedIn suite dir :=
  List.mem_flatMap.mpr ⟨(name, .ok file), hmem, hm⟩

/-- Files are named after their rounds and hold no state diffs. -/
structure Plain (dir : Dir) : Prop where
  named : ∀ ⦃name file round⦄, (name, .ok file) ∈ dir → recordNameRound name = some round →
    file.round.toNat = round
  noDiffs : ∀ ⦃name file⦄, (name, .ok file) ∈ dir → file.stateDiffs = []

/-- What two verified directories with the same names have in common: every record file of the first
is the one of the second, and commits to the checkpoint of the file before it. -/
structure SameStream (suite : Suite) (dir dir' : Dir) : Prop where
  files : ∀ ⦃name content round⦄, (name, content) ∈ dir → recordNameRound name = some round →
    ∃ file file', content = .ok file ∧ (name, .ok file') ∈ dir' ∧ SameFile suite file file'
  prev : ∀ ⦃name name' file file' round⦄, (name, .ok file) ∈ dir →
    recordNameRound name = some round → (name', .ok file') ∈ dir →
    recordNameRound name' = some (round + 1) →
    ∃ p p', payloadOf suite file = some p ∧ payloadOf suite file' = some p' ∧
      p'.prevCheckpointHash = p.signingBytesHash suite.crypto.sha

end Directories

/-! ## A stream of two rounds -/

section Pair

open Mirror

/-- Primitives under which two payloads have been signed, that of the first round and another one. -/
def pairSuite (second : CheckpointPayload) : Suite where
  crypto := ⟨rollingHash, fun _ => true, fun _ _ _ => true, fun _ _ => true⟩
  bls := signsOnly [firstPayload.signingBytes, second.signingBytes]
  ikmKey _ := none

/-- The roster of the only member. -/
def pairTrusted : List Digest := [soloRoster.hash rollingHash]

theorem bounded_firstPayload : firstPayload.Bounded := by
  constructor <;> decide +kernel

theorem bounded_secondPayload : secondPayload.Bounded := by
  constructor <;> decide +kernel

variable {second : CheckpointPayload}

theorem signed_pair (hsecond : second.Bounded) {trusted : List Digest}
    (h : Signed (pairSuite second) trusted sc) :
    ∃ p, (p = firstPayload ∨ p = second) ∧ sc.payload.signingBytes = p.signingBytes ∧
      sc.payload = { p with rosterSnapshot := sc.payload.rosterSnapshot } := by
  obtain ⟨-, -, -, -, keys, -, hverify⟩ := SignedCheckpoint.verify_eq_true_iff.mp h.verified
  have hmem : sc.payload.signingBytes ∈ [firstPayload.signingBytes, second.signingBytes] := by
    simpa [pairSuite, signsOnly] using hverify
  rcases List.mem_cons.mp hmem with heq | hmem
  · exact ⟨firstPayload, .inl rfl, heq,
      CheckpointPayload.eq_of_signingBytes_eq h.bounded bounded_firstPayload heq⟩
  · have heq := List.mem_singleton.mp hmem
    exact ⟨second, .inr rfl, heq,
      CheckpointPayload.eq_of_signingBytes_eq h.bounded hsecond heq⟩

/-- With payloads of two rounds, one payload has been signed for a round. -/
theorem onePayload_pair (hsecond : second.Bounded) (hround : second.round ≠ 1)
    (trusted : List Digest) : OnePayload (pairSuite second) trusted := by
  intro sc sc' h h' hrounds _
  obtain ⟨p, hp, hbytes, hpayload⟩ := signed_pair hsecond h
  obtain ⟨p', hp', hbytes', hpayload'⟩ := signed_pair hsecond h'
  rw [hpayload, hpayload'] at hrounds
  have hrounds : p.round = p'.round := hrounds
  rw [hbytes, hbytes']
  rcases hp with rfl | rfl <;> rcases hp' with rfl | rfl
  · rfl
  · exact absurd hrounds.symm hround
  · exact absurd hrounds hround
  · rfl

theorem succession_pair : Succession (pairSuite secondPayload) pairTrusted where
  oneRoster sc sc' h h' _ := by
    rw [List.mem_singleton.mp h.rosterHash, List.mem_singleton.mp h'.rosterHash]
  prev sc sc' h h' hrounds := by
    obtain ⟨p, hp, hbytes, hpayload⟩ := signed_pair bounded_secondPayload h
    obtain ⟨p', hp', -, hpayload'⟩ := signed_pair bounded_secondPayload h'
    rw [CheckpointPayload.signingBytesHash, hbytes, hpayload']
    rw [hpayload, hpayload'] at hrounds
    have hrounds : p'.round = p.round + 1 := hrounds
    rcases hp with rfl | rfl <;> rcases hp' with rfl | rfl
    · exact absurd hrounds (by decide +kernel)
    · rfl
    · exact absurd hrounds (by decide +kernel)
    · exact absurd hrounds (by decide +kernel)

/-- The file of the first round. -/
def firstFile : Pb.RecordStreamFile := soloFile firstPayload 0 (oneItem 7)

/-- The file of a payload for the second round. -/
def secondFile (second : CheckpointPayload) : Pb.RecordStreamFile :=
  soloFile second (chainItems rollingHash 0 (oneItem 7)) (oneItem 8)

/-- A directory of two rounds. -/
def pairDir (second : CheckpointPayload) : Dir :=
  [(recordFileName 1, .ok firstFile), (recordFileName 2, .ok (secondFile second))]

theorem plain_pairDir : Plain (pairDir secondPayload) where
  named name file round hmem hround := by
    rcases List.mem_cons.mp hmem with heq | hmem
    · obtain ⟨rfl, hfile⟩ := Prod.mk.inj heq
      obtain rfl := Except.ok.inj hfile
      exact Option.some.inj ((by decide +kernel : some 1 = recordNameRound (recordFileName 1)).trans
        hround)
    · obtain ⟨rfl, hfile⟩ := Prod.mk.inj (List.mem_singleton.mp hmem)
      obtain rfl := Except.ok.inj hfile
      exact Option.some.inj ((by decide +kernel : some 2 = recordNameRound (recordFileName 2)).trans
        hround)
  noDiffs name file hmem := by
    rcases List.mem_cons.mp hmem with heq | hmem
    · rw [Except.ok.inj (Prod.mk.inj heq).2]
      rfl
    · rw [Except.ok.inj (Prod.mk.inj (List.mem_singleton.mp hmem)).2]
      rfl

/-- The condition on a directory does not depend on the order in which it is listed. -/
theorem Plain.reverse {dir : Dir} (h : Plain dir) : Plain dir.reverse :=
  ⟨fun _ _ _ hmem => h.named (List.mem_reverse.mp hmem),
    fun _ _ hmem => h.noDiffs (List.mem_reverse.mp hmem)⟩

/-- A payload of the second round that does not hold the hash of the first one. -/
def loosePayload : CheckpointPayload := soloPayload 2 (oneItem 8) 0 9

/-- The file of the first round with a state diff that nobody has computed. -/
def diffFile : Pb.RecordStreamFile := { firstFile with stateDiffs := [⟨[1], some [2]⟩] }

/-- The only file of a directory, under the name of the first round. -/
def loneDir (file : Pb.RecordStreamFile) : Dir := [(recordFileName 1, .ok file)]

end Pair

end Stream

end JKain
