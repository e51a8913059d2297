import JKain.Mirror.Verify
import JKain.Executor.CodecSpec

/-!
# What the mirror accepts

The conditions under which the verifier of the mirror returns without an error, one lemma for each of
its functions.
-/

namespace JKain.Mirror

open Std Lib JKain.Stream

variable {sha : Sha256} {bls : Bls} {trusted : List UInt8} {cp : Pb.SignedCheckpoint}
  {items : List Pb.RecordItem} {file : Pb.RecordStreamFile}

@[simp]
theorem length_copy32 (bytes : List UInt8) : (copy32 bytes).length = 32 := by
  simp only [copy32, List.length_append, List.length_take, List.length_replicate]
  omega

theorem copy32_of_length {bytes : List UInt8} (h : bytes.length = 32) : copy32 bytes = bytes := by
  simp [copy32, h, List.take_of_length_le]

theorem length_checkpointSigningBytes (cp : Pb.SignedCheckpoint) :
    (checkpointSigningBytes cp).length = 200 := by
  simp [checkpointSigningBytes]

/-- The bytes that are signed determine the seven fields. -/
theorem fields_eq_of_signingBytes_eq {p : CheckpointPayload}
    (h : checkpointSigningBytes cp = p.signingBytes) :
    [beBytes 8 cp.round.toNat, copy32 cp.recordsRoot, copy32 cp.stateHash, copy32 cp.rosterHash,
        copy32 cp.prevCheckpointHash, copy32 cp.windowRoot, copy32 cp.rosterHistoryRoot] =
      [beBytes 8 p.round, digestBytes p.recordsRoot, digestBytes p.stateHash,
        digestBytes p.rosterHash, digestBytes p.prevCheckpointHash, digestBytes p.windowRoot,
        digestBytes p.rosterHistoryRoot] := by
  refine List.eq_iff_flatten_eq.mpr ⟨?_, by simp⟩
  simpa only [checkpointSigningBytes, CheckpointPayload.signingBytes, List.flatten_cons,
    List.flatten_nil, List.append_nil, List.append_assoc] using h

theorem round_eq_of_signingBytes_eq {p : CheckpointPayload} (hp : p.round < 256 ^ 8)
    (h : checkpointSigningBytes cp = p.signingBytes) : cp.round.toNat = p.round := by
  have hfield := congrArg (·[0]?) (fields_eq_of_signingBytes_eq h)
  exact beBytes_injOn cp.round.toNat_lt hp (by simpa using hfield)

theorem runningHashOrErr_eq_ok_iff {hash : Option Pb.HashObject} {digest : Digest} :
    runningHashOrErr hash = .ok digest ↔
      ∃ h, hash = some h ∧ h.algorithm = 0 ∧ h.length = 32 ∧ h.hash.length = 32 ∧
        fromBe h.hash = digest := by
  cases hash with
  | none => simp [runningHashOrErr]
  | some h =>
    rw [runningHashOrErr]
    split
    · rename_i hbad
      simp only [reduceCtorEq, Option.some.injEq, exists_eq_left', false_iff]
      rintro ⟨halgorithm, hlength, hhash, -⟩
      rcases hbad with hbad | hbad | hbad <;> exact hbad (by assumption)
    · rename_i hgood
      push Not at hgood
      simp [hgood]

/-- `VerifyRecordFile` returns if the header is right, the running hash over the items is the
declared one, and the diffs and the checkpoint pass. -/
theorem verifyRecordFile_eq_ok_iff :
    verifyRecordFile sha bls file trusted = .ok () ↔
      file.version = streamVersion ∧ file.items.length ≤ maxRecordItemsPerFile ∧
        ∃ start finish cp, runningHashOrErr file.startRunningHash = .ok start ∧
          runningHashOrErr file.endRunningHash = .ok finish ∧
          chainItems sha start file.items = finish ∧ file.checkpoint = some cp ∧
          cp.round = file.round ∧ validateStateDiffs file.stateDiffs = .ok () ∧
          verifyCheckpointBinding sha bls cp file.items trusted = .ok () := by
  rw [verifyRecordFile, check_bind_eq_ok_iff, check_bind_eq_ok_iff, bind_eq_ok_iff]
  refine and_congr_right fun _ => and_congr_right fun _ => exists_congr fun start => ?_
  rw [bind_eq_ok_iff]
  constructor
  · rintro ⟨hstart, finish, hfinish, hrest⟩
    obtain ⟨_, hchain, hcheckpoint⟩ := bind_eq_ok_iff.mp hrest
    refine ⟨finish, ?_⟩
    cases hcp : file.checkpoint with
    | none =>
      rw [hcp] at hcheckpoint
      cases hcheckpoint
    | some cp =>
      rw [hcp, check_bind_eq_ok_iff, bind_eq_ok_iff] at hcheckpoint
      obtain ⟨hround, _, hdiffs, hbinding⟩ := hcheckpoint
      exact ⟨cp, hstart, hfinish, check_eq_ok_iff.mp hchain, rfl, hround,
        mapError_eq_ok_iff.mp hdiffs, hbinding⟩
  · rintro ⟨finish, cp, hstart, hfinish, hchain, hcp, hround, hdiffs, hbinding⟩
    refine ⟨hstart, finish, hfinish, bind_eq_ok_iff.mpr ⟨(), check_eq_ok_iff.mpr hchain, ?_⟩⟩
    rw [hcp, check_bind_eq_ok_iff, bind_eq_ok_iff]
    exact ⟨hround, (), mapError_eq_ok_iff.mpr hdiffs, hbinding⟩

/-- `verifyCheckpointBinding` returns if four fields have 32 bytes, the items hash to the records
root and the quorum verifies. -/
theorem verifyCheckpointBinding_eq_ok_iff :
    verifyCheckpointBinding sha bls cp items trusted = .ok () ↔
      cp.stateHash.length = 32 ∧ cp.rosterHash.length = 32 ∧ cp.recordsRoot.length = 32 ∧
        cp.prevCheckpointHash.length = 32 ∧
        digestBytes (computeRecordsRoot sha items) = cp.recordsRoot ∧
        verifyCheckpointQuorum sha bls cp trusted = .ok () := by
  simp only [verifyCheckpointBinding, wantLength, check_bind_eq_ok_iff]

/-! ## Quorums -/

/-- The loop over the signers returns them if no signer is named twice. -/
theorem distinctSigners_eq_ok_iff {seen l : List NodeId} {signers : List UInt64}
    (hseen : seen.Nodup) :
    distinctSigners seen signers = .ok l ↔
      (seen ++ signers.map UInt64.toNat).Nodup ∧ l = seen ++ signers.map UInt64.toNat := by
  induction signers generalizing seen with
  | nil =>
    rw [distinctSigners, List.map_nil, List.append_nil]
    exact ⟨fun h => ⟨hseen, (Except.ok.inj h).symm⟩, fun h => congrArg Except.ok h.2.symm⟩
  | cons s rest ih =>
    rw [distinctSigners, List.map_cons]
    split
    · rename_i hmem
      simp only [reduceCtorEq, false_iff, not_and]
      intro hnodup
      exact absurd rfl ((List.nodup_append.mp hnodup).2.2 _ hmem _ List.mem_cons_self)
    · rename_i hmem
      have hsnoc : (seen ++ [s.toNat]).Nodup := by
        refine List.nodup_append.mpr ⟨hseen, List.nodup_singleton _, fun a ha b hb hab => ?_⟩
        rw [List.mem_singleton.mp hb] at hab
        exact hmem (hab ▸ ha)
      rw [ih hsnoc, List.append_assoc, List.singleton_append]

/-- The keys of signers that the mirror takes for an aggregate. -/
def SignerKeys (bls : Bls) (cp : Pb.SignedCheckpoint) (pks : List (List UInt8)) : Prop :=
  ((cp.signers.map UInt64.toNat).insertionSort (· ≤ ·)).mapM
    (signerKey bls (blsKeyById cp.rosterSnapshot)) = .ok pks

/-- `verifyCheckpointQuorum` returns if the lengths are right, the snapshot hashes to the roster
hash, which is the trusted one, and distinct signers, more than two thirds of the snapshot and members
of it, have signed. -/
theorem verifyCheckpointQuorum_eq_ok_iff :
    verifyCheckpointQuorum sha bls cp trusted = .ok () ↔
      cp.stateHash.length = 32 ∧ cp.rosterHash.length = 32 ∧
        (cp.recordsRoot.length = 32 ∨ cp.recordsRoot.length = 0) ∧
        cp.prevCheckpointHash.length = 32 ∧
        (∃ rosterBytes, rosterCanonicalBytes cp.rosterSnapshot = .ok rosterBytes ∧
          digestBytes (sha rosterBytes) = cp.rosterHash) ∧
        (trusted.length = 0 ∨ trusted.length = 32) ∧
        (trusted.length = 0 ∨ cp.rosterHash = trusted) ∧
        cp.aggregateSig.length = 96 ∧ (cp.signers.map UInt64.toNat).Nodup ∧
        (blsKeyById cp.rosterSnapshot).size ≠ 0 ∧
        cp.signers.length * 3 > (blsKeyById cp.rosterSnapshot).size * 2 ∧
        (∀ s ∈ cp.signers.map UInt64.toNat, s ∈ blsKeyById cp.rosterSnapshot) ∧
        bls.validSignature cp.aggregateSig ∧
        ∃ pks, SignerKeys bls cp pks ∧
          bls.verifyAggregate cp.aggregateSig (checkpointSigningBytes cp) pks := by
  simp only [verifyCheckpointQuorum, wantLength, bind_eq_ok_iff, check_eq_ok_iff, exists_const,
    exists_and_left, distinctSigners_eq_ok_iff List.nodup_nil, List.nil_append, and_assoc,
    exists_eq_left, forM_eq_ok_iff, List.length_map, SignerKeys]
  constructor
  · rintro ⟨hstate, hroster, hrecords, hprev, bytes, hbytes, hhash, hlen, htrusted, haggregate,
      hnodup, hsize, hquorum, hmembers, pks, hkeys, hvalid, hverify⟩
    exact ⟨hstate, hroster, hrecords, hprev, ⟨bytes, hbytes, hhash⟩, hlen, htrusted, haggregate,
      hnodup, hsize, hquorum, hmembers, hvalid, pks, hkeys, hverify⟩
  · rintro ⟨hstate, hroster, hrecords, hprev, ⟨bytes, hbytes, hhash⟩, hlen, htrusted, haggregate,
      hnodup, hsize, hquorum, hmembers, hvalid, pks, hkeys, hverify⟩
    exact ⟨hstate, hroster, hrecords, hprev, bytes, hbytes, hhash, hlen, htrusted, haggregate,
      hnodup, hsize, hquorum, hmembers, pks, hkeys, hvalid, hverify⟩

/-! ## A stream with one signer -/

/-- Aggregates that verify for the given messages only. -/
def signsOnly (messages : List (List UInt8)) : Bls :=
  ⟨fun _ => true, fun _ => true, fun _ message _ => message ∈ messages⟩

/-- The only member of a roster. -/
def soloMember : Pb.CheckpointRosterMember :=
  ⟨1, List.replicate 32 1, List.replicate 48 2, List.replicate 96 3⟩

/-- The registry of the only member. -/
def soloRoster : MembershipRegistry := .register .new 1 soloMember.key soloMember.blsKey

/-- The hash of the roster, as the mirror is configured with it. -/
def soloTrusted : List UInt8 := digestBytes (soloRoster.hash rollingHash)

/-- The payload of a round with the given items and previous checkpoint. -/
def soloPayload (round : ℕ) (items : List Pb.RecordItem) (prev windowRoot : Digest) :
    CheckpointPayload :=
  (CheckpointPayload.new rollingHash round (computeRecordsRoot rollingHash items) 5 windowRoot 0
    soloRoster).withPrevCheckpointHash prev

/-- The checkpoint of a payload, signed by the only member. -/
def soloCheckpoint (payload : CheckpointPayload) : Pb.SignedCheckpoint where
  round := .ofNat payload.round
  stateHash := digestBytes payload.stateHash
  rosterHash := digestBytes payload.rosterHash
  rosterSnapshot := [soloMember]
  recordsRoot := digestBytes payload.recordsRoot
  aggregateSig := List.replicate 96 0
  signers := [1]
  prevCheckpointHash := digestBytes payload.prevCheckpointHash
  windowRoot := digestBytes payload.windowRoot
  rosterHistoryRoot := digestBytes payload.rosterHistoryRoot

/-- The file of a checkpoint that starts at the given running hash. -/
def soloFile (payload : CheckpointPayload) (start : Digest) (items : List Pb.RecordItem) :
    Pb.RecordStreamFile where
  version := streamVersion
  round := .ofNat payload.round
  startRunningHash := some ⟨0, 32, digestBytes start⟩
  items := items
  endRunningHash := some ⟨0, 32, digestBytes (chainItems rollingHash start items)⟩
  checkpoint := some (soloCheckpoint payload)
  stateDiffs := []

end JKain.Mirror
