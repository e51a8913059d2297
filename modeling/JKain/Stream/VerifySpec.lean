import JKain.Stream.Verify
import JKain.Executor.CodecSpec

/-!
# What the verifier of the consensus node accepts

`Accepted` lists the conditions on a file and gives its checkpoint in the form the consensus node
works with. A verified directory is a list of such files in consecutive rounds, each of which starts
where the one before ends.
-/

namespace JKain

open Std Lib

theorem digestBytes_fromBe {bytes : List UInt8} (h : bytes.length = 32) :
    digestBytes (fromBe bytes) = bytes := by
  rw [digestBytes, ← h, beBytes_fromBe]

theorem fromBe_digestBytes {d : Digest} (h : d < 256 ^ 32) : fromBe (digestBytes d) = d :=
  fromBe_beBytes h

/-! ## Signed checkpoints -/

section Signed

theorem eraseDups_of_nodup {l : List ℕ} (h : l.Nodup) : l.eraseDups = l := by
  induction l with
  | nil => rfl
  | cons a l ih =>
    obtain ⟨ha, hl⟩ := List.nodup_cons.mp h
    have hfilter : l.filter (fun b => !b == a) = l := by
      refine List.filter_eq_self.mpr fun b hb => ?_
      simp only [Bool.not_eq_eq_eq_not, Bool.not_true, beq_eq_false_iff_ne]
      exact fun hab => ha (hab ▸ hb)
    rw [List.eraseDups_cons, hfilter, ih hl]

theorem length_eraseDups_le (l : List ℕ) : l.eraseDups.length ≤ l.length := by
  induction hlen : l.length using Nat.strong_induction_on generalizing l with
  | _ n ih =>
    cases l with
    | nil => simp
    | cons a l =>
      have hle : (l.filter fun b => !b == a).length ≤ l.length := List.length_filter_le _ _
      rw [List.length_cons] at hlen
      have hrec := ih _ (by omega) (l.filter fun b => !b == a) rfl
      rw [List.eraseDups_cons, List.length_cons]
      omega

/-- A list that loses nothing has no duplicates. -/
theorem nodup_of_length_eraseDups {l : List ℕ} (h : l.eraseDups.length = l.length) : l.Nodup := by
  induction l with
  | nil => exact List.nodup_nil
  | cons a l ih =>
    have hle := length_eraseDups_le (l.filter fun b => !b == a)
    have hfilter : (l.filter fun b => !b == a).length ≤ l.length := List.length_filter_le _ _
    rw [List.eraseDups_cons, List.length_cons, List.length_cons] at h
    have hself : l.filter (fun b => !b == a) = l := List.filter_eq_self.mpr
      (List.length_filter_eq_length_iff.mp (by omega))
    refine List.nodup_cons.mpr ⟨fun ha => ?_, ih (by rw [hself] at h; omega)⟩
    rw [← hself, List.mem_filter] at ha
    simp at ha

theorem if_false_else_eq_true {p : Prop} [Decidable p] {b : Bool} :
    (if p then false else b) = true ↔ ¬p ∧ b = true := by
  by_cases h : p <;> simp [h]

/-- The aggregate of distinct members of the snapshot, more than two thirds of it. -/
theorem SignedCheckpoint.verify_eq_true_iff {bls : Bls} {sc : SignedCheckpoint} :
    sc.verify bls = true ↔
      sc.payload.rosterSnapshot.len ≠ 0 ∧ sc.signers.Nodup ∧
        (∀ s ∈ sc.signers, sc.payload.rosterSnapshot.contains s) ∧
        sc.signers.length * 3 > sc.payload.rosterSnapshot.len * 2 ∧
        ∃ keys, (sc.signers.mergeSort).mapM (fun signer =>
            (sc.payload.rosterSnapshot.blsKeyFor signer).filter bls.validPublicKey) = some keys ∧
          bls.verifyAggregate sc.aggregateSig sc.payload.signingBytes keys = true := by
  simp only [verify, verifyWithRegistry, if_false_else_eq_true, Bool.and_self, Bool.not_eq_true',
    Bool.not_eq_false, List.all_eq_true, Nat.not_le, ne_eq, Decidable.not_not]
  constructor
  · rintro ⟨hlen, hmembers, hquorum, hdistinct, hkeys⟩
    have hnodup := nodup_of_length_eraseDups hdistinct
    rw [eraseDups_of_nodup hnodup] at hmembers hquorum hkeys
    refine ⟨hlen, hnodup, hmembers, hquorum, ?_⟩
    split at hkeys
    · cases hkeys
    · exact ⟨_, by assumption, hkeys⟩
  · rintro ⟨hlen, hnodup, hmembers, hquorum, keys, hkeys, hverify⟩
    rw [eraseDups_of_nodup hnodup]
    refine ⟨hlen, hmembers, hquorum, rfl, ?_⟩
    rw [hkeys]
    exact hverify

end Signed

namespace Stream

/-! ## Files -/

variable {suite : Suite} {trusted : List Digest} {file : Pb.RecordStreamFile}
  {checkpoint : Pb.SignedCheckpoint} {sc : SignedCheckpoint} {items : List Pb.RecordItem}

theorem digest?_eq_some_iff {bytes : List UInt8} {d : Digest} :
    digest? bytes = some d ↔ bytes.length = 32 ∧ fromBe bytes = d := by
  rw [digest?]
  split <;> simp_all

theorem hashObjectDigest_eq_some_iff {hash : Pb.HashObject} {d : Digest} :
    hashObjectDigest hash = some d ↔
      hash.algorithm = 0 ∧ hash.length = 32 ∧ hash.hash.length = 32 ∧ fromBe hash.hash = d := by
  rw [hashObjectDigest]
  split
  · rename_i hbad
    simp only [reduceCtorEq, false_iff]
    rintro ⟨halgorithm, hlength, -⟩
    exact hbad.elim (absurd halgorithm) (absurd hlength)
  · rename_i hgood
    push Not at hgood
    rw [digest?_eq_some_iff, and_iff_right hgood.1, and_iff_right hgood.2]

/-- What is accepted of a file, with its running hashes and its checkpoint. -/
structure Accepted (suite : Suite) (trusted : List Digest) (file : Pb.RecordStreamFile)
    (start finish : Digest) (checkpoint : Pb.SignedCheckpoint) (sc : SignedCheckpoint) : Prop where
  version : file.version = streamVersion
  checkpoint_eq : file.checkpoint = some checkpoint
  round_eq : file.round = checkpoint.round
  start_eq : file.startRunningHash.bind hashObjectDigest = some start
  finish_eq : file.endRunningHash.bind hashObjectDigest = some finish
  chain : chainItems suite.crypto.sha start file.items = finish
  converted : protoToSignedCheckpoint suite checkpoint = some sc
  rosterHash : sc.payload.rosterHash ∈ trusted
  verified : sc.verify suite.bls = true
  recordsRoot : recordsRootFromItems suite file.items = .ok (some sc.payload.recordsRoot)

theorem verifyCheckpointBindingSet_eq_true_iff :
    verifyCheckpointBindingSet suite checkpoint trusted items = .ok true ↔
      ∃ sc, protoToSignedCheckpoint suite checkpoint = some sc ∧
        sc.payload.rosterHash ∈ trusted ∧ sc.verify suite.bls = true ∧
        recordsRootFromItems suite items = .ok (some sc.payload.recordsRoot) := by
  rw [verifyCheckpointBindingSet]
  cases protoToSignedCheckpoint suite checkpoint with
  | none => simp
  | some sc =>
    simp only [Option.some.injEq, exists_eq_left']
    by_cases htrusted : sc.payload.rosterHash ∈ trusted
    · rw [if_neg (not_not.mpr htrusted), and_iff_right htrusted]
      by_cases hverify : sc.verify suite.bls = true
      · rw [if_neg (by simp [hverify]), and_iff_right hverify, bind_eq_ok_iff]
        constructor
        · rintro ⟨computed, hcomputed, hroot⟩
          rw [hcomputed, eq_of_beq (Except.ok.inj hroot)]
        · intro hcomputed
          exact ⟨_, hcomputed, congrArg Except.ok (beq_self_eq_true _)⟩
      · rw [if_pos (by simp [hverify])]
        simp [hverify]
    · rw [if_pos htrusted]
      simp [htrusted]

theorem readRecordStreamFile_eq_ok_iff {content : Content} :
    readRecordStreamFile content = .ok file ↔
      content = .ok file ∧ file.version = streamVersion ∧
        (∃ checkpoint, file.checkpoint = some checkpoint ∧ file.round = checkpoint.round) ∧
        (file.startRunningHash.bind hashObjectDigest).isSome ∧
        (file.endRunningHash.bind hashObjectDigest).isSome := by
  have hconsistent : ∀ file : Pb.RecordStreamFile, checkRoundConsistency file = .ok () ↔
      ∃ checkpoint, file.checkpoint = some checkpoint ∧ file.round = checkpoint.round := by
    intro file
    rw [checkRoundConsistency]
    cases file.checkpoint with
    | none => simp
    | some checkpoint => simp
  rw [readRecordStreamFile, bind_eq_ok_iff]
  constructor
  · rintro ⟨file', hcontent, hrest⟩
    obtain ⟨hversion, hrest⟩ := check_bind_eq_ok_iff.mp hrest
    obtain ⟨_, hround, hrest⟩ := bind_eq_ok_iff.mp hrest
    obtain ⟨hhashes, hreturn⟩ := check_bind_eq_ok_iff.mp hrest
    obtain rfl := Except.ok.inj hreturn
    exact ⟨hcontent, hversion, (hconsistent file').mp hround, hhashes⟩
  · rintro ⟨hcontent, hversion, hround, hhashes⟩
    refine ⟨file, hcontent, check_bind_eq_ok_iff.mpr ⟨hversion, ?_⟩⟩
    refine bind_eq_ok_iff.mpr ⟨(), (hconsistent file).mpr hround, ?_⟩
    exact check_bind_eq_ok_iff.mpr ⟨hhashes, rfl⟩

theorem digestOrErr_eq_ok_iff {hash : Option Pb.HashObject} {label : List Char} {d : Digest} :
    digestOrErr hash label = .ok d ↔ hash.bind hashObjectDigest = some d := by
  rw [digestOrErr]
  cases hash.bind hashObjectDigest <;> simp

/-- The checks on a file alone. -/
theorem checkRecordFile_eq_ok_iff :
    checkRecordFile suite trusted (.ok file) = .ok () ↔
      ∃ start finish checkpoint sc, Accepted suite trusted file start finish checkpoint sc := by
  rw [checkRecordFile, bind_eq_ok_iff]
  constructor
  · rintro ⟨file', hread, hrest⟩
    obtain ⟨hcontent, hversion, ⟨checkpoint, hcheckpoint, hround⟩, -⟩ :=
      readRecordStreamFile_eq_ok_iff.mp hread
    obtain rfl := Except.ok.inj hcontent
    obtain ⟨start, hstart, hrest⟩ := bind_eq_ok_iff.mp hrest
    obtain ⟨finish, hfinish, hrest⟩ := bind_eq_ok_iff.mp hrest
    obtain ⟨_, hchain, hrest⟩ := bind_eq_ok_iff.mp hrest
    rw [hcheckpoint] at hrest
    obtain ⟨bound, hbound, hcheck⟩ := bind_eq_ok_iff.mp hrest
    rw [check_eq_ok_iff.mp hcheck] at hbound
    obtain ⟨sc, hsc, htrusted, hverify, hroot⟩ :=
      verifyCheckpointBindingSet_eq_true_iff.mp hbound
    exact ⟨start, finish, checkpoint, sc, hversion, hcheckpoint, hround,
      digestOrErr_eq_ok_iff.mp hstart, digestOrErr_eq_ok_iff.mp hfinish,
      check_eq_ok_iff.mp hchain, hsc, htrusted, hverify, hroot⟩
  · rintro ⟨start, finish, checkpoint, sc, h⟩
    refine ⟨file, readRecordStreamFile_eq_ok_iff.mpr ⟨rfl, h.version,
      ⟨checkpoint, h.checkpoint_eq, h.round_eq⟩, Option.isSome_of_eq_some h.start_eq,
      Option.isSome_of_eq_some h.finish_eq⟩, ?_⟩
    refine bind_eq_ok_iff.mpr ⟨start, digestOrErr_eq_ok_iff.mpr h.start_eq, ?_⟩
    refine bind_eq_ok_iff.mpr ⟨finish, digestOrErr_eq_ok_iff.mpr h.finish_eq, ?_⟩
    refine bind_eq_ok_iff.mpr ⟨(), check_eq_ok_iff.mpr h.chain, ?_⟩
    rw [h.checkpoint_eq]
    refine bind_eq_ok_iff.mpr ⟨true, verifyCheckpointBindingSet_eq_true_iff.mpr
      ⟨sc, h.converted, h.rosterHash, h.verified, h.recordsRoot⟩, ?_⟩
    exact check_eq_ok_iff.mpr rfl

theorem checkChainLink_eq_ok_iff {start : Digest} {previousEnd : Option Digest} {label : String} :
    checkChainLink start previousEnd label = .ok () ↔ start = previousEnd.getD chainSeed := by
  cases previousEnd <;> exact check_eq_ok_iff

/-- The checks on a file in its place: the same, and its start is where the file before ends. -/
theorem verifyRecord_eq_ok_iff {previousEnd : Option Digest} {round : ℕ} {name : List Char}
    {content : Content} {finish : Digest} :
    verifyRecord suite trusted previousEnd round name content = .ok finish ↔
      ∃ file checkpoint sc, content = .ok file ∧
        Accepted suite trusted file (previousEnd.getD chainSeed) finish checkpoint sc := by
  rw [verifyRecord, bind_eq_ok_iff]
  constructor
  · rintro ⟨file, hread, hrest⟩
    obtain ⟨hcontent, hversion, ⟨checkpoint, hcheckpoint, hround⟩, -⟩ :=
      readRecordStreamFile_eq_ok_iff.mp hread
    obtain ⟨start, hstart, hrest⟩ := bind_eq_ok_iff.mp hrest
    obtain ⟨finish', hfinish, hrest⟩ := bind_eq_ok_iff.mp hrest
    obtain ⟨_, hlink, hrest⟩ := bind_eq_ok_iff.mp hrest
    obtain ⟨_, hchain, hrest⟩ := bind_eq_ok_iff.mp hrest
    rw [hcheckpoint] at hrest
    obtain ⟨bound, hbound, hrest⟩ := bind_eq_ok_iff.mp hrest
    obtain ⟨hcheck, hreturn⟩ := check_bind_eq_ok_iff.mp hrest
    obtain rfl := Except.ok.inj hreturn
    rw [hcheck] at hbound
    obtain ⟨sc, hsc, htrusted, hverify, hroot⟩ :=
      verifyCheckpointBindingSet_eq_true_iff.mp hbound
    rw [← checkChainLink_eq_ok_iff.mp hlink]
    exact ⟨file, checkpoint, sc, hcontent, hversion, hcheckpoint, hround,
      digestOrErr_eq_ok_iff.mp hstart, digestOrErr_eq_ok_iff.mp hfinish,
      check_eq_ok_iff.mp hchain, hsc, htrusted, hverify, hroot⟩
  · rintro ⟨file, checkpoint, sc, hcontent, h⟩
    refine ⟨file, readRecordStreamFile_eq_ok_iff.mpr ⟨hcontent, h.version,
      ⟨checkpoint, h.checkpoint_eq, h.round_eq⟩, Option.isSome_of_eq_some h.start_eq,
      Option.isSome_of_eq_some h.finish_eq⟩, ?_⟩
    refine bind_eq_ok_iff.mpr ⟨_, digestOrErr_eq_ok_iff.mpr h.start_eq, ?_⟩
    refine bind_eq_ok_iff.mpr ⟨finish, digestOrErr_eq_ok_iff.mpr h.finish_eq, ?_⟩
    refine bind_eq_ok_iff.mpr ⟨(), checkChainLink_eq_ok_iff.mpr rfl, ?_⟩
    refine bind_eq_ok_iff.mpr ⟨(), check_eq_ok_iff.mpr h.chain, ?_⟩
    rw [h.checkpoint_eq]
    refine bind_eq_ok_iff.mpr ⟨true, verifyCheckpointBindingSet_eq_true_iff.mpr
      ⟨sc, h.converted, h.rosterHash, h.verified, h.recordsRoot⟩, ?_⟩
    exact check_bind_eq_ok_iff.mpr ⟨rfl, rfl⟩

/-! ## Conversions -/

theorem guard_eq_some_iff {p : Prop} [Decidable p] {u : Unit} :
    (guard p : Option Unit) = some u ↔ p := by
  by_cases h : p <;> simp [guard, h]

/-- The checkpoint in the form of the consensus node, with the roster of its snapshot. -/
def convertedCheckpoint (checkpoint : Pb.SignedCheckpoint) (registry : MembershipRegistry) :
    SignedCheckpoint :=
  ⟨⟨checkpoint.round.toNat, fromBe checkpoint.recordsRoot, fromBe checkpoint.stateHash,
    fromBe checkpoint.rosterHash, fromBe checkpoint.prevCheckpointHash,
    fromBe checkpoint.windowRoot, fromBe checkpoint.rosterHistoryRoot, registry⟩,
    checkpoint.aggregateSig, checkpoint.signers.map UInt64.toNat⟩

/-- The widths of the fields of a checkpoint that the consensus node asks for. -/
structure Widths (checkpoint : Pb.SignedCheckpoint) : Prop where
  stateHash : checkpoint.stateHash.length = 32
  rosterHash : checkpoint.rosterHash.length = 32
  recordsRoot : checkpoint.recordsRoot.length = 32
  prevCheckpointHash : checkpoint.prevCheckpointHash.length = 32
  windowRoot : checkpoint.windowRoot.length = 32
  rosterHistoryRoot : checkpoint.rosterHistoryRoot.length = 32
  aggregateSig : checkpoint.aggregateSig.length = 96

theorem protoToSignedCheckpoint_eq_some_iff :
    protoToSignedCheckpoint suite checkpoint = some sc ↔
      Widths checkpoint ∧ suite.bls.validSignature checkpoint.aggregateSig ∧
        ∃ registry, rosterFromMembers suite checkpoint.rosterSnapshot = some registry ∧
          registry.hash suite.crypto.sha = fromBe checkpoint.rosterHash ∧
          sc = convertedCheckpoint checkpoint registry := by
  simp only [protoToSignedCheckpoint, Option.bind_eq_bind, Option.bind_eq_some_iff,
    digest?_eq_some_iff, guard_eq_some_iff, exists_const]
  constructor
  · rintro ⟨_, ⟨hstate, rfl⟩, _, ⟨hroster, rfl⟩, _, ⟨hrecords, rfl⟩, _, ⟨hprev, rfl⟩, _,
      ⟨hwindow, rfl⟩, _, ⟨hhistory, rfl⟩, ⟨haggregate, hvalid⟩, registry, hregistry, hhash, hsc⟩
    exact ⟨⟨hstate, hroster, hrecords, hprev, hwindow, hhistory, haggregate⟩, hvalid, registry,
      hregistry, hhash, (Option.some.inj hsc).symm⟩
  · rintro ⟨hwidths, hvalid, registry, hregistry, hhash, rfl⟩
    exact ⟨_, ⟨hwidths.stateHash, rfl⟩, _, ⟨hwidths.rosterHash, rfl⟩, _,
      ⟨hwidths.recordsRoot, rfl⟩, _, ⟨hwidths.prevCheckpointHash, rfl⟩, _,
      ⟨hwidths.windowRoot, rfl⟩, _, ⟨hwidths.rosterHistoryRoot, rfl⟩,
      ⟨hwidths.aggregateSig, hvalid⟩, registry, hregistry, hhash, rfl⟩

end Stream

end JKain
