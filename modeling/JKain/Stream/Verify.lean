import JKain.Stream.Record
import JKain.Consensus.Signed
import JKain.Lib.Checks

/-!
# The verifier of the consensus node

What the consensus node checks of a directory of record files: the rounds in the names of the files
are consecutive, each file continues the running hash of the one before, and the checkpoint of each
file carries an aggregate signature under a trusted roster and commits to the items of the file.
-/

namespace JKain

open Std Lib

/-- The primitives the stream files are verified with. `ikmKey` is the public key of
`BlsIdentity::from_ikm` on 32 copies of a byte. -/
structure Suite where
  crypto : Crypto
  bls : Bls
  ikmKey : UInt8 → Option (List UInt8)

namespace Stream

/-- `StreamError`, as far as the verifiers can raise it, and the panic of `compute_records_root` on a
payload too long for its length prefix. -/
inductive StreamError
  | io
  | badVersion (version : UInt32)
  | badSigFileVersion (version : UInt8)
  | decode
  | malformed (text : String)
  | chainDiscontinuity (text : String)
  | badSignature
  | badMetadataSignature
  | badQuorum
  | badChainStart
  | trailingBytes
  | missingSignature (name : String)
  | emptyDirectory
  | roundGap (expected found : ℕ)
  | noTrustedRoster
  | panic
  deriving DecidableEq

/-! ## Conversions -/

/-- `try_into` to 32 bytes. -/
def digest? (bytes : List UInt8) : Option Digest :=
  if bytes.length = 32 then some (fromBe bytes) else none

/-- `hash_object_digest`. -/
def hashObjectDigest (hash : Pb.HashObject) : Option Digest :=
  if hash.algorithm ≠ 0 ∨ hash.length ≠ 32 then none else digest? hash.hash

section Rust

variable (suite : Suite)

/-- One member of `roster_from_members`. -/
def addMember (registry : MembershipRegistry) (member : Pb.CheckpointRosterMember) :
    Option MembershipRegistry := do
  let node := member.nodeId.toNat
  guard (!registry.contains node)
  guard (member.key.length = 32 ∧ suite.crypto.validKey member.key)
  let blsKey ←
    if member.blsKey.isEmpty then suite.ikmKey member.nodeId.toUInt8
    else if member.blsKey.length = 48 then some member.blsKey else none
  guard (member.pop.isEmpty ∨ member.pop.length = 96)
  guard (suite.bls.validPublicKey blsKey)
  return registry.register node member.key blsKey

/-- `roster_from_members`. -/
def rosterFromMembers (members : List Pb.CheckpointRosterMember) : Option MembershipRegistry :=
  members.foldlM (addMember suite) .new

/-- `proto_to_signed_checkpoint`. -/
def protoToSignedCheckpoint (checkpoint : Pb.SignedCheckpoint) : Option SignedCheckpoint := do
  let stateHash ← digest? checkpoint.stateHash
  let rosterHash ← digest? checkpoint.rosterHash
  let recordsRoot ← digest? checkpoint.recordsRoot
  let prevCheckpointHash ← digest? checkpoint.prevCheckpointHash
  let windowRoot ← digest? checkpoint.windowRoot
  let rosterHistoryRoot ← digest? checkpoint.rosterHistoryRoot
  guard (checkpoint.aggregateSig.length = 96 ∧ suite.bls.validSignature checkpoint.aggregateSig)
  let rosterSnapshot ← rosterFromMembers suite checkpoint.rosterSnapshot
  guard (rosterSnapshot.hash suite.crypto.sha = rosterHash)
  return ⟨⟨checkpoint.round.toNat, recordsRoot, stateHash, rosterHash, prevCheckpointHash,
    windowRoot, rosterHistoryRoot, rosterSnapshot⟩, checkpoint.aggregateSig,
    checkpoint.signers.map UInt64.toNat⟩

/-! ## Reading a file -/

/-- The bytes of a file as far as decoding them goes: the message, or the error of reading the file,
of decoding it, or of comparing its length with that of the message. -/
abbrev Content := Except StreamError Pb.RecordStreamFile

/-- `check_round_consistency`. -/
def checkRoundConsistency (file : Pb.RecordStreamFile) : Except StreamError Unit :=
  match file.checkpoint with
  | none => .error (.malformed "record stream file has no checkpoint anchor")
  | some checkpoint =>
    check (file.round = checkpoint.round)
      (.malformed (s!"record stream file round {file.round} disagrees with its " ++
        s!"checkpoint round {checkpoint.round}"))

/-- `read_record_stream_file`. -/
def readRecordStreamFile (content : Content) : Except StreamError Pb.RecordStreamFile := do
  let file ← content
  check (file.version = streamVersion) (.badVersion file.version)
  checkRoundConsistency file
  check ((file.startRunningHash.bind hashObjectDigest).isSome ∧
      (file.endRunningHash.bind hashObjectDigest).isSome)
    (.malformed "record stream file is missing a running-hash commitment")
  return file

/-- `digest_or_err`. -/
def digestOrErr (hash : Option Pb.HashObject) (label : List Char) : Except StreamError Digest :=
  match hash.bind hashObjectDigest with
  | some digest => .ok digest
  | none => .error (.malformed (String.ofList label ++ " is missing a running hash"))

/-! ## Verifying a file -/

/-- `check_chain_link`. -/
def checkChainLink (start : Digest) (previousEnd : Option Digest) (label : String) :
    Except StreamError Unit :=
  match previousEnd with
  | none => check (start = chainSeed) .badChainStart
  | some previous => check (start = previous) (.chainDiscontinuity label)

/-- `verify_item_chain`, over record items. -/
def verifyItemChain (start finish : Digest) (items : List Pb.RecordItem) :
    Except StreamError Unit :=
  check (chainItems suite.crypto.sha start items = finish)
    (.chainDiscontinuity "end_running_hash does not match the recomputed chain")

/-- One item of `records_root_from_items`. -/
def recordsRootItem? (item : Pb.RecordItem) : Option RecordsRootItem := do
  let hash ← digest? item.eventHash
  return ⟨hash, item.txIndex.toNat, item.txPayload⟩

/-- `records_root_from_items`. -/
def recordsRootFromItems (items : List Pb.RecordItem) : Except StreamError (Option Digest) :=
  match items.mapM recordsRootItem? with
  | none => .ok none
  | some items =>
    match tryComputeRecordsRoot suite.crypto.sha items with
    | .ok root => .ok (some root)
    | .error _ => .error .panic

/-- `verify_checkpoint_binding_set`. -/
def verifyCheckpointBindingSet (checkpoint : Pb.SignedCheckpoint) (trusted : List Digest)
    (items : List Pb.RecordItem) : Except StreamError Bool :=
  match protoToSignedCheckpoint suite checkpoint with
  | none => .ok false
  | some cp =>
    if cp.payload.rosterHash ∉ trusted then .ok false
    else if !cp.verify suite.bls then .ok false
    else do
      let computed ← recordsRootFromItems suite items
      return computed == some cp.payload.recordsRoot

/-- The checks on a file that do not depend on its place in the directory. -/
def checkRecordFile (trusted : List Digest) (content : Content) : Except StreamError Unit := do
  let file ← readRecordStreamFile content
  let start ← digestOrErr file.startRunningHash []
  let finish ← digestOrErr file.endRunningHash []
  verifyItemChain suite start finish file.items
  match file.checkpoint with
  | none => throw (.malformed "record stream file has no checkpoint anchor")
  | some checkpoint => do
    let bound ← verifyCheckpointBindingSet suite checkpoint trusted file.items
    check bound .badQuorum

/-- The checks of one file in the loop of `verify_record_stream_dir_rosters`, from the read on; its
result is the running hash behind the file. -/
def verifyRecord (trusted : List Digest) (previousEnd : Option Digest) (round : ℕ)
    (name : List Char) (content : Content) : Except StreamError Digest := do
  let file ← readRecordStreamFile content
  let start ← digestOrErr file.startRunningHash name
  let finish ← digestOrErr file.endRunningHash name
  checkChainLink start previousEnd s!"record file for round {round}"
  verifyItemChain suite start finish file.items
  match file.checkpoint with
  | none => throw (.malformed s!"record file for round {round} has no checkpoint anchor")
  | some checkpoint => do
    let bound ← verifyCheckpointBindingSet suite checkpoint trusted file.items
    check bound .badQuorum
    return finish

/-! ## Verifying a directory -/

/-- The entries of a directory, in the order in which they are listed. -/
abbrev Dir := List (List Char × Content)

/-- The round in a file name: `parse::<u64>`, which allows a sign in front. -/
def recordNameRound (name : List Char) : Option ℕ :=
  (strip recordFilePrefix recordFileSuffix name).bind fun
    | '+' :: digits => parseDigits digits
    | digits => parseDigits digits

/-- `record_files_in`. -/
def recordFilesIn (dir : Dir) : List (ℕ × List Char × Content) :=
  (dir.filterMap fun (name, content) =>
    (recordNameRound name).map fun round => (round, name, content)).insertionSort (·.1 ≤ ·.1)

/-- The round a file must have behind the previous one. -/
def checkNextRound (previousRound : Option ℕ) (round : ℕ) : Except StreamError Unit :=
  match previousRound with
  | none => .ok ()
  | some previous =>
    if 2 ^ 64 ≤ previous + 1 then .error (.roundGap (2 ^ 64 - 1) round)
    else check (round = previous + 1) (.roundGap (previous + 1) round)

/-- The loop of `verify_record_stream_dir_rosters`. -/
def verifyRecords (trusted : List Digest) :
    Option Digest → Option ℕ → List (ℕ × List Char × Content) → Except StreamError Unit
  | _, _, [] => .ok ()
  | previousEnd, previousRound, (round, name, content) :: rest => do
    checkNextRound previousRound round
    let finish ← verifyRecord suite trusted previousEnd round name content
    verifyRecords trusted (some finish) (some round) rest

/-- `verify_record_stream_dir_rosters`. -/
def verifyRecordStreamDirRosters (dir : Dir) (trusted : List Digest) : Except StreamError Unit :=
  if trusted.isEmpty then .error .noTrustedRoster
  else if (recordFilesIn dir).isEmpty then .error .emptyDirectory
  else verifyRecords suite trusted none none (recordFilesIn dir)

end Rust

end Stream

end JKain
