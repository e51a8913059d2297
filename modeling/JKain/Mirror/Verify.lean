import JKain.Stream.Record
import JKain.Crypto.Registry
import JKain.Consensus.Checkpoint
import JKain.Lib.Checks

/-!
# The verifier of the mirror node

The mirror checks a record file on its own, in another language and with other rules about the
lengths of fields than the consensus node. Byte arrays of length 32 are digests here, byte slices are
lists of bytes; `copy` into an array cuts a slice or leaves zeros behind it. Errors are the texts the
mirror reports.
-/

namespace JKain.Mirror

open Std Lib JKain.Stream

/-- `maxStateDiffsPerRound`. -/
def maxStateDiffsPerRound : ℕ := 10000

/-- `maxDiffKeyBytes`. -/
def maxDiffKeyBytes : ℕ := 1024

/-- `maxDiffValueBytes`. -/
def maxDiffValueBytes : ℕ := 2 ^ 20

/-- `maxRecordItemsPerFile`. -/
def maxRecordItemsPerFile : ℕ := 2 ^ 16

/-- The verb `%x`. -/
def hex (bytes : List UInt8) : String :=
  String.ofList (bytes.flatMap fun byte =>
    [Nat.digitChar (byte.toNat / 16), Nat.digitChar (byte.toNat % 16)])

/-- `copy` into an array of 32 zeros. -/
def copy32 (bytes : List UInt8) : List UInt8 :=
  bytes.take 32 ++ List.replicate (32 - bytes.length) 0

/-- `runningHashOrErr`. -/
def runningHashOrErr (hash : Option Pb.HashObject) : Except String Digest :=
  match hash with
  | none => .error "missing running hash"
  | some h =>
    if h.algorithm ≠ 0 ∨ h.length ≠ 32 ∨ h.hash.length ≠ 32 then
      .error (s!"invalid running hash object: algorithm={h.algorithm} length={h.length} " ++
        s!"hashLen={h.hash.length}")
    else .ok (fromBe h.hash)

section Verify

variable (sha : Sha256)

/-- `verifyRunningHashRecord`. -/
def verifyRunningHashRecord (start finish : Digest) (items : List Pb.RecordItem) :
    Except String Unit :=
  let cur := items.foldl (fun cur item => chainHash sha cur (itemHash sha item.encode)) start
  check (cur = finish)
    ("running hash mismatch: got " ++ hex (digestBytes cur) ++ " want " ++ hex (digestBytes finish))

/-! ## The records root -/

/-- `leafHash`: the event hash is hashed with whatever length it has. -/
def leafHash (item : Pb.RecordItem) : Except String Digest :=
  if item.txPayload.length > 2 ^ 32 - 1 then
    .error s!"TxPayload length {item.txPayload.length} exceeds u32::MAX"
  else .ok (sha (0x00 :: (item.eventHash ++ beBytes 4 item.txIndex.toNat ++
    beBytes 4 item.txPayload.length ++ item.txPayload)))

/-- `for paddedLen < len(leaves) { paddedLen <<= 1 }`, with the number of leaves as fuel. -/
def paddedLen : ℕ → ℕ → ℕ → ℕ
  | 0, padded, _ => padded
  | fuel + 1, padded, len => if padded < len then paddedLen fuel (padded * 2) len else padded

/-- `ComputeRecordsRoot`: an item that has no leaf hash counts as an empty leaf. -/
def computeRecordsRoot (items : List Pb.RecordItem) : Digest :=
  if items.isEmpty then emptyHash sha
  else
    let leaves := items.map fun item => (leafHash sha item).toOption.getD (emptyHash sha)
    let level := leaves ++ List.replicate (paddedLen leaves.length 1 leaves.length - leaves.length)
      (emptyHash sha)
    foldLevels sha level.length level

/-- `VerifyRecordsProof`. -/
def verifyRecordsProof (root : Digest) (item : Pb.RecordItem) (proof : Pb.ProofEntry) : Bool :=
  match leafHash sha item with
  | .error _ => false
  | .ok leaf =>
    match proof.proofSteps.foldlM (fun cur step =>
        if step.siblingHash.length ≠ 32 then none
        else if step.siblingIsRight then some (combineHash sha cur (fromBe step.siblingHash))
        else some (combineHash sha (fromBe step.siblingHash) cur)) leaf with
    | none => false
    | some cur => cur == root

/-- The loop of `VerifyRecordsProofFile` over the entries from the given index on. -/
def verifyProofEntries (root : Digest) :
    ℕ → List Pb.RecordItem → List Pb.ProofEntry → Except String Unit
  | i, item :: items, entry :: entries => do
    check (entry.itemIndex.toNat = i) s!"proof entry {i} has item_index {entry.itemIndex}"
    forM entry.proofSteps fun step =>
      check (step.siblingHash.length = 32)
        s!"proof {i} step sibling_hash is {step.siblingHash.length} bytes, want 32"
    check (verifyRecordsProof sha root item entry) s!"proof verification failed for item {i}"
    verifyProofEntries root (i + 1) items entries
  | _, _, _ => .ok ()

/-- `VerifyRecordsProofFile`. -/
def verifyRecordsProofFile (proofFile : Pb.RecordsProofFile) (items : List Pb.RecordItem)
    (recordsRoot : List UInt8) : Except String Unit := do
  check (proofFile.version = streamVersion)
    s!"unsupported proof file version {proofFile.version}"
  check (recordsRoot.length = 32) s!"recordsRoot is {recordsRoot.length} bytes, want 32"
  if items.isEmpty then
    check (proofFile.proofs.length = 0)
      s!"empty items must have zero proofs, got {proofFile.proofs.length}"
  else do
    check (proofFile.proofs.length = items.length)
      s!"proof count {proofFile.proofs.length} != items count {items.length}"
    verifyProofEntries sha (fromBe recordsRoot) 0 items proofFile.proofs

/-- `VerifyRecordsProofFileBytes`, on the message the bytes decode to. -/
def verifyRecordsProofFileBytes (proofFile : Except String Pb.RecordsProofFile)
    (items : List Pb.RecordItem) (recordsRoot : List UInt8) (expectedRound : UInt64) :
    Except String Unit := do
  let pf ← proofFile.mapError ("unmarshal proof file: " ++ ·)
  check (pf.round = expectedRound) s!"proof file round {pf.round} != expected {expectedRound}"
  verifyRecordsProofFile sha pf items recordsRoot

/-! ## State diffs -/

/-- The loop of `ValidateStateDiffs`, at index `i` behind the keys `seen`. -/
def validateDiffs : ℕ → List (List UInt8) → List Pb.StateDiff → Except String Unit
  | _, _, [] => .ok ()
  | i, seen, diff :: rest => do
    let valueLen := (diff.value.getD []).length
    check (diff.key.length ≠ 0) s!"state_diff[{i}] has empty key"
    check (diff.key.length ≤ maxDiffKeyBytes)
      s!"state_diff[{i}] key is {diff.key.length} bytes, want at most {maxDiffKeyBytes}"
    check (valueLen ≤ maxDiffValueBytes)
      s!"state_diff[{i}] value is {valueLen} bytes, want at most {maxDiffValueBytes}"
    check (diff.key ∉ seen) ("state_diff duplicate key " ++ hex diff.key ++ s!" at index {i}")
    check (∀ prev ∈ seen.head?, compare prev diff.key = .lt)
      s!"state_diffs not sorted at index {i}"
    validateDiffs (i + 1) (diff.key :: seen) rest

/-- `ValidateStateDiffs`. -/
def validateStateDiffs (diffs : List Pb.StateDiff) : Except String Unit := do
  check (diffs.length ≤ maxStateDiffsPerRound)
    s!"state_diffs count {diffs.length} exceeds limit {maxStateDiffsPerRound}"
  validateDiffs 0 [] diffs

/-! ## Checkpoints -/

/-- `CheckpointSigningBytes`. -/
def checkpointSigningBytes (cp : Pb.SignedCheckpoint) : List UInt8 :=
  beBytes 8 cp.round.toNat ++ copy32 cp.recordsRoot ++ copy32 cp.stateHash ++
    copy32 cp.rosterHash ++ copy32 cp.prevCheckpointHash ++ copy32 cp.windowRoot ++
    copy32 cp.rosterHistoryRoot

/-- `CheckpointSigningBytesHash`. -/
def checkpointSigningBytesHash (cp : Pb.SignedCheckpoint) : Digest :=
  sha (checkpointSigningBytes cp)

/-- The map of `rosterCanonicalBytes`: the last entry of an id is kept. -/
def rosterEntries (members : List Pb.CheckpointRosterMember) :
    Except String (ExtTreeMap NodeId MemberKeys) :=
  members.foldlM (fun entries m =>
    if m.key.length ≠ 32 then
      .error (s!"roster member {m.nodeId} has a {m.key.length}-byte ed25519 key, want 32")
    else if m.blsKey.length ≠ 48 then
      .error (s!"roster member {m.nodeId} has a {m.blsKey.length}-byte bls_key, want 48")
    else .ok (entries.insert m.nodeId.toNat ⟨m.key, m.blsKey⟩)) ∅

/-- `rosterCanonicalBytes`. -/
def rosterCanonicalBytes (members : List Pb.CheckpointRosterMember) :
    Except String (List UInt8) := do
  let entries ← rosterEntries members
  return entries.toList.flatMap fun (id, entry) => beBytes 8 id ++ entry.key ++ entry.blsKey

/-- The loop over the signers: each of them once. -/
def distinctSigners (seen : List NodeId) : List UInt64 → Except String (List NodeId)
  | [] => .ok seen
  | s :: rest =>
    if s.toNat ∈ seen then .error s!"duplicate signer {s}"
    else distinctSigners (seen ++ [s.toNat]) rest

/-- `blsKeyByID`. -/
def blsKeyById (members : List Pb.CheckpointRosterMember) : ExtTreeMap NodeId (List UInt8) :=
  members.foldl (fun keys m => keys.insert m.nodeId.toNat m.blsKey) ∅

/-- The public key of a signer: a point that passes `KeyValidate`. -/
def signerKey (bls : Bls) (keys : ExtTreeMap NodeId (List UInt8)) (id : NodeId) :
    Except String (List UInt8) :=
  let blsKey := keys[id]?.getD []
  if !bls.validPublicKey blsKey then .error s!"invalid bls_key for signer {id}" else .ok blsKey

/-- A length check on a field of the checkpoint. -/
def wantLength (field : String) (bytes : List UInt8) (len : ℕ) : Except String Unit :=
  check (bytes.length = len) ("checkpoint " ++ field ++ s!" is {bytes.length} bytes, want {len}")

/-- `verifyCheckpointQuorum`. -/
def verifyCheckpointQuorum (bls : Bls) (cp : Pb.SignedCheckpoint)
    (trustedRosterHash : List UInt8) : Except String Unit := do
  wantLength "state hash" cp.stateHash 32
  wantLength "roster hash" cp.rosterHash 32
  check (cp.recordsRoot.length = 32 ∨ cp.recordsRoot.length = 0)
    s!"checkpoint records_root is {cp.recordsRoot.length} bytes, want 32"
  wantLength "prev_checkpoint_hash" cp.prevCheckpointHash 32
  let rosterBytes ← rosterCanonicalBytes cp.rosterSnapshot
  check (digestBytes (sha rosterBytes) = cp.rosterHash)
    "embedded roster snapshot does not hash to roster_hash"
  check (trustedRosterHash.length = 0 ∨ trustedRosterHash.length = 32)
    s!"trusted roster hash is {trustedRosterHash.length} bytes, want 32"
  check (trustedRosterHash.length = 0 ∨ cp.rosterHash = trustedRosterHash)
    "roster hash does not match trusted roster hash"
  wantLength "aggregate_sig" cp.aggregateSig 96
  let distinct ← distinctSigners [] cp.signers
  let keys := blsKeyById cp.rosterSnapshot
  let total := keys.size
  check (total ≠ 0) "empty roster snapshot"
  check (distinct.length * 3 > total * 2)
    s!"checkpoint quorum not met: {distinct.length} valid of {total} (need >2/3)"
  forM distinct fun s => check (s ∈ keys) s!"signer {s} not in roster snapshot"
  let pks ← (distinct.insertionSort (· ≤ ·)).mapM (signerKey bls keys)
  check (bls.validSignature cp.aggregateSig) "invalid aggregate_sig"
  check (bls.verifyAggregate cp.aggregateSig (checkpointSigningBytes cp) pks)
    "BLS aggregate verification failed"

/-- `verifyCheckpointBinding`. -/
def verifyCheckpointBinding (bls : Bls) (cp : Pb.SignedCheckpoint) (items : List Pb.RecordItem)
    (trustedRosterHash : List UInt8) : Except String Unit := do
  wantLength "state hash" cp.stateHash 32
  wantLength "roster hash" cp.rosterHash 32
  wantLength "records_root" cp.recordsRoot 32
  wantLength "prev_checkpoint_hash" cp.prevCheckpointHash 32
  let computed := computeRecordsRoot sha items
  check (digestBytes computed = cp.recordsRoot)
    ("records_root mismatch: computed " ++ hex (digestBytes computed) ++ " got " ++
      hex cp.recordsRoot)
  verifyCheckpointQuorum sha bls cp trustedRosterHash

/-- `VerifyRecordFile`, on the message the bytes of the file decode to. -/
def verifyRecordFile (bls : Bls) (file : Pb.RecordStreamFile) (trustedRosterHash : List UInt8) :
    Except String Unit := do
  check (file.version = streamVersion) s!"unsupported version {file.version}"
  check (file.items.length ≤ maxRecordItemsPerFile)
    (s!"record stream file has {file.items.length} items, want at most {maxRecordItemsPerFile}")
  let start ← runningHashOrErr file.startRunningHash
  let finish ← runningHashOrErr file.endRunningHash
  verifyRunningHashRecord sha start finish file.items
  match file.checkpoint with
  | none => throw "record stream file has no checkpoint anchor"
  | some cp => do
    check (cp.round = file.round)
      (s!"record stream file round {file.round} disagrees with its checkpoint round {cp.round}")
    (validateStateDiffs file.stateDiffs).mapError ("state_diffs invalid: " ++ ·)
    verifyCheckpointBinding sha bls cp file.items trustedRosterHash

end Verify

end JKain.Mirror
