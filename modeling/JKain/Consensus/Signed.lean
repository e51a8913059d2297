import JKain.Consensus.Transfer
import JKain.Crypto.Registry

/-!
# Signed checkpoints and their formats

A signed checkpoint is a payload with the aggregate of the signatures of more than two thirds of the
members of its own roster snapshot. It is sent to learners, written to disk and embedded in the
record stream; with it go the records of retained events and the roster history.
-/

namespace JKain

open Std

/-- `CheckpointSig`. -/
structure CheckpointSig where
  round : ℕ
  signer : NodeId
  sig : BlsSignature
  deriving DecidableEq

/-- `SignedCheckpoint`. -/
structure SignedCheckpoint where
  payload : CheckpointPayload
  aggregateSig : BlsSignature
  signers : List NodeId

namespace SignedCheckpoint

variable (bls : Bls)

/-- `verify_with_registry`: distinct signers, members of the snapshot and of the registry, more than
two thirds of the snapshot, whose aggregate under the keys of the snapshot verifies. -/
def verifyWithRegistry (sc : SignedCheckpoint) (registry : MembershipRegistry) : Bool :=
  let snapshot := sc.payload.rosterSnapshot
  let distinct := sc.signers.eraseDups
  if snapshot.len = 0 then false
  else if !distinct.all fun signer => snapshot.contains signer && registry.contains signer then
    false
  else if distinct.length * 3 ≤ snapshot.len * 2 then false
  else if distinct.length ≠ sc.signers.length then false
  else
    let sorted := distinct.mergeSort
    match sorted.mapM fun signer => (snapshot.blsKeyFor signer).filter bls.validPublicKey with
    | none => false
    | some keys => bls.verifyAggregate sc.aggregateSig sc.payload.signingBytes keys

/-- `SignedCheckpoint::verify`. -/
def verify (sc : SignedCheckpoint) : Bool := sc.verifyWithRegistry bls sc.payload.rosterSnapshot

/-- `encode_signed_checkpoint`. -/
def encode (sc : SignedCheckpoint) : Except OutOfRange (List UInt8) := do
  let rosterBytes := sc.payload.rosterSnapshot.toBytes
  let rosterLen ← tryU32 "SignedCheckpoint roster_snapshot length" rosterBytes.length
  let signerCount ← tryU32 "SignedCheckpoint signers length" sc.signers.length
  return beBytes 8 sc.payload.round ++ digestBytes sc.payload.recordsRoot ++
    digestBytes sc.payload.stateHash ++ digestBytes sc.payload.rosterHash ++
    digestBytes sc.payload.prevCheckpointHash ++ digestBytes sc.payload.windowRoot ++
    digestBytes sc.payload.rosterHistoryRoot ++ beBytes 4 rosterLen ++ rosterBytes ++
    beBytes 4 signerCount ++ sc.signers.flatMap (beBytes 8) ++ sc.aggregateSig

variable (c : Crypto)

/-- The fields of `decode_signed_checkpoint`. The snapshot must hash to the roster hash. -/
def take : Reader Unit SignedCheckpoint := do
  let round ← takeNat () 8
  let recordsRoot ← takeNat () 32
  let stateHash ← takeNat () 32
  let rosterHash ← takeNat () 32
  let prevCheckpointHash ← takeNat () 32
  let windowRoot ← takeNat () 32
  let rosterHistoryRoot ← takeNat () 32
  let rosterBytes ← takeBytes ()
  match MembershipRegistry.fromBytes c rosterBytes with
  | none => throw ()
  | some rosterSnapshot => do
    require (rosterSnapshot.hash c.sha = rosterHash) ()
    let signerCount ← takeNat () 4
    let cursor ← get
    require (signerCount ≤ (cursor.length - 96) / 8) ()
    let signers ← takeMany (takeNat () 8) signerCount
    let aggregateSig ← takeExact () 96
    require (bls.validSignature aggregateSig) ()
    return ⟨⟨round, recordsRoot, stateHash, rosterHash, prevCheckpointHash, windowRoot,
      rosterHistoryRoot, rosterSnapshot⟩, aggregateSig, signers⟩

/-- `decode_signed_checkpoint`. -/
def decode (bytes : List UInt8) : Option SignedCheckpoint := decodeAll (take bls c) bytes

end SignedCheckpoint

end JKain
