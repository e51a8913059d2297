import JKain.Consensus.Prune
import JKain.Crypto.Digest

/-!
# Checkpoint payloads

What the members sign for a decided round: the commitments to its records, to the state, to the
roster and its history, and to the window of ordered events that ends with the round.
-/

namespace JKain

open Std JKain.Lib

/-- `SIGNED_WINDOW_ROUNDS`. -/
def signedWindowRounds : ℕ := 16

/-- `RETENTION_ROUNDS`. -/
def retentionRounds : ℕ := signedWindowRounds

/-! ## The padded Merkle tree -/

section Merkle

variable (sha : Sha256)

/-- `empty_hash`. -/
def emptyHash : Digest := sha [0x00]

/-- `singleton_hash`. -/
def singletonHash (child : Digest) : Digest := sha (0x01 :: digestBytes child)

/-- `internal_hash`. -/
def internalHash (left right : Digest) : Digest :=
  sha (0x02 :: (digestBytes left ++ digestBytes right))

/-- `combine_hash`. -/
def combineHash (left right : Digest) : Digest :=
  if left = emptyHash sha then
    if right = emptyHash sha then emptyHash sha else singletonHash sha right
  else if right = emptyHash sha then singletonHash sha left
  else internalHash sha left right

/-- One level of the tree: `level.chunks(2)`. -/
def combineLevel : List Digest → List Digest
  | left :: right :: rest => combineHash sha left right :: combineLevel rest
  | _ => []

/-- `while level.len() > 1`, with the height of the tree as fuel. -/
def foldLevels : ℕ → List Digest → Digest
  | 0, level => level.headD (emptyHash sha)
  | height + 1, level =>
    if level.length > 1 then foldLevels height (combineLevel sha level)
    else level.headD (emptyHash sha)

/-- `next_power_of_two`. -/
def nextPowerOfTwo (n : ℕ) : ℕ := if n ≤ 1 then 1 else 2 ^ (Nat.log2 (n - 1) + 1)

/-- The root over the leaves, padded with empty ones to a power of two. -/
def paddedRoot (leaves : List Digest) : Digest :=
  let padded := leaves ++
    List.replicate (nextPowerOfTwo leaves.length - leaves.length) (emptyHash sha)
  foldLevels sha padded.length padded

end Merkle

/-! ## The records root -/

/-- `RecordsRootItem`. -/
structure RecordsRootItem where
  eventHash : EventHash
  txIndex : ℕ
  txPayload : List UInt8

/-- `try_leaf_hash`. -/
def tryLeafHash (sha : Sha256) (item : RecordsRootItem) : Except OutOfRange Digest := do
  let len ← tryU32 "RecordsRootItem tx_payload length" item.txPayload.length
  return sha (0x00 :: (digestBytes item.eventHash ++ beBytes 4 item.txIndex ++ beBytes 4 len ++
    item.txPayload))

/-- `try_compute_records_root`. -/
def tryComputeRecordsRoot (sha : Sha256) (items : List RecordsRootItem) :
    Except OutOfRange Digest :=
  if items.isEmpty then .ok (emptyHash sha)
  else do
    let leaves ← items.mapM (tryLeafHash sha)
    return paddedRoot sha leaves

/-! ## The roster history root -/

/-- One entry of `encode_roster_history`. -/
def encodeSnapshot (round : ℕ) (registry : MembershipRegistry) : Except OutOfRange (List UInt8) := do
  let len ← tryU32 "RosterHistory registry length" registry.toBytes.length
  return beBytes 8 round ++ beBytes 4 len ++ registry.toBytes

/-- `encode_roster_history`: the snapshots in increasing order of their activation rounds. -/
def encodeRosterHistory (rh : RosterHistory) : Except OutOfRange (List UInt8) := do
  let count ← tryU32 "RosterHistory entry count" rh.snapshots.toList.length
  let entries ← rh.snapshots.toList.mapM fun (round, registry) => encodeSnapshot round registry
  return beBytes 4 count ++ entries.flatten

/-- `canonical_roster_history`: the snapshots of the window up to `round`, and the last one before
it. -/
def canonicalRosterHistory (rh : RosterHistory) (round windowRounds : ℕ) : Option RosterHistory :=
  let windowStart := round - windowRounds
  let predecessor := (rh.snapshots.toList.filter (·.1 < windowStart)).getLast?
  let selected := rh.snapshots.toList.filter fun (activation, _) =>
    !decide (activation < windowStart) && decide (activation ≤ round)
  match predecessor.toList ++ selected with
  | [] => none
  | snapshots => some ⟨ExtTreeMap.ofList snapshots⟩

/-- `ROSTER_HISTORY_ROOT_DST`. -/
def rosterHistoryRootDst : List UInt8 := "JKAIN-ROSTER-HISTORY-ROOT-V1".toUTF8.toList

/-- `compute_roster_history_root`. -/
def computeRosterHistoryRoot (sha : Sha256) (rh : RosterHistory) (round windowRounds : ℕ) :
    Except OutOfRange Digest :=
  match canonicalRosterHistory rh round windowRounds with
  | none => .ok (sha rosterHistoryRootDst)
  | some subset => do
    let encoded ← encodeRosterHistory subset
    return sha (rosterHistoryRootDst ++ encoded)

/-! ## The window root -/

/-- `WINDOW_ROOT_DST`. -/
def windowRootDst : List UInt8 := "JKAIN-WINDOW-ROOT-V1".toUTF8.toList

/-- The tag and value of an optional number. -/
def taggedBytes : Option ℕ → List UInt8
  | some n => 0x01 :: beBytes 8 n
  | none => [0x00]

/-- The row cut or padded with zeros to `width` slots. -/
def normalizedRow (row : List ℕ) (width : ℕ) : List ℕ :=
  (List.range width).map fun i => row[i]?.getD 0

/-- `window_leaf_hash`. -/
def windowLeafHash (sha : Sha256) (hash : EventHash) (record : EventRecord) (width : ℕ) : Digest :=
  sha (windowRootDst ++ digestBytes hash ++ beBytes 8 record.seq ++ beBytes 8 record.round ++
    taggedBytes record.roundReceived ++ taggedBytes record.consensusTimestamp ++ beBytes 4 width ++
    (normalizedRow record.ancestorSeqs width).flatMap (beBytes 8))

/-- `hash_hex`. -/
def hashHex (hash : EventHash) : String :=
  String.join ((digestBytes hash).map fun byte =>
    String.ofList [Nat.digitChar (byte.toNat / 16), Nat.digitChar (byte.toNat % 16)])

namespace Hashgraph

/-- `hashes` of `try_compute_window_root`: the ordered events of the window. -/
def windowEvents (g : Hashgraph) (round windowRounds : ℕ) : List EventHash :=
  (List.range' (round - windowRounds) (round + 1 - (round - windowRounds))).flatMap
    g.consensusOrder

/-- The leaf of an ordered event. -/
def windowLeaf (sha : Sha256) (g : Hashgraph) (width : ℕ) (hash : EventHash) :
    Except OutOfRange Digest :=
  match g.get? hash with
  | none => .error ⟨"window_root event", hashHex hash⟩
  | some record => .ok (windowLeafHash sha hash record width)

/-- `try_compute_window_root`. The outer result is a panic of `member_count_at_round`, the inner one
the error the call returns. -/
def tryComputeWindowRoot (sha : Sha256) (g : Hashgraph) (round windowRounds : ℕ) :
    Except Fault (Except OutOfRange Digest) :=
  let hashes := g.windowEvents round windowRounds
  if hashes.isEmpty then .ok (.ok (emptyHash sha))
  else do
    let canonicalWidth ← g.memberCountAtRound round
    return do
      let width ← tryU32 "window_root member count" canonicalWidth
      let leaves ← hashes.mapM (g.windowLeaf sha width)
      return paddedRoot sha leaves

end Hashgraph

/-! ## Payloads -/

/-- `CheckpointPayload`. -/
structure CheckpointPayload where
  round : ℕ
  recordsRoot : Digest
  stateHash : Digest
  rosterHash : Digest
  prevCheckpointHash : Digest
  windowRoot : Digest
  rosterHistoryRoot : Digest
  rosterSnapshot : MembershipRegistry

namespace CheckpointPayload

/-- `CheckpointPayload::new`. -/
def new (sha : Sha256) (round : ℕ) (recordsRoot stateHash windowRoot rosterHistoryRoot : Digest)
    (rosterSnapshot : MembershipRegistry) : CheckpointPayload where
  round := round
  recordsRoot := recordsRoot
  stateHash := stateHash
  rosterHash := rosterSnapshot.hash sha
  prevCheckpointHash := 0
  windowRoot := windowRoot
  rosterHistoryRoot := rosterHistoryRoot
  rosterSnapshot := rosterSnapshot

/-- `CheckpointPayload::with_prev_checkpoint_hash`. -/
def withPrevCheckpointHash (payload : CheckpointPayload) (hash : Digest) : CheckpointPayload :=
  { payload with prevCheckpointHash := hash }

/-- `CheckpointPayload::signing_bytes`. -/
def signingBytes (payload : CheckpointPayload) : List UInt8 :=
  beBytes 8 payload.round ++ digestBytes payload.recordsRoot ++ digestBytes payload.stateHash ++
    digestBytes payload.rosterHash ++ digestBytes payload.prevCheckpointHash ++
    digestBytes payload.windowRoot ++ digestBytes payload.rosterHistoryRoot

theorem length_signingBytes (payload : CheckpointPayload) : payload.signingBytes.length = 200 := by
  simp [signingBytes]

/-- `CheckpointPayload::signing_bytes_hash`. -/
def signingBytesHash (sha : Sha256) (payload : CheckpointPayload) : Digest :=
  sha payload.signingBytes

end CheckpointPayload

/-- `Hashgraph::checkpoint_payload`. -/
def Hashgraph.checkpointPayload (sha : Sha256) (g : Hashgraph) (round : ℕ)
    (recordsRoot stateHash : Digest) : Except Fault (Option CheckpointPayload) :=
  if !g.isRoundDecided round then .ok none
  else do
    let rosterSnapshot ← g.rosterForRound round
    let window ← g.tryComputeWindowRoot sha round signedWindowRounds
    let history := computeRosterHistoryRoot sha g.rosterHistory round signedWindowRounds
    match window, history with
    | .ok windowRoot, .ok rosterHistoryRoot =>
      return some (.new sha round recordsRoot stateHash windowRoot rosterHistoryRoot rosterSnapshot)
    | _, _ => return none

end JKain
