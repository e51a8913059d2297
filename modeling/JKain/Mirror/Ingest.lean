import JKain.Mirror.Verify

/-!
# The ingester of the mirror node

The mirror polls a directory of record files and stores those that verify. It keeps the rounds it has
stored, the running hash behind the last stored file and the hash its checkpoint has to be committed
to by the next one. Polls are serialized, so that a poll is a fold over the files it finds. A failure
keeps the state as it is at that point, as the program does.
-/

namespace JKain.Mirror

open Std Lib JKain.Stream

/-- `Store`, as far as record files go. -/
class Store (σ : Type) where
  putRecord : σ → Pb.RecordStreamFile → Except String σ
  listRecords : σ → List Pb.RecordStreamFile

/-- `Ingester`, as far as record files go. -/
@[ext]
structure Ingester (σ : Type) where
  store : σ
  seenRecords : ExtTreeSet ℕ
  inFlightRecords : ExtTreeSet ℕ
  lastRecordEnd : Option Digest
  expectedPrev : Option Digest

/-- What reading the proof sidecar of a round gives. -/
inductive Sidecar
  | absent
  | unreadable (text : String)
  | content (proofFile : Except String Pb.RecordsProofFile)

/-- An entry of the streams directory, with what reading and decoding the file gives. -/
structure Entry where
  name : List Char
  isDir : Bool
  content : Except String Pb.RecordStreamFile

/-- The streams directory during a poll. -/
structure StreamsDir where
  entries : List Entry
  sidecar : List Char → Sidecar

/-- `RecordFileRound`. -/
def recordFileRound (name : List Char) : Option ℕ :=
  (strip recordFilePrefix recordFileSuffix name).bind parseDigits

/-- `ListRecordFiles`. -/
def listRecordFiles (dir : StreamsDir) : List Entry :=
  ((dir.entries.filterMap fun entry =>
    if entry.isDir then none
    else (recordFileRound entry.name).map fun index => (index, entry)).insertionSort
      (·.1 ≤ ·.1)).map (·.2)

/-- `hashFromPB`, a copy of `runningHashOrErr`. -/
def hashFromPb (hash : Option Pb.HashObject) : Except String Digest := runningHashOrErr hash

namespace Ingester

variable {σ : Type} [Store σ]

/-- Programs of the ingester. -/
abbrev IngestM (σ : Type) := EStateM String (Ingester σ)

/-- The ingester before it is seeded. -/
def unseeded (store : σ) : Ingester σ := ⟨store, ∅, ∅, none, none⟩

variable (sha : Sha256) (bls : Bls)

/-- The record of the higher round, the first one of two that have the same. -/
def higher : Option Pb.RecordStreamFile → Pb.RecordStreamFile → Option Pb.RecordStreamFile
  | none, file => some file
  | some best, file => if file.round > best.round then some file else some best

/-- The record with the highest round. -/
def highest (records : List Pb.RecordStreamFile) : Option Pb.RecordStreamFile :=
  records.foldl higher none

/-- `seedFromStore`. -/
def seedFromStore (ing : Ingester σ) : Ingester σ :=
  if !ing.seenRecords.isEmpty then ing
  else
    let records := Store.listRecords ing.store
    let seen := records.foldl (fun seen file => seen.insert file.round.toNat) ing.seenRecords
    match highest records with
    | none => { ing with seenRecords := seen }
    | some file =>
      { ing with
        seenRecords := seen
        lastRecordEnd :=
          match hashFromPb file.endRunningHash with
          | .ok finish => some finish
          | .error _ => ing.lastRecordEnd
        expectedPrev :=
          match file.checkpoint with
          | some cp => some (checkpointSigningBytesHash sha cp)
          | none => ing.expectedPrev }

/-- `New`. -/
def new (store : σ) : Ingester σ := seedFromStore sha (unseeded store)

/-- The checks of `checkPrev`. -/
def prevMatches (ing : Ingester σ) (cp : Pb.SignedCheckpoint) : Except String Unit := do
  check (cp.prevCheckpointHash.length = 32)
    (s!"prev_checkpoint_hash is {cp.prevCheckpointHash.length} bytes, want 32 " ++
      "(genesis is 32 zero bytes, not empty)")
  let expected := ing.expectedPrev.getD 0
  let got := fromBe cp.prevCheckpointHash
  check (got = expected) ("prev_checkpoint_hash mismatch: expected " ++
    hex (digestBytes expected) ++ " got " ++ hex (digestBytes got))

/-- `checkPrev`. -/
def checkPrev (cp : Pb.SignedCheckpoint) (commit : Bool) : IngestM σ Unit := do
  let ing ← get
  fromExcept (prevMatches ing cp)
  if commit then
    modify fun ing => { ing with expectedPrev := some (checkpointSigningBytesHash sha cp) }

/-- `checkPrev` on the checkpoint of a file, if there is one. -/
def checkFilePrev (f : Pb.RecordStreamFile) (commit : Bool) : IngestM σ Unit :=
  match f.checkpoint with
  | some cp => checkPrev sha cp commit
  | none => pure ()

/-- `verifyProofSidecarLocal`. -/
def verifyProofSidecarLocal (dir : StreamsDir) (f : Pb.RecordStreamFile) : Except String Unit :=
  match dir.sidecar (recordProofFileName f.round.toNat) with
  | .absent => .ok ()
  | .unreadable text => .error ("read proof sidecar: " ++ text)
  | .content proofFile =>
    verifyRecordsProofFileBytes sha proofFile f.items
      ((f.checkpoint.map Pb.SignedCheckpoint.recordsRoot).getD []) f.round

/-- The start of the file continues the last stored one, or the seed. -/
def checkStart (ing : Ingester σ) (path : String) (start : Digest) : Except String Unit :=
  match ing.lastRecordEnd with
  | none => check (start = chainSeed)
      ("no record chain anchor for " ++ path ++ ": start " ++ hex (digestBytes start) ++
        " has no anchor; start from genesis or restore a store with accepted records")
  | some expected => check (start = expected)
      ("record chain continuity violation for " ++ path ++ ": expected start " ++
        hex (digestBytes expected) ++ " got " ++ hex (digestBytes start))

/-- `ing.store.PutRecord`. -/
def putRecord (f : Pb.RecordStreamFile) : IngestM σ Unit := do
  let ing ← get
  let store ← fromExcept (Store.putRecord ing.store f)
  set { ing with store := store }

variable (trustedRosterHash : List UInt8)

/-- `ingestRecord` on a file that was read, between the claim and its confirmation. -/
def ingestFile (dir : StreamsDir) (path : String) (f : Pb.RecordStreamFile) :
    IngestM σ Unit := do
  let start ← fromExcept
    ((hashFromPb f.startRunningHash).mapError ("record " ++ path ++ " start hash: " ++ ·))
  let finish ← fromExcept
    ((hashFromPb f.endRunningHash).mapError ("record " ++ path ++ " end hash: " ++ ·))
  let ing ← get
  fromExcept (checkStart ing path start)
  fromExcept ((verifyRecordFile sha bls f trustedRosterHash).mapError
    ("verify record " ++ path ++ ": " ++ ·))
  checkFilePrev sha f false
  fromExcept ((validateStateDiffs f.stateDiffs).mapError ("state_diffs " ++ path ++ ": " ++ ·))
  fromExcept ((verifyProofSidecarLocal sha dir f).mapError ("proof sidecar " ++ path ++ ": " ++ ·))
  putRecord f
  checkFilePrev sha f true
  modify fun ing => { ing with lastRecordEnd := some finish }

/-- `tryClaim`. -/
def tryClaim (index : ℕ) : IngestM σ Bool := do
  let ing ← get
  if index ∈ ing.seenRecords ∨ index ∈ ing.inFlightRecords then return false
  else
    set { ing with inFlightRecords := ing.inFlightRecords.insert index }
    return true

/-- `confirmClaim`. -/
def confirmClaim (index : ℕ) : IngestM σ Unit := modify fun ing =>
  { ing with
    inFlightRecords := ing.inFlightRecords.erase index
    seenRecords := ing.seenRecords.insert index }

/-- `releaseClaim`. -/
def releaseClaim (index : ℕ) : IngestM σ Unit := modify fun ing =>
  { ing with inFlightRecords := ing.inFlightRecords.erase index }

/-- A claimed file is read, compared with its name and stored. -/
def ingestClaimed (dir : StreamsDir) (entry : Entry) (index : ℕ) : IngestM σ Unit := do
  let f ← fromExcept entry.content
  fromExcept (check (f.round.toNat = index)
    (s!"record filename round {index} disagrees with payload round {f.round} in " ++
      String.ofList entry.name))
  ingestFile sha bls trustedRosterHash dir (String.ofList entry.name) f
  confirmClaim index

/-- `ingestRecord`. A name without an index is not claimed. -/
def ingestRecord (dir : StreamsDir) (entry : Entry) : IngestM σ Unit :=
  match recordFileRound entry.name with
  | some index => do
    let claimed ← tryClaim index
    if claimed then
      try ingestClaimed sha bls trustedRosterHash dir entry index
      catch text =>
        releaseClaim index
        throw text
  | none => do
    let f ← fromExcept entry.content
    ingestFile sha bls trustedRosterHash dir (String.ofList entry.name) f

/-- `RunOnce` over the record files, cancelled behind the given number of them. Failures are only
logged. -/
def runOnce (dir : StreamsDir) (limit : ℕ) (ing : Ingester σ) : Ingester σ :=
  ((listRecordFiles dir).take limit).foldl
    (fun ing entry => finalState (ingestRecord sha bls trustedRosterHash dir entry ing)) ing

end Ingester

/-! ## The store in memory -/

/-- `MemStore`, as far as record files go. -/
structure MemStore where
  records : List Pb.RecordStreamFile
  seenRounds : ExtTreeSet ℕ

namespace MemStore

/-- `NewMemStore`. -/
def new : MemStore := ⟨[], ∅⟩

/-- `PutRecord`: a second file of a round is dropped. -/
def putRecord (m : MemStore) (f : Pb.RecordStreamFile) : MemStore :=
  if f.round.toNat ∈ m.seenRounds then m
  else ⟨m.records ++ [f], m.seenRounds.insert f.round.toNat⟩

instance : Store MemStore where
  putRecord m f := .ok (m.putRecord f)
  listRecords := records

end MemStore

end JKain.Mirror
