import JKain.Mirror.IngestSpec

/-!
# The PostgreSQL store of the mirror

`PGStore` keeps a record file in one row of `record_files` and in rows of four child tables, and
rebuilds the file from them. There is a column for each scalar of the checkpoint but two: the window
root and the root of the roster history are not stored. Unsigned numbers are stored as signed ones of
the same width. A byte field of a decoded message is a nil slice if it is empty, and is then stored
as `NULL`.
-/

namespace JKain.Mirror

open Std Lib JKain.Stream

/-! ## Tables -/

/-- A row of `record_files`. -/
structure RecordFileRow where
  round : Int64
  version : Int32
  startRunningHash : List UInt8
  endRunningHash : List UInt8
  checkpointRound : Option Int64
  stateHash : Option (List UInt8)
  rosterHash : Option (List UInt8)
  recordsRoot : Option (List UInt8)
  aggregateSig : Option (List UInt8)
  prevCheckpointHash : Option (List UInt8)

/-- A row of `record_items`. -/
structure RecordItemRow where
  round : Int64
  itemIndex : Int32
  eventHash : List UInt8
  txIndex : Int32
  txPayload : List UInt8

/-- A row of `state_diffs`. -/
structure StateDiffRow where
  round : Int64
  key : List UInt8
  value : Option (List UInt8)

/-- A row of `checkpoint_sigs`. -/
structure CheckpointSigRow where
  round : Int64
  signer : Int64

/-- A row of `checkpoint_roster`. -/
structure CheckpointRosterRow where
  round : Int64
  memberIndex : Int32
  nodeId : Int64
  key : List UInt8
  blsKey : List UInt8
  pop : List UInt8

/-- `PGStore`, as far as record files go. -/
structure PGStore where
  recordFiles : List RecordFileRow
  recordItems : List RecordItemRow
  stateDiffs : List StateDiffRow
  checkpointSigs : List CheckpointSigRow
  checkpointRoster : List CheckpointRosterRow

namespace PGStore

/-- The tables as the schema creates them. -/
def new : PGStore := ⟨[], [], [], [], []⟩

/-! ## Writing -/

/-- A `BYTEA` argument. -/
def bytea (bytes : List UInt8) : Option (List UInt8) := if bytes.isEmpty then none else some bytes

/-- A `NOT NULL` column. -/
def notNull (column : String) (bytes : List UInt8) : Except String (List UInt8) :=
  match bytea bytes with
  | none => .error ("null value in column " ++ column ++ " violates not-null constraint")
  | some bytes => .ok bytes

/-- A `CHECK` constraint. -/
def constraint (table column : String) (condition : Bool) : Except String Unit :=
  check condition ("new row for relation " ++ table ++ " violates check constraint on " ++ column)

/-- A `PRIMARY KEY` or `REFERENCES` constraint. -/
def keyConstraint (table : String) (condition : Bool) : Except String Unit :=
  check condition ("insert on table " ++ table ++ " violates a key constraint")

/-- `GetHash` of an optional hash object. -/
def hashBytes (hash : Option Pb.HashObject) : List UInt8 := (hash.map Pb.HashObject.hash).getD []

/-- The row inserted into `record_files`, with its constraints. -/
def recordFileRow (f : Pb.RecordStreamFile) : Except String RecordFileRow := do
  let start ← notNull "start_running_hash" (hashBytes f.startRunningHash)
  constraint "record_files" "start_running_hash" (start.length = 32)
  let finish ← notNull "end_running_hash" (hashBytes f.endRunningHash)
  constraint "record_files" "end_running_hash" (finish.length = 32)
  let aggregateSig := f.checkpoint.bind fun cp => bytea cp.aggregateSig
  constraint "record_files" "aggregate_sig" (aggregateSig.all (·.length = 96))
  let prev := f.checkpoint.bind fun cp => bytea cp.prevCheckpointHash
  constraint "record_files" "prev_checkpoint_hash" (prev.all (·.length = 32))
  return {
    round := f.round.toInt64
    version := f.version.toInt32
    startRunningHash := start
    endRunningHash := finish
    checkpointRound := f.checkpoint.map (·.round.toInt64)
    stateHash := f.checkpoint.bind fun cp => bytea cp.stateHash
    rosterHash := f.checkpoint.bind fun cp => bytea cp.rosterHash
    recordsRoot := f.checkpoint.bind fun cp => bytea cp.recordsRoot
    aggregateSig := aggregateSig
    prevCheckpointHash := prev }

/-- One insert into `record_items`. -/
def insertItem (round : Int64) (db : PGStore) (entry : Pb.RecordItem × ℕ) :
    Except String PGStore := do
  let (item, i) := entry
  let eventHash ← notNull "event_hash" item.eventHash
  constraint "record_items" "event_hash" (eventHash.length = 32)
  let txPayload ← notNull "tx_payload" item.txPayload
  let row : RecordItemRow := ⟨round, Int32.ofNat i, eventHash, item.txIndex.toInt32, txPayload⟩
  keyConstraint "record_items"
    (db.recordItems.all fun row' => row'.round ≠ row.round ∨ row'.itemIndex ≠ row.itemIndex)
  return { db with recordItems := db.recordItems ++ [row] }

/-- One insert into `state_diffs`; a missing value is `NULL`, an empty one is not. -/
def insertDiff (round : Int64) (db : PGStore) (diff : Pb.StateDiff) : Except String PGStore := do
  let key ← notNull "key" diff.key
  keyConstraint "state_diffs" (db.stateDiffs.all fun row => row.round ≠ round ∨ row.key ≠ key)
  return { db with stateDiffs := db.stateDiffs ++ [⟨round, key, diff.value⟩] }

/-- One insert into `checkpoint_sigs`. -/
def insertSigner (round : Int64) (db : PGStore) (signer : UInt64) : Except String PGStore := do
  keyConstraint "checkpoint_sigs" (db.recordFiles.any fun row => row.round = round)
  keyConstraint "checkpoint_sigs"
    (db.checkpointSigs.all fun row => row.round ≠ round ∨ row.signer ≠ signer.toInt64)
  return { db with checkpointSigs := db.checkpointSigs ++ [⟨round, signer.toInt64⟩] }

/-- One insert into `checkpoint_roster`. -/
def insertMember (round : Int64) (db : PGStore) (entry : Pb.CheckpointRosterMember × ℕ) :
    Except String PGStore := do
  let (m, i) := entry
  let key ← notNull "key" m.key
  constraint "checkpoint_roster" "key" (key.length = 32)
  let blsKey ← notNull "bls_key" m.blsKey
  constraint "checkpoint_roster" "bls_key" (blsKey.length = 48)
  let pop ← notNull "pop" m.pop
  constraint "checkpoint_roster" "pop" (pop.length = 96)
  let row : CheckpointRosterRow := ⟨round, Int32.ofNat i, m.nodeId.toInt64, key, blsKey, pop⟩
  keyConstraint "checkpoint_roster" (db.recordFiles.any fun row' => row'.round = round)
  keyConstraint "checkpoint_roster"
    (db.checkpointRoster.all fun row' => row'.round ≠ round ∨ row'.memberIndex ≠ row.memberIndex)
  return { db with checkpointRoster := db.checkpointRoster ++ [row] }

/-- The child rows of a file. -/
def insertChildren (db : PGStore) (f : Pb.RecordStreamFile) : Except String PGStore := do
  let db ← f.items.zipIdx.foldlM (insertItem f.round.toInt64) db
  let db ← f.stateDiffs.foldlM (insertDiff f.round.toInt64) db
  match f.checkpoint with
  | none => return db
  | some cp => do
    let db ← cp.signers.foldlM (insertSigner cp.round.toInt64) db
    cp.rosterSnapshot.zipIdx.foldlM (insertMember cp.round.toInt64) db

/-- `PutRecord`: a file of a round that is stored is dropped, a failed insert rolls all of them
back. -/
def putRecord (db : PGStore) (f : Pb.RecordStreamFile) : Except String PGStore := do
  let row ← recordFileRow f
  if db.recordFiles.any fun row' => row'.round = row.round then return db
  else insertChildren { db with recordFiles := db.recordFiles ++ [row] } f

/-! ## Reading -/

/-- `hashObject`. -/
def hashObject (bytes : List UInt8) : Pb.HashObject := ⟨0, 32, bytes⟩

/-- `listRecordFiles`: the file and its checkpoint without their repeated fields. -/
def fileOfRow (row : RecordFileRow) : Pb.RecordStreamFile where
  version := row.version.toUInt32
  round := row.round.toUInt64
  startRunningHash := some (hashObject row.startRunningHash)
  items := []
  endRunningHash := some (hashObject row.endRunningHash)
  checkpoint := row.checkpointRound.map fun cpRound =>
    { round := cpRound.toUInt64
      stateHash := row.stateHash.getD []
      rosterHash := row.rosterHash.getD []
      rosterSnapshot := []
      recordsRoot := row.recordsRoot.getD []
      aggregateSig := row.aggregateSig.getD []
      signers := []
      prevCheckpointHash := row.prevCheckpointHash.getD []
      windowRoot := []
      rosterHistoryRoot := [] }
  stateDiffs := []

/-- `attachRecordItems`. -/
def attachRecordItems (db : PGStore) (round : Int64) (f : Pb.RecordStreamFile) :
    Pb.RecordStreamFile :=
  let rows := (db.recordItems.filter (·.round = round)).insertionSort (·.itemIndex ≤ ·.itemIndex)
  { f with items := rows.map fun row => ⟨row.eventHash, row.txIndex.toUInt32, row.txPayload⟩ }

/-- `attachStateDiffs`. -/
def attachStateDiffs (db : PGStore) (round : Int64) (f : Pb.RecordStreamFile) :
    Pb.RecordStreamFile :=
  let rows := (db.stateDiffs.filter (·.round = round)).insertionSort
    fun row row' => (compare row.key row'.key).isLE
  { f with stateDiffs := rows.map fun row => ⟨row.key, row.value⟩ }

/-- `attachCheckpointSigs` and `attachRosterSnapshot`. -/
def attachCheckpoint (db : PGStore) (round : Int64) (f : Pb.RecordStreamFile) :
    Pb.RecordStreamFile :=
  let signers := (db.checkpointSigs.filter (·.round = round)).insertionSort (·.signer ≤ ·.signer)
  let members := (db.checkpointRoster.filter (·.round = round)).insertionSort
    (·.memberIndex ≤ ·.memberIndex)
  { f with checkpoint := f.checkpoint.map fun cp =>
      { cp with
        signers := signers.map (·.signer.toUInt64)
        rosterSnapshot := members.map fun row =>
          ⟨row.nodeId.toUInt64, row.key, row.blsKey, row.pop⟩ } }

/-- One file of `ListRecords`. -/
def readRow (db : PGStore) (row : RecordFileRow) : Pb.RecordStreamFile :=
  db.attachCheckpoint row.round (db.attachStateDiffs row.round
    (db.attachRecordItems row.round (fileOfRow row)))

/-- `ListRecords`. -/
def listRecords (db : PGStore) : List Pb.RecordStreamFile :=
  (db.recordFiles.insertionSort (·.round ≤ ·.round)).map db.readRow

instance : Store PGStore where
  putRecord := putRecord
  listRecords := listRecords

end PGStore

end JKain.Mirror
