import JKain.Consensus.Checkpoint

/-!
# Transferring a graph

A teacher serves its stored events with their bookkeeping, and a learner loads them into a graph
that starts at the teacher's checkpoint. `insertAccepted` checks a record against the parents the
learner holds and stores it as it came: without witness flag, votes or fame.
-/

namespace JKain

open Std JKain.Lib

/-- `RetainedEvent`: a stored event with the bookkeeping that is transferred. -/
structure RetainedEvent where
  event : Event
  seq : ℕ
  round : ℕ
  ancestorSeqs : List ℕ
  roundReceived : Option ℕ
  consensusTimestamp : Option Timestamp
  deriving DecidableEq

/-- The transferred part of a stored record. -/
def EventRecord.retained (record : EventRecord) : RetainedEvent where
  event := record.event
  seq := record.seq
  round := record.round
  ancestorSeqs := record.ancestorSeqs
  roundReceived := record.roundReceived
  consensusTimestamp := record.consensusTimestamp

namespace Hashgraph

/-- `Hashgraph::retained_events`. -/
def retainedEvents (g : Hashgraph) : List RetainedEvent :=
  g.events.toList.map fun (_, record) => record.retained

/-- `Hashgraph::from_checkpoint`. -/
def fromCheckpoint (checkpoint : CheckpointPayload) (rosterHistory : RosterHistory) : Hashgraph where
  events := ∅
  children := ∅
  firstChild := ∅
  byCreatorSeq := ∅
  latestByCreator := ∅
  memberIndex := indexMembers checkpoint.rosterSnapshot
  memberCount := checkpoint.rosterSnapshot.memberIds.length
  rosterHistory := rosterHistory
  knownForkers := List.replicate checkpoint.rosterSnapshot.memberIds.length false
  witnessesByRound := ∅
  undecidedWitnesses := ∅
  highestWitnessRound := checkpoint.round
  fullyDecidedRounds := ExtTreeSet.ofList (List.range' 1 checkpoint.round)
  nextRoundToOrder := checkpoint.round + 1
  orderLog := []

/-! ## The checks of a transferred record -/

/-- The number a record must have: one more than its self-parent's, 1 without a declared one, and
any positive number where the self-parent was pruned. -/
def checkRetainedSeq (record : RetainedEvent) (selfParent : Option EventRecord) :
    Except Fault PUnit :=
  match selfParent with
  | some parent =>
    if parent.seq + 1 ≥ 2 ^ 64 then .error (.err (.invalidRetainedSeq (2 ^ 64 - 1) record.seq))
    else if record.seq ≠ parent.seq + 1 then
      .error (.err (.invalidRetainedSeq (parent.seq + 1) record.seq))
    else .ok ⟨⟩
  | none =>
    if record.event.selfParent.isNone then
      if record.seq ≠ 1 then .error (.err (.invalidRetainedSeq 1 record.seq)) else .ok ⟨⟩
    else if record.seq < 1 then .error (.err (.invalidRetainedSeq 1 record.seq))
    else .ok ⟨⟩

/-- The slotwise maximum of the rows of the parents at hand, zeros without one. -/
def parentsRow (g : Hashgraph) (selfParent otherParent : Option EventRecord) :
    Except Fault (List ℕ) := do
  let inherited ← g.inheritedRow selfParent
  return otherParent.elim inherited fun record => maxInto inherited record.ancestorSeqs

/-- The check of the transferred row. With a pruned parent it must not fall below the parents at
hand; with all declared parents at hand it must be the row they give. -/
def checkRetainedRow (g : Hashgraph) (record : RetainedEvent) (creatorIdx : ℕ) (row : List ℕ)
    (selfParent otherParent : Option EventRecord) : Except Fault PUnit :=
  let selfPruned := record.event.selfParent.isSome && selfParent.isNone
  let otherPruned := record.event.otherParent.isSome && otherParent.isNone
  if selfPruned || otherPruned then do
    let floor ← g.parentsRow selfParent otherParent
    match row[creatorIdx]? with
    | none => .error (.panic .indexOutOfBounds)
    | some own =>
      if own ≠ record.seq || (row.zip floor).any fun (slot, min) => decide (slot < min) then
        .error (.err .invalidRetainedAncestors)
      else .ok ⟨⟩
  else if selfParent.isSome || otherParent.isSome then do
    let expected ← g.parentsRow selfParent otherParent
    if creatorIdx < expected.length then
      if row ≠ expected.set creatorIdx record.seq then .error (.err .invalidRetainedAncestors)
      else .ok ⟨⟩
    else .error (.panic .indexOutOfBounds)
  else
    match row[creatorIdx]? with
    | none => .error (.panic .indexOutOfBounds)
    | some own =>
      if own ≠ record.seq then .error (.err .invalidRetainedAncestors) else .ok ⟨⟩

/-- The checks of the transferred order. -/
def checkRetainedOrder (record : RetainedEvent) (decidedRound : ℕ) : Except Fault PUnit :=
  match record.roundReceived, record.consensusTimestamp with
  | some received, _ =>
    if received < record.round || received > decidedRound then .error (.err .invalidRetainedOrder)
    else .ok ⟨⟩
  | none, none => .ok ⟨⟩
  | none, some _ => .error (.err .invalidRetainedOrder)

/-- The row of a transferred record with a slot for every member: `resize`. -/
def resizedRow (g : Hashgraph) (row : List ℕ) : List ℕ :=
  row ++ List.replicate (g.memberCount - row.length) 0

/-- The checks of `Hashgraph::insert_accepted`, in their order: the creator's index. -/
def checkAccepted (g : Hashgraph) (hash : EventHash) (record : RetainedEvent) (decidedRound : ℕ) :
    Except Fault ℕ :=
  if (g.get? hash).isSome then .error (.err (.alreadyPresent hash))
  else do
    let creatorIdx ← okOr (g.memberIndexOf record.event.creator) .unknownCreator
    if record.ancestorSeqs.length > g.memberCount then
      .error (.err (.ancestorSeqsMismatch g.memberCount record.ancestorSeqs.length))
    else do
      let selfParent := record.event.selfParent.bind g.get?
      let otherParent := record.event.otherParent.bind g.get?
      if selfParent.any (·.event.creator != record.event.creator) then
        .error (.err .invalidSelfParent)
      else do
        checkRetainedSeq record selfParent
        g.checkRetainedRow record creatorIdx (g.resizedRow record.ancestorSeqs) selfParent
          otherParent
        let base := baseRound (selfParent.map (·.round)) (otherParent.map (·.round))
        if record.round < base then .error (.err (.invalidRetainedRound base record.round))
        else do
          checkRetainedOrder record decidedRound
          return creatorIdx

/-- The record that is stored: not a witness, with a zero timestamp for an ordered event that came
without one. -/
def acceptedRecord (g : Hashgraph) (record : RetainedEvent) : EventRecord where
  event := record.event
  seq := record.seq
  ancestorSeqs := g.resizedRow record.ancestorSeqs
  round := record.round
  isWitness := false
  votes := ∅
  fameStatus := .undecided
  roundReceived := record.roundReceived
  consensusTimestamp := record.roundReceived.map fun _ => record.consensusTimestamp.getD 0

/-- The writes of `Hashgraph::insert_accepted`. Only parents at hand get a child. -/
def storeAccepted (g : Hashgraph) (hash : EventHash) (record : RetainedEvent) (creatorIdx : ℕ) :
    Except Fault Hashgraph := do
  let stored := g.acceptedRecord record
  let known := record.event.parents.filter fun parent => (g.get? parent).isSome
  let g ← g.noteBranch hash record.event creatorIdx
  let g := { g with
    byCreatorSeq := g.byCreatorSeq.insertIfNew (record.event.creator, record.seq) hash }
  let g := g.noteLatest hash record.event.creator record.seq
  let g := known.foldl (noteChild hash) g
  return { g with events := g.events.insert hash stored }

/-- `Hashgraph::insert_accepted`. -/
def insertAccepted (H : Hasher) (record : RetainedEvent) (decidedRound : ℕ) :
    HashgraphM EventHash := do
  match H record.event with
  | .error reason => throw (.err (.encodingFailed reason))
  | .ok hash =>
    let g ← get
    let creatorIdx ← fromExcept (g.checkAccepted hash record decidedRound)
    let stored ← fromExcept (g.storeAccepted hash record creatorIdx)
    modify fun _ => stored
    return hash

end Hashgraph

end JKain
