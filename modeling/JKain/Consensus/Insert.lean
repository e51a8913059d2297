import JKain.Consensus.Fame

/-!
# Insertion

`insert` checks an event against the graph, stores it with its sequence number and row, settles its
round, lets it vote if it is a witness, and retries the lowest round that is not ordered yet. The
checks come first and read only; everything after them changes the graph.
-/

namespace JKain

open Std JKain.Lib

/-- `for (slot, &v) in row.iter_mut().zip(other)`: the larger entry in every common slot. -/
def maxInto : List ℕ → List ℕ → List ℕ
  | slot :: row, v :: other => max slot v :: maxInto row other
  | row, _ => row

namespace Hashgraph

/-- The record of a declared parent. -/
def parentRecord (g : Hashgraph) : Option EventHash → Except Fault (Option EventRecord)
  | none => .ok none
  | some hash => do
    let record ← okOr (g.get? hash) (.missingParent hash)
    return some record

/-- The checks of `Hashgraph::insert`, in their order: the creator's index and the parents'
records. -/
def checkEvent (g : Hashgraph) (hash : EventHash) (event : Event) :
    Except Fault (ℕ × Option EventRecord × Option EventRecord) :=
  if (g.get? hash).isSome then .error (.err (.alreadyPresent hash))
  else do
    let creatorIdx ← okOr (g.memberIndexOf event.creator) .unknownCreator
    let selfParentRecord ← g.parentRecord event.selfParent
    let otherParentRecord ← g.parentRecord event.otherParent
    if selfParentRecord.any (·.event.creator != event.creator) then
      .error (.err .invalidSelfParent)
    else return (creatorIdx, selfParentRecord, otherParentRecord)

/-- `copy_from_slice` of the self-parent's row, zeros without one. -/
def inheritedRow (g : Hashgraph) : Option EventRecord → Except Fault (List ℕ)
  | none => .ok (List.replicate g.memberCount 0)
  | some record =>
    if record.ancestorSeqs.length = g.memberCount then .ok record.ancestorSeqs
    else .error (.panic .sliceLength)

/-- The row of a new event: the slotwise maximum of its parents' rows, with its own number in its
creator's slot. -/
def ancestorRow (g : Hashgraph) (creatorIdx seq : ℕ) (selfParent otherParent : Option EventRecord) :
    Except Fault (List ℕ) := do
  let inherited ← g.inheritedRow selfParent
  let row := otherParent.elim inherited fun record => maxInto inherited record.ancestorSeqs
  if creatorIdx < row.length then return row.set creatorIdx seq
  else .error (.panic .indexOutOfBounds)

/-- Branch detection: a second event on one self-parent flags its creator. -/
def noteBranch (g : Hashgraph) (hash : EventHash) (event : Event) (creatorIdx : ℕ) :
    Except Fault Hashgraph :=
  match g.canonicalChild event.creator event.selfParent with
  | some existing =>
    if existing = hash then .ok g
    else if creatorIdx < g.knownForkers.length then
      .ok { g with knownForkers := g.knownForkers.set creatorIdx true }
    else .error (.panic .indexOutOfBounds)
  | none => .ok { g with firstChild := g.firstChild.insert (event.creator, event.selfParent) hash }

/-- The creator's newest event: replaced by an event with a larger number only. -/
def noteLatest (g : Hashgraph) (hash : EventHash) (creator : NodeId) (seq : ℕ) : Hashgraph :=
  match g.latestEventBy creator with
  | none => { g with latestByCreator := g.latestByCreator.insert creator hash }
  | some latest =>
    if seq > (g.get? latest).elim 0 (·.seq) then
      { g with latestByCreator := g.latestByCreator.insert creator hash }
    else g

/-- `children.entry(parent).or_default().push(hash)`. -/
def noteChild (hash : EventHash) (g : Hashgraph) (parent : EventHash) : Hashgraph :=
  { g with children := g.children.insert parent (g.children[parent]?.getD [] ++ [hash]) }

/-- The writes of `Hashgraph::insert` before the round is settled: the indices, then the record at
its base round. -/
def storeEvent (g : Hashgraph) (hash : EventHash) (event : Event) (creatorIdx seq : ℕ)
    (row : List ℕ) (base : ℕ) : Except Fault Hashgraph := do
  let g ← g.noteBranch hash event creatorIdx
  let g := { g with byCreatorSeq := g.byCreatorSeq.insertIfNew (event.creator, seq) hash }
  let g := g.noteLatest hash event.creator seq
  let g := event.parents.foldl (noteChild hash) g
  let record : EventRecord :=
    { event, seq, ancestorSeqs := row, round := base, isWitness := false, votes := ∅
      fameStatus := .undecided, roundReceived := none, consensusTimestamp := none }
  return { g with events := g.events.insert hash record }

/-- `if record.is_witness { vote_as_witness(hash) }`. -/
def voteIfWitness (iter : IterOrder) (hash : EventHash) : HashgraphM PUnit := do
  let g ← get
  if (g.get? hash).any (·.isWitness) then voteAsWitness iter hash else return

/-- The end of `Hashgraph::insert`, once the event is stored at its base round. -/
def settleEvent (iter : IterOrder) (hash : EventHash) (base : ℕ) (selfParentRound : Option ℕ) :
    HashgraphM EventHash := do
  finalizeRound hash base selfParentRound
  voteIfWitness iter hash
  let g ← get
  noteRoundDecidedIfComplete g.nextRoundToOrder
  return hash

/-- `Hashgraph::insert` once the event is hashed. -/
def insertHashed (iter : IterOrder) (hash : EventHash) (event : Event) : HashgraphM EventHash := do
  let g ← get
  let (creatorIdx, selfParent, otherParent) ← fromExcept (g.checkEvent hash event)
  let seq := selfParent.elim 1 (·.seq + 1)
  let row ← fromExcept (g.ancestorRow creatorIdx seq selfParent otherParent)
  let selfParentRound := selfParent.map (·.round)
  let base := baseRound selfParentRound (otherParent.map (·.round))
  let stored ← fromExcept (g.storeEvent hash event creatorIdx seq row base)
  modify fun _ => stored
  settleEvent iter hash base selfParentRound

/-- `Hashgraph::insert`. -/
def insert (H : Hasher) (iter : IterOrder) (event : Event) : HashgraphM EventHash :=
  match H event with
  | .error reason => throw (.err (.encodingFailed reason))
  | .ok hash => insertHashed iter hash event

end Hashgraph

end JKain
