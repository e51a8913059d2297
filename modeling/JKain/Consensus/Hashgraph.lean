import JKain.Crypto.Roster
import JKain.Lib.Loops
import JKain.Lib.Worklist

/-!
# The hashgraph store

`Hashgraph` is one node's copy of the graph: the stored events with their incremental bookkeeping,
the indices over them, and the state of the fame elections and of the ordering. The wall-clock and
walk-depth counters are left out: nothing reads them.

Operations run in `HashgraphM`. A `Fault` is either a `ConsensusError` that the call returns, a
panic, or `fuel`, the end of the fuel of a loop, which no reachable state meets.
-/

namespace JKain

open Std JKain.Lib

/-- `ConsensusError`: the errors of insertions, of ancestry queries and of loading a transferred
graph. -/
inductive ConsensusError
  | alreadyPresent (hash : EventHash)
  | missingParent (hash : EventHash)
  | unknownCreator
  | unknownEvent (hash : EventHash)
  | ancestorSeqsMismatch (expected got : ℕ)
  | encodingFailed (reason : String)
  | invalidSelfParent
  | invalidRetainedSeq (expected got : ℕ)
  | invalidRetainedAncestors
  | invalidRetainedRound (base got : ℕ)
  | invalidRetainedOrder
  | decidedRoundBeyondRetained (decided maxRetained : ℕ)
  deriving DecidableEq

/-- The places where an operation can panic. -/
inductive Panic
  /-- A row or flag list is read past its end. -/
  | indexOutOfBounds
  /-- `copy_from_slice` on rows of different lengths. -/
  | sliceLength
  /-- `"roster_for_round called with round 0 or before any snapshot"`. -/
  | rosterForRound
  /-- `"a roundReceived event is seen by at least one famous witness"`. -/
  | noFirstSeen
  /-- `"voter must be present in the hashgraph"`. -/
  | voterAbsent
  /-- `"newly inserted witness must be present"`. -/
  | witnessAbsent
  /-- `"candidates are filtered to rounds below the voter"`. -/
  | candidateNotBelow
  /-- `"cannot prune a round that has not been ordered yet"`. -/
  | pruneUnordered
  /-- `"add_member called for already-registered node"`. -/
  | alreadyRegistered
  /-- `"records root overflow: tx_payload length exceeds u32::MAX"`. -/
  | recordsRootOverflow
  /-- `"tx_index must fit u32 - payload length bounded by u32::MAX"`. -/
  | txIndexOverflow
  deriving DecidableEq

/-- Why a computation stopped without a value. -/
inductive Fault
  | err (e : ConsensusError)
  | panic (p : Panic)
  | fuel
  deriving DecidableEq

/-- `FameStatus`. -/
inductive FameStatus
  | undecided
  | famous
  | notFamous
  deriving DecidableEq

/-- `EventRecord`: a stored event with its bookkeeping. Slot `i` of `ancestorSeqs` is the highest
sequence number of member `i` among the ancestors, 0 if there is none. -/
structure EventRecord where
  event : Event
  seq : ℕ
  ancestorSeqs : List ℕ
  round : ℕ
  isWitness : Bool
  votes : ExtTreeMap EventHash Bool
  fameStatus : FameStatus
  roundReceived : Option ℕ
  consensusTimestamp : Option Timestamp

/-- `Hashgraph`. The last field is not in the program: it lists the rounds `assign_order` was
called for, in call order, and nothing reads it. -/
structure Hashgraph where
  events : ExtTreeMap EventHash EventRecord
  children : ExtTreeMap EventHash (List EventHash)
  firstChild : ExtTreeMap (NodeId × Option EventHash) EventHash
  byCreatorSeq : ExtTreeMap (NodeId × ℕ) EventHash
  latestByCreator : ExtTreeMap NodeId EventHash
  memberIndex : ExtTreeMap NodeId ℕ
  memberCount : ℕ
  rosterHistory : RosterHistory
  knownForkers : List Bool
  witnessesByRound : ExtTreeMap ℕ (List EventHash)
  undecidedWitnesses : ExtTreeMap EventHash ℕ
  highestWitnessRound : ℕ
  fullyDecidedRounds : ExtTreeSet ℕ
  nextRoundToOrder : ℕ
  orderLog : List ℕ

/-- Operations that change the graph. -/
abbrev HashgraphM := EStateM Fault Hashgraph

/-- `record.ancestor_seqs[member_idx]`. -/
def EventRecord.ancestorSeq (r : EventRecord) (memberIdx : ℕ) : Except Fault ℕ :=
  match r.ancestorSeqs[memberIdx]? with
  | some seq => .ok seq
  | none => .error (.panic .indexOutOfBounds)

/-- `result.unwrap_or(false)`: an error becomes `false`, a panic stays one. -/
def unwrapOrFalse : Except Fault Bool → Except Fault Bool
  | .error (.err _) => .ok false
  | r => r

/-- `option.ok_or(error)`. -/
def okOr {α : Type} : Option α → ConsensusError → Except Fault α
  | some a, _ => .ok a
  | none, e => .error (.err e)

namespace Hashgraph

/-- The member indices of a registry: `member_ids().into_iter().zip(0..)`. -/
def indexMembers (registry : MembershipRegistry) : ExtTreeMap NodeId ℕ :=
  ExtTreeMap.ofList registry.memberIds.zipIdx

/-- `Hashgraph::new`. -/
def new (registry : MembershipRegistry) : Hashgraph where
  events := ∅
  children := ∅
  firstChild := ∅
  byCreatorSeq := ∅
  latestByCreator := ∅
  memberIndex := indexMembers registry
  memberCount := registry.memberIds.length
  rosterHistory := RosterHistory.new registry
  knownForkers := List.replicate registry.memberIds.length false
  witnessesByRound := ∅
  undecidedWitnesses := ∅
  highestWitnessRound := 0
  fullyDecidedRounds := ∅
  nextRoundToOrder := 1
  orderLog := []

/-- `Hashgraph::get`. -/
def get? (g : Hashgraph) (hash : EventHash) : Option EventRecord := g.events[hash]?

/-- `self.get(hash).ok_or(UnknownEvent(hash))`. -/
def getOrUnknown (g : Hashgraph) (hash : EventHash) : Except Fault EventRecord :=
  okOr (g.get? hash) (.unknownEvent hash)

/-- `Hashgraph::fame_of`. -/
def fameOf (g : Hashgraph) (witness : EventHash) : Option FameStatus :=
  (g.get? witness).bind fun record => if record.isWitness then some record.fameStatus else none

/-- `Hashgraph::witnesses_of_round`. -/
def witnessesOfRound (g : Hashgraph) (round : ℕ) : List EventHash :=
  g.witnessesByRound[round]?.getD []

/-- `Hashgraph::member_index_of`. -/
def memberIndexOf (g : Hashgraph) (node : NodeId) : Option ℕ := g.memberIndex[node]?

/-- `Hashgraph::creator_has_known_fork`: `self.known_forkers[member_idx]`. -/
def creatorHasKnownFork (g : Hashgraph) (memberIdx : ℕ) : Except Fault Bool :=
  match g.knownForkers[memberIdx]? with
  | some b => .ok b
  | none => .error (.panic .indexOutOfBounds)

/-- `Hashgraph::event_for_creator_seq`. -/
def eventForCreatorSeq (g : Hashgraph) (creator : NodeId) (seq : ℕ) : Option EventHash :=
  g.byCreatorSeq[(creator, seq)]?

/-- `Hashgraph::canonical_child`. -/
def canonicalChild (g : Hashgraph) (creator : NodeId) (selfParent : Option EventHash) :
    Option EventHash :=
  g.firstChild[(creator, selfParent)]?

/-- `RosterHistory::roster_for_round`. -/
def rosterForRound (g : Hashgraph) (round : ℕ) : Except Fault MembershipRegistry :=
  match g.rosterHistory.activeAt round with
  | some (_, registry) => .ok registry
  | none => .error (.panic .rosterForRound)

/-- `Hashgraph::member_count_at_round`. -/
def memberCountAtRound (g : Hashgraph) (round : ℕ) : Except Fault ℕ := do
  let registry ← g.rosterForRound round
  return registry.len

/-- `Hashgraph::latest_event_by`. -/
def latestEventBy (g : Hashgraph) (node : NodeId) : Option EventHash := g.latestByCreator[node]?

/-- `Hashgraph::children`. -/
def childrenOf (g : Hashgraph) (hash : EventHash) : List EventHash := g.children[hash]?.getD []

/-- `Hashgraph::is_round_decided`. -/
def isRoundDecided (g : Hashgraph) (round : ℕ) : Bool := g.fullyDecidedRounds.contains round

/-- `Hashgraph::highest_decided_round`. -/
def highestDecidedRound (g : Hashgraph) : ℕ := g.fullyDecidedRounds.max?.getD 0

/-- `Hashgraph::pending_order_events`. -/
def pendingOrderEvents (g : Hashgraph) : List EventHash :=
  (g.events.toList.filter fun (_, record) => record.roundReceived.isNone).map (·.1)

/-- `Hashgraph::all_event_hashes`. -/
def allEventHashes (g : Hashgraph) : List EventHash := g.events.keys

/-- `Hashgraph::round_received`. -/
def roundReceived (g : Hashgraph) (hash : EventHash) : Option ℕ :=
  (g.get? hash).bind (·.roundReceived)

/-- `Hashgraph::consensus_timestamp`. -/
def consensusTimestamp (g : Hashgraph) (hash : EventHash) : Option Timestamp :=
  (g.get? hash).bind (·.consensusTimestamp)

/-- `Hashgraph::set_event_order`. -/
def setEventOrder (g : Hashgraph) (hash : EventHash) (round : ℕ) (timestamp : Timestamp) :
    Hashgraph :=
  { g with events := g.events.modify hash fun record =>
      { record with roundReceived := some round, consensusTimestamp := some timestamp } }

/-- `Hashgraph::set_event_round`. -/
def setEventRound (g : Hashgraph) (hash : EventHash) (round : ℕ) (isWitness : Bool) :
    Hashgraph :=
  { g with events := g.events.modify hash fun record =>
      { record with round := round, isWitness := isWitness } }

/-- `Hashgraph::record_witness`. -/
def recordWitness (g : Hashgraph) (round : ℕ) (hash : EventHash) : Hashgraph :=
  { g with
    witnessesByRound := g.witnessesByRound.insert round (g.witnessesOfRound round ++ [hash])
    undecidedWitnesses := g.undecidedWitnesses.insert hash round
    highestWitnessRound := max g.highestWitnessRound round }

/-- `Hashgraph::record_vote`. -/
def recordVote (g : Hashgraph) (voter candidate : EventHash) (vote : Bool) : Hashgraph :=
  { g with events := g.events.modify voter fun record =>
      { record with votes := record.votes.insert candidate vote } }

end Hashgraph

end JKain
