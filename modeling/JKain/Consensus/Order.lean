import JKain.Consensus.Round
import Mathlib.Data.Prod.Lex
import Mathlib.Order.WithBot

/-!
# Order finalization

`assignOrder` gives every event that all famous witnesses of a decided round see its round received
and its consensus timestamp; `consensusOrder` lists the events of a round in their final order.
-/

namespace JKain

open Std JKain.Lib

/-- `signature_tie_break`: the eight little-endian words of the signature, folded by exclusive or. -/
def signatureTieBreak (signature : Signature) : ℕ :=
  (List.finRange 8).foldl (fun acc (chunk : Fin 8) => acc ^^^
    (List.finRange 8).foldr (fun (byte : Fin 8) rest =>
      (signature.bytes ⟨8 * chunk + byte, by omega⟩).toNat + 256 * rest) 0) 0

/-- `median_timestamp`: the middle element, or the truncated mean of the two middle ones. -/
def medianTimestamp (firstSeen : List ℕ) : Except Fault Timestamp :=
  let sorted := firstSeen.insertionSort (· ≤ ·)
  let len := sorted.length
  if len = 0 then .error (.panic .noFirstSeen)
  else if len % 2 = 1 then .ok (sorted[len / 2]?.getD 0)
  else .ok ((sorted[len / 2 - 1]?.getD 0 + sorted[len / 2]?.getD 0) / 2)

namespace Hashgraph

/-- Whether the event is the first seen child of its self-parent. -/
def isCanonical (g : Hashgraph) (witness : EventHash) : Bool :=
  (g.get? witness).any fun record =>
    g.canonicalChild record.event.creator record.event.selfParent == some witness

/-- `Hashgraph::famous_witnesses_of_round`. -/
def famousWitnessesOfRound (g : Hashgraph) (round : ℕ) : List EventHash :=
  (g.witnessesOfRound round).filter fun witness =>
    g.fameOf witness == some .famous && g.isCanonical witness

/-- `Hashgraph::creator_chain_event`. -/
def creatorChainEvent (g : Hashgraph) (witness : EventHash) (creator : NodeId) (idx seq : ℕ) :
    Except Fault (Option EventHash) := do
  let forked ← g.creatorHasKnownFork idx
  if forked then g.ancestorEventForCreator witness creator seq
  else return g.eventForCreatorSeq creator seq

/-- Whether the creator's event at `seq`, as seen through `witness`, exists and sees `target`. -/
def chainEventSees (g : Hashgraph) (witness target : EventHash) (creator : NodeId) (idx seq : ℕ) :
    Except Fault Bool := do
  let event ← g.creatorChainEvent witness creator idx seq
  match event with
  | none => return false
  | some event => unwrapOrFalse (g.see event target)

/-- `replace` of `Hashgraph::first_seen_timestamp`: a smaller number, or the same number and a
smaller hash. -/
def isEarlier (seq : ℕ) (event : EventHash) : Option (ℕ × EventHash) → Bool
  | none => true
  | some (bestSeq, bestEvent) => seq < bestSeq || (seq == bestSeq && event < bestEvent)

/-- The loop of `Hashgraph::first_seen_timestamp` over the members. `none` is the early return on a
missing boundary event, `some` the earliest candidate found. -/
def earliestSeeing (g : Hashgraph) (witness target : EventHash) (witnessRecord : EventRecord) :
    List (NodeId × ℕ) → Option (ℕ × EventHash) → Except Fault (Option (Option (ℕ × EventHash)))
  | [], earliest => .ok (some earliest)
  | (nodeId, idx) :: members, earliest => do
    let upTo ← witnessRecord.ancestorSeq idx
    if upTo = 0 then g.earliestSeeing witness target witnessRecord members earliest
    else do
      let latestSees ← g.chainEventSees witness target nodeId idx upTo
      if latestSees then do
        let low ← lowerBoundM (g.chainEventSees witness target nodeId idx) (upTo - 1) 1 upTo
        let event ← g.creatorChainEvent witness nodeId idx low
        match event with
        | none => return none
        | some event =>
          g.earliestSeeing witness target witnessRecord members
            (if isEarlier low event earliest then some (low, event) else earliest)
      else g.earliestSeeing witness target witnessRecord members earliest

/-- `Hashgraph::first_seen_timestamp`. -/
def firstSeenTimestamp (g : Hashgraph) (witness target : EventHash) : Except Fault (Option ℕ) :=
  match g.get? witness with
  | none => .ok none
  | some witnessRecord => do
    let earliest ← g.earliestSeeing witness target witnessRecord g.memberIndex.toList none
    return earliest.join.bind fun (_, event) => (g.get? event).map (·.event.timestamp)

/-- The consensus timestamp `assign_order` gives `event`, `none` if some witness of `famous` does
not see it. -/
def orderTimestamp (g : Hashgraph) (famous : List EventHash) (event : EventHash) :
    Except Fault (Option Timestamp) := do
  let allFamousSeeEvent ← everyM (fun witness => unwrapOrFalse (g.see witness event)) famous
  if allFamousSeeEvent then do
    let firstSeen ← famous.mapM fun witness => g.firstSeenTimestamp witness event
    let timestamp ← medianTimestamp (firstSeen.filterMap id)
    return some timestamp
  else return none

/-- The body of the loop of `Hashgraph::assign_order`. -/
def assignEvent (round : ℕ) (famous : List EventHash) (event : EventHash) : HashgraphM PUnit := do
  let g ← get
  let timestamp ← fromExcept (g.orderTimestamp famous event)
  match timestamp with
  | none => return
  | some timestamp => modify (·.setEventOrder event round timestamp)

/-- `Hashgraph::assign_order`. -/
def assignOrder (round : ℕ) : HashgraphM PUnit := do
  modify fun g => { g with orderLog := g.orderLog ++ [round] }
  let g ← get
  let famous := g.famousWitnessesOfRound round
  if famous.isEmpty then return
  else g.pendingOrderEvents.forM (assignEvent round famous)

/-- The loop of `Hashgraph::order_decided_rounds`. -/
def orderLoop : ℕ → HashgraphM PUnit
  | 0 => throw .fuel
  | fuel + 1 => do
    let g ← get
    if g.isRoundDecided g.nextRoundToOrder then do
      let round := g.nextRoundToOrder
      modify fun g => { g with nextRoundToOrder := round + 1 }
      assignOrder round
      orderLoop fuel
    else return

/-- `Hashgraph::order_decided_rounds`. Each turn consumes one decided round. -/
def orderDecidedRounds : HashgraphM PUnit := do
  let g ← get
  orderLoop (g.fullyDecidedRounds.size + 1)

/-- `Hashgraph::round_view_complete`. -/
def roundViewComplete (g : Hashgraph) (round : ℕ) : Except Fault Bool := do
  let registry ← g.rosterForRound round
  return registry.memberIds.all fun member =>
    ((g.latestEventBy member).bind g.get?).any fun record => decide (record.round > round)

/-- `Hashgraph::note_round_decided_if_complete`. -/
def noteRoundDecidedIfComplete (round : ℕ) : HashgraphM PUnit := do
  if round = 0 then return
  else do
    let g ← get
    if g.undecidedWitnesses.toList.any fun (_, witnessRound) => witnessRound == round then return
    else do
      let complete ← fromExcept (g.roundViewComplete round)
      if complete then do
        modify fun g => { g with fullyDecidedRounds := g.fullyDecidedRounds.insert round }
        orderDecidedRounds
      else return

/-- The three sort keys of `Hashgraph::consensus_order`: consensus timestamp, signature fold, hash. -/
def orderKey (g : Hashgraph) (hash : EventHash) :
    WithBot Timestamp ×ₗ WithBot ℕ ×ₗ EventHash :=
  toLex (g.consensusTimestamp hash,
    toLex ((g.get? hash).map (signatureTieBreak ·.event.signature), hash))

/-- `Hashgraph::consensus_order`. The sorted hashes are those of stored events, so that the `expect`
of the comparison never fires. -/
def consensusOrder (g : Hashgraph) (round : ℕ) : List EventHash :=
  (g.allEventHashes.filter fun hash => g.roundReceived hash == some round).insertionSort
    fun a b => g.orderKey a ≤ g.orderKey b

end Hashgraph

end JKain
