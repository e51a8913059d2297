import JKain.Consensus.Insert

/-!
# Growing the membership and pruning

`addMember` widens the structures that are indexed by member and schedules the registry of the
rounds to come. `pruneBeforeRound` drops events whose order was fixed before a round, keeping the
parents of the events that stay.
-/

namespace JKain

open Std JKain.Lib

namespace Hashgraph

/-- The graph with one member more: every row gets a slot for it, and the new registry is active
from the round after `activationRound`. -/
def widen (g : Hashgraph) (node : NodeId) (activationRound : ℕ) (newRegistry : MembershipRegistry) :
    Hashgraph :=
  { g with
    memberIndex := g.memberIndex.insert node g.memberCount
    memberCount := g.memberCount + 1
    knownForkers := g.knownForkers ++ [false]
    events := g.events.map fun _ record =>
      { record with ancestorSeqs := record.ancestorSeqs ++ [0] }
    rosterHistory := g.rosterHistory.schedule (activationRound + 1) newRegistry }

/-- `Hashgraph::add_member`. -/
def addMember (node : NodeId) (activationRound : ℕ) (newRegistry : MembershipRegistry) :
    HashgraphM PUnit := do
  let g ← get
  if (g.memberIndexOf node).isSome then throw (.panic .alreadyRegistered)
  else modify (·.widen node activationRound newRegistry)

/-- Whether the event was received before `threshold`; an event that was not is live. -/
def expired (threshold : ℕ) (record : EventRecord) : Bool :=
  record.roundReceived.any (· < threshold)

/-- The hashes of the expired events, in increasing order. -/
def expiredEvents (g : Hashgraph) (threshold : ℕ) : List EventHash :=
  (g.events.toList.filter fun (_, record) => expired threshold record).map (·.1)

/-- The parents of the live events: the border anchors are the expired ones among them. -/
def liveParents (g : Hashgraph) (threshold : ℕ) : List EventHash :=
  (g.events.toList.filter fun (_, record) => !expired threshold record).flatMap
    fun (_, record) => record.event.parents

/-- The expired events that no live event has as a parent. -/
def prunedEvents (g : Hashgraph) (threshold : ℕ) : List EventHash :=
  (g.expiredEvents threshold).filter fun hash => hash ∉ g.liveParents threshold

/-- Removes an event and its index entries: the body of the removal loop. -/
def forget (g : Hashgraph) (hash : EventHash) : Hashgraph :=
  match g.get? hash with
  | none => g
  | some record =>
    let creator := record.event.creator
    let branch := (creator, record.event.selfParent)
    let slot := (creator, record.seq)
    { g with
      events := g.events.erase hash
      children := (record.event.parents.foldl
        (fun children parent => children.modify parent (·.filter (· != hash)))
        g.children).erase hash
      firstChild := if g.firstChild[branch]? = some hash then g.firstChild.erase branch
        else g.firstChild
      byCreatorSeq := if g.byCreatorSeq[slot]? = some hash then g.byCreatorSeq.erase slot
        else g.byCreatorSeq
      latestByCreator := if g.latestByCreator[creator]? = some hash then
          g.latestByCreator.erase creator
        else g.latestByCreator }

/-- Replaces the best entry so far by one of the creator with a larger number. -/
def higherEntry (creator : NodeId) (best : Option (ℕ × EventHash))
    (entry : (NodeId × ℕ) × EventHash) : Option (ℕ × EventHash) :=
  if entry.1.1 ≠ creator then best
  else
    match best with
    | some (bestSeq, _) => if entry.1.2 ≤ bestSeq then best else some (entry.1.2, entry.2)
    | none => some (entry.1.2, entry.2)

/-- The creator's indexed event with the largest number. -/
def highestIndexed (g : Hashgraph) (creator : NodeId) : Option (ℕ × EventHash) :=
  g.byCreatorSeq.toList.foldl (higherEntry creator) none

/-- Points a creator whose newest event was removed at its highest surviving one. -/
def repoint (g : Hashgraph) (creator : NodeId) : Hashgraph :=
  if (g.latestEventBy creator).isSome then g
  else
    match g.highestIndexed creator with
    | some (_, hash) => { g with latestByCreator := g.latestByCreator.insert creator hash }
    | none => g

/-- Drops removed events from the witness bookkeeping. -/
def forgetWitnesses (g : Hashgraph) (pruned : List EventHash) : Hashgraph :=
  { g with
    undecidedWitnesses := pruned.foldl (fun undecided hash => undecided.erase hash)
      g.undecidedWitnesses
    witnessesByRound := g.witnessesByRound.map fun _ hashes =>
      hashes.filter fun hash => (g.get? hash).isSome }

/-- The graph `Hashgraph::prune_before_round` leaves, once there is an expired event. -/
def prune (g : Hashgraph) (threshold : ℕ) : Hashgraph :=
  let pruned := g.prunedEvents threshold
  let prunedTips := (g.latestByCreator.toList.filter fun (_, tip) => tip ∈ pruned).map (·.1)
  let g := prunedTips.foldl repoint (pruned.foldl forget g)
  let g := g.forgetWitnesses pruned
  { g with rosterHistory := g.rosterHistory.pruneBefore threshold }

/-- `Hashgraph::prune_before_round`. Without an expired event nothing changes, the roster history
included. -/
def pruneBeforeRound (threshold : ℕ) : HashgraphM (List EventHash) := do
  let g ← get
  if threshold < g.nextRoundToOrder then
    if (g.expiredEvents threshold).isEmpty then return []
    else do
      modify (·.prune threshold)
      return g.prunedEvents threshold
  else throw (.panic .pruneUnordered)

end Hashgraph

end JKain
