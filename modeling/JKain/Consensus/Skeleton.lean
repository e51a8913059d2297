import JKain.Consensus.AncestrySpec

/-!
# The core and the skeleton of a graph

The ancestry queries read the core of a graph: the events with their numbers and rows, the indices
and the rosters. The skeleton adds what round assignment writes, the rounds and the witnesses; the
rest, votes, fame, received rounds, timestamps and the sets that follow from them, is written by
voting and ordering. So the queries answer alike before and after any of these.
-/

namespace JKain

open Std JKain.Lib

/-- A record without what voting and ordering write. -/
def EventRecord.bare (r : EventRecord) : EventRecord :=
  { r with votes := ∅, fameStatus := .undecided, roundReceived := none, consensusTimestamp := none }

/-- A bare record without its round. -/
def EventRecord.core (r : EventRecord) : EventRecord :=
  { r.bare with round := 0, isWitness := false }

@[simp] theorem EventRecord.bare_event (r : EventRecord) : r.bare.event = r.event := rfl

@[simp] theorem EventRecord.bare_round (r : EventRecord) : r.bare.round = r.round := rfl

@[simp] theorem EventRecord.bare_isWitness (r : EventRecord) : r.bare.isWitness = r.isWitness := rfl

@[simp] theorem EventRecord.bare_ancestorSeq (r : EventRecord) (i : ℕ) :
    r.bare.ancestorSeq i = r.ancestorSeq i := rfl

@[simp] theorem EventRecord.core_event (r : EventRecord) : r.core.event = r.event := rfl

@[simp] theorem EventRecord.core_seq (r : EventRecord) : r.core.seq = r.seq := rfl

@[simp] theorem EventRecord.core_ancestorSeq (r : EventRecord) (i : ℕ) :
    r.core.ancestorSeq i = r.ancestorSeq i := rfl

namespace Hashgraph

/-- The graph without what voting and ordering write. -/
def skeleton (g : Hashgraph) : Hashgraph :=
  { g with
    events := g.events.map fun _ record => record.bare
    undecidedWitnesses := ∅
    fullyDecidedRounds := ∅
    nextRoundToOrder := 0
    orderLog := [] }

/-- The skeleton without what round assignment writes. -/
def core (g : Hashgraph) : Hashgraph :=
  { g with
    events := g.events.map fun _ record => record.core
    witnessesByRound := ∅
    highestWitnessRound := 0
    undecidedWitnesses := ∅
    fullyDecidedRounds := ∅
    nextRoundToOrder := 0
    orderLog := [] }

variable (g : Hashgraph)

@[simp] theorem get?_skeleton (hash : EventHash) :
    g.skeleton.get? hash = (g.get? hash).map EventRecord.bare := by
  simp [skeleton, get?, ExtTreeMap.getElem?_map]

@[simp] theorem memberIndexOf_skeleton (node : NodeId) :
    g.skeleton.memberIndexOf node = g.memberIndexOf node := rfl

@[simp] theorem creatorHasKnownFork_skeleton (i : ℕ) :
    g.skeleton.creatorHasKnownFork i = g.creatorHasKnownFork i := rfl

@[simp] theorem eventForCreatorSeq_skeleton (creator : NodeId) (seq : ℕ) :
    g.skeleton.eventForCreatorSeq creator seq = g.eventForCreatorSeq creator seq := rfl

@[simp] theorem witnessesOfRound_skeleton (round : ℕ) :
    g.skeleton.witnessesOfRound round = g.witnessesOfRound round := rfl

@[simp] theorem memberIndex_skeleton : g.skeleton.memberIndex = g.memberIndex := rfl

@[simp] theorem get?_core (hash : EventHash) :
    g.core.get? hash = (g.get? hash).map EventRecord.core := by
  simp [core, get?, ExtTreeMap.getElem?_map]

@[simp] theorem memberIndexOf_core (node : NodeId) :
    g.core.memberIndexOf node = g.memberIndexOf node := rfl

@[simp] theorem creatorHasKnownFork_core (i : ℕ) :
    g.core.creatorHasKnownFork i = g.creatorHasKnownFork i := rfl

@[simp] theorem eventForCreatorSeq_core (creator : NodeId) (seq : ℕ) :
    g.core.eventForCreatorSeq creator seq = g.eventForCreatorSeq creator seq := rfl

@[simp] theorem memberCountAtRound_core (round : ℕ) :
    g.core.memberCountAtRound round = g.memberCountAtRound round := rfl

@[simp] theorem memberIndex_core : g.core.memberIndex = g.memberIndex := rfl

@[simp] theorem traversalFuel_core : g.core.traversalFuel = g.traversalFuel := by
  simp [traversalFuel, core, ExtTreeMap.size_map]

/-! ## The ancestry queries read the core only -/

theorem expandParents_core : g.core.expandParents = g.expandParents := by
  funext acc c
  unfold expandParents
  rw [get?_core]
  cases g.get? c <;> rfl

theorem expandForCreator_core (creator : NodeId) (seq : ℕ) :
    g.core.expandForCreator creator seq = g.expandForCreator creator seq := by
  funext acc c
  unfold expandForCreator
  rw [get?_core]
  cases g.get? c <;> rfl

theorem expandForFork_core (creator : NodeId) :
    g.core.expandForFork creator = g.expandForFork creator := by
  funext seen c
  unfold expandForFork
  rw [get?_core]
  cases g.get? c <;> rfl

@[simp] theorem ancestryContainsEvent_core (x y : EventHash) :
    g.core.ancestryContainsEvent x y = g.ancestryContainsEvent x y := by
  unfold ancestryContainsEvent
  rw [expandParents_core, traversalFuel_core]

@[simp] theorem ancestorEventForCreator_core (x : EventHash) (creator : NodeId) (seq : ℕ) :
    g.core.ancestorEventForCreator x creator seq = g.ancestorEventForCreator x creator seq := by
  unfold ancestorEventForCreator
  rw [expandForCreator_core, traversalFuel_core]

@[simp] theorem ancestryContainsForkOf_core (x : EventHash) (creator : NodeId) :
    g.core.ancestryContainsForkOf x creator = g.ancestryContainsForkOf x creator := by
  unfold ancestryContainsForkOf
  rw [expandForFork_core, traversalFuel_core]

@[simp] theorem getOrUnknown_core (hash : EventHash) :
    g.core.getOrUnknown hash = EventRecord.core <$> g.getOrUnknown hash := by
  unfold getOrUnknown
  rw [get?_core]
  cases g.get? hash <;> rfl

@[simp] theorem isAncestor_core (x y : EventHash) :
    g.core.isAncestor x y = g.isAncestor x y := by
  unfold isAncestor
  cases hx : g.getOrUnknown x <;> cases hy : g.getOrUnknown y <;>
    simp [hx, hy, bind, Except.bind, Functor.map, Except.map]

@[simp] theorem see_core (x y : EventHash) : g.core.see x y = g.see x y := by
  unfold see
  rw [isAncestor_core]
  cases hy : g.getOrUnknown y <;> simp [hy, bind, Except.bind, Functor.map, Except.map]

@[simp] theorem chainReaches_core (y : EventHash) (fuel : ℕ) (hash : EventHash) :
    g.core.chainReaches y fuel hash = g.chainReaches y fuel hash := by
  induction fuel generalizing hash with
  | zero => rfl
  | succ fuel ih =>
    unfold chainReaches
    rw [see_core, get?_core]
    cases g.get? hash with
    | none => rfl
    | some record =>
      simp only [Option.map_some, Option.bind_some, EventRecord.core_event]
      cases record.event.selfParent with
      | none => rfl
      | some parent => simp only [get?_core, Option.isNone_map, ih]

@[simp] theorem memberChainReaches_core (x : EventHash) (creator : NodeId) (i upTo : ℕ)
    (y : EventHash) :
    g.core.memberChainReaches x creator i upTo y = g.memberChainReaches x creator i upTo y := by
  unfold memberChainReaches
  simp

@[simp] theorem stronglySeeAt_core (x y : EventHash) (round : ℕ) :
    g.core.stronglySeeAt x y round = g.stronglySeeAt x y round := by
  have hcounts (r : EventRecord) : g.core.memberCounts x y r.core = g.memberCounts x y r := by
    funext member
    simp [memberCounts]
  unfold stronglySeeAt
  cases hx : g.getOrUnknown x <;>
    simp [hx, hcounts, bind, Except.bind, Functor.map, Except.map]

/-! ## The queries read the skeleton only -/

theorem core_skeleton : g.skeleton.core = g.core := by
  have hevents : (g.events.map fun _ record => record.bare).map (fun _ record => record.core) =
      g.events.map fun _ record => record.core := by
    refine ExtTreeMap.ext_getElem? fun {k} => ?_
    simp only [ExtTreeMap.getElem?_map]
    cases g.events[k]? <;> rfl
  simp only [core, skeleton, hevents]

@[simp] theorem ancestorEventForCreator_skeleton (x : EventHash) (creator : NodeId) (seq : ℕ) :
    g.skeleton.ancestorEventForCreator x creator seq = g.ancestorEventForCreator x creator seq := by
  rw [← ancestorEventForCreator_core, core_skeleton, ancestorEventForCreator_core]

@[simp] theorem see_skeleton (x y : EventHash) : g.skeleton.see x y = g.see x y := by
  rw [← see_core, core_skeleton, see_core]

@[simp] theorem stronglySeeAt_skeleton (x y : EventHash) (round : ℕ) :
    g.skeleton.stronglySeeAt x y round = g.stronglySeeAt x y round := by
  rw [← stronglySeeAt_core, core_skeleton, stronglySeeAt_core]

end Hashgraph

end JKain
