import JKain.Consensus.Hashgraph

/-!
# Ancestry queries

`isAncestor`, `see` and `stronglySeeAt` as `ancestry.rs` computes them: from the sequence rows alone
where the creator asked about is not a known forker, by a traversal of the stored parent links where
it is.
-/

namespace JKain

open Std JKain.Lib

namespace Hashgraph

/-- Fuel for the traversals: every stored event is expanded at most once and has at most two
parents. -/
def traversalFuel (g : Hashgraph) : ℕ := 2 * g.events.size + 2

/-- The loop body of `Hashgraph::ancestor_event_for_creator`. An absent event has no successors: it
was pruned, and the branch ends there. -/
def expandForCreator (g : Hashgraph) (creator : NodeId) (seq : ℕ) (_ : Unit)
    (current : EventHash) : Except EventHash (Unit × List EventHash) :=
  match g.get? current with
  | none => .ok ((), [])
  | some record =>
    if record.event.creator = creator ∧ record.seq = seq then .error current
    else .ok ((), record.event.parents)

/-- `Hashgraph::ancestor_event_for_creator`. -/
def ancestorEventForCreator (g : Hashgraph) (x : EventHash) (creator : NodeId) (seq : ℕ) :
    Except Fault (Option EventHash) :=
  match bfs (fun _ => none) (g.expandForCreator creator seq) g.traversalFuel [x] ∅ () with
  | .found hash => .ok (some hash)
  | .exhausted _ => .ok none
  | .outOfFuel => .error .fuel

/-- The loop body of `Hashgraph::ancestry_contains_event`, after the visited test. -/
def expandParents (g : Hashgraph) (_ : Unit) (current : EventHash) :
    Except Unit (Unit × List EventHash) :=
  match g.get? current with
  | none => .ok ((), [])
  | some record => .ok ((), record.event.parents)

/-- `Hashgraph::ancestry_contains_event`. The target is compared before the visited test. -/
def ancestryContainsEvent (g : Hashgraph) (x target : EventHash) : Except Fault Bool :=
  match bfs (fun current => if current = target then some () else none) g.expandParents
      g.traversalFuel [x] ∅ () with
  | .found _ => .ok true
  | .exhausted _ => .ok false
  | .outOfFuel => .error .fuel

/-- The loop body of `Hashgraph::ancestry_contains_fork_of`: the accumulator is `seen_seqs`. -/
def expandForFork (g : Hashgraph) (creator : NodeId) (seenSeqs : ExtTreeMap ℕ EventHash)
    (current : EventHash) : Except Unit (ExtTreeMap ℕ EventHash × List EventHash) :=
  match g.get? current with
  | none => .ok (seenSeqs, [])
  | some record =>
    if record.event.creator = creator then
      match seenSeqs[record.seq]? with
      | some existing =>
        if existing ≠ current then .error ()
        else .ok (seenSeqs.insert record.seq current, record.event.parents)
      | none => .ok (seenSeqs.insert record.seq current, record.event.parents)
    else .ok (seenSeqs, record.event.parents)

/-- `Hashgraph::ancestry_contains_fork_of`. -/
def ancestryContainsForkOf (g : Hashgraph) (x : EventHash) (creator : NodeId) :
    Except Fault Bool :=
  match bfs (fun _ => none) (g.expandForFork creator) g.traversalFuel [x] ∅ ∅ with
  | .found _ => .ok true
  | .exhausted _ => .ok false
  | .outOfFuel => .error .fuel

/-- `Hashgraph::is_ancestor`. -/
def isAncestor (g : Hashgraph) (x y : EventHash) : Except Fault Bool :=
  if x = y then .ok true
  else do
    let xRec ← g.getOrUnknown x
    let yRec ← g.getOrUnknown y
    let creatorIdx ← okOr (g.memberIndexOf yRec.event.creator) (.unknownEvent y)
    let reach ← xRec.ancestorSeq creatorIdx
    if yRec.seq > reach then return false
    else do
      let forked ← g.creatorHasKnownFork creatorIdx
      if forked then g.ancestryContainsEvent x y else return true

/-- `Hashgraph::see`. -/
def see (g : Hashgraph) (x y : EventHash) : Except Fault Bool := do
  let ancestor ← g.isAncestor x y
  if ancestor then do
    let yRec ← g.getOrUnknown y
    let creatorIdx ← okOr (g.memberIndexOf yRec.event.creator) (.unknownEvent y)
    let forked ← g.creatorHasKnownFork creatorIdx
    if forked then do
      let fork ← g.ancestryContainsForkOf x yRec.event.creator
      return !fork
    else return true
  else return false

/-- The loop of `Hashgraph::member_chain_reaches`: down the self-parent chain from `hash` to the
first event that sees `y`. A missing self-parent ends the walk. -/
def chainReaches (g : Hashgraph) (y : EventHash) : ℕ → EventHash → Except Fault Bool
  | 0, _ => .error .fuel
  | fuel + 1, hash => do
    let seen ← g.see hash y
    if seen then return true
    else
      match (g.get? hash).bind (·.event.selfParent) with
      | none => return false
      | some parent => if (g.get? parent).isNone then return false else g.chainReaches y fuel parent

/-- `Hashgraph::member_chain_reaches`. -/
def memberChainReaches (g : Hashgraph) (x : EventHash) (creator : NodeId) (memberIdx upToSeq : ℕ)
    (y : EventHash) : Except Fault Bool := do
  let forked ← g.creatorHasKnownFork memberIdx
  let current ← if forked then g.ancestorEventForCreator x creator upToSeq
    else pure (g.eventForCreatorSeq creator upToSeq)
  match current with
  | none => return false
  | some hash => g.chainReaches y (upToSeq + 1) hash

/-- Whether the member counts towards `x` strongly seeing `y`: the body of the loop of
`Hashgraph::strongly_see_at`. -/
def memberCounts (g : Hashgraph) (x y : EventHash) (xRec : EventRecord) (member : NodeId × ℕ) :
    Except Fault Bool := do
  let latestSeq ← xRec.ancestorSeq member.2
  if latestSeq = 0 then return false
  else g.memberChainReaches x member.1 member.2 latestSeq y

/-- `Hashgraph::strongly_see_at`. -/
def stronglySeeAt (g : Hashgraph) (x y : EventHash) (rosterRound : ℕ) : Except Fault Bool := do
  let sees ← g.see x y
  if sees then do
    let xRec ← g.getOrUnknown x
    let supermajorityCount ← countM (g.memberCounts x y xRec) g.memberIndex.toList
    let total ← g.memberCountAtRound rosterRound
    return decide (supermajorityCount * 3 > total * 2)
  else return false

/-- `Hashgraph::strongly_see`. -/
def stronglySee (g : Hashgraph) (x y : EventHash) : Except Fault Bool :=
  g.stronglySeeAt x y ((g.get? y).elim 1 (·.round))

end Hashgraph

end JKain
