import JKain.Consensus.Insert
import JKain.Lib.Kahn

/-!
# Deltas

A sync request carries a summary of the requester's graph, the number of the newest event it holds
of every member. The responder walks the chain of its own newest event of every creator down to that
number and sends what it met, parents first. Before sending it drops what it offered to the same
peer a short while ago.

The order in which the program iterates over its hash maps is an argument, and so is the clock:
`clock k` is the `k`-th reading of it during one request, in nanoseconds.
-/

namespace JKain

open Std JKain.Lib

/-- `known_summary`. -/
def knownSummary (g : Hashgraph) (registry : MembershipRegistry) : List (NodeId × ℕ) :=
  registry.memberIds.map fun node => (node, ((g.latestEventBy node).bind g.get?).elim 0 (·.seq))

/-- Why no delta is returned. -/
inductive DeltaError
  /-- `latest event {hash:?} missing from graph`. -/
  | missing (hash : EventHash)
  /-- `delta contains a cycle or dangling parent ({}/{} emitted)`. -/
  | cycle (emitted collected : ℕ)
  /-- A loop did not end within its fuel, or an in-degree underflowed. -/
  | stuck
  deriving DecidableEq

/-- The orders in which `delta_events` iterates over the creators, over the collected events and
over their in-degrees. -/
structure DeltaOrder where
  creators : IterOrder
  events : IterOrder
  degrees : IterOrder

/-- `known.iter().copied().collect()`: a creator listed twice keeps the later number. -/
def knownSeq (known : List (NodeId × ℕ)) : ExtTreeMap NodeId ℕ :=
  known.foldl (fun seqs (node, seq) => seqs.insert node seq) ∅

/-- The walk down the self-parents of a creator's newest event, to the number `frontier`. -/
def collectChain (g : Hashgraph) (frontier : ℕ) :
    ℕ → Option EventHash → ExtTreeMap EventHash Event →
      Except DeltaError (ExtTreeMap EventHash Event)
  | _, none, collected => .ok collected
  | 0, some _, _ => .error .stuck
  | fuel + 1, some hash, collected =>
    match g.get? hash with
    | none => .error (.missing hash)
    | some record =>
      if record.seq ≤ frontier then .ok collected
      else collectChain g frontier fuel record.event.selfParent
        (collected.insert hash record.event)

/-- The walk for one creator, with the number of its newest event as fuel. -/
def collectCreator (g : Hashgraph) (seqs : ExtTreeMap NodeId ℕ)
    (collected : ExtTreeMap EventHash Event) (creator : NodeId) :
    Except DeltaError (ExtTreeMap EventHash Event) :=
  let cursor := g.latestEventBy creator
  collectChain g (seqs[creator]?.getD 0) (((cursor.bind g.get?).elim 0 (·.seq)) + 1) cursor collected

/-- The creators `delta_events` looks at: the members and those the summary names. -/
def deltaCreators (known : List (NodeId × ℕ)) (registry : MembershipRegistry) : List NodeId :=
  (registry.memberIds ++ (knownSeq known).keys).dedup

/-- The events above the summary. -/
def collectDelta (order : IterOrder) (g : Hashgraph) (known : List (NodeId × ℕ))
    (registry : MembershipRegistry) : Except DeltaError (ExtTreeMap EventHash Event) :=
  (order.order (deltaCreators known registry)).foldlM (collectCreator g (knownSeq known)) ∅

/-- `topo_sort`. A collected event is stored under its hash. -/
def topoSort (order : DeltaOrder) (events : ExtTreeMap EventHash Event) :
    Except DeltaError (List (EventHash × Event)) :=
  match kahn (fun hash => (events[hash]?).elim [] Event.parents) (order.events.order events.keys)
      (order.degrees.order events.keys) with
  | none => .error .stuck
  | some ordered =>
    if ordered.length ≠ events.size then .error (.cycle ordered.length events.size)
    else .ok (ordered.filterMap fun hash => (events[hash]?).map (hash, ·))

/-- `delta_events`, each event with its hash. -/
def deltaEvents (order : DeltaOrder) (g : Hashgraph) (known : List (NodeId × ℕ))
    (registry : MembershipRegistry) : Except DeltaError (List (EventHash × Event)) := do
  let collected ← collectDelta order.creators g known registry
  topoSort order collected

/-! ## Dropping likely duplicates -/

/-- `SyncConfig`, the thresholds in nanoseconds. -/
structure SyncConfig where
  filterLikelyDuplicates : Bool
  nonAncestorThreshold : ℕ
  ancestorThreshold : ℕ
  selfThreshold : ℕ

/-- `SyncConfig::default`. -/
def SyncConfig.default : SyncConfig := ⟨true, 3000000000, 250000000, 1000000000⟩

/-- The largest of the three thresholds. -/
def SyncConfig.largest (config : SyncConfig) : ℕ :=
  (config.nonAncestorThreshold.max config.ancestorThreshold).max config.selfThreshold

/-- `DedupState`: when an event was last offered to a peer, and whether it was then one of the
node's own events and an ancestor of them. -/
structure DedupState where
  sent : ExtTreeMap (NodeId × ℕ) (ℕ × Bool × Bool)

namespace DedupState

/-- `DedupState::default`. -/
def empty : DedupState := ⟨∅⟩

/-- The threshold that `should_filter` holds the age of an entry against. -/
def threshold (config : SyncConfig) (isSelf isAncestor : Bool) (entry : ℕ × Bool × Bool) : ℕ :=
  if isSelf || entry.2.1 then config.selfThreshold
  else if isAncestor || entry.2.2 then config.ancestorThreshold
  else config.nonAncestorThreshold

/-- `DedupState::should_filter`, with the time of the call. -/
def shouldFilter (config : SyncConfig) (hash : EventHash) (targetPeer : NodeId)
    (isSelf isAncestor : Bool) (now : ℕ) (dedup : DedupState) : Bool × DedupState :=
  if !config.filterLikelyDuplicates then (false, dedup)
  else
    let record := (false, ⟨dedup.sent.insert (targetPeer, hash) (now, isSelf, isAncestor)⟩)
    match dedup.sent[(targetPeer, hash)]? with
    | some entry =>
      if now - entry.1 < threshold config isSelf isAncestor entry then (true, dedup) else record
    | none => record

/-- `DedupState::prune_expired`: an entry is kept for a second longer than the largest
threshold. -/
def pruneExpired (config : SyncConfig) (now : ℕ) (dedup : DedupState) : DedupState :=
  ⟨dedup.sent.filter fun _ entry => now - entry.1 < config.largest + 1000000000⟩

end DedupState

/-- Whether the event counts as an ancestor of the node's newest event. -/
def countsAsAncestor (g : Hashgraph) (selfId : NodeId) (hash : EventHash) : Except Fault Bool :=
  match g.latestEventBy selfId with
  | none => .ok false
  | some latest => unwrapOrFalse (g.isAncestor hash latest)

/-- The loop of `delta_events_filtered`; `k` counts the readings of the clock. A panic of an ancestry
query would end the task, with the entries made so far kept. -/
def filterDelta (config : SyncConfig) (g : Hashgraph) (selfId targetPeer : NodeId) (clock : ℕ → ℕ) :
    ℕ → List (EventHash × Event) → EStateM Fault DedupState (List (EventHash × Event))
  | _, [] => pure []
  | k, (hash, event) :: events => do
    let isSelf := decide (event.creator = selfId)
    let isAncestor ← fromExcept (if isSelf then .ok false else countsAsAncestor g selfId hash)
    let filtered ← modifyGet (·.shouldFilter config hash targetPeer isSelf isAncestor (clock k))
    let out ← filterDelta config g selfId targetPeer clock (k + 1) events
    return if filtered then out else (hash, event) :: out

/-- `delta_events_filtered`. -/
def deltaEventsFiltered (order : DeltaOrder) (config : SyncConfig) (g : Hashgraph)
    (known : List (NodeId × ℕ)) (registry : MembershipRegistry) (selfId targetPeer : NodeId)
    (clock : ℕ → ℕ) :
    EStateM Fault DedupState (Except DeltaError (List (EventHash × Event))) :=
  match deltaEvents order g known registry with
  | .error e => return .error e
  | .ok events =>
    if !config.filterLikelyDuplicates then return .ok events
    else do
      let out ← filterDelta config g selfId targetPeer clock 0 events
      modify (·.pruneExpired config (clock events.length))
      return .ok out

/-! ## Taking a delta in -/

/-- The loop of `exchange_delta` over the events of a response: the hashes freshly inserted and the
number of events left when a parent is missing. A duplicate is skipped, any other error ends the
round. The signatures were verified when the sender inserted the events. `iter k` is the iteration
order during the `k`-th insertion. -/
def applyDelta (H : Hasher) :
    (ℕ → IterOrder) → List Event → HashgraphM (List EventHash × ℕ)
  | _, [] => pure ([], 0)
  | iter, event :: events => fun g =>
    match Hashgraph.insert H (iter 0) event g with
    | .ok hash g' =>
      match applyDelta H (fun k => iter (k + 1)) events g' with
      | .ok (fresh, blocked) g'' => .ok (hash :: fresh, blocked) g''
      | .error fault g'' => .error fault g''
    | .error (.err (.alreadyPresent _)) g' => applyDelta H (fun k => iter (k + 1)) events g'
    | .error (.err (.missingParent _)) g' => .ok ([], 1 + events.length) g'
    | .error fault g' => .error fault g'

end JKain
