import JKain.Gossip.Activation
import JKain.Gossip.Retention

/-!
# A node and its passes

`process_finalized_rounds` takes the lock of each store for a short while only, and the tasks that
serve peers insert events and accept checkpoints in between. A pass is therefore a sequence of
steps: the finalized events are read off the graph, executed, the waiting operations activated one
by one, and a checkpoint is produced for one decided round after the other. All callers of
`process_finalized_rounds` are in the driver's loop, so that one pass runs at a time, and the state
of the node holds the place where it stands.

Which signatures of a checkpoint arrive, and when, is up to the peers: a checkpoint the node has
signed may be accepted at any moment. The streams written for mirrors, the buffers of signatures,
the metrics and the addresses of peers are left out.
-/

namespace JKain

open Std Executor

namespace Hashgraph

/-- `Hashgraph::max_ordered_round`. -/
def maxOrderedRound (g : Hashgraph) : ℕ :=
  (g.events.toList.filterMap (·.2.roundReceived)).max?.getD 0

/-- `finalized_events`. -/
def finalizedEvents (g : Hashgraph) : List Event :=
  ((List.range' 1 g.maxOrderedRound).flatMap g.consensusOrder).filterMap fun hash =>
    (g.get? hash).map (·.event)

/-- What a pass reads off the graph: the finalized events with their hashes and the rounds they were
received in. A stored event was hashed when it was inserted, so that the `expect` of the source does
not fire. -/
def finalized (H : Hasher) (g : Hashgraph) : List (EventHash × Event × ℕ) :=
  g.finalizedEvents.filterMap fun event =>
    match H event with
    | .ok hash => (g.roundReceived hash).map fun rr => (hash, event, rr)
    | .error _ => none

end Hashgraph

/-! ## Execution -/

/-- The finalized events by the round they were received in. -/
def byRound (finalized : List (EventHash × Event × ℕ)) :
    ExtTreeMap ℕ (List (EventHash × Event × ℕ)) :=
  finalized.foldl (fun rounds f => rounds.insert f.2.2 (rounds[f.2.2]?.getD [] ++ [f])) ∅

/-- What the second phase of a pass works on: the executor and the buckets, and the roots and
serialized states after the rounds executed so far. -/
structure Batch where
  executor : Executor
  buckets : Buckets
  hashes : ExtTreeMap ℕ Digest
  snapshots : ExtTreeMap ℕ (List UInt8)

namespace Batch

variable (c : Crypto)

/-- The batch before its first round: the state is recorded under round 0. -/
def start (executor : Executor) (buckets : Buckets) : Batch :=
  ⟨executor, buckets, (∅ : ExtTreeMap ℕ Digest).insert 0 executor.state.root,
    (∅ : ExtTreeMap ℕ (List UInt8)).insert 0 executor.state.toBytes⟩

/-- Records the root and the serialized state under a round. -/
def record (batch : Batch) (round : ℕ) : Batch :=
  { batch with
    hashes := batch.hashes.insert round batch.executor.state.root
    snapshots := batch.snapshots.insert round batch.executor.state.toBytes }

/-- One round of the second phase. A round that fails is skipped, with what it did up to the failed
write kept; events received in a round at or below the watermark of earlier passes change what is
recorded for the latest round. -/
def executeRound (originalWatermark : ℕ) (batch : Batch)
    (round : ℕ × List (EventHash × Event × ℕ)) : Batch :=
  let beforeRoot := batch.executor.state.root
  match bucketFinalizedWithDiffs c round.2 batch.buckets batch.executor with
  | (.error _, buckets, executor) => { batch with executor, buckets }
  | (.ok _, buckets, executor) =>
    let batch := { batch with executor, buckets }
    if round.1 > originalWatermark then batch.record round.1
    else if executor.state.root ≠ beforeRoot then batch.record buckets.processedThroughRound
    else batch

/-- The second phase of a pass. -/
def execute (finalized : List (EventHash × Event × ℕ)) (executor : Executor) (buckets : Buckets) :
    Batch :=
  (byRound finalized).toList.foldl (executeRound c buckets.processedThroughRound)
    (start executor buckets)

end Batch

/-! ## The node -/

/-- Where the driver stands in `process_finalized_rounds`, with the data it holds there. -/
inductive Pass
  /-- Between two passes. -/
  | idle
  /-- The finalized events are read. -/
  | execute (finalized : List (EventHash × Event × ℕ))
  /-- The events are executed, these rounds are still to be looked at for activation. -/
  | activate (candidateRrs : List ℕ) (stateHashes : ExtTreeMap ℕ Digest)
      (snapshots : ExtTreeMap ℕ (List UInt8))
  /-- The bucket of round `rr` is taken out, these operations of it are still to be activated. -/
  | activateOps (rr : ℕ) (ops : List MembershipOp) (candidateRrs : List ℕ)
      (stateHashes : ExtTreeMap ℕ Digest) (snapshots : ExtTreeMap ℕ (List UInt8))
  /-- Checkpoints are produced from the roots and the serialized states. -/
  | produce (stateHashes : ExtTreeMap ℕ Digest) (snapshots : ExtTreeMap ℕ (List UInt8))

/-- `GossipNode`, as far as its passes read and write it. The last two fields are not in the
program: they log the nodes that were admitted, with the round their `Add` was received in, and the
payloads that were signed, with the serialized states they were signed for. -/
structure Node extends Membership where
  processedThroughRound : ℕ
  checkpointWatermark : ℕ
  executor : Executor
  cumulativeStateHashes : ExtTreeMap ℕ Digest
  checkpointAccumulators : ExtTreeMap ℕ (CheckpointPayload × List UInt8)
  signedCheckpoints : List CheckpointPayload
  stateSnapshots : ExtTreeMap ℕ (List UInt8)
  pass : Pass
  admitted : List (NodeId × ℕ)
  signatures : List (CheckpointPayload × List UInt8)

namespace Node

variable (c : Crypto) (H : Hasher)

/-- `GossipNode::new_with_bls`, over an empty state partition with the given faults in store. -/
def new (registry : MembershipRegistry) (faults : State.WriteFaults) : Node where
  graph := Hashgraph.new registry
  pending := ∅
  registry := registry
  processedThroughRound := 0
  checkpointWatermark := 0
  executor := Executor.fromState (State.new c.sha) faults
  cumulativeStateHashes :=
    (∅ : ExtTreeMap ℕ Digest).insert 0 (SparseMerkleTree.new c.sha).root
  checkpointAccumulators := ∅
  signedCheckpoints := []
  stateSnapshots := ∅
  pass := .idle
  admitted := []
  signatures := []

/-- The second phase, once the finalized events are read. Without any, the pass goes straight to the
checkpoints. -/
def execute (finalized : List (EventHash × Event × ℕ)) (node : Node) : Node :=
  if finalized.isEmpty then
    { node with
      pass := .produce node.cumulativeStateHashes
        ((∅ : ExtTreeMap ℕ (List UInt8)).insert 0 node.executor.state.toBytes) }
  else
    let batch := Batch.execute c finalized node.executor ⟨node.pending, node.processedThroughRound⟩
    { node with
      executor := batch.executor
      pending := batch.buckets.pending
      processedThroughRound := batch.buckets.processedThroughRound
      pass := .activate batch.buckets.pending.keys batch.hashes batch.snapshots }

/-- One candidate of the third phase: its bucket is taken out if the round after it is decided. -/
def activate (rr : ℕ) (candidateRrs : List ℕ) (stateHashes : ExtTreeMap ℕ Digest)
    (snapshots : ExtTreeMap ℕ (List UInt8)) (node : Node) : Node :=
  if node.graph.isRoundDecided (rr + 1) then
    { node with
      pending := node.pending.erase rr
      pass := .activateOps rr (node.pending[rr]?.getD []) candidateRrs stateHashes snapshots }
  else { node with pass := .activate candidateRrs stateHashes snapshots }

/-- One operation of the bucket of round `rr`. -/
def activateOp (rr : ℕ) (op : MembershipOp) (node : Node) : Except Fault Node := do
  let membership ← Membership.activateOp c rr node.toMembership op
  return { node with
    toMembership := membership
    admitted := node.admitted ++ ((Membership.admits c node.graph op).map (·, rr)).toList }

/-- The start of the fourth phase: the roots of the pass join those of earlier passes, except the
one recorded before the first round. -/
def extendHashes (stateHashes : ExtTreeMap ℕ Digest) (snapshots : ExtTreeMap ℕ (List UInt8))
    (node : Node) : Node :=
  let cumulative := stateHashes.toList.foldl
    (fun cumulative (round, hash) => if round ≠ 0 then cumulative.insert round hash else cumulative)
    node.cumulativeStateHashes
  { node with cumulativeStateHashes := cumulative, pass := .produce cumulative snapshots }

/-- `produce_checkpoint`, without the count of the signatures. -/
def produceCheckpoint (round : ℕ) (stateHashes : ExtTreeMap ℕ Digest)
    (snapshots : ExtTreeMap ℕ (List UInt8)) (node : Node) : Except Fault Node :=
  match lastAtOrBelow snapshots round with
  | none => .ok node
  | some snapshot => do
    let payload ← node.graph.canonicalCheckpointPayloadChained c.sha stateHashes
      node.signedCheckpoints round
    match payload with
    | none => return node
    | some payload => do
      let _ ← node.graph.rosterForRound round
      return { node with
        checkpointAccumulators :=
          node.checkpointAccumulators.insertIfNew round (payload, snapshot)
        signatures := node.signatures ++ [(payload, snapshot)] }

/-- One turn of `produce_pending_checkpoints`. -/
def producePending (stateHashes : ExtTreeMap ℕ Digest) (snapshots : ExtTreeMap ℕ (List UInt8))
    (node : Node) : Except Fault Node :=
  let round := node.checkpointWatermark + 1
  if node.graph.isRoundDecided round then
    produceCheckpoint c round stateHashes snapshots { node with checkpointWatermark := round }
  else .ok { node with pass := .idle }

/-- The next step of the driver's pass. -/
def advance (node : Node) : Except Fault Node :=
  match node.pass with
  | .idle => .ok { node with pass := .execute (node.graph.finalized H) }
  | .execute finalized => .ok (node.execute c finalized)
  | .activate [] stateHashes snapshots => .ok (node.extendHashes stateHashes snapshots)
  | .activate (rr :: candidateRrs) stateHashes snapshots =>
    .ok (node.activate rr candidateRrs stateHashes snapshots)
  | .activateOps _ [] candidateRrs stateHashes snapshots =>
    .ok { node with pass := .activate candidateRrs stateHashes snapshots }
  | .activateOps rr (op :: ops) candidateRrs stateHashes snapshots =>
    ({ node with pass := .activateOps rr ops candidateRrs stateHashes snapshots } : Node).activateOp
      c rr op
  | .produce stateHashes snapshots => node.producePending c stateHashes snapshots

/-- `accept_checkpoint` for the checkpoint the node signed for `round`, once a quorum signed it.
`stored` says whether the calls that store the snapshot succeed. -/
def acceptCheckpoint (round : ℕ) (stored : Bool) (node : Node) : Except Fault Node :=
  match node.checkpointAccumulators[round]? with
  | none => .ok node
  | some (payload, snapshot) =>
    let node := { node with checkpointAccumulators := node.checkpointAccumulators.erase round }
    if State.rootOfBytes c.sha snapshot ≠ some payload.stateHash then .ok node
    else if !stored then .ok node
    else
      match Hashgraph.retire payload.round node.cumulativeStateHashes node.graph with
      | .error fault _ => .error fault
      | .ok cumulative graph => .ok
        { node with
          graph
          cumulativeStateHashes := cumulative
          signedCheckpoints := (node.signedCheckpoints ++ [payload]).insertionSort
            (·.round ≤ ·.round)
          stateSnapshots := (node.stateSnapshots.insert payload.round snapshot).filter
            fun r _ => payload.round - Hashgraph.snapshotRetentionRounds ≤ r }

/-- What can happen next at a node: an event whose signature verified is inserted, the driver takes
a step of its pass, or a checkpoint is accepted. -/
inductive Action
  | insert (iter : IterOrder) (event : Event)
  | advance
  | accept (round : ℕ) (stored : Bool)

/-- One step of a node; a fault ends its run. -/
def step (node : Node) : Action → Except Fault Node
  | .insert iter event =>
    match Hashgraph.insert H iter event node.graph with
    | .ok _ graph => .ok { node with graph }
    | .error (.err _) graph => .ok { node with graph }
    | .error fault _ => .error fault
  | .advance => node.advance c H
  | .accept round stored => node.acceptCheckpoint c round stored

/-- The nodes reached from `GossipNode::new_with_bls` by steps that meet `P`. -/
inductive Reached (P : Node → Action → Prop) (registry : MembershipRegistry)
    (faults : State.WriteFaults) : Node → Prop
  | new : Reached P registry faults (new c registry faults)
  | step {node node' : Node} {action : Action} : Reached P registry faults node → P node action →
      node.step c H action = .ok node' → Reached P registry faults node'

/-- The actions of a list, one after the other, as long as each meets `Q`. -/
def replay (Q : Node → Action → Bool) (node : Node) (actions : List Action) : Option Node :=
  actions.foldlM (fun node action => if Q node action then (node.step c H action).toOption else none)
    node

variable {c H}

theorem Reached.replay {P : Node → Action → Prop} {Q : Node → Action → Bool}
    {registry : MembershipRegistry} {faults : State.WriteFaults} {node node' : Node}
    {actions : List Action} (hnode : Reached c H P registry faults node)
    (hQ : ∀ node, ∀ action ∈ actions, Q node action = true → P node action)
    (h : node.replay c H Q actions = some node') : Reached c H P registry faults node' := by
  refine Lib.foldlM_keeps_of_mem (fun prev action haction next hprev hnext => ?_) hnode h
  obtain ⟨hq, hstep⟩ := Lib.guarded_eq_some_iff.mp hnext
  exact .step hprev (hQ prev action haction hq) hstep

theorem exists_replayed {P : Node → Action → Prop} {Q : Node → Action → Bool} {p : Node → Bool}
    (registry : MembershipRegistry) (faults : State.WriteFaults) (actions : List Action)
    (hQ : ∀ node, ∀ action ∈ actions, Q node action = true → P node action)
    (h : ((Node.new c registry faults).replay c H Q actions).any p = true) :
    ∃ node, Reached c H P registry faults node ∧ p node = true := by
  obtain ⟨node, hnode, hp⟩ := (Option.any_eq_true ..).mp h
  exact ⟨node, .replay .new hQ hnode, hp⟩

end Node

end JKain
