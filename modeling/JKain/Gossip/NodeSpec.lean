import JKain.Consensus.Watermark
import JKain.Executor.ExecutorSpec
import JKain.Gossip.Node

/-!
# What the steps of a node do

One relation says everything a step of a node can do. The graph of a node makes a run of its own, so
that everything known about runs of the graph holds at every node.
-/

namespace JKain

open Std Executor

/-! ## The steps -/

namespace Node

/-- Everything a step of a node can do. -/
inductive Moved (c : Crypto) (H : Hasher) (node : Node) : Action → Node → Prop
  | insert {iter : IterOrder} {event : Event} {graph : Hashgraph} :
      Hashgraph.Returned (Hashgraph.insert H iter event) node.graph graph →
      Moved c H node (.insert iter event) { node with graph }
  | begin : node.pass = .idle →
      Moved c H node .advance { node with pass := .execute (node.graph.finalized H) }
  | execute {finalized : List (EventHash × Event × ℕ)} : node.pass = .execute finalized →
      Moved c H node .advance (node.execute c finalized)
  | activated {stateHashes : ExtTreeMap ℕ Digest} {snapshots : ExtTreeMap ℕ (List UInt8)} :
      node.pass = .activate [] stateHashes snapshots →
      Moved c H node .advance (node.extendHashes stateHashes snapshots)
  | defer {rr : ℕ} {rest : List ℕ} {stateHashes : ExtTreeMap ℕ Digest}
      {snapshots : ExtTreeMap ℕ (List UInt8)} :
      node.pass = .activate (rr :: rest) stateHashes snapshots →
      node.graph.isRoundDecided (rr + 1) = false →
      Moved c H node .advance { node with pass := .activate rest stateHashes snapshots }
  | take {rr : ℕ} {rest : List ℕ} {stateHashes : ExtTreeMap ℕ Digest}
      {snapshots : ExtTreeMap ℕ (List UInt8)} :
      node.pass = .activate (rr :: rest) stateHashes snapshots →
      node.graph.isRoundDecided (rr + 1) = true →
      Moved c H node .advance
        { node with
          pending := node.pending.erase rr
          pass := .activateOps rr (node.pending[rr]?.getD []) rest stateHashes snapshots }
  | taken {rr : ℕ} {rest : List ℕ} {stateHashes : ExtTreeMap ℕ Digest}
      {snapshots : ExtTreeMap ℕ (List UInt8)} :
      node.pass = .activateOps rr [] rest stateHashes snapshots →
      Moved c H node .advance { node with pass := .activate rest stateHashes snapshots }
  | skip {rr : ℕ} {op : MembershipOp} {ops : List MembershipOp} {rest : List ℕ}
      {stateHashes : ExtTreeMap ℕ Digest} {snapshots : ExtTreeMap ℕ (List UInt8)} :
      node.pass = .activateOps rr (op :: ops) rest stateHashes snapshots →
      Membership.admits c node.graph op = none →
      Moved c H node .advance { node with pass := .activateOps rr ops rest stateHashes snapshots }
  | enrol {rr : ℕ} {op : MembershipOp} {ops : List MembershipOp} {rest : List ℕ}
      {stateHashes : ExtTreeMap ℕ Digest} {snapshots : ExtTreeMap ℕ (List UInt8)}
      {member : NodeId} {key blsKey : List UInt8} {roster registry : MembershipRegistry} :
      node.pass = .activateOps rr (op :: ops) rest stateHashes snapshots →
      Membership.admits c node.graph op = some member →
      node.graph.memberIndexOf member = none →
      node.graph.rosterForRound (rr + 1) = .ok roster →
      Moved c H node .advance
        { node with
          graph := node.graph.widen member (rr + 1) (roster.register member key blsKey)
          registry
          admitted := node.admitted ++ [(member, rr)]
          pass := .activateOps rr ops rest stateHashes snapshots }
  | done {stateHashes : ExtTreeMap ℕ Digest} {snapshots : ExtTreeMap ℕ (List UInt8)} :
      node.pass = .produce stateHashes snapshots →
      node.graph.isRoundDecided (node.checkpointWatermark + 1) = false →
      Moved c H node .advance { node with pass := .idle }
  | unsigned {stateHashes : ExtTreeMap ℕ Digest} {snapshots : ExtTreeMap ℕ (List UInt8)} :
      node.pass = .produce stateHashes snapshots →
      node.graph.isRoundDecided (node.checkpointWatermark + 1) = true →
      Moved c H node .advance { node with checkpointWatermark := node.checkpointWatermark + 1 }
  | signed {stateHashes : ExtTreeMap ℕ Digest} {snapshots : ExtTreeMap ℕ (List UInt8)}
      {payload : CheckpointPayload} {snapshot : List UInt8} :
      node.pass = .produce stateHashes snapshots →
      node.graph.isRoundDecided (node.checkpointWatermark + 1) = true →
      lastAtOrBelow snapshots (node.checkpointWatermark + 1) = some snapshot →
      node.graph.canonicalCheckpointPayloadChained c.sha stateHashes node.signedCheckpoints
        (node.checkpointWatermark + 1) = .ok (some payload) →
      Moved c H node .advance
        { node with
          checkpointWatermark := node.checkpointWatermark + 1
          checkpointAccumulators := node.checkpointAccumulators.insertIfNew
            (node.checkpointWatermark + 1) (payload, snapshot)
          signatures := node.signatures ++ [(payload, snapshot)] }
  | unknown {round : ℕ} {stored : Bool} : Moved c H node (.accept round stored) node
  | refuse {round : ℕ} {stored : Bool} {accumulator : CheckpointPayload × List UInt8} :
      node.checkpointAccumulators[round]? = some accumulator →
      Moved c H node (.accept round stored)
        { node with checkpointAccumulators := node.checkpointAccumulators.erase round }
  | accept {round : ℕ} {stored : Bool} {payload : CheckpointPayload} {snapshot : List UInt8}
      {cumulative : ExtTreeMap ℕ Digest} {graph : Hashgraph} :
      node.checkpointAccumulators[round]? = some (payload, snapshot) →
      State.rootOfBytes c.sha snapshot = some payload.stateHash →
      Hashgraph.retire payload.round node.cumulativeStateHashes node.graph =
        .ok cumulative graph →
      Moved c H node (.accept round stored)
        { node with
          graph
          cumulativeStateHashes := cumulative
          checkpointAccumulators := node.checkpointAccumulators.erase round
          signedCheckpoints := (node.signedCheckpoints ++ [payload]).insertionSort
            (·.round ≤ ·.round)
          stateSnapshots := (node.stateSnapshots.insert payload.round snapshot).filter
            fun r _ => payload.round - Hashgraph.snapshotRetentionRounds ≤ r }

variable {c : Crypto} {H : Hasher} {S : Set Event} {node node' : Node} {action : Action}

theorem moved_of_insert {iter : IterOrder} {event : Event}
    (h : node.step c H (.insert iter event) = .ok node') :
    Moved c H node (.insert iter event) node' := by
  simp only [step] at h
  split at h
  · rename_i hash graph heq
    obtain rfl := Except.ok.inj h
    exact .insert (.inl ⟨hash, heq⟩)
  · rename_i error graph heq
    obtain rfl := Except.ok.inj h
    exact .insert (.inr ⟨error, heq⟩)
  · cases h

theorem moved_of_activateOp {rr : ℕ} {op : MembershipOp} {ops : List MembershipOp}
    {rest : List ℕ} {stateHashes : ExtTreeMap ℕ Digest}
    {snapshots : ExtTreeMap ℕ (List UInt8)}
    (hpass : node.pass = .activateOps rr (op :: ops) rest stateHashes snapshots)
    (h : ({ node with pass := .activateOps rr ops rest stateHashes snapshots } : Node).activateOp
      c rr op = .ok node') : Moved c H node .advance node' := by
  simp only [Node.activateOp] at h
  cases hop : Membership.activateOp c rr node.toMembership op with
  | error fault =>
    rw [hop] at h
    cases h
  | ok membership =>
    rw [hop] at h
    obtain rfl := Except.ok.inj h
    rcases Membership.activateOp_ok hop with ⟨hadmits, rfl⟩ |
      ⟨member, key, blsKey, roster, hadmits, hnew, hroster, hgraph, hpending⟩
    · simpa [hadmits] using Moved.skip (H := H) hpass hadmits
    · have hmembership : membership =
          ⟨node.graph.widen member (rr + 1) (roster.register member key blsKey), node.pending,
            membership.registry⟩ := by
        rw [← hgraph, ← hpending]
      rw [hmembership, hadmits]
      exact .enrol hpass hadmits hnew hroster

theorem moved_of_producePending {stateHashes : ExtTreeMap ℕ Digest}
    {snapshots : ExtTreeMap ℕ (List UInt8)}
    (hpass : node.pass = .produce stateHashes snapshots)
    (h : node.producePending c stateHashes snapshots = .ok node') :
    Moved c H node .advance node' := by
  simp only [producePending] at h
  split at h
  · rename_i hdecided
    simp only [produceCheckpoint] at h
    split at h
    · obtain rfl := Except.ok.inj h
      exact .unsigned hpass hdecided
    · rename_i snapshot hsnapshot
      cases hpayload : node.graph.canonicalCheckpointPayloadChained c.sha stateHashes
        node.signedCheckpoints (node.checkpointWatermark + 1) with
      | error fault =>
        rw [hpayload] at h
        cases h
      | ok payload =>
        rw [hpayload] at h
        cases payload with
        | none =>
          obtain rfl := Except.ok.inj h
          exact .unsigned hpass hdecided
        | some payload =>
          cases hroster : node.graph.rosterForRound (node.checkpointWatermark + 1) with
          | error fault =>
            simp only [bind, Except.bind, hroster] at h
            cases h
          | ok roster =>
            simp only [bind, Except.bind, hroster] at h
            obtain rfl := Except.ok.inj h
            exact .signed hpass hdecided hsnapshot hpayload
  · rename_i hopen
    obtain rfl := Except.ok.inj h
    exact .done hpass (by simpa using hopen)

theorem moved_of_advance (h : node.step c H .advance = .ok node') :
    Moved c H node .advance node' := by
  simp only [step, advance] at h
  split at h
  · obtain rfl := Except.ok.inj h
    exact .begin ‹_›
  · obtain rfl := Except.ok.inj h
    exact .execute ‹_›
  · obtain rfl := Except.ok.inj h
    exact .activated ‹_›
  · rename_i rr rest stateHashes snapshots hpass
    obtain rfl := Except.ok.inj h
    rw [Node.activate]
    split
    · exact .take hpass ‹_›
    · exact .defer hpass (Bool.eq_false_of_not_eq_true ‹_›)
  · obtain rfl := Except.ok.inj h
    exact .taken ‹_›
  · exact moved_of_activateOp ‹_› h
  · exact moved_of_producePending ‹_› h

theorem moved_of_accept {round : ℕ} {stored : Bool}
    (h : node.step c H (.accept round stored) = .ok node') :
    Moved c H node (.accept round stored) node' := by
  simp only [step, acceptCheckpoint] at h
  split at h
  · obtain rfl := Except.ok.inj h
    exact .unknown
  · rename_i payload snapshot haccumulator
    split at h
    · obtain rfl := Except.ok.inj h
      exact .refuse haccumulator
    · rename_i hroot
      split at h
      · obtain rfl := Except.ok.inj h
        exact .refuse haccumulator
      · split at h
        · cases h
        · rename_i cumulative graph hretire
          obtain rfl := Except.ok.inj h
          exact .accept haccumulator (not_not.mp hroot) hretire

theorem moved_of_step (h : node.step c H action = .ok node') : Moved c H node action node' := by
  cases action with
  | insert iter event => exact moved_of_insert h
  | advance => exact moved_of_advance h
  | accept round stored => exact moved_of_accept h

/-! ## The graph of a node -/

/-- The inserted events are from `S`. -/
def Action.From (S : Set Event) : Action → Prop
  | .insert _ event => event ∈ S
  | _ => True

/-- A step leaves the graph alone or makes one call on it. -/
theorem Moved.graph (h : Moved c H node action node') :
    node'.graph = node.graph ∨ ∃ op : Hashgraph.Op, op.Admissible node.graph ∧
      op.Leads H node.graph node'.graph ∧ (action.From S → op.From S) := by
  cases h with
  | @insert iter event graph hreturned =>
    exact .inr ⟨.insert iter event, trivial, hreturned, id⟩
  | @execute finalized hpass =>
    refine .inl ?_
    rw [Node.execute]
    split <;> rfl
  | @enrol rr _ _ _ _ _ member key blsKey roster registry _ _ hnew _ =>
    refine .inr ⟨.addMember member (rr + 1) (roster.register member key blsKey), hnew, .inl ?_,
      fun _ => trivial⟩
    have hspec : Lib.Holds (fun _ => False)
        (Hashgraph.addMember member (rr + 1) (roster.register member key blsKey)) node.graph
        fun _ g => g = node.graph.widen member (rr + 1) (roster.register member key blsKey) :=
      Hashgraph.addMember_spec hnew
    obtain ⟨a, g, hadd, rfl⟩ := hspec.exists_ok
    exact ⟨a, hadd⟩
  | @accept _ _ payload _ _ _ _ _ hretire =>
    obtain ⟨hlt, -, pruned, hpruned⟩ := Hashgraph.retire_ok hretire
    exact .inr ⟨.prune (payload.round - retentionRounds), hlt, .inl ⟨pruned, hpruned⟩,
      fun _ => trivial⟩
  | _ => exact .inl rfl

variable {P : Node → Action → Prop} {registry : MembershipRegistry} {faults : State.WriteFaults}

/-- The graph of a node makes a run. -/
theorem Reached.graph (hP : ∀ node action, P node action → action.From S)
    (h : Reached c H P registry faults node) :
    Hashgraph.Reached H (fun _ op => op.From S) registry node.graph := by
  induction h with
  | new => exact .new
  | step _ hp hstep ih =>
    rcases (moved_of_step hstep).graph (S := S) with hsame | ⟨op, hadmissible, hleads, hfrom⟩
    · exact hsame ▸ ih
    · exact .step ih hadmissible (hfrom (hP _ _ hp)) hleads

end Node

end JKain
