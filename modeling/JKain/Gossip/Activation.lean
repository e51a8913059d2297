import JKain.Consensus.Run
import JKain.Executor.Executor

/-!
# Activation of membership operations

The third phase of `process_finalized_rounds`. Operations wait in buckets by the round their event
was received in; the bucket of a round is taken out once the round after it is decided, and each
`Add` in it extends the graph and the roster history. The lock of the graph is released between the
calls, so other tasks can insert events in between: what is given here is one operation, and the
node takes one after the other.
-/

namespace JKain

open Std

/-- The part of a node that activation reads and writes: the graph, the waiting operations and the
registry that verifies the events of peers. The addresses of peers are left out: nothing in the
model reads them. -/
structure Membership where
  graph : Hashgraph
  pending : ExtTreeMap ℕ (List MembershipOp)
  registry : MembershipRegistry

namespace Membership

variable (c : Crypto)

/-- One operation of a bucket. `Remove` has no effect; an `Add` is skipped for a member and for a
proof of possession that does not verify. The registry is built from the roster of the round after
the one received, and `add_member` schedules it for the round after that. -/
def activateOp (rr : ℕ) (m : Membership) : MembershipOp → Except Fault Membership
  | .remove _ => .ok m
  | .add node key blsKey pop _ _ =>
    if (m.graph.memberIndexOf node).isSome then .ok m
    else if !c.verifyPop blsKey pop then .ok m
    else do
      let roster ← m.graph.rosterForRound (rr + 1)
      match Hashgraph.addMember node (rr + 1) (roster.register node key blsKey) m.graph with
      | .ok _ graph => return { m with graph, registry := m.registry.register node key blsKey }
      | .error fault _ => throw fault

/-- The node that an operation of a bucket admits: that of an `Add` for a node that is no member,
with a proof of possession that verifies. -/
def admits (g : Hashgraph) : MembershipOp → Option NodeId
  | .remove _ => none
  | .add node _ blsKey pop _ _ =>
    if (g.memberIndexOf node).isSome || !c.verifyPop blsKey pop then none else some node

variable {c}

/-- What one operation does: nothing unless it admits a node, and then that node gets a column and
the roster of the round after the one received, with the node in it, is scheduled. -/
theorem activateOp_ok {rr : ℕ} {m m' : Membership} {op : MembershipOp}
    (h : activateOp c rr m op = .ok m') :
    (admits c m.graph op = none ∧ m' = m) ∨
      ∃ node key blsKey roster, admits c m.graph op = some node ∧
        m.graph.memberIndexOf node = none ∧ m.graph.rosterForRound (rr + 1) = .ok roster ∧
        m'.graph = m.graph.widen node (rr + 1) (roster.register node key blsKey) ∧
        m'.pending = m.pending := by
  cases op with
  | remove node => exact .inl ⟨rfl, (Except.ok.inj h).symm⟩
  | add node key blsKey pop addr reconnectAddr =>
    simp only [activateOp] at h
    simp only [admits]
    split at h
    · rename_i hmember
      exact .inl ⟨by simp [hmember], (Except.ok.inj h).symm⟩
    · rename_i hnew
      split at h
      · rename_i hpop
        exact .inl ⟨by simp [hpop], (Except.ok.inj h).symm⟩
      · rename_i hpop
        have hnone : m.graph.memberIndexOf node = none := by simpa using hnew
        cases hroster : m.graph.rosterForRound (rr + 1) with
        | error fault =>
          rw [hroster] at h
          cases h
        | ok roster =>
          have hspec : Lib.Holds (fun _ => False)
              (Hashgraph.addMember node (rr + 1) (roster.register node key blsKey)) m.graph
              fun _ g' => g' = m.graph.widen node (rr + 1) (roster.register node key blsKey) :=
            Hashgraph.addMember_spec hnone
          obtain ⟨_, g', hadd, hwiden⟩ := hspec.exists_ok
          rw [hroster] at h
          simp only [bind, Except.bind, hadd] at h
          obtain rfl := Except.ok.inj h
          refine .inr ⟨node, key, blsKey, roster, ?_, hnone, rfl, hwiden, rfl⟩
          simp [hnone, hpop]

end Membership

end JKain
