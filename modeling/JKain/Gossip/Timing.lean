import JKain.Consensus.RoundSpec
import JKain.Gossip.Admission

/-!
# Rounds across the activation of members

Two nodes that hold the same events may activate an `Add` at different moments, one of them with
more events stored than the other. The round of an event depends on the roster of its base round
only, and an activation changes the rosters from the second round after the one received on. It does
not judge the stored events again: where it comes after an event whose base round has a new roster,
the event keeps the round the old roster gave it.
-/

namespace JKain

open Std

/-! ## Rosters with the same members -/

namespace RosterHistory

/-- The same snapshots, up to the keys of the members. -/
def SameMembers (rh rh' : RosterHistory) : Prop :=
  ∀ n : ℕ, (rh.snapshots[n]?).map (·.memberIds.toFinset) =
    (rh'.snapshots[n]?).map (·.memberIds.toFinset)

section SameMembers

variable {rh rh' : RosterHistory} {n k : ℕ} {roster roster' : MembershipRegistry}

theorem SameMembers.symm (h : rh.SameMembers rh') : rh'.SameMembers rh := fun n => (h n).symm

theorem SameMembers.trans {rh'' : RosterHistory} (h : rh.SameMembers rh')
    (h' : rh'.SameMembers rh'') : rh.SameMembers rh'' :=
  fun n => (h n).trans (h' n)

theorem SameMembers.exists_activeAt (h : rh.SameMembers rh')
    (hactive : rh.activeAt n = some (k, roster)) :
    ∃ roster', rh'.activeAt n = some (k, roster') ∧
      roster'.memberIds.toFinset = roster.memberIds.toFinset := by
  obtain ⟨hle, hget, hlast⟩ := activeAt_eq_some_iff.mp hactive
  have hk := h k
  rw [hget, Option.map_some] at hk
  obtain ⟨roster', hget', hmembers⟩ := Option.map_eq_some_iff.mp hk.symm
  refine ⟨roster', activeAt_eq_some_iff.mpr ⟨hle, hget', fun j hj => hlast j ?_⟩, hmembers⟩
  have hsome : ((rh'.snapshots[j]?).map (·.memberIds.toFinset)).isSome :=
    Option.isSome_map.trans (ExtTreeMap.isSome_getElem?_iff_mem.mpr hj)
  rw [← h j, Option.isSome_map] at hsome
  exact ExtTreeMap.isSome_getElem?_iff_mem.mp hsome

theorem SameMembers.schedule (h : rh.SameMembers rh') (round : ℕ)
    (hmembers : roster.memberIds.toFinset = roster'.memberIds.toFinset) :
    (rh.schedule round roster).SameMembers (rh'.schedule round roster') := by
  intro n
  simp only [RosterHistory.schedule, ExtTreeMap.getElem?_insert]
  split
  · rw [Option.map_some, Option.map_some, hmembers]
  · exact h n

end SameMembers

/-- The history after a node is admitted by an `Add` received in the given round, without its
keys. -/
def admitMember (rh : RosterHistory) (admission : NodeId × ℕ) : RosterHistory :=
  match rh.activeAt (admission.2 + 1) with
  | some (_, roster) => rh.schedule (admission.2 + 2) (roster.register admission.1 [] [])
  | none => rh

/-- The history holds the members that the admissions leave, one after the other. -/
def Follows (registry : MembershipRegistry) (rh : RosterHistory)
    (admitted : List (NodeId × ℕ)) : Prop :=
  rh.SameMembers (admitted.foldl admitMember (new registry))

theorem toFinset_memberIds_register (registry : MembershipRegistry) (node : NodeId)
    (key blsKey : List UInt8) :
    (registry.register node key blsKey).memberIds.toFinset =
      insert node registry.memberIds.toFinset := by
  ext member
  simp [MembershipRegistry.mem_memberIds_register]

theorem Follows.admit {registry roster : MembershipRegistry} {rh : RosterHistory}
    {admitted : List (NodeId × ℕ)} {rr k : ℕ} (h : Follows registry rh admitted)
    (hroster : rh.activeAt (rr + 1) = some (k, roster)) (member : NodeId)
    (key blsKey : List UInt8) :
    Follows registry (rh.schedule (rr + 2) (roster.register member key blsKey))
      (admitted ++ [(member, rr)]) := by
  obtain ⟨roster', hactive, hmembers⟩ := SameMembers.exists_activeAt h hroster
  rw [Follows, List.foldl_append, List.foldl_cons, List.foldl_nil, admitMember, hactive]
  refine SameMembers.schedule h (rr + 2) ?_
  rw [toFinset_memberIds_register, toFinset_memberIds_register, hmembers]

end RosterHistory

theorem Hashgraph.memberCountAtRound_of_sameMembers {g g' : Hashgraph}
    (h : g.rosterHistory.SameMembers g'.rosterHistory) (n : ℕ) :
    g.memberCountAtRound n = g'.memberCountAtRound n := by
  cases hactive : g.rosterHistory.activeAt n with
  | some p =>
    obtain ⟨roster', hactive', hmembers⟩ := h.exists_activeAt hactive
    rw [memberCountAtRound, memberCountAtRound, rosterForRound, rosterForRound, hactive, hactive']
    change Except.ok p.2.len = Except.ok roster'.len
    rw [MembershipRegistry.len_eq, MembershipRegistry.len_eq, hmembers]
  | none =>
    have hnone : g'.rosterHistory.activeAt n = none := by
      refine Option.eq_none_iff_forall_ne_some.mpr fun p hp => ?_
      obtain ⟨roster, hactive', -⟩ := h.symm.exists_activeAt hp
      rw [hactive] at hactive'
      cases hactive'
    rw [memberCountAtRound, memberCountAtRound, rosterForRound, rosterForRound, hactive, hnone]

/-! ## What a node's steps keep -/

namespace Node

variable {c : Crypto} {H : Hasher} {S : Set Event} {node node' : Node} {action : Action}

/-- A step that does not come too late: an activation leaves rosters under which every stored event
advances to the next round exactly if it did so far, and an accepted checkpoint prunes nothing. -/
def Timely (c : Crypto) (H : Hasher) (node : Node) : Action → Prop
  | .insert _ _ => True
  | .advance => ∀ node', node.advance c H = .ok node' → ∀ x r, node.graph.get? x = some r →
      node'.graph.bumped x r.event = node.graph.bumped x r.event
  | .accept round stored => ∀ node', node.acceptCheckpoint c round stored = .ok node' →
      node'.graph = node.graph

theorem Timely.bumped_eq (h : node.Timely c H .advance) (hstep : node.step c H .advance = .ok node')
    (x : EventHash) (r : EventRecord) (hx : node.graph.get? x = some r) :
    node'.graph.bumped x r.event = node.graph.bumped x r.event :=
  h node' hstep x r hx

theorem Timely.graph_eq {round : ℕ} {stored : Bool} (h : node.Timely c H (.accept round stored))
    (hstep : node.step c H (.accept round stored) = .ok node') : node'.graph = node.graph :=
  h node' hstep

/-- The rounds of the graph are those its rosters give, and its rosters are those the admissions
leave. -/
structure Judged (registry : MembershipRegistry) (g : Hashgraph) (admitted : List (NodeId × ℕ)) :
    Prop where
  whole : g.Whole
  settled : g.RoundsSettled
  follows : g.rosterHistory.Follows registry admitted

theorem judged_new (registry : MembershipRegistry) : Judged registry (Hashgraph.new registry) [] where
  whole := Hashgraph.whole_new registry
  settled := fun x r hx => by
    rw [Hashgraph.get?_new] at hx
    cases hx
  follows := fun _ => rfl

variable {registry : MembershipRegistry} {admitted : List (NodeId × ℕ)}

theorem Judged.insert {g g' : Hashgraph} {iter : IterOrder} {event : Event}
    (h : Judged registry g admitted) (hs : g.Sound H S) (hfree : H.CollisionFree S)
    (hevent : event ∈ S) (heffect : (Hashgraph.Op.insert iter event).Effect H g g') :
    Judged registry g' admitted where
  whole := heffect.whole trivial hs.wf.toConsistent h.whole
  settled := by
    cases heffect with
    | none hsame => exact hsame ▸ h.settled
    | insert hhash hc hinserted =>
      exact hinserted.roundsSettled hs hfree hevent hhash hc h.whole h.settled
  follows := by
    rw [(Hashgraph.Frames.of_insert heffect).2]
    exact h.follows

theorem Judged.enrol {g : Hashgraph} {rr : ℕ} {member : NodeId} {key blsKey : List UInt8}
    {roster : MembershipRegistry} (h : Judged registry g admitted) (hs : g.Sound H S)
    (hnew : g.memberIndexOf member = none) (hroster : g.rosterForRound (rr + 1) = .ok roster)
    (hbumped : ∀ x r, g.get? x = some r →
      (g.widen member (rr + 1) (roster.register member key blsKey)).bumped x r.event =
        g.bumped x r.event) :
    Judged registry (g.widen member (rr + 1) (roster.register member key blsKey))
      (admitted ++ [(member, rr)]) := by
  have hrests := hs.wf.toConsistent.rests_widen hnew (rr + 1) (roster.register member key blsKey)
  obtain ⟨k, hactive⟩ := Hashgraph.exists_activeAt_of_rosterForRound hroster
  exact ⟨h.whole.of_rests hrests, h.settled.of_bumped hrests h.whole fun {x r} => hbumped x r,
    h.follows.admit hactive member key blsKey⟩

theorem Judged.step (h : Judged registry node.graph node.admitted) (hs : node.graph.Sound H S)
    (hfree : H.CollisionFree S) (hfrom : action.From S) (htimely : node.Timely c H action)
    (hstep : node.step c H action = .ok node') : Judged registry node'.graph node'.admitted := by
  have hm := moved_of_step hstep
  cases hm with
  | @insert iter event graph hreturned =>
    exact h.insert hs hfree hfrom (Hashgraph.Op.effect hs hfree trivial hfrom hreturned)
  | @execute finalized hpass =>
    rw [Node.execute]
    split
    · exact h
    · exact h
  | enrol hpass hadmits hnew hroster =>
    have hbumped := htimely.bumped_eq hstep
    exact h.enrol hs hnew hroster hbumped
  | @accept round stored payload snapshot cumulative graph haccumulator hroot hretire =>
    have hsame : graph = node.graph := htimely.graph_eq hstep
    exact hsame ▸ h
  | _ => exact h

variable {P : Node → Action → Prop} {faults : State.WriteFaults}

theorem Reached.judged (hfree : H.CollisionFree S)
    (hP : ∀ node action, P node action → action.From S ∧ node.Timely c H action)
    (h : Reached c H P registry faults node) : Judged registry node.graph node.admitted := by
  induction h with
  | new => exact judged_new registry
  | step hreached hp hstep ih =>
    have hgraph := hreached.graph fun node action hp => (hP node action hp).1
    exact ih.step (hgraph.sound hfree fun _ _ => id) hfree (hP _ _ hp).1 (hP _ _ hp).2 hstep

/-- Two nodes whose activations came in time and that admitted the same nodes give every event that
both hold the same round and the same witness flag, whenever they activated and whatever they held
by then. -/
theorem rounds_independent_of_activation_time {P' : Node → Action → Prop}
    {faults' : State.WriteFaults} {x : EventHash} {r r' : EventRecord} (hfree : H.CollisionFree S)
    (hP : ∀ node action, P node action → action.From S ∧ node.Timely c H action)
    (hP' : ∀ node action, P' node action → action.From S ∧ node.Timely c H action)
    (h : Reached c H P registry faults node) (h' : Reached c H P' registry faults' node')
    (hadmitted : node.admitted = node'.admitted) (hx : node.graph.get? x = some r)
    (hx' : node'.graph.get? x = some r') : r.round = r'.round ∧ r.isWitness = r'.isWitness := by
  have hj := h.judged hfree hP
  have hj' := h'.judged hfree hP'
  have hs := (h.graph fun node action hp => (hP node action hp).1).sound hfree fun _ _ => id
  have hs' := (h'.graph fun node action hp => (hP' node action hp).1).sound hfree fun _ _ => id
  have hmeets := hs.meets hfree hs' hj.whole hj'.whole
  have hmembers : node.graph.rosterHistory.SameMembers node'.graph.rosterHistory :=
    RosterHistory.SameMembers.trans (hadmitted ▸ hj.follows) hj'.follows.symm
  exact hmeets.sameRound hs.wf hs'.wf hj.settled hj'.settled
    (fun _ _ => Hashgraph.memberCountAtRound_of_sameMembers hmembers _)
    ⟨Option.isSome_of_eq_some hx, Option.isSome_of_eq_some hx'⟩ r r' hx hx'

open Hashgraph (plainEvent plainRegistry stampHash inOrder collisionFree_stampHash)

/-- The check of `Timely`, for runs without accepted checkpoints. -/
def timelyStep (c : Crypto) (H : Hasher) (node : Node) : Action → Bool
  | .insert _ _ => true
  | .advance => (node.advance c H).toOption.all fun node' =>
      node.graph.events.toList.all fun (x, r) =>
        node'.graph.bumped x r.event == node.graph.bumped x r.event
  | .accept _ _ => false

theorem timely_of_timelyStep (h : timelyStep c H node action = true) :
    node.Timely c H action := by
  cases action with
  | insert iter event => trivial
  | advance =>
    intro node' hnode' x r hx
    rw [timelyStep, hnode'] at h
    have hall := List.all_eq_true.mp h (x, r) (ExtTreeMap.mem_toList_iff_getElem?_eq_some.mpr hx)
    exact eq_of_beq hall
  | accept round stored => cases h

/-- Three members that take turns, each event with the one before as other-parent; the first event
carries an `Add` for a fourth member. -/
def turns : List Event :=
  (List.range 17).map fun i =>
    { plainEvent (i + 1) (i % 3) (if i < 3 then none else some (i - 2))
        (if i = 0 then none else some i) with
      payload := if i = 0 then [addPayload 3] else [] }

/-- The first `early` of the events are inserted, the driver takes its steps up to the checkpoints,
and the other events follow. -/
def activateAfter (early : ℕ) (events : List Event) : List Action :=
  (events.take early).map (.insert inOrder) ++ List.replicate 6 .advance ++
    (events.drop early).map (.insert inOrder)

theorem from_of_mem_activateAfter {early : ℕ} {events : List Event}
    (h : action ∈ activateAfter early events) : action.From {e | e ∈ events} := by
  rw [activateAfter, List.mem_append, List.mem_append, List.mem_map, List.mem_map] at h
  rcases h with (⟨e, he, rfl⟩ | hadvance) | ⟨e, he, rfl⟩
  · exact List.mem_of_mem_take he
  · rw [List.eq_of_mem_replicate hadvance]
    trivial
  · exact List.mem_of_mem_drop he

/-- Whether the node admitted the given nodes and gave the event this round and witness flag. -/
def shows (admitted : List (NodeId × ℕ)) (x : EventHash) (round : ℕ) (isWitness : Bool)
    (node : Node) : Bool :=
  decide (node.admitted = admitted) &&
    (node.graph.get? x).any fun r => decide (r.round = round) && r.isWitness == isWitness

theorem of_shows {admitted : List (NodeId × ℕ)} {x : EventHash} {round : ℕ} {isWitness : Bool}
    (h : node.shows admitted x round isWitness = true) :
    node.admitted = admitted ∧ ∃ r, node.graph.get? x = some r ∧ r.round = round ∧
      r.isWitness = isWitness := by
  rw [shows, Bool.and_eq_true, decide_eq_true_eq, Option.any_eq_true] at h
  obtain ⟨hadmitted, r, hx, hr⟩ := h
  rw [Bool.and_eq_true, decide_eq_true_eq, beq_iff_eq] at hr
  exact ⟨hadmitted, r, hx, hr⟩

/-- A fourth member needs no larger quorum than a third: one node activates its `Add` before the
last four events and the other one after them, and both give the last event the same round. -/
theorem rounds_independent_of_activation_time_turns :
    ∃ (node node' : Node) (r r' : EventRecord), node.admitted = [(3, 1)] ∧ node'.admitted = [(3, 1)] ∧
      node.graph.get? 17 = some r ∧ node'.graph.get? 17 = some r' ∧ r.round = r'.round ∧
      r.isWitness = r'.isWitness := by
  have hturns (early : ℕ) (node : Node) (action : Action)
      (haction : action ∈ activateAfter early turns)
      (hq : timelyStep plainCrypto stampHash node action = true) :
      action.From {e | e ∈ turns} ∧ node.Timely plainCrypto stampHash action :=
    ⟨from_of_mem_activateAfter haction, timely_of_timelyStep hq⟩
  obtain ⟨node, hnode, hshows⟩ := exists_replayed (c := plainCrypto) (H := stampHash) (plainRegistry 3) []
    _ (hturns 13) (p := shows [(3, 1)] 17 5 true) (by decide +kernel)
  obtain ⟨node', hnode', hshows'⟩ := exists_replayed (c := plainCrypto) (H := stampHash) (plainRegistry 3) []
    _ (hturns 17) (p := shows [(3, 1)] 17 5 true) (by decide +kernel)
  obtain ⟨hadmitted, r, hr, -⟩ := of_shows hshows
  obtain ⟨hadmitted', r', hr', -⟩ := of_shows hshows'
  exact ⟨node, node', r, r', hadmitted, hadmitted', hr, hr',
    rounds_independent_of_activation_time (collisionFree_stampHash (by decide)) (fun _ _ => id)
      (fun _ _ => id) hnode hnode' (hadmitted.trans hadmitted'.symm) hr hr'⟩

/-- A chain of one member, with an `Add` for a second one in its first event. -/
def lateHistory : List Event := joinHistory [addPayload 1] ++ [plainEvent 5 0 (some 4) none]

/-- Both nodes insert the same chain and activate its `Add`, one of them before the last event and
the other one after it: the last event is no witness and of round 4 in the first node, and a witness
of round 5 in the second. -/
theorem round_depends_on_activation_time :
    Hashgraph.ForkFree {e | e ∈ lateHistory} ∧
      ∃ node node' r r',
        Reached plainCrypto stampHash (fun _ action => action.From {e | e ∈ lateHistory})
          (plainRegistry 1) [] node ∧
        Reached plainCrypto stampHash (fun _ action => action.From {e | e ∈ lateHistory})
          (plainRegistry 1) [] node' ∧
        node.admitted = [(1, 1)] ∧ node'.admitted = [(1, 1)] ∧
        node.graph.get? 5 = some r ∧ node'.graph.get? 5 = some r' ∧
        (r.round = 4 ∧ r.isWitness = false) ∧ r'.round = 5 ∧ r'.isWitness = true := by
  refine ⟨Hashgraph.forkFree_of_pairwise (by decide), ?_⟩
  obtain ⟨node, hnode, hshows⟩ := exists_replayed (c := plainCrypto) (H := stampHash)
    (Q := fun _ _ => true) (plainRegistry 1) [] (activateAfter 4 lateHistory)
    (fun _ _ haction _ => from_of_mem_activateAfter haction) (p := shows [(1, 1)] 5 4 false) (by decide +kernel)
  obtain ⟨node', hnode', hshows'⟩ := exists_replayed (c := plainCrypto) (H := stampHash)
    (Q := fun _ _ => true) (plainRegistry 1) [] (activateAfter 5 lateHistory)
    (fun _ _ haction _ => from_of_mem_activateAfter haction) (p := shows [(1, 1)] 5 5 true) (by decide +kernel)
  obtain ⟨hadmitted, r, hr, hvalues⟩ := of_shows hshows
  obtain ⟨hadmitted', r', hr', hvalues'⟩ := of_shows hshows'
  exact ⟨node, node', r, r', hnode, hnode', hadmitted, hadmitted', hr, hr', hvalues, hvalues'⟩

end Node

end JKain
