import JKain.Consensus.Insert
import JKain.Consensus.FameSpec

/-!
# Placing an event

What `insert` writes before the voting, as one update: `place` stores the record of a new event,
with its number, row, round and witness flag, and enters it into the indices. Its arguments beside
the event are the creator's index and whether the event bumps its base round.
-/

namespace JKain

open Std JKain.Lib

namespace Hashgraph

/-- The record of the event's self-parent. -/
def selfRecord (g : Hashgraph) (event : Event) : Option EventRecord := event.selfParent.bind g.get?

/-- The record of the event's other parent. -/
def otherRecord (g : Hashgraph) (event : Event) : Option EventRecord :=
  event.otherParent.bind g.get?

/-- The number of a new event. -/
def newSeq (g : Hashgraph) (event : Event) : ℕ := (g.selfRecord event).elim 1 (·.seq + 1)

/-- The base round of a new event. -/
def newBase (g : Hashgraph) (event : Event) : ℕ :=
  baseRound ((g.selfRecord event).map (·.round)) ((g.otherRecord event).map (·.round))

/-- The parents' rows joined, before the creator's slot is set. -/
def joinedRow (g : Hashgraph) (event : Event) : List ℕ :=
  let inherited := (g.selfRecord event).elim (List.replicate g.memberCount 0) (·.ancestorSeqs)
  (g.otherRecord event).elim inherited fun record => maxInto inherited record.ancestorSeqs

/-- The record of a new event with a round and a witness flag. -/
def recordAt (g : Hashgraph) (event : Event) (i round : ℕ) (isWitness : Bool) : EventRecord where
  event := event
  seq := g.newSeq event
  ancestorSeqs := (g.joinedRow event).set i (g.newSeq event)
  round := round
  isWitness := isWitness
  votes := ∅
  fameStatus := .undecided
  roundReceived := none
  consensusTimestamp := none

/-- The round of a new event. -/
def newRound (g : Hashgraph) (event : Event) (bumps : Bool) : ℕ :=
  if bumps then g.newBase event + 1 else g.newBase event

/-- Whether a new event is a witness: its round is above its self-parent's. -/
def newWitness (g : Hashgraph) (event : Event) (bumps : Bool) : Bool :=
  ((g.selfRecord event).map (·.round)).elim true fun n => decide (g.newRound event bumps > n)

/-- The record of a new event. -/
def newRecord (g : Hashgraph) (event : Event) (i : ℕ) (bumps : Bool) : EventRecord :=
  g.recordAt event i (g.newRound event bumps) (g.newWitness event bumps)

/-- The graph with an event and its index entries, at a given round. -/
def withEvent (g : Hashgraph) (hash : EventHash) (event : Event) (i : ℕ) (r : EventRecord) :
    Hashgraph :=
  { g with
    events := g.events.insert hash r
    children := event.parents.foldl
      (fun children parent => children.insert parent (children[parent]?.getD [] ++ [hash]))
      g.children
    firstChild := if (g.canonicalChild event.creator event.selfParent).isSome then g.firstChild
      else g.firstChild.insert (event.creator, event.selfParent) hash
    knownForkers := if (g.canonicalChild event.creator event.selfParent).any (· != hash) then
        g.knownForkers.set i true
      else g.knownForkers
    byCreatorSeq := g.byCreatorSeq.insertIfNew (event.creator, g.newSeq event) hash
    latestByCreator :=
      if (g.latestEventBy event.creator).all fun latest =>
          decide (g.newSeq event > (g.get? latest).elim 0 (·.seq)) then
        g.latestByCreator.insert event.creator hash
      else g.latestByCreator }

/-- The graph with a new event and its round settled. -/
def place (g : Hashgraph) (hash : EventHash) (event : Event) (i : ℕ) (bumps : Bool) : Hashgraph :=
  if g.newWitness event bumps then
    (g.withEvent hash event i (g.newRecord event i bumps)).recordWitness
      (g.newRound event bumps) hash
  else g.withEvent hash event i (g.newRecord event i bumps)

/-- Whether a new event strongly sees a supermajority of the witnesses of its base round. -/
def bumps (g : Hashgraph) (hash : EventHash) (event : Event) (i : ℕ) : Bool :=
  decide ((g.witnessesOfRound (g.newBase event)).countP
      (fun w => (g.place hash event i false).stronglySeesAt hash w (g.newBase event)) * 3 >
    g.totalAt (g.newBase event) * 2)

/-! ## The checks -/

/-- What the checks of `insert` establish: the event is new, `i` is its creator's index, and its
parents are stored, the self-parent under the same creator. -/
structure Checked (g : Hashgraph) (hash : EventHash) (event : Event) (i : ℕ) : Prop where
  fresh : g.get? hash = none
  member : g.memberIndexOf event.creator = some i
  parents : ∀ p ∈ event.parents, (g.get? p).isSome
  self_creator : ∀ {r}, g.selfRecord event = some r → r.event.creator = event.creator

section Checks

variable {g : Hashgraph} {hash : EventHash} {event : Event} {i : ℕ}

theorem checked_iff : g.Checked hash event i ↔ (g.get? hash).isNone = true ∧
    g.memberIndexOf event.creator = some i ∧ (∀ p ∈ event.parents, (g.get? p).isSome = true) ∧
    (g.selfRecord event).all (·.event.creator == event.creator) = true := by
  rw [Option.isNone_iff_eq_none, Option.all_eq_true]
  refine ⟨fun h => ⟨h.fresh, h.member, h.parents, fun r hr => ?_⟩,
    fun ⟨hfresh, hmember, hparents, hself⟩ => ⟨hfresh, hmember, hparents, fun {r} hr => ?_⟩⟩
  · exact beq_iff_eq.mpr (h.self_creator hr)
  · exact beq_iff_eq.mp (hself r hr)

instance (g : Hashgraph) (hash : EventHash) (event : Event) (i : ℕ) :
    Decidable (g.Checked hash event i) :=
  decidable_of_iff _ checked_iff.symm

theorem parentRecord_cases (g : Hashgraph) (p : Option EventHash) :
    ((∀ h, p = some h → (g.get? h).isSome) ∧ g.parentRecord p = .ok (p.bind g.get?)) ∨
      ((∃ h, p = some h ∧ g.get? h = none) ∧ ∃ c, g.parentRecord p = .error (.err c)) := by
  cases p with
  | none => exact .inl ⟨by simp, rfl⟩
  | some h =>
    cases hh : g.get? h with
    | none => exact .inr ⟨⟨h, rfl, hh⟩, .missingParent h, by simp [parentRecord, hh, okOr, bind,
        Except.bind]⟩
    | some r => exact .inl ⟨by simp [hh], by simp [parentRecord, hh, okOr, bind, Except.bind, pure,
        Except.pure]⟩

/-- The checks pass exactly for checked events, and fail with an error otherwise. -/
theorem checkEvent_cases (g : Hashgraph) (hash : EventHash) (event : Event) :
    (∃ i, g.Checked hash event i ∧
        g.checkEvent hash event = .ok (i, g.selfRecord event, g.otherRecord event)) ∨
      ((∀ i, ¬g.Checked hash event i) ∧ ∃ c, g.checkEvent hash event = .error (.err c)) := by
  unfold checkEvent
  cases hfresh : g.get? hash with
  | some r =>
    refine .inr ⟨fun i h => ?_, .alreadyPresent hash, by simp⟩
    rw [h.fresh] at hfresh
    cases hfresh
  | none =>
    simp only [Option.isSome_none, Bool.false_eq_true, if_false]
    cases hmember : g.memberIndexOf event.creator with
    | none =>
      refine .inr ⟨fun i h => ?_, .unknownCreator, rfl⟩
      rw [h.member] at hmember
      cases hmember
    | some i =>
      rcases g.parentRecord_cases event.selfParent with ⟨hself, heq⟩ | ⟨⟨p, hp, hnone⟩, c, heq⟩
      · rcases g.parentRecord_cases event.otherParent with ⟨hother, heq'⟩ | ⟨⟨p, hp, hnone⟩, c, heq'⟩
        · simp only [okOr, heq, heq', bind, Except.bind]
          cases hcreator : (event.selfParent.bind g.get?).any (·.event.creator != event.creator) with
          | true =>
            refine .inr ⟨fun j h => ?_, .invalidSelfParent, by simp⟩
            rw [Option.any_eq_true] at hcreator
            obtain ⟨r, hr, hne⟩ := hcreator
            simp [h.self_creator hr] at hne
          | false =>
            refine .inl ⟨i, ⟨hfresh, hmember, fun p hp => ?_, fun {r} hr => ?_⟩, rfl⟩
            · rcases Event.mem_parents.mp hp with hp | hp
              · exact hself p hp
              · exact hother p hp
            · rw [show event.selfParent.bind g.get? = some r from hr] at hcreator
              simpa using hcreator
        · refine .inr ⟨fun j h => ?_, c, by simp only [okOr, heq, heq', bind, Except.bind]⟩
          have hstored := h.parents p (Event.mem_parents.mpr (.inr hp))
          simp [hnone] at hstored
      · refine .inr ⟨fun j h => ?_, c, by simp only [okOr, heq, bind, Except.bind]⟩
        have hstored := h.parents p (Event.mem_parents.mpr (.inl hp))
        simp [hnone] at hstored

end Checks

/-! ## Rows -/

theorem length_maxInto (row other : List ℕ) : (maxInto row other).length = row.length := by
  induction row generalizing other with
  | nil => cases other <;> rfl
  | cons a row ih =>
    cases other with
    | nil => rfl
    | cons b other => simp [maxInto, ih]

section Rows

variable {g : Hashgraph} {event : Event} {i : ℕ}

theorem exists_selfParent_of_selfRecord {r : EventRecord} (h : g.selfRecord event = some r) :
    ∃ p, event.selfParent = some p ∧ g.get? p = some r :=
  Option.bind_eq_some_iff.mp h

theorem exists_otherParent_of_otherRecord {r : EventRecord} (h : g.otherRecord event = some r) :
    ∃ p, event.otherParent = some p ∧ g.get? p = some r :=
  Option.bind_eq_some_iff.mp h

theorem Consistent.length_joinedRow (hg : g.Consistent) :
    (g.joinedRow event).length = g.memberCount := by
  have hinherited : ((g.selfRecord event).elim (List.replicate g.memberCount 0)
      (·.ancestorSeqs)).length = g.memberCount := by
    cases hself : g.selfRecord event with
    | none => simp
    | some r =>
      obtain ⟨p, -, hp⟩ := exists_selfParent_of_selfRecord hself
      exact hg.row_length hp
  unfold joinedRow
  cases g.otherRecord event with
  | none => exact hinherited
  | some r => exact (length_maxInto _ _).trans hinherited

theorem Consistent.ancestorRow_eq (hg : g.Consistent)
    (hi : g.memberIndexOf event.creator = some i) :
    g.ancestorRow i (g.newSeq event) (g.selfRecord event) (g.otherRecord event) =
      .ok ((g.joinedRow event).set i (g.newSeq event)) := by
  have hinherited : g.inheritedRow (g.selfRecord event) =
      .ok ((g.selfRecord event).elim (List.replicate g.memberCount 0) (·.ancestorSeqs)) := by
    cases hself : g.selfRecord event with
    | none => rfl
    | some r =>
      obtain ⟨p, -, hp⟩ := exists_selfParent_of_selfRecord hself
      simp [inheritedRow, hg.row_length hp]
  have hlt : i < (g.joinedRow event).length := by
    rw [hg.length_joinedRow]
    exact hg.index_lt hi
  unfold ancestorRow
  rw [hinherited]
  show (if i < (g.joinedRow event).length then
    (pure ((g.joinedRow event).set i (g.newSeq event)) : Except Fault (List ℕ)) else _) = _
  rw [if_pos hlt]
  rfl

end Rows

/-! ## The writes -/

section Writes

variable {g : Hashgraph} {hash : EventHash} {event : Event} {i : ℕ}

theorem foldl_noteChild (hash : EventHash) (parents : List EventHash) (g : Hashgraph) :
    parents.foldl (noteChild hash) g = { g with
      children := parents.foldl
        (fun children parent => children.insert parent (children[parent]?.getD [] ++ [hash]))
        g.children } := by
  induction parents generalizing g with
  | nil => rfl
  | cons p parents ih =>
    rw [List.foldl_cons, ih, List.foldl_cons]
    rfl

theorem noteLatest_eq (g : Hashgraph) (hash : EventHash) (c : NodeId) (seq : ℕ) :
    g.noteLatest hash c seq = { g with
      latestByCreator :=
        if (g.latestEventBy c).all fun latest => decide (seq > (g.get? latest).elim 0 (·.seq)) then
          g.latestByCreator.insert c hash
        else g.latestByCreator } := by
  unfold noteLatest
  cases hlatest : g.latestEventBy c with
  | none => simp
  | some latest =>
    by_cases hgt : seq > (g.get? latest).elim 0 (·.seq)
    · simp [hgt]
    · simp [hgt]

theorem noteBranch_eq (hi : i < g.knownForkers.length) :
    g.noteBranch hash event i = .ok { g with
      firstChild := if (g.canonicalChild event.creator event.selfParent).isSome then g.firstChild
        else g.firstChild.insert (event.creator, event.selfParent) hash
      knownForkers := if (g.canonicalChild event.creator event.selfParent).any (· != hash) then
          g.knownForkers.set i true
        else g.knownForkers } := by
  unfold noteBranch
  cases hchild : g.canonicalChild event.creator event.selfParent with
  | none => simp
  | some existing =>
    by_cases heq : existing = hash
    · simp [heq]
    · simp [heq, hi]

theorem storeEvent_eq (hi : i < g.knownForkers.length) (n : ℕ) :
    g.storeEvent hash event i (g.newSeq event) ((g.joinedRow event).set i (g.newSeq event)) n =
      .ok (g.withEvent hash event i (g.recordAt event i n false)) := by
  unfold storeEvent
  rw [noteBranch_eq hi]
  simp only [bind, Except.bind, noteLatest_eq, foldl_noteChild, pure, Except.pure]
  rfl

end Writes

/-! ## The graph with the new event -/

section Projections

variable {g : Hashgraph} {hash : EventHash} {event : Event} {i : ℕ}

theorem get?_withEvent {r : EventRecord} (x : EventHash) :
    (g.withEvent hash event i r).get? x = if x = hash then some r else g.get? x := by
  rw [withEvent, get?, get?, ExtTreeMap.getElem?_insert]
  by_cases hx : hash = x
  · simp [hx]
  · simp [hx, Ne.symm hx]

theorem get?_place {b : Bool} (x : EventHash) :
    (g.place hash event i b).get? x =
      if x = hash then some (g.newRecord event i b) else g.get? x := by
  unfold place
  split
  · exact (get?_withEvent x : (g.withEvent hash event i _).get? x = _)
  · exact get?_withEvent x

theorem get?_place_self {b : Bool} :
    (g.place hash event i b).get? hash = some (g.newRecord event i b) := by
  rw [get?_place, if_pos rfl]

theorem parentsOf_place {b : Bool} (x : EventHash) :
    (g.place hash event i b).parentsOf x = if x = hash then event.parents else g.parentsOf x := by
  rw [parentsOf, get?_place, parentsOf]
  split <;> rfl

theorem core_withEvent_congr {r r' : EventRecord} (h : r.core = r'.core) :
    (g.withEvent hash event i r).core = (g.withEvent hash event i r').core := by
  have hevents : (g.events.insert hash r).map (fun _ record => record.core) =
      (g.events.insert hash r').map fun _ record => record.core := by
    refine ExtTreeMap.ext_getElem? fun {k} => ?_
    simp only [ExtTreeMap.getElem?_map, ExtTreeMap.getElem?_insert]
    split <;> simp [h]
  simp only [core, withEvent, hevents]

theorem core_place {b : Bool} (n : ℕ) (b' : Bool) :
    (g.place hash event i b).core =
      (g.withEvent hash event i (g.recordAt event i n b')).core := by
  have hwith : (g.place hash event i b).core =
      (g.withEvent hash event i (g.newRecord event i b)).core := by
    unfold place
    split <;> rfl
  rw [hwith]
  exact core_withEvent_congr rfl

theorem witnessesOfRound_withEvent {r : EventRecord} (n : ℕ) :
    (g.withEvent hash event i r).witnessesOfRound n = g.witnessesOfRound n := rfl

theorem witnessesOfRound_place {b : Bool} (n : ℕ) :
    (g.place hash event i b).witnessesOfRound n =
      if g.newWitness event b = true ∧ g.newRound event b = n then g.witnessesOfRound n ++ [hash]
      else g.witnessesOfRound n := by
  unfold place
  cases hwit : g.newWitness event b with
  | false => simp [witnessesOfRound_withEvent]
  | true =>
    simp only [if_true, true_and]
    show ((g.witnessesByRound.insert (g.newRound event b)
      (g.witnessesOfRound (g.newRound event b) ++ [hash]))[n]?).getD [] = _
    rw [ExtTreeMap.getElem?_insert]
    by_cases hn : g.newRound event b = n
    · simp [hn]
    · simp [hn, witnessesOfRound]

theorem undecidedWitnesses_place {b : Bool} (w : EventHash) :
    (g.place hash event i b).undecidedWitnesses[w]? =
      if g.newWitness event b = true ∧ w = hash then some (g.newRound event b)
      else g.undecidedWitnesses[w]? := by
  unfold place
  cases hwit : g.newWitness event b with
  | false => simp [withEvent]
  | true =>
    simp only [if_true, true_and]
    show (g.undecidedWitnesses.insert hash (g.newRound event b))[w]? = _
    rw [ExtTreeMap.getElem?_insert]
    by_cases hw : hash = w
    · simp [hw]
    · simp [hw, Ne.symm hw]

theorem highestWitnessRound_place {b : Bool} :
    (g.place hash event i b).highestWitnessRound =
      if g.newWitness event b = true then max g.highestWitnessRound (g.newRound event b)
      else g.highestWitnessRound := by
  unfold place
  split <;> rfl

theorem memberIndex_place {b : Bool} :
    (g.place hash event i b).memberIndex = g.memberIndex := by
  unfold place
  split <;> rfl

theorem memberCount_place {b : Bool} :
    (g.place hash event i b).memberCount = g.memberCount := by
  unfold place
  split <;> rfl

theorem rosterHistory_place {b : Bool} :
    (g.place hash event i b).rosterHistory = g.rosterHistory := by
  unfold place
  split <;> rfl

theorem fullyDecidedRounds_place {b : Bool} :
    (g.place hash event i b).fullyDecidedRounds = g.fullyDecidedRounds := by
  unfold place
  split <;> rfl

theorem nextRoundToOrder_place {b : Bool} :
    (g.place hash event i b).nextRoundToOrder = g.nextRoundToOrder := by
  unfold place
  split <;> rfl

theorem orderLog_place {b : Bool} : (g.place hash event i b).orderLog = g.orderLog := by
  unfold place
  split <;> rfl

end Projections

/-! ## The new event keeps the graph well formed -/

section WellFormed

variable {g : Hashgraph} {hash : EventHash} {event : Event} {i : ℕ}

/-- The stored events that have the new event as their self-parent fit to it. An event can only be
stored before its self-parent if that was pruned. -/
def Fits (g : Hashgraph) (hash : EventHash) (event : Event) : Prop :=
  ∀ x r, g.get? x = some r → r.event.selfParent = some hash →
    g.newSeq event + 1 = r.seq ∧ event.creator = r.event.creator

theorem newSeq_eq {p : EventHash} {rp : EventRecord} (hself : event.selfParent = some p)
    (hp : g.get? p = some rp) : g.newSeq event = rp.seq + 1 := by
  simp [newSeq, selfRecord, hself, hp]

theorem newSeq_pos (g : Hashgraph) (event : Event) : 0 < g.newSeq event := by
  unfold newSeq
  cases g.selfRecord event <;> simp

theorem Checked.ne (hc : g.Checked hash event i) {x : EventHash} {r : EventRecord}
    (hx : g.get? x = some r) : x ≠ hash := by
  rintro rfl
  rw [hc.fresh] at hx
  cases hx

theorem get?_withEvent_cases {x : EventHash} {r r' : EventRecord}
    (hx : (g.withEvent hash event i r').get? x = some r) :
    (x = hash ∧ r = r') ∨ g.get? x = some r := by
  rw [get?_withEvent] at hx
  by_cases hxh : x = hash
  · rw [if_pos hxh] at hx
    exact .inl ⟨hxh, (Option.some.inj hx).symm⟩
  · rw [if_neg hxh] at hx
    exact .inr hx

theorem get?_place_cases {b : Bool} {x : EventHash} {r : EventRecord}
    (hx : (g.place hash event i b).get? x = some r) :
    (x = hash ∧ r = g.newRecord event i b) ∨ g.get? x = some r := by
  have heq : (g.withEvent hash event i (g.newRecord event i b)).get? x = some r := by
    rw [get?_withEvent, ← get?_place, hx]
  exact get?_withEvent_cases heq

theorem Checked.get?_place_of_some (hc : g.Checked hash event i) (b : Bool) {x : EventHash}
    {r : EventRecord} (hx : g.get? x = some r) : (g.place hash event i b).get? x = some r := by
  rw [get?_place, if_neg (hc.ne hx), hx]

theorem Consistent.withEvent (hg : g.Consistent) (hc : g.Checked hash event i)
    (hfit : g.Fits hash event) (n : ℕ) (b : Bool) :
    (g.withEvent hash event i (g.recordAt event i n b)).Consistent := by
  have hlt := hg.index_lt hc.member
  have hkeep {x : EventHash} {r : EventRecord} (hx : g.get? x = some r) :
      (g.withEvent hash event i (g.recordAt event i n b)).get? x = some r := by
    rw [get?_withEvent, if_neg (hc.ne hx), hx]
  have hnew : (g.withEvent hash event i (g.recordAt event i n b)).get? hash =
      some (g.recordAt event i n b) := by
    rw [get?_withEvent, if_pos rfl]
  refine ⟨?_, hg.index_lt, ?_, ?_, ?_, ?_, ?_, ?_, ?_⟩
  · intro x r hx
    rcases get?_withEvent_cases hx with ⟨-, rfl⟩ | hx
    · exact ⟨i, hc.member⟩
    · exact hg.member hx
  · show (if _ then g.knownForkers.set i true else g.knownForkers).length = g.memberCount
    split
    · rw [List.length_set, hg.forkers_length]
    · exact hg.forkers_length
  · intro x r hx
    rcases get?_withEvent_cases hx with ⟨-, rfl⟩ | hx
    · exact (List.length_set ..).trans hg.length_joinedRow
    · exact hg.row_length hx
  · intro x r j hx hj
    rcases get?_withEvent_cases hx with ⟨-, rfl⟩ | hx
    · obtain rfl : i = j := Option.some.inj (hc.member.symm.trans hj)
      show ((g.joinedRow event).set i (g.newSeq event))[i]? = some (g.newSeq event)
      rw [List.getElem?_set_self (by rw [hg.length_joinedRow]; exact hlt)]
    · exact hg.own_slot hx hj
  · intro x r hx
    rcases get?_withEvent_cases hx with ⟨-, rfl⟩ | hx
    · exact g.newSeq_pos event
    · exact hg.seq_pos hx
  · intro x r p rp hx hself hp
    rcases get?_withEvent_cases hx with ⟨-, rfl⟩ | hold
    · -- The self-parent of the new event is stored, so it is not the new event.
      have hself : event.selfParent = some p := hself
      obtain ⟨rp', hrp'⟩ := Option.isSome_iff_exists.mp
        (hc.parents p (Event.mem_parents.mpr (.inl hself)))
      obtain rfl : rp' = rp := Option.some.inj ((hkeep hrp').symm.trans hp)
      exact ⟨(newSeq_eq hself hrp').symm, hc.self_creator (by simp [selfRecord, hself, hrp'])⟩
    · rcases get?_withEvent_cases hp with ⟨rfl, rfl⟩ | hp
      · exact hfit x r hold hself
      · exact hg.self_parent hold hself hp
  · intro c s x hx
    have hx' : (g.byCreatorSeq.insertIfNew (event.creator, g.newSeq event) hash)[(c, s)]? =
      some x := hx
    rw [ExtTreeMap.getElem?_insertIfNew] at hx'
    split at hx'
    · rename_i hkey
      obtain ⟨rfl, rfl⟩ : event.creator = c ∧ g.newSeq event = s := by
        simpa using hkey.1
      obtain rfl : hash = x := Option.some.inj hx'
      exact ⟨_, hnew, rfl, rfl⟩
    · obtain ⟨r, hr, hcreator, hseq⟩ := hg.indexed hx'
      exact ⟨r, hkeep hr, hcreator, hseq⟩
  · intro c x hx
    have hx' : (if (g.latestEventBy event.creator).all fun latest =>
          decide (g.newSeq event > (g.get? latest).elim 0 (·.seq)) then
        g.latestByCreator.insert event.creator hash else g.latestByCreator)[c]? = some x := hx
    have hold (hx : g.latestByCreator[c]? = some x) : ∃ r,
        (g.withEvent hash event i (g.recordAt event i n b)).get? x = some r ∧
          r.event.creator = c := by
      obtain ⟨r, hr, hcreator⟩ := hg.latest hx
      exact ⟨r, hkeep hr, hcreator⟩
    split at hx'
    · rw [ExtTreeMap.getElem?_insert] at hx'
      split at hx'
      · rename_i hkey
        obtain rfl : event.creator = c := by simpa using hkey
        obtain rfl : hash = x := Option.some.inj hx'
        exact ⟨_, hnew, rfl⟩
      · exact hold hx'
    · exact hold hx'

theorem newBase_pos (hwf : g.WellFormed) : 0 < g.newBase event := by
  unfold newBase
  have hpos {r : EventRecord} {p : EventHash} (hp : g.get? p = some r) : 0 < r.round :=
    hwf.round_pos hp
  cases hself : g.selfRecord event with
  | none =>
    cases hother : g.otherRecord event with
    | none => simp [baseRound]
    | some r' =>
      obtain ⟨p', -, hp'⟩ := exists_otherParent_of_otherRecord hother
      exact hpos hp'
  | some r =>
    obtain ⟨p, -, hp⟩ := exists_selfParent_of_selfRecord hself
    cases hother : g.otherRecord event with
    | none => exact hpos hp
    | some r' => exact lt_max_of_lt_left (hpos hp)

theorem newBase_le_newRound (g : Hashgraph) (event : Event) (b : Bool) :
    g.newBase event ≤ g.newRound event b := by
  unfold newRound
  split <;> omega

theorem WellFormed.place (hwf : g.WellFormed) (hc : g.Checked hash event i)
    (hfit : g.Fits hash event) (b : Bool) : (g.place hash event i b).WellFormed := by
  have hunlisted (n : ℕ) : hash ∉ g.witnessesOfRound n := by
    intro hmem
    obtain ⟨r, hr, -, -⟩ := hwf.witness_sound hmem
    exact hc.ne hr rfl
  have hmem {n : ℕ} {x : EventHash} (hx : x ∈ g.witnessesOfRound n) :
      x ∈ (g.place hash event i b).witnessesOfRound n := by
    rw [witnessesOfRound_place]
    split
    · exact List.mem_append_left _ hx
    · exact hx
  refine ⟨(hwf.toConsistent.withEvent hc hfit 0 false).of_core_eq (core_place 0 false),
    ?_, ?_, ?_, ?_, ?_⟩
  · intro x r hx
    rcases get?_place_cases hx with ⟨-, rfl⟩ | hx
    · exact (newBase_pos hwf).trans_le (g.newBase_le_newRound event b)
    · exact hwf.round_pos hx
  · intro n x hx
    have hold (hx : x ∈ g.witnessesOfRound n) : ∃ r,
        (g.place hash event i b).get? x = some r ∧ r.round = n ∧ r.isWitness = true := by
      obtain ⟨r, hr, hround, hwit⟩ := hwf.witness_sound hx
      exact ⟨r, hc.get?_place_of_some b hr, hround, hwit⟩
    rw [witnessesOfRound_place] at hx
    split at hx
    · rename_i hnew
      rcases List.mem_append.mp hx with hx | hx
      · exact hold hx
      · obtain rfl : x = hash := by simpa using hx
        exact ⟨_, get?_place_self, hnew.2, hnew.1⟩
    · exact hold hx
  · intro x r hx hwit
    rcases get?_place_cases hx with ⟨rfl, rfl⟩ | hx
    · have hnew : g.newWitness event b = true ∧ g.newRound event b = g.newRound event b :=
        ⟨hwit, rfl⟩
      show x ∈ (g.place x event i b).witnessesOfRound (g.newRound event b)
      rw [witnessesOfRound_place, if_pos hnew]
      exact List.mem_append_right _ (by simp)
    · exact hmem (hwf.witness_complete hx hwit)
  · intro n
    rw [witnessesOfRound_place]
    split
    · exact List.nodup_append.mpr ⟨hwf.witness_nodup n, List.nodup_singleton hash, by
        intro x hx y hy
        obtain rfl : y = hash := by simpa using hy
        exact fun hxy => hunlisted n (hxy ▸ hx)⟩
    · exact hwf.witness_nodup n
  · intro x r hx hwit
    rw [highestWitnessRound_place]
    rcases get?_place_cases hx with ⟨-, rfl⟩ | hx
    · have hnew : g.newWitness event b = true := hwit
      rw [if_pos hnew]
      exact le_max_right _ _
    · have hle := hwf.witness_le hx hwit
      split
      · exact hle.trans (le_max_left _ _)
      · exact hle

theorem fameOf_place {b : Bool} (w : EventHash) :
    (g.place hash event i b).fameOf w =
      if w = hash then (if g.newWitness event b then some .undecided else none)
      else g.fameOf w := by
  unfold fameOf
  rw [get?_place]
  by_cases hw : w = hash
  · simp only [hw, if_true, Option.bind_some]
    rfl
  · simp only [hw, if_false]

theorem UndecidedExact.place (hexact : g.UndecidedExact) (hc : g.Checked hash event i)
    (b : Bool) : (g.place hash event i b).UndecidedExact := by
  intro w n
  rw [undecidedWitnesses_place, fameOf_place, get?_place]
  by_cases hw : w = hash
  · subst hw
    have hnone : g.undecidedWitnesses[w]? = none := by
      cases htracked : g.undecidedWitnesses[w]? with
      | none => rfl
      | some m =>
        obtain ⟨-, r, hr, -⟩ := (hexact w m).mp htracked
        rw [hc.fresh] at hr
        cases hr
    cases hwit : g.newWitness event b with
    | true =>
      simp only [and_self, if_true, Option.some.injEq, true_and]
      exact ⟨fun h => ⟨_, rfl, h⟩, fun ⟨r, hr, hround⟩ => by rw [← hround, ← hr]; rfl⟩
    | false => simp [hnone]
  · simp only [hw, and_false, if_false]
    exact hexact w n

theorem roundOf_place {b : Bool} (x : EventHash) :
    (g.place hash event i b).roundOf x = if x = hash then g.newRound event b else g.roundOf x := by
  unfold roundOf
  rw [get?_place]
  by_cases hx : x = hash
  · rw [if_pos hx, if_pos hx]
    rfl
  · rw [if_neg hx, if_neg hx]

theorem recordedVote_place {b : Bool} (y w : EventHash) :
    (g.place hash event i b).recordedVote y w = if y = hash then none else g.recordedVote y w := by
  unfold recordedVote
  rw [get?_place]
  by_cases hy : y = hash
  · rw [if_pos hy, if_pos hy]
    exact ExtTreeMap.getElem?_empty
  · rw [if_neg hy, if_neg hy]

/-- Before the new event votes, it is the only one whose votes can be missing. -/
theorem VotesCast.place (hcast : g.VotesCast fun _ => False) (b : Bool) :
    (g.place hash event i b).VotesCast (· = hash) := by
  intro w s hw hs hlt hwh hsh
  rw [fameOf_place, if_neg hwh] at hw
  rw [roundOf_place, roundOf_place, if_neg hwh, if_neg hsh] at hlt
  rw [roundOf_place, if_neg hsh, witnessesOfRound_place] at hs
  rw [recordedVote_place, if_neg hsh]
  refine hcast w s hw ?_ hlt id id
  split at hs
  · rcases List.mem_append.mp hs with hs | hs
    · exact hs
    · exact absurd (by simpa using hs) hsh
  · exact hs

theorem eventForCreatorSeq_place {b : Bool} (c : NodeId) (s : ℕ) :
    (g.place hash event i b).eventForCreatorSeq c s =
      if (event.creator, g.newSeq event) = (c, s) ∧ g.eventForCreatorSeq c s = none then some hash
      else g.eventForCreatorSeq c s := by
  have hseqs : (g.place hash event i b).byCreatorSeq =
      g.byCreatorSeq.insertIfNew (event.creator, g.newSeq event) hash := by
    unfold place
    split <;> rfl
  rw [eventForCreatorSeq, hseqs, ExtTreeMap.getElem?_insertIfNew, eventForCreatorSeq]
  by_cases hkey : (event.creator, g.newSeq event) = (c, s)
  · rw [hkey]
    by_cases hmem : (c, s) ∈ g.byCreatorSeq
    · simp [hmem]
    · simp [hmem]
  · simp [hkey]

theorem flagged_place (hi : i < g.knownForkers.length) {b : Bool} (j : ℕ) :
    (g.place hash event i b).flagged j = (g.flagged j ||
      (decide (i = j) && (g.canonicalChild event.creator event.selfParent).any (· != hash))) := by
  have hforkers : (g.place hash event i b).knownForkers =
      if (g.canonicalChild event.creator event.selfParent).any (· != hash) then
        g.knownForkers.set i true
      else g.knownForkers := by
    unfold place
    split <;> rfl
  rw [flagged, hforkers, flagged]
  cases (g.canonicalChild event.creator event.selfParent).any (· != hash) with
  | false => simp
  | true =>
    rw [if_pos rfl, List.getElem?_set]
    by_cases hij : i = j
    · subst hij
      simp [hi]
    · simp [hij]

/-- The first-seen index stays complete if an unflagged creator's new event lands on a free slot. -/
theorem Indexed.place (hindexed : g.Indexed) (hg : g.Consistent) (hc : g.Checked hash event i)
    (b : Bool) (hslot : (g.place hash event i b).flagged i = false →
      g.eventForCreatorSeq event.creator (g.newSeq event) = none) :
    (g.place hash event i b).Indexed := by
  have hlt : i < g.knownForkers.length := by
    rw [hg.forkers_length]
    exact hg.index_lt hc.member
  intro x r j hx hj hflag
  rw [memberIndexOf, memberIndex_place] at hj
  rcases get?_place_cases hx with ⟨rfl, rfl⟩ | hx
  · obtain rfl : i = j := Option.some.inj (hc.member.symm.trans hj)
    have hfree := hslot hflag
    show (g.place x event i b).eventForCreatorSeq event.creator (g.newSeq event) = some x
    rw [eventForCreatorSeq_place, if_pos ⟨rfl, hfree⟩]
  · rw [flagged_place hlt, Bool.or_eq_false_iff] at hflag
    have hold := hindexed x r j hx hj hflag.1
    rw [eventForCreatorSeq_place, if_neg (by simp [hold]), hold]

end WellFormed

end Hashgraph

end JKain
