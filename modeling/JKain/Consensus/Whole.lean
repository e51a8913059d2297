import JKain.Consensus.Run

/-!
# Graphs that were never pruned

Without pruning the parents of a stored event are stored, and the record of an event is what the
records of its parents give. `Whole` says so, as an equation for each part of the record, and adds
what the first-arrival indices hold: every branch of a creator's events starts with a registered
first child, or the creator is a known forker.
-/

namespace JKain

open Std JKain.Lib

/-- A bare record without its row. -/
def EventRecord.rowless (r : EventRecord) : EventRecord := { r.bare with ancestorSeqs := [] }

namespace Hashgraph

/-- The largest number of the creator's events that the row of `x` names, 0 if it names none. -/
def reachOf (g : Hashgraph) (x : EventHash) (c : NodeId) : ℕ :=
  (g.get? x).elim 0 fun r => (g.memberIndexOf c).elim 0 (EventRecord.slot r)

/-- What the rows of the parents of a new event name. -/
def newReach (g : Hashgraph) (event : Event) (c : NodeId) : ℕ :=
  max (event.selfParent.elim 0 (g.reachOf · c)) (event.otherParent.elim 0 (g.reachOf · c))

/-- Whether the creator is a known forker. -/
def forkKnown (g : Hashgraph) (c : NodeId) : Bool := (g.memberIndexOf c).any g.flagged

/-- `g'` records of the events of `g` what `g` does, up to votes, orders and the width of the
rows. -/
structure Extends (g g' : Hashgraph) : Prop where
  get? : ∀ {x r}, g.get? x = some r → ∃ r', g'.get? x = some r' ∧ r'.rowless = r.rowless
  reach : ∀ {x}, (g.get? x).isSome → ∀ c, g'.reachOf x c = g.reachOf x c

/-- The graphs hold the same events with the same first-arrival indices. -/
structure Rests (g g' : Hashgraph) : Prop extends Extends g g' where
  back : ∀ {x}, (g'.get? x).isSome → (g.get? x).isSome
  slot_eq : ∀ c s, g'.eventForCreatorSeq c s = g.eventForCreatorSeq c s
  child_eq : ∀ c p, g'.canonicalChild c p = g.canonicalChild c p
  forked_eq : ∀ c, g'.forkKnown c = g.forkKnown c
  columns : (∀ {c c' i}, g.memberIndexOf c = some i → g.memberIndexOf c' = some i → c = c') →
    ∀ {c c' i}, g'.memberIndexOf c = some i → g'.memberIndexOf c' = some i → c = c'

section Extends

variable {g g' : Hashgraph} {event : Event} {x : EventHash} {r : EventRecord}

theorem Extends.map_get? (h : g.Extends g') (hx : (g.get? x).isSome) :
    (g'.get? x).map EventRecord.rowless = (g.get? x).map EventRecord.rowless := by
  obtain ⟨r, hr⟩ := Option.isSome_iff_exists.mp hx
  obtain ⟨r', hr', hsame⟩ := h.get? hr
  rw [hr, hr', Option.map_some, Option.map_some, hsame]

theorem Extends.map_selfRecord (h : g.Extends g')
    (hparents : ∀ p ∈ event.parents, (g.get? p).isSome) :
    (g'.selfRecord event).map EventRecord.rowless =
      (g.selfRecord event).map EventRecord.rowless := by
  unfold selfRecord
  cases hself : event.selfParent with
  | none => rfl
  | some p => exact h.map_get? (hparents p (Event.mem_parents.mpr (.inl hself)))

theorem Extends.map_otherRecord (h : g.Extends g')
    (hparents : ∀ p ∈ event.parents, (g.get? p).isSome) :
    (g'.otherRecord event).map EventRecord.rowless =
      (g.otherRecord event).map EventRecord.rowless := by
  unfold otherRecord
  cases hother : event.otherParent with
  | none => rfl
  | some p => exact h.map_get? (hparents p (Event.mem_parents.mpr (.inr hother)))

theorem Extends.newSeq_eq (h : g.Extends g')
    (hparents : ∀ p ∈ event.parents, (g.get? p).isSome) : g'.newSeq event = g.newSeq event := by
  have hseq (t : Hashgraph) : t.newSeq event =
      ((t.selfRecord event).map EventRecord.rowless).elim 1 (·.seq + 1) := by
    unfold newSeq
    cases t.selfRecord event <;> rfl
  rw [hseq, hseq, h.map_selfRecord hparents]

/-- The rounds of the parents. -/
theorem Extends.map_round (h : g.Extends g')
    (hparents : ∀ p ∈ event.parents, (g.get? p).isSome) :
    (g'.selfRecord event).map (·.round) = (g.selfRecord event).map (·.round) ∧
      (g'.otherRecord event).map (·.round) = (g.otherRecord event).map (·.round) := by
  have hround (o : Option EventRecord) :
      o.map (·.round) = (o.map EventRecord.rowless).map (·.round) := by
    cases o <;> rfl
  rw [hround, hround (g.selfRecord event), hround (g'.otherRecord event),
    hround (g.otherRecord event), h.map_selfRecord hparents, h.map_otherRecord hparents]
  exact ⟨rfl, rfl⟩

theorem Extends.newBase_eq (h : g.Extends g')
    (hparents : ∀ p ∈ event.parents, (g.get? p).isSome) : g'.newBase event = g.newBase event := by
  rw [newBase, (h.map_round hparents).1, (h.map_round hparents).2, newBase]

theorem Extends.newRound_eq (h : g.Extends g')
    (hparents : ∀ p ∈ event.parents, (g.get? p).isSome) (b : Bool) :
    g'.newRound event b = g.newRound event b := by
  rw [newRound, h.newBase_eq hparents, newRound]

theorem Extends.newWitness_eq (h : g.Extends g')
    (hparents : ∀ p ∈ event.parents, (g.get? p).isSome) (b : Bool) :
    g'.newWitness event b = g.newWitness event b := by
  rw [newWitness, (h.map_round hparents).1, h.newRound_eq hparents, newWitness]

theorem Extends.newReach_eq (h : g.Extends g')
    (hparents : ∀ p ∈ event.parents, (g.get? p).isSome) (c : NodeId) :
    g'.newReach event c = g.newReach event c := by
  have hparent {o : Option EventHash} (ho : ∀ p, o = some p → p ∈ event.parents) :
      o.elim 0 (g'.reachOf · c) = o.elim 0 (g.reachOf · c) := by
    cases o with
    | none => rfl
    | some p => exact h.reach (hparents p (ho p rfl)) c
  rw [newReach, hparent fun p hp => Event.mem_parents.mpr (.inl hp),
    hparent fun p hp => Event.mem_parents.mpr (.inr hp), newReach]

/-! ## What rests on a step -/

theorem reachOf_of_get? (hx : g.get? x = some r) (c : NodeId) :
    g.reachOf x c = (g.memberIndexOf c).elim 0 (EventRecord.slot r) := by
  rw [reachOf, hx]
  rfl

/-- Voting and ordering leave the events and the indices alone. -/
theorem rests_of_skeleton_eq (h : g'.skeleton = g.skeleton) : g.Rests g' := by
  have hindex : g'.memberIndex = g.memberIndex := (congrArg memberIndex h :)
  have hforkers : g'.knownForkers = g.knownForkers := (congrArg knownForkers h :)
  have hmember (c : NodeId) : g'.memberIndexOf c = g.memberIndexOf c := by
    rw [memberIndexOf, hindex, memberIndexOf]
  refine ⟨⟨fun {x r} hx => ?_, fun {x} hx c => ?_⟩, fun {x} hx => ?_, fun c s => ?_, fun c p => ?_,
    fun c => ?_, fun hinj {c c' i} hc hc' => ?_⟩
  · obtain ⟨r', hr', hbare⟩ := get?_of_skeleton_eq h.symm hx
    refine ⟨r', hr', ?_⟩
    rw [EventRecord.rowless, hbare, EventRecord.rowless]
  · obtain ⟨r, hr⟩ := Option.isSome_iff_exists.mp hx
    obtain ⟨r', hr', hbare⟩ := get?_of_skeleton_eq h.symm hr
    have hrow : r'.ancestorSeqs = r.ancestorSeqs := (congrArg EventRecord.ancestorSeqs hbare :)
    have hslot : EventRecord.slot r' = EventRecord.slot r := by
      funext i
      rw [EventRecord.slot, hrow, EventRecord.slot]
    rw [reachOf_of_get? hr', reachOf_of_get? hr, hmember, hslot]
  · rwa [← isSome_get?_of_skeleton_eq h]
  · rw [eventForCreatorSeq, show g'.byCreatorSeq = g.byCreatorSeq from (congrArg byCreatorSeq h :),
      eventForCreatorSeq]
  · rw [canonicalChild, show g'.firstChild = g.firstChild from (congrArg firstChild h :),
      canonicalChild]
  · have hflagged : g'.flagged = g.flagged := by
      funext i
      rw [flagged, hforkers, flagged]
    rw [forkKnown, hmember, hflagged, forkKnown]
  · rw [hmember] at hc hc'
    exact hinj hc hc'

/-- A new member's column is empty. -/
theorem Consistent.rests_widen (hg : g.Consistent) {node : NodeId}
    (hnew : g.memberIndexOf node = none) (activationRound : ℕ) (registry : MembershipRegistry) :
    g.Rests (g.widen node activationRound registry) := by
  have hforkers : (g.widen node activationRound registry).knownForkers =
    g.knownForkers ++ [false] := rfl
  refine ⟨⟨fun {x r} hx => ⟨_, get?_widen_of_some hx, rfl⟩, fun {x} hx c => ?_⟩, fun {x} hx => ?_,
    fun _ _ => rfl, fun _ _ => rfl, fun c => ?_, fun hinj {c c' i} hc hc' => ?_⟩
  · obtain ⟨r, hr⟩ := Option.isSome_iff_exists.mp hx
    rw [reachOf_of_get? (get?_widen_of_some hr), reachOf_of_get? hr,
      Hashgraph.memberIndexOf_widen]
    by_cases hc : c = node
    · subst hc
      have hlast : (r.ancestorSeqs ++ [0])[g.memberCount]? = some 0 := by
        rw [← hg.row_length hr]
        simp
      simp [hnew, EventRecord.slot, hlast]
    · rw [if_neg hc]
      cases hi : g.memberIndexOf c with
      | none => rfl
      | some i =>
        have hlt : i < r.ancestorSeqs.length := by
          rw [hg.row_length hr]
          exact hg.index_lt hi
        simp [EventRecord.slot, List.getElem?_append_left hlt]
  · rwa [get?_widen, Option.isSome_map] at hx
  · rw [forkKnown, Hashgraph.memberIndexOf_widen]
    by_cases hc : c = node
    · subst hc
      have hlast : (g.knownForkers ++ [false])[g.memberCount]? = some false := by
        rw [← hg.forkers_length]
        simp
      simp [forkKnown, hnew, flagged, hforkers, hlast]
    · rw [if_neg hc, forkKnown]
      cases hi : g.memberIndexOf c with
      | none => rfl
      | some i =>
        have hlt : i < g.knownForkers.length := by
          rw [hg.forkers_length]
          exact hg.index_lt hi
        simp [flagged, hforkers, List.getElem?_append_left hlt]
  · -- The new column is past all others.
    rw [Hashgraph.memberIndexOf_widen] at hc hc'
    split at hc <;> split at hc'
    · rename_i h h'
      rw [h, h']
    · have := hg.index_lt hc'
      rw [← Option.some.inj hc] at this
      omega
    · have := hg.index_lt hc
      rw [← Option.some.inj hc'] at this
      omega
    · exact hinj hc hc'

end Extends

/-! ## Whole graphs -/

/-- What a graph that was never pruned satisfies. -/
structure Whole (g : Hashgraph) : Prop where
  columns : ∀ {c c' i}, g.memberIndexOf c = some i → g.memberIndexOf c' = some i → c = c'
  parents : ∀ {x r}, g.get? x = some r → ∀ p ∈ r.event.parents, (g.get? p).isSome
  rank : ∃ rank : EventHash → ℕ, ∀ {x p}, p ∈ g.parentsOf x → rank p < rank x
  seq : ∀ {x r}, g.get? x = some r → r.seq = g.newSeq r.event
  reach : ∀ {x r c}, g.get? x = some r → c ≠ r.event.creator →
    g.reachOf x c = g.newReach r.event c
  round : ∀ {x r}, g.get? x = some r → ∃ b, r.round = g.newRound r.event b ∧
    r.isWitness = g.newWitness r.event b
  slot : ∀ {x r}, g.get? x = some r → (g.eventForCreatorSeq r.event.creator r.seq).isSome
  branch : ∀ {x r}, g.get? x = some r → ∃ f,
    g.canonicalChild r.event.creator r.event.selfParent = some f ∧
      (f = x ∨ g.forkKnown r.event.creator = true)
  child : ∀ {c p f}, g.canonicalChild c p = some f →
    ∃ r, g.get? f = some r ∧ r.event.creator = c ∧ r.event.selfParent = p

section Steps

variable {g g' : Hashgraph} {hash : EventHash} {event : Event} {i : ℕ}

theorem whole_new (registry : MembershipRegistry) : (Hashgraph.new registry).Whole := by
  have hno {x : EventHash} {r : EventRecord} (hx : (Hashgraph.new registry).get? x = some r) :
      False := by
    rw [get?_new] at hx
    cases hx
  refine ⟨fun {c c' i} hc hc' => ?_, fun hx => (hno hx).elim, ⟨fun _ => 0, fun {x p} hp => ?_⟩,
    fun hx => (hno hx).elim, fun hx => (hno hx).elim, fun hx => (hno hx).elim,
    fun hx => (hno hx).elim, fun hx => (hno hx).elim, fun {c p f} hf => ?_⟩
  · rw [memberIndexOf_new] at hc hc'
    exact Option.some.inj (hc.symm.trans hc')
  · rw [parentsOf, get?_new] at hp
    cases hp
  · rw [canonicalChild, show (Hashgraph.new registry).firstChild = ∅ from rfl,
      ExtTreeMap.getElem?_empty] at hf
    cases hf

theorem Rests.get?_back (h : g.Rests g') {x : EventHash} {r' : EventRecord}
    (hx : g'.get? x = some r') : ∃ r, g.get? x = some r ∧ r'.rowless = r.rowless := by
  obtain ⟨r, hr⟩ := Option.isSome_iff_exists.mp (h.back (Option.isSome_of_eq_some hx))
  obtain ⟨r'', hr'', hsame⟩ := h.get? hr
  obtain rfl := Option.some.inj (hx.symm.trans hr'')
  exact ⟨r, hr, hsame⟩

theorem Rests.parentsOf_eq (h : g.Rests g') (x : EventHash) : g'.parentsOf x = g.parentsOf x := by
  unfold parentsOf
  cases hx : g.get? x with
  | none =>
    cases hx' : g'.get? x with
    | none => rfl
    | some r' =>
      obtain ⟨r, hr, -⟩ := h.get?_back hx'
      rw [hx] at hr
      cases hr
  | some r =>
    obtain ⟨r', hr', hsame⟩ := h.get? hx
    rw [hr']
    exact congrArg Event.parents (congrArg EventRecord.event hsame :)

theorem Whole.of_rests (hw : g.Whole) (h : g.Rests g') : g'.Whole := by
  refine ⟨h.columns hw.columns, fun {x r'} hx p hp => ?_, ?_, fun {x r'} hx => ?_,
    fun {x r' c} hx hc => ?_, fun {x r'} hx => ?_, fun {x r'} hx => ?_, fun {x r'} hx => ?_,
    fun {c p f} hf => ?_⟩
  · obtain ⟨r, hr, hsame⟩ := h.get?_back hx
    rw [show r'.event = r.event from (congrArg EventRecord.event hsame :)] at hp
    obtain ⟨rp, hrp⟩ := Option.isSome_iff_exists.mp (hw.parents hr p hp)
    obtain ⟨rp', hrp', -⟩ := h.get? hrp
    exact Option.isSome_of_eq_some hrp'
  · obtain ⟨rank, hrank⟩ := hw.rank
    exact ⟨rank, fun {x p} hp => hrank (h.parentsOf_eq x ▸ hp)⟩
  · obtain ⟨r, hr, hsame⟩ := h.get?_back hx
    rw [show r'.event = r.event from (congrArg EventRecord.event hsame :),
      h.newSeq_eq (hw.parents hr), show r'.seq = r.seq from (congrArg EventRecord.seq hsame :)]
    exact hw.seq hr
  · obtain ⟨r, hr, hsame⟩ := h.get?_back hx
    rw [show r'.event = r.event from (congrArg EventRecord.event hsame :)] at hc ⊢
    rw [h.newReach_eq (hw.parents hr), h.reach (Option.isSome_of_eq_some hr)]
    exact hw.reach hr hc
  · obtain ⟨r, hr, hsame⟩ := h.get?_back hx
    obtain ⟨b, hround, hwit⟩ := hw.round hr
    refine ⟨b, ?_, ?_⟩ <;>
      rw [show r'.event = r.event from (congrArg EventRecord.event hsame :)]
    · rw [h.newRound_eq (hw.parents hr), ← hround]
      exact (congrArg EventRecord.round hsame :)
    · rw [h.newWitness_eq (hw.parents hr), ← hwit]
      exact (congrArg EventRecord.isWitness hsame :)
  · obtain ⟨r, hr, hsame⟩ := h.get?_back hx
    rw [show r'.event = r.event from (congrArg EventRecord.event hsame :),
      show r'.seq = r.seq from (congrArg EventRecord.seq hsame :), h.slot_eq]
    exact hw.slot hr
  · obtain ⟨r, hr, hsame⟩ := h.get?_back hx
    rw [show r'.event = r.event from (congrArg EventRecord.event hsame :), h.child_eq, h.forked_eq]
    exact hw.branch hr
  · rw [h.child_eq] at hf
    obtain ⟨r, hr, hc, hp⟩ := hw.child hf
    obtain ⟨r', hr', hsame⟩ := h.get? hr
    have hevent : r'.event = r.event := (congrArg EventRecord.event hsame :)
    exact ⟨r', hr', hevent ▸ hc, hevent ▸ hp⟩

/-! ## A new event -/

theorem getD_maxInto {row other : List ℕ} (hlen : other.length = row.length) (j : ℕ) :
    (maxInto row other)[j]?.getD 0 = max (row[j]?.getD 0) (other[j]?.getD 0) := by
  induction row generalizing other j with
  | nil =>
    rw [List.length_nil, List.length_eq_zero_iff] at hlen
    simp [hlen, maxInto]
  | cons a row ih =>
    cases other with
    | nil => cases hlen
    | cons b other =>
      cases j with
      | zero => rfl
      | succ j => simpa [maxInto] using ih (by simpa using hlen) j

/-- The joined row holds the larger of the parents' entries. -/
theorem Consistent.getD_joinedRow (hg : g.Consistent) (event : Event) (j : ℕ) :
    (g.joinedRow event)[j]?.getD 0 = max ((g.selfRecord event).elim 0 (EventRecord.slot · j))
      ((g.otherRecord event).elim 0 (EventRecord.slot · j)) := by
  have hinherited : ((g.selfRecord event).elim (List.replicate g.memberCount 0)
        (·.ancestorSeqs)).length = g.memberCount ∧
      ((g.selfRecord event).elim (List.replicate g.memberCount 0) (·.ancestorSeqs))[j]?.getD 0 =
        (g.selfRecord event).elim 0 (EventRecord.slot · j) := by
    cases hself : g.selfRecord event with
    | none =>
      refine ⟨List.length_replicate, ?_⟩
      rw [Option.elim_none, Option.elim_none, List.getElem?_replicate]
      split <;> rfl
    | some r =>
      obtain ⟨p, -, hp⟩ := exists_selfParent_of_selfRecord hself
      exact ⟨hg.row_length hp, rfl⟩
  unfold joinedRow
  cases hother : g.otherRecord event with
  | none => simpa using hinherited.2
  | some r =>
    obtain ⟨p, -, hp⟩ := exists_otherParent_of_otherRecord hother
    have hlen : r.ancestorSeqs.length = ((g.selfRecord event).elim (List.replicate g.memberCount 0)
        (·.ancestorSeqs)).length := (hg.row_length hp).trans hinherited.1.symm
    exact (getD_maxInto hlen j).trans (congrArg (max · _) hinherited.2)

theorem reachOf_eq_zero {x : EventHash} {c : NodeId} (h : g.memberIndexOf c = none) :
    g.reachOf x c = 0 := by
  rw [reachOf, h]
  cases g.get? x <;> rfl

theorem newReach_eq {c : NodeId} (hj : g.memberIndexOf c = some i) :
    g.newReach event c = max ((g.selfRecord event).elim 0 (EventRecord.slot · i))
      ((g.otherRecord event).elim 0 (EventRecord.slot · i)) := by
  have hparent (o : Option EventHash) : o.elim 0 (g.reachOf · c) =
      (o.bind g.get?).elim 0 (EventRecord.slot · i) := by
    cases o with
    | none => rfl
    | some p =>
      show g.reachOf p c = (g.get? p).elim 0 (EventRecord.slot · i)
      rw [reachOf, hj]
      rfl
  rw [newReach, hparent, hparent]
  rfl

/-- The row of the new event names its own number and what its parents' rows name. -/
theorem Whole.reachOf_place (hw : g.Whole) (hg : g.Consistent) (hc : g.Checked hash event i)
    (b : Bool) {c : NodeId} (hcreator : c ≠ event.creator) :
    (g.place hash event i b).reachOf hash c = g.newReach event c := by
  rw [reachOf_of_get? get?_place_self, memberIndexOf, memberIndex_place, ← memberIndexOf]
  cases hj : g.memberIndexOf c with
  | none =>
    have hzero (o : Option EventHash) : o.elim 0 (g.reachOf · c) = 0 := by
      cases o with
      | none => rfl
      | some p => exact reachOf_eq_zero hj
    rw [newReach, hzero, hzero]
    rfl
  | some j =>
    have hne : i ≠ j := fun hij => hcreator (hw.columns hj (hij ▸ hc.member))
    rw [newReach_eq hj, ← hg.getD_joinedRow event j]
    show ((g.joinedRow event).set i (g.newSeq event))[j]?.getD 0 = _
    rw [List.getElem?_set_ne hne]

theorem Checked.extends_place (hc : g.Checked hash event i) (b : Bool) :
    g.Extends (g.place hash event i b) where
  get? := fun hx => ⟨_, hc.get?_place_of_some b hx, rfl⟩
  reach := fun {x} hx c => by
    obtain ⟨r, hr⟩ := Option.isSome_iff_exists.mp hx
    rw [reachOf_of_get? (hc.get?_place_of_some b hr), reachOf_of_get? hr, memberIndexOf,
      memberIndex_place, memberIndexOf]

theorem canonicalChild_place {b : Bool} (c : NodeId) (p : Option EventHash) :
    (g.place hash event i b).canonicalChild c p =
      if (event.creator, event.selfParent) = (c, p) ∧ g.canonicalChild c p = none then some hash
      else g.canonicalChild c p := by
  have hfirst : (g.place hash event i b).firstChild =
      if (g.canonicalChild event.creator event.selfParent).isSome then g.firstChild
      else g.firstChild.insert (event.creator, event.selfParent) hash := by
    unfold place
    split <;> rfl
  rw [canonicalChild, hfirst]
  by_cases hkey : (event.creator, event.selfParent) = (c, p)
  · obtain ⟨rfl, rfl⟩ := Prod.ext_iff.mp hkey
    cases hold : g.canonicalChild event.creator event.selfParent with
    | none => simp
    | some f =>
      rw [Option.isSome_some, if_pos rfl, if_neg (by simp)]
      exact hold
  · have hother : ¬((event.creator, event.selfParent) = (c, p) ∧ g.canonicalChild c p = none) :=
      fun h => hkey h.1
    rw [if_neg hother]
    split
    · rfl
    · rw [ExtTreeMap.getElem?_insert, if_neg (by simpa using hkey)]
      rfl

theorem Consistent.forkKnown_place (hg : g.Consistent) (hc : g.Checked hash event i) {b : Bool}
    (c : NodeId) (hknown : g.forkKnown c = true) :
    (g.place hash event i b).forkKnown c = true := by
  have hlt : i < g.knownForkers.length := by
    rw [hg.forkers_length]
    exact hg.index_lt hc.member
  rw [forkKnown, Option.any_eq_true] at hknown ⊢
  obtain ⟨j, hj, hflag⟩ := hknown
  refine ⟨j, ?_, ?_⟩
  · rwa [memberIndexOf, memberIndex_place, ← memberIndexOf]
  · rw [flagged_place hlt, hflag, Bool.true_or]

/-- A second event on a self-parent makes its creator a known forker. -/
theorem Consistent.forkKnown_place_self (hg : g.Consistent) (hc : g.Checked hash event i)
    {b : Bool} {f : EventHash} (hchild : g.canonicalChild event.creator event.selfParent = some f)
    (hne : f ≠ hash) : (g.place hash event i b).forkKnown event.creator = true := by
  have hlt : i < g.knownForkers.length := by
    rw [hg.forkers_length]
    exact hg.index_lt hc.member
  rw [forkKnown, Option.any_eq_true]
  refine ⟨i, ?_, ?_⟩
  · rw [memberIndexOf, memberIndex_place]
    exact hc.member
  · rw [flagged_place hlt, hchild]
    simp [hne]

theorem Whole.rank_place (hw : g.Whole) (hc : g.Checked hash event i) (b : Bool) :
    ∃ rank : EventHash → ℕ, ∀ {x p}, p ∈ (g.place hash event i b).parentsOf x →
      rank p < rank x := by
  obtain ⟨rank, hrank⟩ := hw.rank
  have hne {p : EventHash} (hp : (g.get? p).isSome) : p ≠ hash := by
    rintro rfl
    rw [hc.fresh] at hp
    cases hp
  refine ⟨fun x => if x = hash then (event.parents.map rank).max?.getD 0 + 1 else rank x, ?_⟩
  intro x p hp
  dsimp only
  rw [parentsOf_place] at hp
  by_cases hx : x = hash
  · rw [if_pos hx] at hp
    rw [if_pos hx, if_neg (hne (hc.parents p hp))]
    exact Nat.lt_succ_of_le (List.le_max?_getD_of_mem (List.mem_map_of_mem hp))
  · rw [if_neg hx] at hp
    obtain ⟨r, hr⟩ : ∃ r, g.get? x = some r := by
      by_contra hno
      rw [parentsOf, Option.eq_none_iff_forall_ne_some.mpr (not_exists.mp hno)] at hp
      cases hp
    have hstored : (g.get? p).isSome := by
      rw [parentsOf, hr] at hp
      exact hw.parents hr p hp
    rw [if_neg hx, if_neg (hne hstored)]
    exact hrank hp

theorem Whole.place (hw : g.Whole) (hg : g.Consistent) (hc : g.Checked hash event i) (b : Bool) :
    (g.place hash event i b).Whole := by
  have hext := hc.extends_place b
  have hkeep {p : EventHash} (hp : (g.get? p).isSome) :
      ((g.place hash event i b).get? p).isSome := by
    obtain ⟨rp, hrp⟩ := Option.isSome_iff_exists.mp hp
    exact Option.isSome_of_eq_some (hc.get?_place_of_some b hrp)
  refine ⟨fun {c c' j} hj hj' => ?_, fun {x r} hx p hp => ?_, hw.rank_place hc b,
    fun {x r} hx => ?_, fun {x r c} hx hcreator => ?_, fun {x r} hx => ?_, fun {x r} hx => ?_,
    fun {x r} hx => ?_, fun {c p f} hf => ?_⟩
  · rw [memberIndexOf, memberIndex_place] at hj hj'
    exact hw.columns hj hj'
  · rcases get?_place_cases hx with ⟨-, rfl⟩ | hx
    · exact hkeep (hc.parents p hp)
    · exact hkeep (hw.parents hx p hp)
  · rcases get?_place_cases hx with ⟨-, rfl⟩ | hx
    · exact (hext.newSeq_eq hc.parents).symm
    · rw [hext.newSeq_eq (hw.parents hx)]
      exact hw.seq hx
  · rcases get?_place_cases hx with ⟨rfl, rfl⟩ | hx
    · rw [hw.reachOf_place hg hc b hcreator]
      exact (hext.newReach_eq hc.parents c).symm
    · rw [hext.reach (Option.isSome_of_eq_some hx), hext.newReach_eq (hw.parents hx)]
      exact hw.reach hx hcreator
  · rcases get?_place_cases hx with ⟨-, rfl⟩ | hx
    · exact ⟨b, (hext.newRound_eq hc.parents b).symm, (hext.newWitness_eq hc.parents b).symm⟩
    · obtain ⟨b', hround, hwit⟩ := hw.round hx
      refine ⟨b', ?_, ?_⟩
      · rw [hext.newRound_eq (hw.parents hx), hround]
      · rw [hext.newWitness_eq (hw.parents hx), hwit]
  · rw [eventForCreatorSeq_place]
    split
    · rfl
    · rename_i hslot
      rcases get?_place_cases hx with ⟨-, rfl⟩ | hx
      · exact Option.isSome_iff_ne_none.mpr fun hnone => hslot ⟨rfl, hnone⟩
      · exact hw.slot hx
  · rw [canonicalChild_place]
    rcases get?_place_cases hx with ⟨rfl, rfl⟩ | hx
    · -- The new event is registered, or there is a first child it forks with.
      cases hchild : g.canonicalChild event.creator event.selfParent with
      | none => exact ⟨x, if_pos ⟨rfl, hchild⟩, .inl rfl⟩
      | some f =>
        refine ⟨f, (if_neg fun h => ?_).trans hchild, .inr ?_⟩
        · exact absurd (hchild.symm.trans h.2) (by simp)
        · obtain ⟨rf, hrf, -⟩ := hw.child hchild
          exact hg.forkKnown_place_self hc hchild (hc.ne hrf)
    · obtain ⟨f, hf, hor⟩ := hw.branch hx
      refine ⟨f, (if_neg fun h => ?_).trans hf, hor.imp_right (hg.forkKnown_place hc _)⟩
      exact absurd (hf.symm.trans h.2) (by simp)
  · rw [canonicalChild_place] at hf
    split at hf
    · rename_i hnew
      obtain rfl := Option.some.inj hf
      obtain ⟨hcreator, hself⟩ := Prod.ext_iff.mp hnew.1
      exact ⟨_, get?_place_self, hcreator, hself⟩
    · obtain ⟨r, hr, hcreator, hself⟩ := hw.child hf
      exact ⟨r, hc.get?_place_of_some b hr, hcreator, hself⟩

/-! ## Runs without pruning -/

variable {H : Hasher} {S : Set Event} {P : Hashgraph → Op → Prop}

theorem Op.Effect.whole {op : Op} (h : op.Effect H g g') (hkeeps : op.KeepsEvents)
    (hg : g.Consistent) (hw : g.Whole) : g'.Whole := by
  cases h with
  | none hsame => exact hsame ▸ hw
  | insert _ hc hinserted =>
    exact (hw.place hg hc _).of_rests (rests_of_skeleton_eq hinserted.advances.skeleton_eq)
  | addMember hnew hsame => exact hsame ▸ hw.of_rests (hg.rests_widen hnew _ _)
  | prune _ _ => exact hkeeps.elim

theorem Reached.whole {registry : MembershipRegistry} (hfree : H.CollisionFree S)
    (hP : ∀ g op, P g op → op.From S ∧ op.KeepsEvents) (h : Reached H P registry g) : g.Whole :=
  h.invariant hfree (fun g op hp => (hP g op hp).1) (whole_new registry)
    fun g _ op hs hw hp heffect => heffect.whole (hP g op hp).2 hs.wf.toConsistent hw

end Steps

end Hashgraph

end JKain
