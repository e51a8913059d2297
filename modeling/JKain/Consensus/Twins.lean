import JKain.Consensus.Shadow

/-!
# Pruning and consensus

A graph that is pruned now and then, and its twin that received the same events and kept them all.
`Twin g g'` adds to `Shadow g g'` that both hold the same elections, the same decided rounds and the
same order for what is left. Inserting an event into both, and pruning the one, keep them twins: the
base round of a new event, the candidates it votes on and the rounds that are ordered after it are
all at least the next round to order, and what was pruned is below.
-/

namespace JKain

open Std JKain.Lib

namespace Hashgraph

/-- `g'` is what prunes left of `g`. -/
structure Twin (registry : MembershipRegistry) (g g' : Hashgraph) : Prop extends
    Shadow registry g g' where
  exact : g.UndecidedExact
  exact' : g'.UndecidedExact
  settled : g.DecidedSettled
  below : ∀ {n}, 1 ≤ n → n < g.nextRoundToOrder → g.isRoundDecided n = true
  undecided : g.isRoundDecided g.nextRoundToOrder = false
  fame : ∀ {w}, (g'.get? w).isSome → g'.fameOf w = g.fameOf w
  votes : ∀ {y w}, (g'.get? y).isSome → g'.recordedVote y w = g.recordedVote y w
  order : ∀ {x}, (g'.get? x).isSome → g'.orderOf x = g.orderOf x
  decided : ∀ n, g'.isRoundDecided n = g.isRoundDecided n
  next : g'.nextRoundToOrder = g.nextRoundToOrder

/-! ## The new event -/

namespace Shadow

variable {registry : MembershipRegistry} {g g' : Hashgraph} {hash x : EventHash} {event : Event}
  {i n : ℕ} (h : Shadow registry g g')
include h

/-- The record of a parent that is stored in both graphs. -/
theorem parent_cases {p : Option EventHash} (hp : ∀ q, p = some q → (g'.get? q).isSome) :
    (p.bind g.get? = none ∧ p.bind g'.get? = none) ∨
      ∃ r r', p.bind g.get? = some r ∧ p.bind g'.get? = some r' ∧ r'.seq = r.seq ∧
        r'.ancestorSeqs = r.ancestorSeqs ∧ r'.round = r.round := by
  cases p with
  | none => exact .inl ⟨rfl, rfl⟩
  | some q =>
    obtain ⟨r, r', hr, hr'⟩ := h.exists_records (hp q rfl)
    obtain ⟨-, hseq, hrow, hround, -⟩ := h.record_eq hr hr'
    exact .inr ⟨r, r', hr, hr', hseq, hrow, hround⟩

section NewRecord

variable (hparents : ∀ p ∈ event.parents, (g'.get? p).isSome)
include hparents

theorem newSeq_eq : g'.newSeq event = g.newSeq event := by
  unfold newSeq selfRecord
  rcases h.parent_cases (p := event.selfParent) fun q hq =>
      hparents q (Event.mem_parents.mpr (.inl hq)) with
    ⟨hnone, hnone'⟩ | ⟨r, r', hr, hr', hseq, -, -⟩
  · rw [hnone, hnone']
  · rw [hr, hr', Option.elim_some, Option.elim_some, hseq]

theorem map_round_eq :
    (g'.selfRecord event).map (·.round) = (g.selfRecord event).map (·.round) ∧
      (g'.otherRecord event).map (·.round) = (g.otherRecord event).map (·.round) := by
  have hround {p : Option EventHash} (hp : ∀ q, p = some q → (g'.get? q).isSome) :
      (p.bind g'.get?).map (·.round) = (p.bind g.get?).map (·.round) := by
    rcases h.parent_cases hp with ⟨hnone, hnone'⟩ | ⟨r, r', hr, hr', -, -, hround⟩
    · rw [hnone, hnone']
    · rw [hr, hr', Option.map_some, Option.map_some, hround]
  exact ⟨hround fun q hq => hparents q (Event.mem_parents.mpr (.inl hq)),
    hround fun q hq => hparents q (Event.mem_parents.mpr (.inr hq))⟩

theorem newBase_eq : g'.newBase event = g.newBase event := by
  rw [newBase, newBase, (h.map_round_eq hparents).1, (h.map_round_eq hparents).2]

theorem newRound_eq (b : Bool) : g'.newRound event b = g.newRound event b := by
  rw [newRound, newRound, h.newBase_eq hparents]

theorem newWitness_eq (b : Bool) : g'.newWitness event b = g.newWitness event b := by
  rw [newWitness, newWitness, (h.map_round_eq hparents).1]
  simp only [h.newRound_eq hparents]

theorem joinedRow_eq : g'.joinedRow event = g.joinedRow event := by
  unfold joinedRow selfRecord otherRecord
  rw [h.memberCount_eq]
  rcases h.parent_cases (p := event.selfParent) fun q hq =>
      hparents q (Event.mem_parents.mpr (.inl hq)) with
    ⟨hnone, hnone'⟩ | ⟨r, r', hr, hr', -, hrow, -⟩
  · rcases h.parent_cases (p := event.otherParent) fun q hq =>
        hparents q (Event.mem_parents.mpr (.inr hq)) with
      ⟨hother, hother'⟩ | ⟨ro, ro', hro, hro', -, hrow', -⟩
    · rw [hnone, hnone', hother, hother']
    · simp only [hnone, hnone', hro, hro', Option.elim_some, hrow']
  · rcases h.parent_cases (p := event.otherParent) fun q hq =>
        hparents q (Event.mem_parents.mpr (.inr hq)) with
      ⟨hother, hother'⟩ | ⟨ro, ro', hro, hro', -, hrow', -⟩
    · simp only [hr, hr', hother, hother', Option.elim_some, hrow]
    · simp only [hr, hr', hro, hro', Option.elim_some, hrow, hrow']

/-- The record a new event gets, once its round is settled. -/
theorem newRecord_eq (b : Bool) : g'.newRecord event i b = g.newRecord event i b := by
  rw [newRecord, newRecord, recordAt, recordAt, h.newSeq_eq hparents, h.joinedRow_eq hparents,
    h.newRound_eq hparents, h.newWitness_eq hparents]

end NewRecord

/-! ## One more event -/

section Place

variable (hc : g.Checked hash event i) (hc' : g'.Checked hash event i) (b : Bool)
include hc'

omit h hc' in
theorem isSome_place : ((g'.place hash event i b).get? x).isSome ↔
    x = hash ∨ (g'.get? x).isSome := by
  rw [get?_place]
  by_cases hx : x = hash <;> simp [hx]

include hc in
theorem slot_place (hslot : g.eventForCreatorSeq event.creator (g.newSeq event) = none)
    {c : NodeId} {s : ℕ} : (g'.place hash event i b).eventForCreatorSeq c s = some x ↔
      (g.place hash event i b).eventForCreatorSeq c s = some x ∧
        ((g'.place hash event i b).get? x).isSome := by
  have hslot' : g'.eventForCreatorSeq event.creator (g.newSeq event) = none := by
    cases hx : g'.eventForCreatorSeq event.creator (g.newSeq event) with
    | none => rfl
    | some x =>
      rw [(h.slot.mp hx).1] at hslot
      cases hslot
  rw [eventForCreatorSeq_place, eventForCreatorSeq_place, h.newSeq_eq hc'.parents, isSome_place]
  by_cases hkey : (event.creator, g.newSeq event) = (c, s)
  · obtain ⟨rfl, rfl⟩ := Prod.mk.inj hkey
    rw [hslot, hslot', if_pos ⟨rfl, rfl⟩]
    exact ⟨fun hx => ⟨hx, .inl (Option.some.inj hx).symm⟩, fun hx => hx.1⟩
  · rw [if_neg fun hkey' => hkey hkey'.1, if_neg fun hkey' => hkey hkey'.1, h.slot]
    refine and_congr_right fun hx => ?_
    rw [or_iff_right]
    rintro rfl
    obtain ⟨r, hr, -⟩ := h.wf.indexed hx
    exact hc.ne hr rfl

theorem latest_place (c : NodeId) :
    (g'.place hash event i b).latestEventBy c = (g.place hash event i b).latestEventBy c := by
  have hnewest : (g'.latestEventBy event.creator).all (fun latest =>
        decide (g'.newSeq event > (g'.get? latest).elim 0 (·.seq))) =
      (g.latestEventBy event.creator).all fun latest =>
        decide (g.newSeq event > (g.get? latest).elim 0 (·.seq)) := by
    rw [← h.latest, h.newSeq_eq hc'.parents]
    cases hlatest : g'.latestEventBy event.creator with
    | none => rfl
    | some z =>
      obtain ⟨rz', hrz', -⟩ := h.wf'.latest hlatest
      obtain ⟨rz, hrz, -⟩ := h.record hrz'
      rw [Option.all_some, Option.all_some, hrz, hrz', Option.elim_some, Option.elim_some,
        (h.record_eq hrz hrz').2.1]
  rw [latestEventBy_place, latestEventBy_place, hnewest, h.latest]

omit hc' in
theorem canonical_place (hchild : g'.canonicalChild event.creator event.selfParent = none ∨
      g'.canonicalChild event.creator event.selfParent = some hash)
    (hx : ((g'.place hash event i b).get? x).isSome) :
    (g'.place hash event i b).isCanonical x = true := by
  rw [isCanonical, get?_place]
  by_cases hxh : x = hash
  · rw [if_pos hxh, Option.any_some, hxh]
    show ((g'.place hash event i b).canonicalChild event.creator event.selfParent ==
      some hash) = true
    rw [canonicalChild_place]
    rcases hchild with hnone | hsome
    · rw [if_pos ⟨rfl, hnone⟩, beq_self_eq_true]
    · rw [hsome, if_neg (by simp), beq_self_eq_true]
  · rw [if_neg hxh]
    have hold := h.canonical (((isSome_place b).mp hx).resolve_left hxh)
    rw [isCanonical, Option.any_eq_true] at hold
    obtain ⟨r, hr, hcanonical⟩ := hold
    rw [beq_iff_eq] at hcanonical
    rw [hr, Option.any_some, canonicalChild_place, hcanonical, if_neg (by simp), beq_self_eq_true]

include hc in
theorem witnesses_place (n : ℕ) : (g'.place hash event i b).witnessesOfRound n =
    ((g.place hash event i b).witnessesOfRound n).filter fun x =>
      ((g'.place hash event i b).get? x).isSome := by
  have hold : (g.witnessesOfRound n).filter
      (fun x => ((g'.place hash event i b).get? x).isSome) = g'.witnessesOfRound n := by
    rw [h.witnesses]
    refine List.filter_congr fun x hx => ?_
    obtain ⟨r, hr, -⟩ := h.wf.witness_sound hx
    rw [get?_place, if_neg (hc.ne hr)]
  rw [witnessesOfRound_place, witnessesOfRound_place, h.newWitness_eq hc'.parents,
    h.newRound_eq hc'.parents]
  split
  · rw [List.filter_append, hold, List.filter_cons_of_pos (by rw [get?_place_self]; rfl),
      List.filter_nil]
  · exact hold.symm

omit hc' in
include hc in
theorem lost_place (hfit : g.Fits hash event) {z : EventHash}
    (hz : ((g.place hash event i b).get? z).isSome)
    (hmissing : (g'.place hash event i b).get? z = none)
    (hanc : (g.place hash event i b).Anc z x) :
    ∃ r n, (g.place hash event i b).get? x = some r ∧
      (g.place hash event i b).roundReceived x = some n ∧ r.round ≤ n ∧
      n < (g.place hash event i b).nextRoundToOrder := by
  have hne : z ≠ hash := by
    rintro rfl
    rw [get?_place_self] at hmissing
    cases hmissing
  have hmeets := hc.meets h.whole h.wf.toConsistent hfit b
  have hboth : Meets.Both g (g.place hash event i b) z := by
    rw [get?_place, if_neg hne] at hz
    obtain ⟨rz, hrz⟩ := Option.isSome_iff_exists.mp hz
    exact ⟨hz, Option.isSome_of_eq_some (hc.get?_place_of_some b hrz)⟩
  rw [get?_place, if_neg hne] at hmissing
  obtain ⟨r, n, hr, hn, hle, hlt⟩ := h.lost hboth.1 hmissing ((hmeets.anc_iff hboth).mpr hanc)
  refine ⟨r, n, hc.get?_place_of_some b hr, ?_, hle, by rwa [nextRoundToOrder_place]⟩
  exact (congrArg Prod.fst (orderOf_place hc.fresh x)).trans hn

include hc in
/-- One more event, stored in both graphs. -/
theorem place (hfit : g.Fits hash event) (hfit' : g'.Fits hash event)
    (hslot : g.eventForCreatorSeq event.creator (g.newSeq event) = none)
    (hchild : g'.canonicalChild event.creator event.selfParent = none ∨
      g'.canonicalChild event.creator event.selfParent = some hash)
    (hclean : ∀ j, (g.place hash event i b).flagged j = false)
    (hclean' : ∀ j, (g'.place hash event i b).flagged j = false) :
    Shadow registry (g.place hash event i b) (g'.place hash event i b) where
  whole := h.whole.place h.wf.toConsistent hc b
  wf := h.wf.place hc hfit b
  wf' := h.wf'.place hc' hfit' b
  clean := hclean
  clean' := hclean'
  fixed := ⟨memberIndex_place.trans h.fixed.memberIndex_eq,
    memberCount_place.trans h.fixed.memberCount_eq,
    rosterHistory_place.trans h.fixed.rosterHistory_eq⟩
  fixed' := ⟨memberIndex_place.trans h.fixed'.memberIndex_eq,
    memberCount_place.trans h.fixed'.memberCount_eq,
    rosterHistory_place.trans h.fixed'.rosterHistory_eq⟩
  record {x r'} hx := by
    rcases get?_place_cases hx with ⟨rfl, rfl⟩ | hold
    · exact ⟨_, get?_place_self, by rw [h.newRecord_eq hc'.parents b]⟩
    · obtain ⟨r, hr, hbare⟩ := h.record hold
      exact ⟨r, hc.get?_place_of_some b hr, hbare⟩
  lost := h.lost_place hc b hfit
  slot := h.slot_place hc hc' b hslot
  latest := h.latest_place hc' b
  canonical := h.canonical_place b hchild
  witnesses := h.witnesses_place hc hc' b
  highest := by
    rw [highestWitnessRound_place, highestWitnessRound_place, h.newWitness_eq hc'.parents,
      h.newRound_eq hc'.parents, h.highest]

end Place

end Shadow

/-- An event that both graphs accept, with what makes it the first of its number on its creator's
chain and of a later round than the decided ones. -/
structure Newcomer (g g' : Hashgraph) (hash : EventHash) (event : Event) (i : ℕ) : Prop where
  left : g.Checked hash event i
  right : g'.Checked hash event i
  fits : g.Fits hash event
  fits' : g'.Fits hash event
  slot : g.eventForCreatorSeq event.creator (g.newSeq event) = none
  child : g'.canonicalChild event.creator event.selfParent = none ∨
    g'.canonicalChild event.creator event.selfParent = some hash
  clean : ∀ b j, (g.place hash event i b).flagged j = false
  clean' : ∀ b j, (g'.place hash event i b).flagged j = false
  later : ∀ {n}, g.isRoundDecided n = true → ∀ b, n < g.newRound event b

section Newcomer

variable {registry : MembershipRegistry} {g g' : Hashgraph} {hash w x : EventHash} {event : Event}
  {i n : ℕ}

theorem Twin.alike (h : Twin registry g g') (hw : (g'.get? w).isSome) :
    Alike g' (g.ballot w) (g'.ballot w) :=
  ⟨h.fame hw, h.votes⟩

theorem orderOf_of_missing (hx : g.get? x = none) : g.orderOf x = (none, none) := by
  rw [orderOf, roundReceived, consensusTimestamp, hx]
  rfl

theorem Newcomer.shadow (hn : Newcomer g g' hash event i) (h : Shadow registry g g') (b : Bool) :
    Shadow registry (g.place hash event i b) (g'.place hash event i b) :=
  h.place hn.left hn.right b hn.fits hn.fits' hn.slot hn.child (hn.clean b) (hn.clean' b)

/-- The base round of a new event is still to be ordered. -/
theorem Newcomer.next_le_newBase (hn : Newcomer g g' hash event i) (h : Twin registry g g') :
    g.nextRoundToOrder ≤ g.newBase event := by
  have hpos : 0 < g.newBase event := newBase_pos h.wf
  by_contra hlt
  have hdecided := h.below (n := g.nextRoundToOrder - 1) (by omega) (by omega)
  have := hn.later hdecided false
  rw [newRound, if_neg Bool.false_ne_true] at this
  omega

/-- The new event is of the same round in both graphs. -/
theorem Newcomer.bumps_eq (hn : Newcomer g g' hash event i) (h : Twin registry g g') :
    g'.bumps hash event i = g.bumps hash event i := by
  have hbase := hn.next_le_newBase h
  have hshadow := hn.shadow h.toShadow false
  unfold bumps
  rw [h.newBase_eq hn.right.parents, h.witnesses_eq hbase, h.totalAt_eq]
  congr 3
  refine List.countP_congr fun w hw => ?_
  obtain ⟨r, hr, hround, -⟩ := h.wf.witness_sound hw
  have hr' := hn.left.get?_place_of_some false hr
  have hkept := hshadow.kept_of_round hr' (by rw [nextRoundToOrder_place]; omega)
  rw [hshadow.stronglySeesAt_eq hkept (Option.isSome_of_eq_some hr')
    ((Shadow.isSome_place false).mpr (.inl rfl))]

/-- One more event in both graphs. -/
theorem Twin.placed (h : Twin registry g g') (hn : Newcomer g g' hash event i) :
    Twin registry (g.placed hash event i) (g'.placed hash event i) := by
  have hsame : g'.placed hash event i = g'.place hash event i (g.bumps hash event i) := by
    rw [Hashgraph.placed, hn.bumps_eq h]
  have hwit := h.newWitness_eq hn.right.parents (g.bumps hash event i)
  rw [hsame]
  refine { hn.shadow h.toShadow (g.bumps hash event i) with
    exact := h.exact.place hn.left _
    exact' := h.exact'.place hn.right _
    settled := h.settled.placed hn.later
    below := fun {n} hpos hlt => ?_
    undecided := ?_
    fame := fun {w} hw => ?_
    votes := fun {y w} hy => ?_
    order := fun {x} hx => ?_
    decided := fun n => ?_
    next := ?_ }
  · rw [Hashgraph.placed, nextRoundToOrder_place] at hlt
    rw [isRoundDecided, Hashgraph.placed, fullyDecidedRounds_place]
    exact h.below hpos hlt
  · rw [isRoundDecided, Hashgraph.placed, fullyDecidedRounds_place, nextRoundToOrder_place]
    exact h.undecided
  · rw [fameOf_place, Hashgraph.placed, fameOf_place, hwit]
    by_cases hwh : w = hash
    · rw [if_pos hwh, if_pos hwh]
    · rw [if_neg hwh, if_neg hwh]
      exact h.fame (((Shadow.isSome_place _).mp hw).resolve_left hwh)
  · rw [recordedVote_place, Hashgraph.placed, recordedVote_place]
    by_cases hyh : y = hash
    · rw [if_pos hyh, if_pos hyh]
    · rw [if_neg hyh, if_neg hyh]
      exact h.votes (((Shadow.isSome_place _).mp hy).resolve_left hyh)
  · rw [orderOf_place hn.right.fresh, Hashgraph.placed, orderOf_place hn.left.fresh]
    by_cases hxh : x = hash
    · rw [hxh, orderOf_of_missing hn.right.fresh, orderOf_of_missing hn.left.fresh]
    · exact h.order (((Shadow.isSome_place _).mp hx).resolve_left hxh)
  · rw [isRoundDecided, fullyDecidedRounds_place, isRoundDecided, Hashgraph.placed,
      fullyDecidedRounds_place]
    exact h.decided n
  · rw [nextRoundToOrder_place, Hashgraph.placed, nextRoundToOrder_place, h.next]

end Newcomer

/-! ## Voting and ordering -/

section Advance

variable {registry : MembershipRegistry} {g g' t t' : Hashgraph} {w x : EventHash} {n : ℕ}

theorem anc_of_skeleton_eq (h : g'.skeleton = g.skeleton) : g'.Anc = g.Anc := by
  have hparents : g'.parentsOf = g.parentsOf :=
    funext (parentsOf_of_core_eq (core_eq_of_skeleton_eq h))
  rw [Anc, Anc, hparents]

theorem isCanonical_of_skeleton_eq (h : g'.skeleton = g.skeleton) (w : EventHash) :
    g'.isCanonical w = g.isCanonical w := by
  have hskel (g : Hashgraph) : g.skeleton.isCanonical w = g.isCanonical w := by
    unfold isCanonical
    rw [get?_skeleton]
    cases g.get? w <;> rfl
  rw [← hskel g', h, hskel]

theorem FixedRegistry.of_skeleton_eq (h : g'.skeleton = g.skeleton)
    (hfix : FixedRegistry registry g) : FixedRegistry registry g' where
  memberIndex_eq := ((congrArg memberIndex h :) : g'.memberIndex = g.memberIndex).trans
    hfix.memberIndex_eq
  memberCount_eq := ((congrArg memberCount h :) : g'.memberCount = g.memberCount).trans
    hfix.memberCount_eq
  rosterHistory_eq := ((congrArg rosterHistory h :) : g'.rosterHistory = g.rosterHistory).trans
    hfix.rosterHistory_eq

/-- Voting and ordering keep the shadow: what was received stays so. -/
theorem Shadow.advance (h : Shadow registry g g') (hadv : Advances g t) (hadv' : Advances g' t') :
    Shadow registry t t' := by
  have hskel := hadv.skeleton_eq
  have hskel' := hadv'.skeleton_eq
  have hstored (x : EventHash) : (t'.get? x).isSome = (g'.get? x).isSome :=
    isSome_get?_of_skeleton_eq hskel' x
  have hflags {g t : Hashgraph} (hskel : t.skeleton = g.skeleton) (i : ℕ) :
      t.flagged i = g.flagged i := by
    rw [flagged, flagged, show t.knownForkers = g.knownForkers from
      (congrArg knownForkers hskel :)]
  have hslots {g t : Hashgraph} (hskel : t.skeleton = g.skeleton) (c : NodeId) (s : ℕ) :
      t.eventForCreatorSeq c s = g.eventForCreatorSeq c s := by
    rw [eventForCreatorSeq, eventForCreatorSeq, show t.byCreatorSeq = g.byCreatorSeq from
      (congrArg byCreatorSeq hskel :)]
  exact {
    whole := h.whole.of_rests (rests_of_skeleton_eq hskel)
    wf := hadv.wellFormed h.wf
    wf' := hadv'.wellFormed h.wf'
    clean := fun i => (hflags hskel i).trans (h.clean i)
    clean' := fun i => (hflags hskel' i).trans (h.clean' i)
    fixed := h.fixed.of_skeleton_eq hskel
    fixed' := h.fixed'.of_skeleton_eq hskel'
    record := by
      intro x r' hx
      obtain ⟨r₁', hr₁', hbare'⟩ := get?_of_skeleton_eq hskel' hx
      obtain ⟨r₁, hr₁, hbare₁⟩ := h.record hr₁'
      obtain ⟨r, hr, hbare⟩ := get?_of_skeleton_eq hskel.symm hr₁
      exact ⟨r, hr, hbare.trans (hbare₁.trans hbare')⟩
    lost := by
      intro z x hz hmissing hanc
      rw [isSome_get?_of_skeleton_eq hskel] at hz
      rw [anc_of_skeleton_eq hskel] at hanc
      have hmissing' : g'.get? z = none := by
        rw [← Option.not_isSome_iff_eq_none, ← hstored, hmissing]
        exact Bool.false_ne_true
      obtain ⟨r₁, n, hr₁, hn, hle, hlt⟩ := h.lost hz hmissing' hanc
      obtain ⟨r, hr, hbare⟩ := get?_of_skeleton_eq hskel.symm hr₁
      have hround : r.round = r₁.round := (congrArg EventRecord.round hbare :)
      have hnext := hadv.next_le
      refine ⟨r, n, hr, ?_, by omega, by omega⟩
      rcases hadv.stamped x (Option.isSome_of_eq_some hr₁) with hsame | ⟨hnone, -⟩
      · exact (congrArg Prod.fst hsame).trans hn
      · rw [hnone] at hn
        cases hn
    slot := by
      intro c s x
      rw [hslots hskel, hslots hskel', hstored]
      exact h.slot
    latest := fun c => by
      rw [latestEventBy_of_skeleton_eq hskel, latestEventBy_of_skeleton_eq hskel', h.latest]
    canonical := fun {x} hx => by
      rw [isCanonical_of_skeleton_eq hskel']
      exact h.canonical (hstored x ▸ hx)
    witnesses := fun n => by
      rw [witnessesOfRound_of_skeleton_eq hskel, witnessesOfRound_of_skeleton_eq hskel',
        h.witnesses]
      exact List.filter_congr fun x _ => (hstored x).symm
    highest := by
      rw [highestWitnessRound_of_skeleton_eq hskel, highestWitnessRound_of_skeleton_eq hskel',
        h.highest] }

/-- Both graphs track the same undecided witnesses: one that is missing was received. -/
theorem Shadow.undecidedWitnesses_eq (h : Shadow registry g g') (hexact : g.UndecidedExact)
    (hexact' : g'.UndecidedExact)
    (hsettled : ∀ n, 1 ≤ n → n < g.nextRoundToOrder → g.Settled n)
    (hfame : ∀ {w}, (g'.get? w).isSome → g'.fameOf w = g.fameOf w) (w : EventHash) :
    g'.undecidedWitnesses[w]? = g.undecidedWitnesses[w]? := by
  ext n
  constructor
  · intro hw
    obtain ⟨hundecided, r', hr', hround⟩ := (hexact' w n).mp hw
    obtain ⟨r, hr, -⟩ := h.record hr'
    refine (hexact w n).mpr ⟨?_, r, hr, ?_⟩
    · rw [← hfame (Option.isSome_of_eq_some hr'), hundecided]
    · rw [← (h.record_eq hr hr').2.2.2.1, hround]
  · intro hw
    obtain ⟨hundecided, r, hr, hround⟩ := (hexact w n).mp hw
    cases hr' : g'.get? w with
    | some r' =>
      refine (hexact' w n).mpr ⟨?_, r', hr', ?_⟩
      · rw [hfame (Option.isSome_of_eq_some hr'), hundecided]
      · rw [(h.record_eq hr hr').2.2.2.1, hround]
    | none =>
      obtain ⟨r₁, m, hr₁, -, hle, hlt⟩ := h.lost (Option.isSome_of_eq_some hr) hr' .refl
      obtain rfl := Option.some.inj (hr₁.symm.trans hr)
      have hpos := h.wf.round_pos hr
      exact absurd (hround ▸ hw) (hsettled r₁.round (by omega) (by omega) w)

/-- A round can be closed in both graphs or in none. -/
theorem Shadow.closable_iff (h : Shadow registry g g')
    (hundecided : ∀ w : EventHash, g'.undecidedWitnesses[w]? = g.undecidedWitnesses[w]?) (n : ℕ) :
    g'.Closable n ↔ g.Closable n := by
  have hsettled : g'.Settled n ↔ g.Settled n :=
    forall_congr' fun w => by rw [hundecided]
  refine and_congr_right fun hpos => and_congr hsettled ?_
  rw [h.fixed.viewComplete_iff (by omega), h.fixed'.viewComplete_iff (by omega)]
  refine forall₂_congr fun c _ => ?_
  constructor
  · rintro ⟨z, rz', hz, hrz', hlt⟩
    obtain ⟨rz, hrz, -⟩ := h.record hrz'
    exact ⟨z, rz, h.latest c ▸ hz, hrz, by rwa [← (h.record_eq hrz hrz').2.2.2.1]⟩
  · rintro ⟨z, rz, hz, hrz, hlt⟩
    have hz' : g'.latestEventBy c = some z := (h.latest c).trans hz
    obtain ⟨rz', hrz', -⟩ := h.wf'.latest hz'
    exact ⟨z, rz', hz', hrz', by rwa [(h.record_eq hrz hrz').2.2.2.1]⟩

/-- Voting decides a round in one graph if it does in the other, with the same elections. -/
theorem Votes.decided_of (hv : Votes g t) (hv' : Votes g' t')
    (hbefore : ∀ w : EventHash, g'.undecidedWitnesses[w]? = g.undecidedWitnesses[w]?)
    (hafter : ∀ w : EventHash, t'.undecidedWitnesses[w]? = t.undecidedWitnesses[w]?)
    (hclosable : ∀ n, t'.Closable n ↔ t.Closable n)
    (hdecided : ∀ n, g'.isRoundDecided n = g.isRoundDecided n)
    (hn : t.isRoundDecided n = true) : t'.isRoundDecided n = true := by
  rcases hv.cause hn with hold | ⟨w, hw, hends⟩
  · exact hv'.decided_kept (hdecided n ▸ hold)
  · rcases hv.closed hn with hold | hclose
    · exact hv'.decided_kept (hdecided n ▸ hold)
    · exact hv'.timely ((hbefore w).trans hw) ((hafter w).trans hends) ((hclosable n).mpr hclose)

/-- The next round to order is the first that is not decided. -/
theorem Advances.next_le_of_decided (hadv : Advances g t) (hadv' : Advances g' t')
    (hopen : g.isRoundDecided g.nextRoundToOrder = false)
    (hnext : g'.nextRoundToOrder = g.nextRoundToOrder)
    (hdecided : ∀ n, t'.isRoundDecided n = t.isRoundDecided n) :
    t'.nextRoundToOrder ≤ t.nextRoundToOrder := by
  by_contra hlt
  have hle := hadv.next_le
  have hpassed := hadv'.ordered_decided t.nextRoundToOrder (by omega) (by omega)
  rw [hdecided, hadv.next_open hopen] at hpassed
  cases hpassed

theorem Noted.isRoundDecided_iff {m : ℕ} (h : Noted g m g') :
    g'.isRoundDecided n = true ↔ g.isRoundDecided n = true ∨ n = m ∧ g.Closable m := by
  rcases h with ⟨hclosable, horders, -⟩ | ⟨hclosable, rfl⟩
  · rw [isRoundDecided, horders.decided_eq, ← isRoundDecided, isRoundDecided_close, or_comm,
      and_iff_left hclosable]
  · rw [or_iff_left fun hn => hclosable hn.2]

theorem Twin.settledBelow (h : Twin registry g g') (n : ℕ) (hpos : 1 ≤ n)
    (hlt : n < g.nextRoundToOrder) : g.Settled n :=
  h.settled n (h.below hpos hlt)

theorem Twin.undecidedWitnesses_eq (h : Twin registry g g') (w : EventHash) :
    g'.undecidedWitnesses[w]? = g.undecidedWitnesses[w]? :=
  h.toShadow.undecidedWitnesses_eq h.exact h.exact' h.settledBelow h.fame w

theorem Twin.settled' (h : Twin registry g g') : g'.DecidedSettled := by
  intro n hn w
  rw [h.undecidedWitnesses_eq]
  exact h.settled n (h.decided n ▸ hn) w

theorem Twin.undecided' (h : Twin registry g g') :
    g'.isRoundDecided g'.nextRoundToOrder = false := by
  rw [h.decided, h.next, h.undecided]

/-- A candidate without a decision is of a round still to be ordered. -/
theorem Twin.next_le_of_undecided (h : Twin registry g g')
    (hw : g.fameOf w = some .undecided) : g.nextRoundToOrder ≤ g.roundOf w := by
  obtain ⟨r, hr, -⟩ := exists_witness_of_fameOf hw
  rw [roundOf_eq hr]
  by_contra hlt
  have hpos := h.wf.round_pos hr
  exact h.settledBelow r.round (by omega) (by omega) w ((h.exact w r.round).mpr ⟨hw, r, hr, rfl⟩)

/-- What a round that is ordered now assigns to a pending event. -/
theorem Twin.assignment_eq (h : Twin registry g g') (hadv : Advances g t) (hadv' : Advances g' t')
    (hfame : ∀ {w}, (t'.get? w).isSome → t'.fameOf w = t.fameOf w)
    (hx : (g'.get? x).isSome) (hnone : g.roundReceived x = none) (hn : g.nextRoundToOrder ≤ n) :
    t'.assignment n x = t.assignment n x := by
  have hwitnesses : t'.witnessesOfRound n = t.witnessesOfRound n := by
    rw [witnessesOfRound_of_skeleton_eq hadv.skeleton_eq,
      witnessesOfRound_of_skeleton_eq hadv'.skeleton_eq, h.witnesses_eq hn]
  have hshadow := h.toShadow.advance hadv hadv'
  have hstored {w : EventHash} (hw : w ∈ t'.witnessesOfRound n) : (t'.get? w).isSome := by
    obtain ⟨r, hr, -⟩ := hshadow.wf'.witness_sound hw
    exact Option.isSome_of_eq_some hr
  have hfamous : t'.famousWitnessesOfRound n = t.famousWitnessesOfRound n := by
    unfold famousWitnessesOfRound
    rw [← hwitnesses]
    refine List.filter_congr fun w hw => ?_
    obtain ⟨r, hr⟩ := Option.isSome_iff_exists.mp (hshadow.isSome_left (hstored hw))
    rw [hfame (hstored hw), hshadow.canonical (hstored hw),
      hshadow.whole.isCanonical hr (hshadow.whole.not_forkedBy hshadow.clean _)]
  unfold assignment
  rw [hfamous, ← orderTimestamp_skeleton t, ← orderTimestamp_skeleton t', hadv.skeleton_eq,
    hadv'.skeleton_eq, orderTimestamp_skeleton, orderTimestamp_skeleton,
    h.orderTimestamp_eq (h.kept_of_pending hnone) (h.isSome_left hx) fun w hw => ?_]
  rw [← hfamous] at hw
  have hw' := hstored (List.mem_filter.mp hw).1
  rwa [isSome_get?_of_skeleton_eq hadv'.skeleton_eq] at hw'

/-- Voting and ordering keep the twins, if they end with the same elections and the same decided
rounds. -/
theorem Twin.advance (h : Twin registry g g') (hadv : Advances g t) (hadv' : Advances g' t')
    (hfame : ∀ {w}, (t'.get? w).isSome → t'.fameOf w = t.fameOf w)
    (hvotes : ∀ {y w}, (t'.get? y).isSome → t'.recordedVote y w = t.recordedVote y w)
    (hdecided : ∀ n, t'.isRoundDecided n = t.isRoundDecided n) : Twin registry t t' := by
  have hnext : t'.nextRoundToOrder = t.nextRoundToOrder :=
    Nat.le_antisymm (hadv.next_le_of_decided hadv' h.undecided h.next hdecided)
      (hadv'.next_le_of_decided hadv h.undecided' h.next.symm fun n => (hdecided n).symm)
  refine { h.toShadow.advance hadv hadv' with
    exact := hadv.undecided_exact h.exact
    exact' := hadv'.undecided_exact h.exact'
    settled := hadv.decidedSettled h.settled
    below := fun {n} hpos hlt => ?_
    undecided := hadv.next_open h.undecided
    fame := hfame
    votes := hvotes
    order := fun {x} hx => ?_
    decided := hdecided
    next := hnext }
  · by_cases hold : n < g.nextRoundToOrder
    · exact hadv.decided_kept (h.below hpos hold)
    · exact hadv.ordered_decided n (by omega) hlt
  · rw [isSome_get?_of_skeleton_eq hadv'.skeleton_eq] at hx
    rw [hadv'.order_eq h.wf' h.exact' h.settled' x hx,
      hadv.order_eq h.wf h.exact h.settled x (h.isSome_left hx), h.order hx, h.next, hnext]
    cases hold : g.roundReceived x with
    | some n =>
      have hsome : (g.orderOf x).1.isSome := Option.isSome_of_eq_some hold
      rw [stamp, stamp, if_pos hsome, if_pos hsome]
    | none =>
      rw [firstAssignment_congr fun n hn _ => h.assignment_eq hadv hadv' hfame hx hold hn]

end Advance

/-! ## One insertion -/

section Insert

variable {registry : MembershipRegistry} {g g' t t' : Hashgraph} {hash w : EventHash}
  {event : Event} {i n : ℕ}

theorem polled_of_decided {y : EventHash} (hwy : w ≠ y) (hw : g.fameOf w ≠ some .undecided) :
    g.polled y w = g.ballot w := by
  rw [polled, if_neg hwy, if_neg fun hvotes => hw hvotes.1]

/-- The ballots after an insertion into both graphs. -/
theorem Twin.ballots_insert (h : Twin registry g g') (hn : Newcomer g g' hash event i)
    (hins : g.Inserted hash event i t) (hins' : g'.Inserted hash event i t') :
    (∀ {w}, (t'.get? w).isSome → t'.fameOf w = t.fameOf w) ∧
      ∀ {y w}, (t'.get? y).isSome → t'.recordedVote y w = t.recordedVote y w := by
  have hp := h.placed hn
  have hstored (x : EventHash) : (t'.get? x).isSome = ((g'.placed hash event i).get? x).isSome :=
    isSome_get?_of_skeleton_eq hins'.advances.skeleton_eq x
  have henters : g'.entersAsWitness hash event i = g.entersAsWitness hash event i := by
    rw [entersAsWitness, entersAsWitness, hn.bumps_eq h, h.newWitness_eq hn.right.parents]
  have hhash : ((g'.placed hash event i).get? hash).isSome := by
    rw [Hashgraph.placed, get?_place_self]
    rfl
  have hround : (g.placed hash event i).nextRoundToOrder ≤ (g.placed hash event i).roundOf hash := by
    rw [Hashgraph.placed, nextRoundToOrder_place, roundOf_place, if_pos rfl]
    exact (hn.next_le_newBase h).trans (newBase_le_newRound g event _)
  have hballot {w : EventHash} (hw : ((g'.placed hash event i).get? w).isSome) :
      Alike (g'.placed hash event i) (t.ballot w) (t'.ballot w) := by
    rw [hins.ballot_eq, hins'.ballot_eq, henters]
    split
    · exact hp.alike_polled hw hhash hp.alike hp.next_le_of_undecided hround
    · exact hp.alike hw
  refine ⟨fun {w} hw => (hballot (hstored w ▸ hw)).fame, fun {y w} hy => ?_⟩
  rw [hstored] at hy
  by_cases hw : ((g'.placed hash event i).get? w).isSome
  · exact (hballot hw).votes hy
  · -- Nobody votes on a missing candidate any more.
    have hwhash : w ≠ hash := fun heq => hw (heq ▸ hhash)
    have hfame' : (g'.placed hash event i).fameOf w ≠ some .undecided := by
      intro hfame
      obtain ⟨r, hr, -⟩ := exists_witness_of_fameOf hfame
      exact hw (Option.isSome_of_eq_some hr)
    have hfame : (g.placed hash event i).fameOf w ≠ some .undecided := by
      intro hfame
      obtain ⟨r, hr, -⟩ := exists_witness_of_fameOf hfame
      refine hw ((hp.kept_of_round hr ?_).isSome (Option.isSome_of_eq_some hr))
      rw [← roundOf_eq hr]
      exact hp.next_le_of_undecided hfame
    have hkept : t.ballot w = (g.placed hash event i).ballot w := by
      rw [hins.ballot_eq, polled_of_decided hwhash hfame, ite_self]
    have hkept' : t'.ballot w = (g'.placed hash event i).ballot w := by
      rw [hins'.ballot_eq, polled_of_decided hwhash hfame', ite_self]
    have hvote : (t'.ballot w).votes y = (t.ballot w).votes y := by
      rw [hkept, hkept']
      exact hp.votes hy
    exact hvote

/-- An insertion into both graphs decides the same rounds. -/
theorem Twin.decided_insert (h : Twin registry g g') (hn : Newcomer g g' hash event i)
    (hins : g.Inserted hash event i t) (hins' : g'.Inserted hash event i t') (n : ℕ) :
    t'.isRoundDecided n = t.isRoundDecided n := by
  have hp := h.placed hn
  obtain ⟨hfame, -⟩ := h.ballots_insert hn hins hins'
  obtain ⟨voted, hv, -, hnoted⟩ := hins
  obtain ⟨voted', hv', -, hnoted'⟩ := hins'
  have hfame' {w : EventHash} (hw : (voted'.get? w).isSome) : voted'.fameOf w = voted.fameOf w := by
    rw [← fameOf_eq_of_unordered_eq hnoted.unordered_eq,
      ← fameOf_eq_of_unordered_eq hnoted'.unordered_eq]
    refine hfame ?_
    rwa [isSome_get?_of_skeleton_eq (skeleton_eq_of_unordered_eq hnoted'.unordered_eq)]
  have hbelow (m : ℕ) (hpos : 1 ≤ m) (hlt : m < voted.nextRoundToOrder) : voted.Settled m := by
    refine hv.decidedSettled hp.settled m ?_
    by_cases hold : m < (g.placed hash event i).nextRoundToOrder
    · exact hv.decided_kept (hp.below hpos hold)
    · exact hv.ordered_decided m (by omega) hlt
  have hshadow := hp.toShadow.advance hv.toAdvances hv'.toAdvances
  have hafter := hshadow.undecidedWitnesses_eq (hv.undecided_exact hp.exact)
    (hv'.undecided_exact hp.exact') hbelow hfame'
  have hclosable := hshadow.closable_iff hafter
  have hvoted (m : ℕ) : voted'.isRoundDecided m = voted.isRoundDecided m := by
    rw [Bool.eq_iff_iff]
    exact ⟨hv'.decided_of hv (fun w => (hp.undecidedWitnesses_eq w).symm)
        (fun w => (hafter w).symm) (fun m => (hclosable m).symm) fun m => (hp.decided m).symm,
      hv.decided_of hv' hp.undecidedWitnesses_eq hafter hclosable hp.decided⟩
  have hnext : voted'.nextRoundToOrder = voted.nextRoundToOrder :=
    Nat.le_antisymm (hv.toAdvances.next_le_of_decided hv'.toAdvances hp.undecided hp.next hvoted)
      (hv'.toAdvances.next_le_of_decided hv.toAdvances hp.undecided' hp.next.symm
        fun m => (hvoted m).symm)
  rw [Bool.eq_iff_iff, hnoted.isRoundDecided_iff, hnoted'.isRoundDecided_iff, hvoted, hnext,
    hclosable]

/-- An insertion into both graphs keeps them twins. -/
theorem Twin.insert (h : Twin registry g g') (hn : Newcomer g g' hash event i)
    (hins : g.Inserted hash event i t) (hins' : g'.Inserted hash event i t') :
    Twin registry t t' :=
  (h.placed hn).advance hins.advances hins'.advances (h.ballots_insert hn hins hins').1
    (h.ballots_insert hn hins hins').2 (h.decided_insert hn hins hins')

end Insert

/-! ## One prune -/

section Prune

variable {registry : MembershipRegistry} {g g' t' : Hashgraph} {x : EventHash} {threshold : ℕ}

/-- What a prune removes was received before its threshold. -/
theorem received_of_mem_prunedEvents (hx : x ∈ (g.prunedEvents threshold).toFinset) :
    ∃ n < threshold, g.roundReceived x = some n := by
  rw [List.mem_toFinset, mem_prunedEvents] at hx
  obtain ⟨⟨r, hr, hexpired⟩, -⟩ := hx
  rw [expired, Option.any_eq_true] at hexpired
  obtain ⟨n, hn, hlt⟩ := hexpired
  exact ⟨n, of_decide_eq_true hlt, by rw [roundReceived, hr, Option.bind_some, hn]⟩

/-- Pruning the one graph keeps the twins: whatever a removed event has as an ancestor was received
before it, or with it. -/
theorem Twin.prune (h : Twin registry g g') (hordered : g.Ordered) (hmark : g.Watermarked)
    (hripe : g'.Ripe registry) (hfix : FixedRegistry registry t')
    (hpruned : Pruned g' t' threshold (g'.prunedEvents threshold).toFinset) :
    Twin registry g t' := by
  have hstored (x : EventHash) : (t'.get? x).isSome ↔
      (g'.get? x).isSome ∧ x ∉ (g'.prunedEvents threshold).toFinset := by
    by_cases hx : x ∈ (g'.prunedEvents threshold).toFinset
    · simp [hpruned.get?_gone hx, hx]
    · simp [hpruned.get?_eq hx, hx]
  have hget {x : EventHash} (hx : (t'.get? x).isSome) :
      (g'.get? x).isSome ∧ t'.get? x = g'.get? x :=
    ⟨((hstored x).mp hx).1, hpruned.get?_eq ((hstored x).mp hx).2⟩
  exact {
    whole := h.whole
    wf := h.wf
    wf' := hpruned.wellFormed h.wf'
    clean := h.clean
    clean' := fun i => by
      rw [flagged, hpruned.knownForkers_eq]
      exact h.clean' i
    fixed := h.fixed
    fixed' := hfix
    record := fun hx => h.record (hpruned.get?_iff.mp hx).1
    lost := by
      intro z x hz hmissing hanc
      cases hz' : g'.get? z with
      | none => exact h.lost hz hz' hanc
      | some rz' =>
        have hgone : z ∈ (g'.prunedEvents threshold).toFinset := by
          by_contra hkept
          rw [hpruned.get?_eq hkept, hz'] at hmissing
          cases hmissing
        obtain ⟨n, -, hn⟩ := received_of_mem_prunedEvents hgone
        have hsame := h.order (Option.isSome_of_eq_some hz')
        rw [show g'.roundReceived z = g.roundReceived z from congrArg Prod.fst hsame] at hn
        obtain ⟨m, -, hm⟩ := hordered.received_of_anc h.whole hmark hn hanc
        obtain ⟨r, hr⟩ := Option.isSome_iff_exists.mp (h.whole.isSome_of_anc hz hanc)
        exact ⟨r, m, hr, hm, hordered.round_le h.wf h.whole hr hm, (hmark.received hm).2⟩
    slot := by
      intro c s x
      rw [hpruned.slot_iff, h.slot, hstored, and_assoc]
    latest := by
      intro c
      rw [← h.latest]
      cases hlatest : g'.latestEventBy c with
      | none => exact hpruned.latest_none hlatest
      | some z => exact hpruned.latest_kept hlatest (hripe.not_mem_pruned hlatest)
    canonical := by
      intro x hx
      obtain ⟨hold, hsame⟩ := hget hx
      have hcanonical := h.canonical hold
      rw [isCanonical, Option.any_eq_true] at hcanonical
      obtain ⟨r, hr, hchild⟩ := hcanonical
      rw [isCanonical, hsame, hr, Option.any_some,
        hpruned.child_kept (beq_iff_eq.mp hchild) ((hstored x).mp hx).2, beq_self_eq_true]
    witnesses := by
      intro n
      rw [hpruned.witnesses_eq, h.witnesses, List.filter_filter]
      refine List.filter_congr fun x _ => ?_
      cases hx : (t'.get? x).isSome with
      | false => rfl
      | true => rw [(hget hx).1, Bool.and_true]
    highest := hpruned.highest_eq.trans h.highest
    exact := h.exact
    exact' := hpruned.undecidedExact h.exact'
    settled := h.settled
    below := h.below
    undecided := h.undecided
    fame := by
      intro w hw
      rw [hpruned.fameOf_eq, if_neg ((hstored w).mp hw).2, h.fame (hget hw).1]
    votes := by
      intro y w hy
      rw [recordedVote, (hget hy).2]
      exact h.votes (hget hy).1
    order := by
      intro x hx
      rw [orderOf, roundReceived, consensusTimestamp, (hget hx).2]
      exact h.order (hget hx).1
    decided := fun n => by
      rw [isRoundDecided, hpruned.decided_eq]
      exact h.decided n
    next := hpruned.next_eq.trans h.next }

end Prune

end Hashgraph

end JKain
