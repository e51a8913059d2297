import JKain.Consensus.Order
import JKain.Consensus.Skeleton

/-!
# Well-formed graphs

What the indices, rows and witness lists of a graph owe each other for its queries to return. All
of it is about the skeleton, so that voting and ordering keep it, and what the ancestry queries need
is about the core. On stored events these queries then answer, except that one which asks for the
roster of a round may find no snapshot: `E` names the faults a statement tolerates.
-/

namespace JKain

open Std JKain.Lib

namespace Hashgraph

/-- The consistency of the rows and the indices. -/
structure Consistent (g : Hashgraph) : Prop where
  member : ∀ {x r}, g.get? x = some r → ∃ i, g.memberIndexOf r.event.creator = some i
  index_lt : ∀ {node i}, g.memberIndexOf node = some i → i < g.memberCount
  forkers_length : g.knownForkers.length = g.memberCount
  row_length : ∀ {x r}, g.get? x = some r → r.ancestorSeqs.length = g.memberCount
  own_slot : ∀ {x r i}, g.get? x = some r → g.memberIndexOf r.event.creator = some i →
    r.ancestorSeqs[i]? = some r.seq
  seq_pos : ∀ {x r}, g.get? x = some r → 0 < r.seq
  self_parent : ∀ {x r p rp}, g.get? x = some r → r.event.selfParent = some p →
    g.get? p = some rp → rp.seq + 1 = r.seq ∧ rp.event.creator = r.event.creator
  indexed : ∀ {c s x}, g.eventForCreatorSeq c s = some x → g.IsEventAt c s x
  latest : ∀ {c x}, g.latestEventBy c = some x → ∃ r, g.get? x = some r ∧ r.event.creator = c

/-- The well-formedness of a skeleton: the witness lists hold the stored witnesses. -/
structure WellFormed (g : Hashgraph) : Prop extends g.Consistent where
  round_pos : ∀ {x r}, g.get? x = some r → 0 < r.round
  witness_sound : ∀ {n x}, x ∈ g.witnessesOfRound n →
    ∃ r, g.get? x = some r ∧ r.round = n ∧ r.isWitness = true
  witness_complete : ∀ {x r}, g.get? x = some r → r.isWitness = true →
    x ∈ g.witnessesOfRound r.round
  witness_nodup : ∀ n, (g.witnessesOfRound n).Nodup
  witness_le : ∀ {x r}, g.get? x = some r → r.isWitness = true → r.round ≤ g.highestWitnessRound

/-! ## Graphs with one core or one skeleton -/

section SkeletonEq

variable {g g' : Hashgraph} {x : EventHash} {r r' : EventRecord}

theorem get?_of_core_eq (h : g'.core = g.core) (hx : g'.get? x = some r') :
    ∃ r, g.get? x = some r ∧ r.core = r'.core := by
  have hcore : (g.get? x).map EventRecord.core = some r'.core := by
    rw [← get?_core, ← h, get?_core, hx]
    rfl
  rwa [Option.map_eq_some_iff] at hcore

theorem get?_of_skeleton_eq (h : g'.skeleton = g.skeleton) (hx : g'.get? x = some r') :
    ∃ r, g.get? x = some r ∧ r.bare = r'.bare := by
  have hbare : (g.get? x).map EventRecord.bare = some r'.bare := by
    rw [← get?_skeleton, ← h, get?_skeleton, hx]
    rfl
  rwa [Option.map_eq_some_iff] at hbare

theorem core_eq_of_skeleton_eq (h : g'.skeleton = g.skeleton) : g'.core = g.core := by
  rw [← core_skeleton, h, core_skeleton]

theorem parentsOf_of_core_eq (h : g'.core = g.core) (x : EventHash) :
    g'.parentsOf x = g.parentsOf x := by
  have hparents (t : Hashgraph) : t.parentsOf x = t.core.parentsOf x := by
    rw [parentsOf, parentsOf, get?_core]
    cases t.get? x <;> rfl
  rw [hparents, h, ← hparents]

theorem isEventAt_of_core_eq (h : g'.core = g.core) {c : NodeId} {s : ℕ}
    (hx : g.IsEventAt c s x) : g'.IsEventAt c s x := by
  obtain ⟨r, hr, hcreator, hseq⟩ := hx
  obtain ⟨r', hr', hcore⟩ := get?_of_core_eq h.symm hr
  have hevent : r'.event = r.event := (congrArg EventRecord.event hcore :)
  have hseq' : r'.seq = r.seq := (congrArg EventRecord.seq hcore :)
  exact ⟨r', hr', by rw [hevent, hcreator], by rw [hseq', hseq]⟩

theorem Consistent.of_core_eq (h : g'.core = g.core) (hg : g.Consistent) : g'.Consistent := by
  have hindex : g'.memberIndex = g.memberIndex := (congrArg memberIndex h :)
  have hcount : g'.memberCount = g.memberCount := (congrArg memberCount h :)
  have hforkers : g'.knownForkers = g.knownForkers := (congrArg knownForkers h :)
  have hseqs : g'.byCreatorSeq = g.byCreatorSeq := (congrArg byCreatorSeq h :)
  have hlatest : g'.latestByCreator = g.latestByCreator := (congrArg latestByCreator h :)
  have hmember (node : NodeId) : g'.memberIndexOf node = g.memberIndexOf node := by
    rw [memberIndexOf, hindex, memberIndexOf]
  refine ⟨?_, ?_, by rw [hforkers, hcount, hg.forkers_length], ?_, ?_, ?_, ?_, ?_, ?_⟩
  · intro x r' hx
    obtain ⟨r, hr, hcore⟩ := get?_of_core_eq h hx
    rw [hmember, ← show r.event = r'.event from (congrArg EventRecord.event hcore :)]
    exact hg.member hr
  · intro node i hi
    rw [hmember] at hi
    rw [hcount]
    exact hg.index_lt hi
  · intro x r' hx
    obtain ⟨r, hr, hcore⟩ := get?_of_core_eq h hx
    rw [hcount, ← show r.ancestorSeqs = r'.ancestorSeqs from
      (congrArg EventRecord.ancestorSeqs hcore :)]
    exact hg.row_length hr
  · intro x r' i hx hi
    obtain ⟨r, hr, hcore⟩ := get?_of_core_eq h hx
    rw [hmember, ← show r.event = r'.event from (congrArg EventRecord.event hcore :)] at hi
    rw [← show r.ancestorSeqs = r'.ancestorSeqs from (congrArg EventRecord.ancestorSeqs hcore :),
      ← show r.seq = r'.seq from (congrArg EventRecord.seq hcore :)]
    exact hg.own_slot hr hi
  · intro x r' hx
    obtain ⟨r, hr, hcore⟩ := get?_of_core_eq h hx
    rw [← show r.seq = r'.seq from (congrArg EventRecord.seq hcore :)]
    exact hg.seq_pos hr
  · intro x r' p rp' hx hself hp
    obtain ⟨r, hr, hcore⟩ := get?_of_core_eq h hx
    obtain ⟨rp, hrp, hpcore⟩ := get?_of_core_eq h hp
    rw [← show r.event = r'.event from (congrArg EventRecord.event hcore :)] at hself ⊢
    rw [← show r.seq = r'.seq from (congrArg EventRecord.seq hcore :),
      ← show rp.seq = rp'.seq from (congrArg EventRecord.seq hpcore :),
      ← show rp.event = rp'.event from (congrArg EventRecord.event hpcore :)]
    exact hg.self_parent hr hself hrp
  · intro c s x hx
    rw [eventForCreatorSeq, hseqs] at hx
    exact isEventAt_of_core_eq h (hg.indexed hx)
  · intro c x hx
    rw [latestEventBy, hlatest] at hx
    obtain ⟨r, hr, hcreator⟩ := hg.latest hx
    obtain ⟨r', hr', hcore⟩ := get?_of_core_eq h.symm hr
    exact ⟨r', hr', ((congrArg EventRecord.event hcore :) : r'.event = r.event) ▸ hcreator⟩

theorem WellFormed.of_skeleton_eq (h : g'.skeleton = g.skeleton) (hg : g.WellFormed) :
    g'.WellFormed := by
  have hwitnesses (n : ℕ) : g'.witnessesOfRound n = g.witnessesOfRound n := by
    rw [← witnessesOfRound_skeleton, h, witnessesOfRound_skeleton]
  have hhighest : g'.highestWitnessRound = g.highestWitnessRound :=
    (congrArg highestWitnessRound h :)
  refine ⟨hg.toConsistent.of_core_eq (core_eq_of_skeleton_eq h), ?_, ?_, ?_, ?_, ?_⟩
  · intro x r' hx
    obtain ⟨r, hr, hbare⟩ := get?_of_skeleton_eq h hx
    rw [← show r.round = r'.round from (congrArg EventRecord.round hbare :)]
    exact hg.round_pos hr
  · intro n x hx
    rw [hwitnesses] at hx
    obtain ⟨r, hr, hround, hwit⟩ := hg.witness_sound hx
    obtain ⟨r', hr', hbare⟩ := get?_of_skeleton_eq h.symm hr
    exact ⟨r', hr', ((congrArg EventRecord.round hbare :) : r'.round = r.round).trans hround,
      ((congrArg EventRecord.isWitness hbare :) : r'.isWitness = r.isWitness).trans hwit⟩
  · intro x r' hx hwit
    obtain ⟨r, hr, hbare⟩ := get?_of_skeleton_eq h hx
    rw [← show r.isWitness = r'.isWitness from (congrArg EventRecord.isWitness hbare :)] at hwit
    rw [hwitnesses, ← show r.round = r'.round from (congrArg EventRecord.round hbare :)]
    exact hg.witness_complete hr hwit
  · intro n
    rw [hwitnesses]
    exact hg.witness_nodup n
  · intro x r' hx hwit
    obtain ⟨r, hr, hbare⟩ := get?_of_skeleton_eq h hx
    rw [← show r.isWitness = r'.isWitness from (congrArg EventRecord.isWitness hbare :)] at hwit
    rw [hhighest, ← show r.round = r'.round from (congrArg EventRecord.round hbare :)]
    exact hg.witness_le hr hwit

end SkeletonEq

/-! ## The ancestry queries answer -/

/-- `see`, without its faults. -/
def sees (g : Hashgraph) (x y : EventHash) : Bool := truth (g.see x y)

/-- `strongly_see_at`, without its faults. -/
def stronglySeesAt (g : Hashgraph) (x y : EventHash) (round : ℕ) : Bool :=
  truth (g.stronglySeeAt x y round)

/-- The row entry of a member, 0 past the end of the row. -/
def EventRecord.slot (r : EventRecord) (i : ℕ) : ℕ := r.ancestorSeqs[i]?.getD 0

/-- Whether the member is a known forker. -/
def flagged (g : Hashgraph) (i : ℕ) : Bool := g.knownForkers[i]?.getD false

/-- Asking for the roster of the round is tolerated. -/
def Covers (E : Fault → Prop) (g : Hashgraph) (round : ℕ) : Prop := Safe E (g.rosterForRound round)

namespace Consistent

variable {g : Hashgraph} {x y : EventHash} {r ry : EventRecord} {i : ℕ} {E : Fault → Prop}

theorem ancestorSeq_eq (hwf : g.Consistent) (hx : g.get? x = some r) (hi : i < g.memberCount) :
    r.ancestorSeq i = .ok (EventRecord.slot r i) := by
  rw [← hwf.row_length hx] at hi
  unfold EventRecord.ancestorSeq EventRecord.slot
  rw [List.getElem?_eq_getElem hi]
  rfl

theorem creatorHasKnownFork_eq (hwf : g.Consistent) (hi : i < g.memberCount) :
    g.creatorHasKnownFork i = .ok (g.flagged i) := by
  rw [← hwf.forkers_length] at hi
  unfold creatorHasKnownFork flagged
  rw [List.getElem?_eq_getElem hi]
  rfl

theorem getOrUnknown_eq (hx : g.get? x = some r) : g.getOrUnknown x = .ok r := by
  rw [getOrUnknown, hx]
  rfl

theorem isAncestor_safe (hwf : g.Consistent) (hx : g.get? x = some r) (hy : g.get? y = some ry) :
    Safe E (g.isAncestor x y) := by
  obtain ⟨i, hi⟩ := hwf.member hy
  unfold isAncestor
  by_cases hxy : x = y
  · rw [if_pos hxy]
    exact .ok _
  · rw [if_neg hxy, getOrUnknown_eq hx, getOrUnknown_eq hy]
    simp only [bind, Except.bind, hi, okOr, hwf.ancestorSeq_eq hx (hwf.index_lt hi),
      hwf.creatorHasKnownFork_eq (hwf.index_lt hi)]
    split
    · exact .ok _
    · split
      · obtain ⟨b, hb, -⟩ := g.ancestryContainsEvent_eq x y
        exact .of_eq hb
      · exact .ok _

theorem see_safe (hwf : g.Consistent) (hx : g.get? x = some r) (hy : g.get? y = some ry) :
    Safe E (g.see x y) := by
  obtain ⟨i, hi⟩ := hwf.member hy
  unfold see
  refine (hwf.isAncestor_safe hx hy).bind fun ancestor _ => ?_
  cases ancestor with
  | false => exact .ok _
  | true =>
    rw [if_pos rfl, getOrUnknown_eq hy]
    simp only [bind, Except.bind, hi, okOr, hwf.creatorHasKnownFork_eq (hwf.index_lt hi)]
    split
    · obtain ⟨b, hb, -⟩ := g.ancestryContainsForkOf_eq x ry.event.creator
      rw [hb]
      exact .ok _
    · exact .ok _

theorem see_eq (hwf : g.Consistent) (hx : g.get? x = some r) (hy : g.get? y = some ry) :
    g.see x y = .ok (g.sees x y) :=
  (hwf.see_safe hx hy).returns.eq_ok

theorem unwrapOrFalse_see_eq (hwf : g.Consistent) (hx : g.get? x = some r)
    (hy : g.get? y = some ry) : unwrapOrFalse (g.see x y) = .ok (g.sees x y) := by
  rw [hwf.see_eq hx hy]
  rfl

/-- A walk down the self-parents ends within the number of its start. -/
theorem chainReaches_safe (hwf : g.Consistent) (hy : g.get? y = some ry) {fuel : ℕ}
    (hx : g.get? x = some r) (hfuel : r.seq < fuel) : Safe E (g.chainReaches y fuel x) := by
  induction fuel generalizing x r with
  | zero => omega
  | succ fuel ih =>
    unfold chainReaches
    refine (hwf.see_safe hx hy).bind fun seen _ => ?_
    cases seen with
    | true => exact .ok _
    | false =>
      rw [hx]
      cases hself : r.event.selfParent with
      | none => simpa [hself] using Safe.pure false
      | some p =>
        cases hp : g.get? p with
        | none => simpa [hself, hp] using Safe.pure false
        | some rp =>
          have hseq := (hwf.self_parent hx hself hp).1
          simpa [hself, hp] using ih hp (by omega)

theorem creatorChainEvent_cases (hwf : g.Consistent) (hi : i < g.memberCount) (c : NodeId)
    (s : ℕ) :
    ∃ z, g.creatorChainEvent x c i s = .ok z ∧ ∀ h, z = some h → g.IsEventAt c s h := by
  unfold creatorChainEvent
  rw [hwf.creatorHasKnownFork_eq hi]
  cases g.flagged i with
  | true =>
    obtain ⟨z, hz, hfound, -⟩ := g.ancestorEventForCreator_eq x c s
    exact ⟨z, hz, fun h hh => (hfound h hh).2⟩
  | false => exact ⟨_, rfl, fun h hh => hwf.indexed hh⟩

theorem memberChainReaches_eq (x y : EventHash) (c : NodeId) (i s : ℕ) :
    g.memberChainReaches x c i s y = (do
      let current ← g.creatorChainEvent x c i s
      match current with
      | none => return false
      | some hash => g.chainReaches y (s + 1) hash) := by
  unfold memberChainReaches creatorChainEvent
  cases g.creatorHasKnownFork i with
  | error e => rfl
  | ok forked => cases forked <;> rfl

theorem memberCounts_safe (hwf : g.Consistent) (hx : g.get? x = some r)
    (hy : g.get? y = some ry) {member : NodeId × ℕ} (hi : member.2 < g.memberCount) :
    Safe E (g.memberCounts x y r member) := by
  unfold memberCounts
  rw [hwf.ancestorSeq_eq hx hi]
  simp only [bind, Except.bind]
  split
  · exact .ok _
  · rw [memberChainReaches_eq]
    obtain ⟨z, hz, hat⟩ := hwf.creatorChainEvent_cases (x := x) hi member.1
      (EventRecord.slot r member.2)
    rw [hz]
    cases z with
    | none => exact .ok _
    | some h =>
      obtain ⟨rh, hh, -, hseq⟩ := hat h rfl
      exact hwf.chainReaches_safe hy hh (by omega)

theorem memberIndex_lt (hwf : g.Consistent) {member : NodeId × ℕ}
    (h : member ∈ g.memberIndex.toList) : member.2 < g.memberCount :=
  hwf.index_lt
    (ExtTreeMap.mem_toList_iff_getElem?_eq_some.mp h : g.memberIndex[member.1]? = some member.2)

theorem memberCountAtRound_safe {round : ℕ} (h : Covers E g round) :
    Safe E (g.memberCountAtRound round) :=
  h.bind fun _ _ => .ok _

theorem stronglySeeAt_safe (hwf : g.Consistent) (hx : g.get? x = some r)
    (hy : g.get? y = some ry) {round : ℕ} (hround : Covers E g round) :
    Safe E (g.stronglySeeAt x y round) := by
  unfold stronglySeeAt
  refine (hwf.see_safe hx hy).bind fun sees _ => ?_
  cases sees with
  | false => exact .ok _
  | true =>
    rw [if_pos rfl, getOrUnknown_eq hx]
    refine (Safe.ok r).bind fun _ hr => ?_
    cases hr
    refine (countM_safe fun member hmember => ?_).bind fun _ _ =>
      (memberCountAtRound_safe hround).bind fun _ _ => .ok _
    exact hwf.memberCounts_safe hx hy (hwf.memberIndex_lt hmember)

/-! ## Timestamps are found -/

theorem chainEventSees_safe (hwf : g.Consistent) (hy : g.get? y = some ry)
    (hi : i < g.memberCount) (c : NodeId) (s : ℕ) : Safe E (g.chainEventSees x y c i s) := by
  obtain ⟨z, hz, hat⟩ := hwf.creatorChainEvent_cases (x := x) hi c s
  unfold chainEventSees
  rw [hz]
  cases z with
  | none => exact .ok _
  | some h =>
    obtain ⟨rh, hh, -, -⟩ := hat h rfl
    exact .of_eq (hwf.unwrapOrFalse_see_eq hh hy)

/-- A number that passes the test of the search has its event. -/
theorem exists_event_of_chainEventSees (hwf : g.Consistent) (hi : i < g.memberCount) {c : NodeId}
    {s : ℕ} (h : truth (g.chainEventSees x y c i s) = true) :
    ∃ z rz, g.creatorChainEvent x c i s = .ok (some z) ∧ g.get? z = some rz := by
  obtain ⟨z, hz, hat⟩ := hwf.creatorChainEvent_cases (x := x) hi c s
  unfold chainEventSees at h
  rw [hz] at h
  cases z with
  | none => simp [bind, Except.bind, pure, Except.pure] at h
  | some e =>
    obtain ⟨re, he, -, -⟩ := hat e rfl
    exact ⟨e, re, hz, he⟩

/-- What one member contributes to the search: nothing, if it has no event below the witness or its
newest one does not see the target; otherwise the event at the number where the search ends. -/
theorem earliestSeeing_cons (hwf : g.Consistent) (hx : g.get? x = some r) (hy : g.get? y = some ry)
    {c : NodeId} (hi : i < g.memberCount) :
    ∃ first : Option (ℕ × EventHash),
      (∀ members earliest, g.earliestSeeing x y r ((c, i) :: members) earliest =
        g.earliestSeeing x y r members (first.elim earliest fun p =>
          if isEarlier p.1 p.2 earliest then some p else earliest)) ∧
      (first = none → EventRecord.slot r i = 0 ∨
        truth (g.chainEventSees x y c i (EventRecord.slot r i)) = false) ∧
      ∀ s z, first = some (s, z) → 1 ≤ s ∧ s ≤ EventRecord.slot r i ∧
        truth (g.chainEventSees x y c i s) = true ∧ g.creatorChainEvent x c i s = .ok (some z) ∧
        ((∀ j k, 1 ≤ j → j ≤ k → k < EventRecord.slot r i →
            truth (g.chainEventSees x y c i j) = true →
            truth (g.chainEventSees x y c i k) = true) →
          ∀ j, 1 ≤ j → j < s → truth (g.chainEventSees x y c i j) = false) := by
  have htest (s : ℕ) : g.chainEventSees x y c i s = .ok (truth (g.chainEventSees x y c i s)) :=
    (hwf.chainEventSees_safe hy hi c s).returns.eq_ok
  by_cases hzero : EventRecord.slot r i = 0
  · refine ⟨none, fun members earliest => ?_, fun _ => .inl hzero, by simp⟩
    simp only [earliestSeeing, hwf.ancestorSeq_eq hx hi, bind, Except.bind]
    rw [if_pos hzero]
    rfl
  · cases hlast : truth (g.chainEventSees x y c i (EventRecord.slot r i)) with
    | false =>
      refine ⟨none, fun members earliest => ?_, fun _ => .inr rfl, by simp⟩
      simp only [earliestSeeing, hwf.ancestorSeq_eq hx hi, bind, Except.bind]
      rw [if_neg hzero, htest, hlast]
      rfl
    | true =>
      obtain ⟨low, hlow, hge, hle, hpass, hleast⟩ :=
        lowerBoundM_returns (E := fun _ => False) (EventRecord.slot r i - 1)
          (fun s _ _ => .of_eq (htest s)) (show 1 ≤ EventRecord.slot r i by omega)
      have hlow_sees : truth (g.chainEventSees x y c i low) = true := by
        by_cases hlt : low < EventRecord.slot r i
        · exact hpass le_rfl hlt
        · rw [show low = EventRecord.slot r i by omega, hlast]
      obtain ⟨z, rz, hz, hrz⟩ := hwf.exists_event_of_chainEventSees hi hlow_sees
      refine ⟨some (low, z), fun members earliest => ?_, by simp, ?_⟩
      · simp only [earliestSeeing, hwf.ancestorSeq_eq hx hi, bind, Except.bind]
        rw [if_neg hzero, htest, hlast]
        simp only [if_true, hlow.eq_ok, hz]
        rfl
      · rintro s z ⟨⟩
        exact ⟨hge, hle, hlow_sees, hz, hleast⟩

/-- The search over the members ends with a stored event, if it started with one or a member's
newest event below the witness sees the target. -/
theorem earliestSeeing_eq (hwf : g.Consistent) (hx : g.get? x = some r) (hy : g.get? y = some ry)
    {members : List (NodeId × ℕ)} (hmembers : ∀ m ∈ members, m.2 < g.memberCount)
    (earliest : Option (ℕ × EventHash)) (hstored : ∀ p, earliest = some p → (g.get? p.2).isSome) :
    ∃ res, g.earliestSeeing x y r members earliest = .ok (some res) ∧
      (∀ p, res = some p → (g.get? p.2).isSome) ∧ (earliest.isSome → res.isSome) ∧
      ∀ m ∈ members, EventRecord.slot r m.2 ≠ 0 →
        truth (g.chainEventSees x y m.1 m.2 (EventRecord.slot r m.2)) = true → res.isSome := by
  induction members generalizing earliest with
  | nil => exact ⟨earliest, rfl, hstored, id, by simp⟩
  | cons m members ih =>
    obtain ⟨c, i⟩ := m
    have hi : i < g.memberCount := hmembers (c, i) (by simp)
    have hrest : ∀ m ∈ members, m.2 < g.memberCount := fun m hm => hmembers m (by simp [hm])
    obtain ⟨first, hcons, hnone, hsome⟩ := hwf.earliestSeeing_cons (c := c) hx hy hi
    rw [hcons]
    cases first with
    | none =>
      obtain ⟨res, hres, hres_stored, hkeep, hfound⟩ := ih hrest earliest hstored
      refine ⟨res, hres, hres_stored, hkeep, fun m hm hne hsees => ?_⟩
      rcases List.mem_cons.mp hm with rfl | hm
      · rcases hnone rfl with hzero | hblind
        · exact absurd hzero hne
        · rw [hblind] at hsees
          cases hsees
      · exact hfound m hm hne hsees
    | some p =>
      obtain ⟨-, -, hsees, hz, -⟩ := hsome p.1 p.2 rfl
      obtain ⟨z, rz, hz', hrz⟩ := hwf.exists_event_of_chainEventSees hi hsees
      obtain rfl : p.2 = z := Option.some.inj (Except.ok.inj (hz.symm.trans hz'))
      rw [Option.elim_some]
      obtain ⟨best, hbest, hbest_stored⟩ :
          ∃ best, (if isEarlier p.1 p.2 earliest then some p else earliest) = some best ∧
            (g.get? best.2).isSome := by
        by_cases hearlier : isEarlier p.1 p.2 earliest = true
        · exact ⟨p, by rw [if_pos hearlier], by simp [hrz]⟩
        · cases earliest with
          | none => exact absurd rfl hearlier
          | some best => exact ⟨best, by rw [if_neg hearlier], hstored best rfl⟩
      rw [hbest]
      obtain ⟨res, hres, hres_stored, hkeep, -⟩ := ih hrest (some best) (by
        rintro p ⟨⟩
        exact hbest_stored)
      have hsome : res.isSome := hkeep rfl
      exact ⟨res, hres, hres_stored, fun _ => hsome, fun _ _ _ _ => hsome⟩

end Consistent

/-- The stored events of the creators without a known fork are indexed by their numbers. -/
def Indexed (g : Hashgraph) : Prop :=
  ∀ x r i, g.get? x = some r → g.memberIndexOf r.event.creator = some i → g.flagged i = false →
    g.eventForCreatorSeq r.event.creator r.seq = some x

namespace Consistent

variable {g : Hashgraph} {x y : EventHash} {r ry : EventRecord} {i : ℕ} {E : Fault → Prop}

/-- The traversal for an event's own slot meets the event first. -/
theorem ancestorEventForCreator_self (hx : g.get? x = some r) :
    g.ancestorEventForCreator x r.event.creator r.seq = .ok (some x) := by
  have hexpand : g.expandForCreator r.event.creator r.seq () x = .error x := by
    simp [expandForCreator, hx]
  simp [ancestorEventForCreator, traversalFuel, bfs, hexpand]

theorem creatorChainEvent_self (hwf : g.Consistent) (hindexed : g.Indexed)
    (hx : g.get? x = some r) (hi : g.memberIndexOf r.event.creator = some i) :
    g.creatorChainEvent x r.event.creator i r.seq = .ok (some x) := by
  unfold creatorChainEvent
  rw [hwf.creatorHasKnownFork_eq (hwf.index_lt hi)]
  cases hflag : g.flagged i with
  | true => exact ancestorEventForCreator_self hx
  | false =>
    have hslot := hindexed x r i hx hi hflag
    simp [bind, Except.bind, pure, Except.pure, hslot]

theorem firstSeenTimestamp_safe (hwf : g.Consistent) (hy : g.get? y = some ry) :
    Safe E (g.firstSeenTimestamp x y) := by
  unfold firstSeenTimestamp
  cases hx : g.get? x with
  | none => exact .ok _
  | some r =>
    obtain ⟨res, hres, -⟩ := hwf.earliestSeeing_eq hx hy (fun m hm => hwf.memberIndex_lt hm)
      none (by simp)
    exact (Safe.of_eq hres).bind fun _ _ => .ok _

/-- A witness that sees an event finds the event's first-seen timestamp: its own slot does. -/
theorem firstSeenTimestamp_eq (hwf : g.Consistent) (hindexed : g.Indexed)
    (hx : g.get? x = some r) (hy : g.get? y = some ry) (hsees : g.sees x y = true) :
    ∃ t, g.firstSeenTimestamp x y = .ok (some t) := by
  obtain ⟨i, hi⟩ := hwf.member hx
  have hslot : EventRecord.slot r i = r.seq := by
    rw [EventRecord.slot, hwf.own_slot hx hi]
    rfl
  obtain ⟨res, hres, hstored, -, hfound⟩ := hwf.earliestSeeing_eq hx hy
    (fun m hm => hwf.memberIndex_lt hm) none (by simp)
  have hown : truth (g.chainEventSees x y r.event.creator i (EventRecord.slot r i)) = true := by
    rw [hslot, chainEventSees, hwf.creatorChainEvent_self hindexed hx hi]
    simp only [bind, Except.bind]
    rw [hwf.unwrapOrFalse_see_eq hx hy, hsees]
    rfl
  have hsome : res.isSome := hfound (r.event.creator, i)
    (ExtTreeMap.mem_toList_iff_getElem?_eq_some.mpr hi)
    (by rw [hslot]; exact (hwf.seq_pos hx).ne') hown
  obtain ⟨p, rfl⟩ := Option.isSome_iff_exists.mp hsome
  obtain ⟨rp, hrp⟩ := Option.isSome_iff_exists.mp (hstored p rfl)
  refine ⟨rp.event.timestamp, ?_⟩
  unfold firstSeenTimestamp
  simp [hx, hres, hrp, bind, Except.bind, pure, Except.pure]

end Consistent

end Hashgraph

end JKain
