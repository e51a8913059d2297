import JKain.Consensus.Place

/-!
# What an insertion does

An insertion that fails its checks leaves the graph alone. One that passes them places the event,
lets it vote if it is a witness, and retries the lowest round that is not ordered yet.
-/

namespace JKain

open Std JKain.Lib

namespace Hashgraph

/-- The graph with the new event placed, before it votes. -/
def placed (g : Hashgraph) (hash : EventHash) (event : Event) (i : ℕ) : Hashgraph :=
  g.place hash event i (g.bumps hash event i)

/-- Whether the new event is a witness. -/
def entersAsWitness (g : Hashgraph) (hash : EventHash) (event : Event) (i : ℕ) : Bool :=
  g.newWitness event (g.bumps hash event i)

/-- What an insertion that passes its checks makes of the graph. -/
def Inserted (g : Hashgraph) (hash : EventHash) (event : Event) (i : ℕ) (g' : Hashgraph) : Prop :=
  ∃ voted, Votes (g.placed hash event i) voted ∧
    (∀ w, voted.ballot w =
      if g.entersAsWitness hash event i then (g.placed hash event i).polled hash w
      else (g.placed hash event i).ballot w) ∧
    Noted voted voted.nextRoundToOrder g'

/-! ## Settling the round -/

section Round

variable {E : Fault → Prop} {g : Hashgraph} {hash : EventHash} {event : Event} {i : ℕ}

theorem setEventRound_withEvent (n m : ℕ) (b b' : Bool) :
    (g.withEvent hash event i (g.recordAt event i n b)).setEventRound hash m b' =
      g.withEvent hash event i (g.recordAt event i m b') := by
  have hevents : (g.events.insert hash (g.recordAt event i n b)).modify hash
      (fun record => { record with round := m, isWitness := b' }) =
      g.events.insert hash (g.recordAt event i m b') := by
    refine ExtTreeMap.ext_getElem? fun {k} => ?_
    simp only [ExtTreeMap.getElem?_modify, ExtTreeMap.getElem?_insert, ReflCmp.compare_self, if_true]
    by_cases hk : compare hash k = .eq
    · simp only [hk, if_true]
      rfl
    · simp only [hk, if_false]
  simp only [setEventRound, withEvent, hevents]

theorem bumpsRound_returns (hwf : g.WellFormed) (hc : g.Checked hash event i)
    (hfit : g.Fits hash event) (hcover : Covers E g (g.newBase event)) (n : ℕ) :
    Returns E ((g.withEvent hash event i (g.recordAt event i n false)).bumpsRound hash
      (g.newBase event)) (g.bumps hash event i) := by
  have hcore : (g.withEvent hash event i (g.recordAt event i n false)).core =
      (g.place hash event i false).core := (core_place n false).symm
  have hconsistent := hwf.toConsistent.withEvent hc hfit n false
  have hhash : (g.withEvent hash event i (g.recordAt event i n false)).get? hash =
      some (g.recordAt event i n false) := by
    rw [get?_withEvent, if_pos rfl]
  have hsees : ∀ w ∈ g.witnessesOfRound (g.newBase event),
      Returns E ((g.withEvent hash event i (g.recordAt event i n false)).stronglySeeAt hash w
        (g.newBase event))
        ((g.place hash event i false).stronglySeesAt hash w (g.newBase event)) := by
    intro w hw
    obtain ⟨r, hr, -, -⟩ := hwf.witness_sound hw
    have hw' : (g.withEvent hash event i (g.recordAt event i n false)).get? w = some r := by
      rw [get?_withEvent, if_neg (hc.ne hr), hr]
    have hsame : (g.place hash event i false).stronglySeeAt hash w (g.newBase event) =
        (g.withEvent hash event i (g.recordAt event i n false)).stronglySeeAt hash w
          (g.newBase event) := by
      rw [← stronglySeeAt_core, ← hcore, stronglySeeAt_core]
    rw [stronglySeesAt, hsame]
    exact (hconsistent.stronglySeeAt_safe hhash hw' hcover).returns
  unfold bumpsRound
  exact (countM_returns hsees).bind ((memberCountAtRound_returns hcover).bind (.of_eq rfl))

theorem finalizeRound_spec (hwf : g.WellFormed) (hc : g.Checked hash event i)
    (hfit : g.Fits hash event) (hcover : Covers E g (g.newBase event)) (n : ℕ) :
    Holds E (finalizeRound hash (g.newBase event) ((g.selfRecord event).map (·.round)))
      (g.withEvent hash event i (g.recordAt event i n false))
      fun _ g' => g' = g.placed hash event i := by
  unfold finalizeRound
  rw [Holds.bind_iff, Holds.get_iff, Holds.bind_iff]
  refine Holds.of_returns (bumpsRound_returns hwf hc hfit hcover n) ?_
  show Holds E (do
    modify fun t : Hashgraph => t.setEventRound hash (g.newRound event (g.bumps hash event i))
      (g.entersAsWitness hash event i)
    if g.entersAsWitness hash event i then
      modify fun t : Hashgraph => t.recordWitness (g.newRound event (g.bumps hash event i)) hash
    else return) _ _
  rw [Holds.bind_iff, Holds.modify_iff, setEventRound_withEvent, Holds.ite_iff]
  refine ⟨fun hwit => ?_, fun hwit => ?_⟩
  · rw [Holds.modify_iff]
    exact (if_pos hwit).symm
  · rw [Holds.pure_iff]
    exact (if_neg hwit).symm

end Round

/-! ## The insertion -/

/-- What an insertion needs to go through up to the faults of `E`: the invariants of the graph, the
rosters from `low` on, below which no election is open and no round is built, and an event that
suits the stored ones. -/
structure Ready (E : Fault → Prop) (low : ℕ) (g : Hashgraph) (hash : EventHash) (event : Event)
    (i : ℕ) : Prop extends Booth E low g where
  cast : g.VotesCast fun _ => False
  checked : g.Checked hash event i
  fits : g.Fits hash event
  slot : E (.panic .noFirstSeen) ∨ ((g.placed hash event i).flagged i = false →
    g.eventForCreatorSeq event.creator (g.newSeq event) = none)
  low_le_base : low ≤ g.newBase event
  low_le_next : low ≤ g.nextRoundToOrder
  low_le_undecided : ∀ w, g.fameOf w = some .undecided → low ≤ g.roundOf w

section Insertion

variable {E : Fault → Prop} {low : ℕ} {g g' : Hashgraph} {hash : EventHash} {event : Event} {i : ℕ}

theorem Ready.booth_placed (h : Ready E low g hash event i) :
    Booth E low (g.placed hash event i) where
  serves := ⟨h.serves.wf.place h.checked h.fits _, by
    rcases h.serves.median with hE | hindexed
    · exact .inl hE
    · rcases h.slot with hE | hslot
      · exact .inl hE
      · exact .inr (hindexed.place h.serves.wf.toConsistent h.checked _ hslot)⟩
  exact := h.exact.place h.checked _
  covers := fun n hn => by
    rw [Covers, rosterForRound, placed, rosterHistory_place]
    exact h.covers n hn

theorem Ready.low_le_roundOf (h : Ready E low g hash event i) {w : EventHash}
    (hw : (g.placed hash event i).fameOf w = some .undecided) :
    low ≤ (g.placed hash event i).roundOf w := by
  rw [placed, fameOf_place] at hw
  rw [placed, roundOf_place]
  by_cases hwh : w = hash
  · rw [if_pos hwh]
    exact h.low_le_base.trans (g.newBase_le_newRound event _)
  · rw [if_neg hwh] at hw ⊢
    exact h.low_le_undecided w hw

/-- The voting of an insertion. -/
theorem Ready.vote_spec (h : Ready E low g hash event i) (iter : IterOrder) :
    Holds E (voteIfWitness iter hash) (g.placed hash event i)
      fun _ g' => Votes (g.placed hash event i) g' ∧ ∀ w, g'.ballot w =
        if g.entersAsWitness hash event i then (g.placed hash event i).polled hash w
        else (g.placed hash event i).ballot w := by
  have hwitness : ((g.placed hash event i).get? hash).any (·.isWitness) =
      g.entersAsWitness hash event i := by
    rw [placed, get?_place_self]
    rfl
  unfold voteIfWitness
  rw [Holds.bind_iff, Holds.get_iff, hwitness, Holds.ite_iff]
  refine ⟨fun hwit => ?_, fun hwit => ?_⟩
  · have hfame : (g.placed hash event i).fameOf hash = some .undecided := by
      rw [placed, fameOf_place, if_pos rfl]
      exact if_pos hwit
    simp only [hwit, if_true]
    exact voteAsWitness_spec h.booth_placed (fun w hw => h.low_le_roundOf hw) hfame (h.cast.place _)
  · simp only [hwit]
    exact ⟨.refl _, fun _ => rfl⟩

/-- An insertion once the event is stored. -/
theorem Ready.settle_spec (h : Ready E low g hash event i) (iter : IterOrder) :
    Holds E (settleEvent iter hash (g.newBase event) ((g.selfRecord event).map (·.round)))
      (g.withEvent hash event i (g.recordAt event i (g.newBase event) false))
      fun result g' => result = hash ∧ g.Inserted hash event i g' := by
  unfold settleEvent
  rw [Holds.bind_iff]
  refine (finalizeRound_spec h.serves.wf h.checked h.fits (h.covers _ h.low_le_base) _).mono ?_
  rintro - _ rfl
  rw [Holds.bind_iff]
  refine (h.vote_spec iter).mono fun _ voted hvoted => ?_
  rw [Holds.bind_iff, Holds.get_iff, Holds.bind_iff]
  have hbooth := h.booth_placed.advance hvoted.1.toAdvances
  have hnext : low ≤ voted.nextRoundToOrder := by
    have hle := hvoted.1.next_le
    rw [placed, nextRoundToOrder_place] at hle
    exact h.low_le_next.trans hle
  exact (noteRoundDecidedIfComplete_spec hbooth.serves fun _ => hbooth.covers _ hnext).mono
    fun _ g' hnoted => ⟨rfl, voted, hvoted.1, hvoted.2, hnoted⟩

/-- `insert` on an event that passes the checks. -/
theorem insertHashed_spec (h : Ready E low g hash event i) (iter : IterOrder) :
    Holds E (insertHashed iter hash event) g fun result g' =>
      result = hash ∧ g.Inserted hash event i g' := by
  have hlt : i < g.knownForkers.length := by
    rw [h.serves.wf.forkers_length]
    exact h.serves.wf.index_lt h.checked.member
  have hcheck : g.checkEvent hash event = .ok (i, g.selfRecord event, g.otherRecord event) := by
    rcases g.checkEvent_cases hash event with ⟨j, hj, heq⟩ | ⟨hno, -⟩
    · rwa [Option.some.inj (h.checked.member.symm.trans hj.member)]
    · exact absurd h.checked (hno i)
  unfold insertHashed
  rw [Holds.bind_iff, Holds.get_iff, Holds.bind_iff, hcheck, Holds.fromExcept_ok]
  dsimp only
  have hseq : (g.selfRecord event).elim 1 (·.seq + 1) = g.newSeq event := rfl
  have hbase : baseRound ((g.selfRecord event).map (·.round)) ((g.otherRecord event).map (·.round)) =
    g.newBase event := rfl
  rw [hseq, hbase, Holds.bind_iff, h.serves.wf.ancestorRow_eq h.checked.member, Holds.fromExcept_ok,
    Holds.bind_iff, storeEvent_eq hlt, Holds.fromExcept_ok, Holds.bind_iff, Holds.modify_iff]
  exact h.settle_spec iter

/-- `insert` on an event that fails the checks. -/
theorem insertHashed_of_not_checked (hno : ∀ i, ¬g.Checked hash event i) (iter : IterOrder) :
    ∃ c, insertHashed iter hash event g = .error (.err c) g := by
  rcases g.checkEvent_cases hash event with ⟨i, hi, -⟩ | ⟨-, c, hc⟩
  · exact absurd hi (hno i)
  · refine ⟨c, ?_⟩
    rw [insertHashed, get_bind]
    simp [hc, fromExcept, bind, EStateM.bind]

/-! ## What an insertion keeps -/

theorem Noted.unordered_eq {n : ℕ} (h : Noted g n g') : g'.unordered = g.unordered := by
  rcases h with ⟨-, horders, -⟩ | ⟨-, rfl⟩
  · exact horders.unordered_eq
  · rfl

theorem Noted.advances {n : ℕ} (h : Noted g n g') : Advances g g' := by
  rcases h with ⟨hclosable, horders, hopen⟩ | ⟨-, rfl⟩
  · exact .of_close hclosable horders hopen
  · exact .refl _

namespace Inserted

theorem advances (h : g.Inserted hash event i g') : Advances (g.placed hash event i) g' := by
  obtain ⟨voted, hvotes, -, hnoted⟩ := h
  exact hvotes.toAdvances.trans hnoted.advances

theorem rosterHistory_eq (h : g.Inserted hash event i g') :
    g'.rosterHistory = g.rosterHistory :=
  (congrArg rosterHistory h.advances.skeleton_eq :).trans rosterHistory_place

theorem next_le (h : g.Inserted hash event i g') :
    g.nextRoundToOrder ≤ g'.nextRoundToOrder :=
  (nextRoundToOrder_place.symm.le).trans h.advances.next_le

theorem ballot_eq (h : g.Inserted hash event i g') (w : EventHash) :
    g'.ballot w = if g.entersAsWitness hash event i then (g.placed hash event i).polled hash w
      else (g.placed hash event i).ballot w := by
  obtain ⟨voted, -, hballot, hnoted⟩ := h
  rw [ballot_of_unordered_eq hnoted.unordered_eq, hballot]

theorem wellFormed (h : g.Inserted hash event i g') (hwf : g.WellFormed)
    (hc : g.Checked hash event i) (hfit : g.Fits hash event) : g'.WellFormed :=
  h.advances.wellFormed (hwf.place hc hfit _)

theorem undecidedExact (h : g.Inserted hash event i g') (hexact : g.UndecidedExact)
    (hc : g.Checked hash event i) : g'.UndecidedExact :=
  h.advances.undecided_exact (hexact.place hc _)

theorem votesCast (h : g.Inserted hash event i g') (hwf : g.WellFormed)
    (hc : g.Checked hash event i) (hfit : g.Fits hash event)
    (hcast : g.VotesCast fun _ => False) : g'.VotesCast fun _ => False := by
  have hplaced : (g.placed hash event i).VotesCast (· = hash) := hcast.place _
  have hwf' : (g.placed hash event i).WellFormed := hwf.place hc hfit _
  have hskel := h.advances.skeleton_eq
  cases hwit : g.entersAsWitness hash event i with
  | true =>
    have hfame : (g.placed hash event i).fameOf hash = some .undecided := by
      rw [placed, fameOf_place, if_pos rfl]
      exact if_pos hwit
    refine votesCast_of_polled hwf' hskel (fun w => ?_) hfame hplaced
    rw [h.ballot_eq, if_pos hwit]
  | false =>
    intro w s hfame hs hlt _ _
    have hballot : g'.ballot w = (g.placed hash event i).ballot w := by
      rw [h.ballot_eq, hwit]
      rfl
    have hvote : g'.recordedVote s w = (g.placed hash event i).recordedVote s w :=
      congrFun (congrArg Ballot.votes hballot) s
    have hfame' : g'.fameOf w = (g.placed hash event i).fameOf w := congrArg Ballot.fame hballot
    rw [roundOf_of_skeleton_eq hskel, witnessesOfRound_of_skeleton_eq hskel] at hs
    rw [roundOf_of_skeleton_eq hskel, roundOf_of_skeleton_eq hskel] at hlt
    rw [hfame'] at hfame
    rw [hvote]
    -- The new event is no witness, so it is neither a candidate nor a voter.
    refine hplaced w s hfame hs hlt ?_ ?_
    · rintro rfl
      rw [placed, fameOf_place, if_pos rfl, if_neg (by simpa [entersAsWitness] using hwit)] at hfame
      cases hfame
    · rintro rfl
      obtain ⟨r, hr, -, hr'⟩ := hwf'.witness_sound hs
      rw [placed, get?_place_self, Option.some.injEq] at hr
      rw [← hr] at hr'
      exact absurd (hwit.symm.trans hr') (by simp)

end Inserted

end Insertion

end Hashgraph

end JKain
