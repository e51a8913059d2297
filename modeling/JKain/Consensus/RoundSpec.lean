import JKain.Consensus.Views

/-!
# Rounds do not depend on the order of insertion

An insertion gives its event the round that the ancestry of the event gives it, and the events that
come later do not change what that is: they are not in the ancestry. So the graphs of a run stay
settled as long as the roster of no base round in use is changed, and any two runs over the same
events agree on the number, the row, the round and the witness flag of the events they share.
-/

namespace JKain

open Std JKain.Lib

namespace Hashgraph

section Steps

variable {g g' : Hashgraph} {x w hash : EventHash} {r : EventRecord} {event : Event} {i : ℕ}

theorem Rests.meets (h : g.Rests g') (hw : g.Whole) (hg : g.Consistent) (hg' : g'.Consistent) :
    Meets g g' where
  whole := hw
  whole' := hw.of_rests h
  consistent := hg
  consistent' := hg'
  event_eq := fun hx hx' => by
    obtain ⟨r'', hr'', hsame⟩ := h.get? hx
    obtain rfl := Option.some.inj (hx'.symm.trans hr'')
    exact (congrArg EventRecord.event hsame :).symm

theorem Checked.meets (hc : g.Checked hash event i) (hw : g.Whole) (hg : g.Consistent)
    (hfit : g.Fits hash event) (b : Bool) : Meets g (g.place hash event i b) where
  whole := hw
  whole' := hw.place hg hc b
  consistent := hg
  consistent' := (hg.withEvent hc hfit 0 false).of_core_eq (core_place 0 false)
  event_eq := fun hx hx' => by
    obtain rfl := Option.some.inj ((hc.get?_place_of_some b hx).symm.trans hx')
    rfl

/-- A step that keeps the events and how they are judged keeps the rounds settled. -/
theorem RoundsSettled.of_bumped (hs : g.RoundsSettled) (h : g.Rests g') (hw : g.Whole)
    (hbumped : ∀ {x r}, g.get? x = some r → g'.bumped x r.event = g.bumped x r.event) :
    g'.RoundsSettled := by
  intro x r' hx
  obtain ⟨r, hr, hsame⟩ := h.get?_back hx
  have hevent : r'.event = r.event := (congrArg EventRecord.event hsame :)
  have hparents := hw.parents hr
  rw [hevent, hbumped hr, h.newRound_eq hparents, h.newWitness_eq hparents,
    show r'.round = r.round from (congrArg EventRecord.round hsame :),
    show r'.isWitness = r.isWitness from (congrArg EventRecord.isWitness hsame :)]
  exact hs x r hr

/-- A step that keeps the events, the witnesses and the rosters of the base rounds keeps the rounds
settled. -/
theorem RoundsSettled.of_rests (hs : g.RoundsSettled) (h : g.Rests g') (hwf : g.WellFormed)
    (hw : g.Whole) (hg' : g'.Consistent)
    (hwitnesses : ∀ n, g'.witnessesOfRound n = g.witnessesOfRound n)
    (hroster : ∀ {x r}, g.get? x = some r →
      g'.memberCountAtRound (g.newBase r.event) = g.memberCountAtRound (g.newBase r.event)) :
    g'.RoundsSettled := by
  have hmeets := h.meets hw hwf.toConsistent hg'
  refine hs.of_bumped h hw fun {x r} hr => ?_
  obtain ⟨r', hr', -⟩ := h.get? hr
  have hboth : Meets.Both g g' x := ⟨Option.isSome_of_eq_some hr, Option.isSome_of_eq_some hr'⟩
  rw [bumped, bumped, h.newBase_eq (hw.parents hr), hwitnesses,
    totalAt_of_memberCountAtRound_eq (hroster hr)]
  congr 3
  refine List.countP_congr fun w hw' => ?_
  obtain ⟨rw', hrw', -, -⟩ := hwf.witness_sound hw'
  obtain ⟨rw'', hrw'', -⟩ := h.get? hrw'
  rw [hmeets.stronglySeesAt_eq hboth
    ⟨Option.isSome_of_eq_some hrw', Option.isSome_of_eq_some hrw''⟩ (hroster hr).symm]

/-- Events of the graph do not see an event that is placed later. -/
theorem Checked.not_stronglySeesAt (hc : g.Checked hash event i) (hw : g.Whole) (hg : g.Consistent)
    (hfit : g.Fits hash event) (b : Bool) (hx : (g.get? x).isSome) (n : ℕ) :
    (g.place hash event i b).stronglySeesAt x hash n = false := by
  have hmeets := hc.meets hw hg hfit b
  obtain ⟨r, hr⟩ := Option.isSome_iff_exists.mp hx
  have hr' := hc.get?_place_of_some b hr
  rw [Whole.stronglySeesAt_eq hmeets.consistent' hr' get?_place_self, Bool.and_eq_false_iff]
  refine .inl (Bool.eq_false_iff.mpr fun hsees => ?_)
  have hanc := ((hmeets.whole'.sees_iff hmeets.consistent' hr' get?_place_self).mp hsees).1
  have hstored := (hmeets.symm.anc ⟨Option.isSome_of_eq_some hr', hx⟩ hanc).2.2
  rw [hc.fresh] at hstored
  cases hstored

theorem memberCountAtRound_place {b : Bool} (n : ℕ) :
    (g.place hash event i b).memberCountAtRound n = g.memberCountAtRound n := by
  rw [memberCountAtRound, rosterForRound, rosterHistory_place, memberCountAtRound, rosterForRound]

/-- The witnesses that an old event strongly sees are not changed by a new event. -/
theorem Checked.bumped_old (hc : g.Checked hash event i) (hw : g.Whole) (hwf : g.WellFormed)
    (hfit : g.Fits hash event) (b : Bool) (hx : g.get? x = some r) :
    (g.place hash event i b).bumped x r.event = g.bumped x r.event := by
  have hmeets := hc.meets hw hwf.toConsistent hfit b
  have hstored := Option.isSome_of_eq_some hx
  rw [bumped, bumped, (hc.extends_place b).newBase_eq (hw.parents hx),
    totalAt_of_memberCountAtRound_eq (memberCountAtRound_place _), witnessesOfRound_place]
  have hold : (g.witnessesOfRound (g.newBase r.event)).countP (fun w => decide (w ≠ x) &&
        (g.place hash event i b).stronglySeesAt x w (g.newBase r.event)) =
      (g.witnessesOfRound (g.newBase r.event)).countP (fun w => decide (w ≠ x) &&
        g.stronglySeesAt x w (g.newBase r.event)) := by
    refine List.countP_congr fun w hw' => ?_
    obtain ⟨rw', hrw', -, -⟩ := hwf.witness_sound hw'
    rw [hmeets.stronglySeesAt_eq
      ⟨hstored, Option.isSome_of_eq_some (hc.get?_place_of_some b hx)⟩
      ⟨Option.isSome_of_eq_some hrw', Option.isSome_of_eq_some (hc.get?_place_of_some b hrw')⟩
      (memberCountAtRound_place _).symm]
  split
  · rw [List.countP_append, hold]
    simp [hc.not_stronglySeesAt hw hwf.toConsistent hfit b hstored]
  · rw [hold]

/-- The round of the new event is settled by the test that `finalize_round` made. -/
theorem Checked.bumped_new (hc : g.Checked hash event i) (hwf : g.WellFormed) :
    (g.placed hash event i).bumped hash event = g.bumps hash event i := by
  have hcore : (g.placed hash event i).core = (g.place hash event i false).core :=
    (core_place 0 false).trans (core_place 0 false).symm
  have hsame (w : EventHash) (n : ℕ) : (g.placed hash event i).stronglySeesAt hash w n =
      (g.place hash event i false).stronglySeesAt hash w n := by
    rw [stronglySeesAt, ← stronglySeeAt_core, hcore, stronglySeeAt_core, stronglySeesAt]
  rw [bumped, bumps, placed, (hc.extends_place _).newBase_eq hc.parents,
    totalAt_of_memberCountAtRound_eq (memberCountAtRound_place _), witnessesOfRound_place]
  have hold : (g.witnessesOfRound (g.newBase event)).countP (fun w => decide (w ≠ hash) &&
        (g.placed hash event i).stronglySeesAt hash w (g.newBase event)) =
      (g.witnessesOfRound (g.newBase event)).countP (fun w =>
        (g.place hash event i false).stronglySeesAt hash w (g.newBase event)) := by
    refine List.countP_congr fun w hw' => ?_
    obtain ⟨rw', hrw', -, -⟩ := hwf.witness_sound hw'
    rw [hsame, decide_eq_true (hc.ne hrw'), Bool.true_and]
  split
  · rw [List.countP_append]
    simp only [placed] at hold
    rw [hold]
    simp
  · simp only [placed] at hold
    rw [hold]

theorem RoundsSettled.placed (hs : g.RoundsSettled) (hc : g.Checked hash event i) (hw : g.Whole)
    (hwf : g.WellFormed) (hfit : g.Fits hash event) : (g.placed hash event i).RoundsSettled := by
  intro x r hx
  have hext := hc.extends_place (g.bumps hash event i)
  rcases get?_place_cases hx with ⟨rfl, rfl⟩ | hx
  · have hevent : (g.newRecord event i (g.bumps x event i)).event = event := rfl
    rw [hevent, hc.bumped_new hwf]
    exact ⟨(hext.newRound_eq hc.parents _).symm, (hext.newWitness_eq hc.parents _).symm⟩
  · rw [Hashgraph.placed, hc.bumped_old hw hwf hfit _ hx, hext.newRound_eq (hw.parents hx),
      hext.newWitness_eq (hw.parents hx)]
    exact hs x r hx

end Steps

/-! ## Runs of insertions -/

/-- The members and the rosters are those of the registry. -/
structure FixedRegistry (registry : MembershipRegistry) (g : Hashgraph) : Prop where
  memberIndex_eq : g.memberIndex = indexMembers registry
  memberCount_eq : g.memberCount = registry.memberIds.length
  rosterHistory_eq : g.rosterHistory = RosterHistory.new registry

section Runs

variable {H : Hasher} {S : Set Event} {registry : MembershipRegistry} {g g' : Hashgraph}
  {x : EventHash} {r r' : EventRecord}

theorem FixedRegistry.effect {op : Op} (h : op.Effect H g g') (hop : op.Inserts S)
    (hg : FixedRegistry registry g) : FixedRegistry registry g' := by
  cases h with
  | none hsame => exact hsame ▸ hg
  | insert _ _ hinserted =>
    have hskel := hinserted.advances.skeleton_eq
    exact ⟨((congrArg memberIndex hskel :).trans memberIndex_place).trans hg.memberIndex_eq,
      ((congrArg memberCount hskel :).trans memberCount_place).trans hg.memberCount_eq,
      hinserted.rosterHistory_eq.trans hg.rosterHistory_eq⟩
  | addMember _ _ => exact hop.elim
  | prune _ _ => exact hop.elim

theorem Reached.fixedRegistry (hfree : H.CollisionFree S)
    (h : Reached H (fun _ op => op.Inserts S) registry g) : FixedRegistry registry g :=
  h.invariant hfree (fun _ _ hop => hop.from) ⟨rfl, rfl, rfl⟩
    fun _ _ _ _ hg hop heffect => hg.effect heffect hop

/-- An insertion keeps the rounds settled. -/
theorem Inserted.roundsSettled {hash : EventHash} {event : Event} {i : ℕ}
    (h : g.Inserted hash event i g') (hs : g.Sound H S) (hfree : H.CollisionFree S)
    (hevent : event ∈ S) (hhash : H event = .ok hash) (hc : g.Checked hash event i)
    (hw : g.Whole) (hsettled : g.RoundsSettled) : g'.RoundsSettled := by
  have hfit := hs.fits hfree hevent hhash hc
  have hskel := h.advances.skeleton_eq
  have hroster : g'.rosterHistory = (g.placed hash event i).rosterHistory :=
    (congrArg rosterHistory hskel :)
  refine (hsettled.placed hc hw hs.wf hfit).of_rests (rests_of_skeleton_eq hskel)
    (hs.wf.place hc hfit _) (hw.place hs.wf.toConsistent hc _)
    (h.wellFormed hs.wf hc hfit).toConsistent (witnessesOfRound_of_skeleton_eq hskel) fun _ => ?_
  rw [memberCountAtRound, rosterForRound, hroster, memberCountAtRound, rosterForRound]

theorem Reached.roundsSettled (hfree : H.CollisionFree S)
    (h : Reached H (fun _ op => op.Inserts S) registry g) : g.RoundsSettled := by
  have hboth : g.Whole ∧ g.RoundsSettled := by
    refine h.invariant (I := fun g => g.Whole ∧ g.RoundsSettled) hfree (fun _ _ hop => hop.from)
      ⟨whole_new registry, fun x r hx => ?_⟩ fun g g' op hs hg hop heffect => ?_
    · rw [get?_new] at hx
      cases hx
    · refine ⟨heffect.whole hop.keepsEvents hs.wf.toConsistent hg.1, ?_⟩
      cases heffect with
      | none hsame => exact hsame ▸ hg.2
      | insert hhash hc hinserted =>
        exact hinserted.roundsSettled hs hfree hop.from hhash hc hg.1 hg.2
      | addMember _ _ => exact hop.elim
      | prune _ _ => exact hop.elim
  exact hboth.2

/-- Graphs of runs over one set of events meet. -/
theorem Sound.meets (hfree : H.CollisionFree S) (hs : g.Sound H S) (hs' : g'.Sound H S)
    (hw : g.Whole) (hw' : g'.Whole) : Meets g g' where
  whole := hw
  whole' := hw'
  consistent := hs.wf.toConsistent
  consistent' := hs'.wf.toConsistent
  event_eq := fun hx hx' => by
    obtain ⟨hhash, hnum⟩ := hs.numbered hx
    obtain ⟨hhash', hnum'⟩ := hs'.numbered hx'
    exact hfree _ hnum.mem _ hnum'.mem _ hhash hhash'

theorem Reached.meets {P P' : Hashgraph → Op → Prop} {registry' : MembershipRegistry}
    (hfree : H.CollisionFree S) (hP : ∀ g op, P g op → op.From S ∧ op.KeepsEvents)
    (hP' : ∀ g op, P' g op → op.From S ∧ op.KeepsEvents) (hg : Reached H P registry g)
    (hg' : Reached H P' registry' g') : Meets g g' :=
  Sound.meets hfree (hg.sound hfree fun g op hp => (hP g op hp).1)
    (hg'.sound hfree fun g op hp => (hP' g op hp).1) (hg.whole hfree hP) (hg'.whole hfree hP')

theorem Op.Inserts.fromKeeps {op : Op} (h : op.Inserts S) : op.From S ∧ op.KeepsEvents :=
  ⟨h.from, h.keepsEvents⟩

/-- Under one registry the entries of the rows are what they reach. -/
theorem FixedRegistry.ancestorSeqs_eq (hfix : FixedRegistry registry g)
    (hfix' : FixedRegistry registry g') (h : Meets g g') (hx : g.get? x = some r)
    (hx' : g'.get? x = some r') : r.ancestorSeqs = r'.ancestorSeqs := by
  have hlen := h.consistent.row_length hx
  have hlen' := h.consistent'.row_length hx'
  refine List.ext_getElem? fun i => ?_
  by_cases hi : i < registry.memberIds.length
  · obtain ⟨c, hc⟩ : ∃ c, registry.memberIds[i]? = some c := ⟨_, List.getElem?_eq_getElem hi⟩
    have hindex {t : Hashgraph} (ht : FixedRegistry registry t) : t.memberIndexOf c = some i := by
      rw [memberIndexOf, ht.memberIndex_eq]
      exact memberIndexOf_new.mpr hc
    have hslot : EventRecord.slot r i = EventRecord.slot r' i := by
      rw [← Whole.reachOf_eq_slot hx (hindex hfix), ← Whole.reachOf_eq_slot hx' (hindex hfix')]
      exact h.reachOf_eq ⟨Option.isSome_of_eq_some hx, Option.isSome_of_eq_some hx'⟩ c
    have hi₁ : i < r.ancestorSeqs.length := by rw [hlen, hfix.memberCount_eq]; exact hi
    have hi₂ : i < r'.ancestorSeqs.length := by rw [hlen', hfix'.memberCount_eq]; exact hi
    rw [EventRecord.slot, EventRecord.slot, List.getElem?_eq_getElem hi₁,
      List.getElem?_eq_getElem hi₂] at hslot
    rw [List.getElem?_eq_getElem hi₁, List.getElem?_eq_getElem hi₂]
    exact congrArg some hslot
  · rw [List.getElem?_eq_none (by rw [hlen, hfix.memberCount_eq]; omega),
      List.getElem?_eq_none (by rw [hlen', hfix'.memberCount_eq]; omega)]

theorem FixedRegistry.memberCountAtRound_eq (hfix : FixedRegistry registry g)
    (hfix' : FixedRegistry registry g') (n : ℕ) :
    g.memberCountAtRound n = g'.memberCountAtRound n := by
  rw [memberCountAtRound, rosterForRound, hfix.rosterHistory_eq, memberCountAtRound,
    rosterForRound, hfix'.rosterHistory_eq]

theorem FixedRegistry.memberCountAtRound_of_pos (hfix : FixedRegistry registry g) {n : ℕ}
    (hn : 1 ≤ n) : g.memberCountAtRound n = .ok registry.memberIds.toFinset.card := by
  rw [memberCountAtRound, rosterForRound, hfix.rosterHistory_eq, RosterHistory.activeAt_new _ hn,
    ← registry.len_eq]
  rfl

theorem FixedRegistry.totalAt_of_pos (hfix : FixedRegistry registry g) {n : ℕ} (hn : 1 ≤ n) :
    g.totalAt n = registry.len := by
  rw [totalAt, hfix.memberCountAtRound_of_pos hn, registry.len_eq]
  rfl

theorem Reached.meets_of_inserts (hfree : H.CollisionFree S)
    (hg : Reached H (fun _ op => op.Inserts S) registry g)
    (hg' : Reached H (fun _ op => op.Inserts S) registry g') : Meets g g' :=
  hg.meets hfree (fun _ _ h => h.fromKeeps) (fun _ _ h => h.fromKeeps) hg'

/-- Runs of insertions under one registry settle the rounds alike. -/
theorem Reached.sameRound (hfree : H.CollisionFree S)
    (hg : Reached H (fun _ op => op.Inserts S) registry g)
    (hg' : Reached H (fun _ op => op.Inserts S) registry g') (hx : Meets.Both g g' x) :
    SameRound g g' x := by
  have hfix := hg.fixedRegistry hfree
  have hfix' := hg'.fixedRegistry hfree
  have hwf := (hg.sound hfree fun _ _ h => h.from).wf
  have hwf' := (hg'.sound hfree fun _ _ h => h.from).wf
  exact (hg.meets_of_inserts hfree hg').sameRound hwf hwf' (hg.roundsSettled hfree)
    (hg'.roundsSettled hfree) (fun _ _ => hfix.memberCountAtRound_eq hfix' _) hx

/-- Any two graphs built by insertions over one set of events, forks included, give an event that
both hold the same number, row, round and witness flag. -/
theorem insertion_order_irrelevant (hfree : H.CollisionFree S)
    (hg : Reached H (fun _ op => op.Inserts S) registry g)
    (hg' : Reached H (fun _ op => op.Inserts S) registry g') (hx : g.get? x = some r)
    (hx' : g'.get? x = some r') :
    r.seq = r'.seq ∧ r.ancestorSeqs = r'.ancestorSeqs ∧ r.round = r'.round ∧
      r.isWitness = r'.isWitness := by
  have hmeets := hg.meets_of_inserts hfree hg'
  refine ⟨hmeets.seq_eq hx hx', ?_, ?_⟩
  · exact (hg.fixedRegistry hfree).ancestorSeqs_eq (hg'.fixedRegistry hfree) hmeets hx hx'
  · exact hg.sameRound hfree hg' ⟨Option.isSome_of_eq_some hx, Option.isSome_of_eq_some hx'⟩
      r r' hx hx'

end Runs

/-- Member 0 forks with its first event; the branches arrive in either order. -/
theorem insertion_order_irrelevant_fork :
    ∃ g g' r r', Reached stampHash (fun _ op => op.Inserts {e | e ∈ [plainEvent 1 0 none none,
        plainEvent 2 0 none none, plainEvent 3 0 (some 1) (some 2)]}) (plainRegistry 1) g ∧
      Reached stampHash (fun _ op => op.Inserts {e | e ∈ [plainEvent 1 0 none none,
        plainEvent 2 0 none none, plainEvent 3 0 (some 1) (some 2)]}) (plainRegistry 1) g' ∧
      g.canonicalChild 0 none = some 1 ∧ g'.canonicalChild 0 none = some 2 ∧
      g.get? 3 = some r ∧ g'.get? 3 = some r' ∧ r.round = r'.round := by
  have hrun : (replay stampHash (.new (plainRegistry 1)) ([plainEvent 1 0 none none,
      plainEvent 2 0 none none, plainEvent 3 0 (some 1) (some 2)].map (.insert inOrder))).any
      (fun g => decide (g.canonicalChild 0 none = some 1) && (g.get? 3).isSome) = true := by
    decide +kernel
  have hrun' : (replay stampHash (.new (plainRegistry 1)) ([plainEvent 2 0 none none,
      plainEvent 1 0 none none, plainEvent 3 0 (some 1) (some 2)].map (.insert inOrder))).any
      (fun g => decide (g.canonicalChild 0 none = some 2) && (g.get? 3).isSome) = true := by
    decide +kernel
  obtain ⟨g, hg, hvalues⟩ := exists_built (S := {e | e ∈ [plainEvent 1 0 none none,
    plainEvent 2 0 none none, plainEvent 3 0 (some 1) (some 2)]}) _ _ _ (fun _ he => he) hrun
  obtain ⟨g', hg', hvalues'⟩ := exists_built (S := {e | e ∈ [plainEvent 1 0 none none,
    plainEvent 2 0 none none, plainEvent 3 0 (some 1) (some 2)]}) _ _ _ (by simp) hrun'
  rw [Bool.and_eq_true, decide_eq_true_eq] at hvalues hvalues'
  obtain ⟨r, hr⟩ := Option.isSome_iff_exists.mp hvalues.2
  obtain ⟨r', hr'⟩ := Option.isSome_iff_exists.mp hvalues'.2
  exact ⟨g, g', r, r', hg, hg', hvalues.1, hvalues'.1, hr, hr', (insertion_order_irrelevant
    (collisionFree_stampHash (by decide)) hg hg' hr hr').2.2.1⟩

end Hashgraph

end JKain
