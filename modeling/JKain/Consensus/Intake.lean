import JKain.Consensus.NoPanic
import JKain.Consensus.RoundSpec

/-!
# Insertions into a graph that was never pruned

With a static registry and without pruning an insertion always returns, also where members fork: the
first registry covers every round, and an event that lands on an occupied slot is a second child of
its self-parent. What the graph holds then decides alone what happens to an event.
-/

namespace JKain

open Std JKain.Lib

namespace Hashgraph

section Intake

variable {H : Hasher} {S : Set Event} {registry : MembershipRegistry} {g g' : Hashgraph}
  {event : Event} {hash x : EventHash} {r : EventRecord} {i : ℕ}

theorem FixedRegistry.hasRoster (hfix : FixedRegistry registry g) {n : ℕ} (hn : 1 ≤ n) :
    g.HasRoster n := by
  rw [HasRoster, hfix.rosterHistory_eq, RosterHistory.activeAt_new _ hn]
  rfl

/-- The event on the slot that a new event would take has the same self-parent. -/
theorem Whole.selfParent_eq_of_slot (hw : g.Whole) (hg : g.Consistent)
    (hc : g.Checked hash event i) (hunknown : g.forkKnown event.creator ≠ true)
    (hx : g.get? x = some r) (hcreator : r.event.creator = event.creator)
    (hseq : r.seq = g.newSeq event) : r.event.selfParent = event.selfParent := by
  cases hself : event.selfParent with
  | none =>
    refine hw.selfParent_eq_none hg hx ?_
    rw [hseq, newSeq, selfRecord, hself]
    rfl
  | some p =>
    obtain ⟨rp, hrp⟩ := Option.isSome_iff_exists.mp
      (hc.parents p (Event.mem_parents.mpr (.inl hself)))
    have hrecord : g.selfRecord event = some rp := by rw [selfRecord, hself, Option.bind_some, hrp]
    have hnew : g.newSeq event = rp.seq + 1 := by rw [newSeq, hrecord, Option.elim_some]
    have hpos := hg.seq_pos hrp
    obtain ⟨s, hs⟩ : ∃ s, rp.seq = s + 1 := ⟨rp.seq - 1, by omega⟩
    obtain ⟨r', q, hr', hq, hat⟩ := hw.exists_selfParent (s := s) hg
      ⟨r, hx, hcreator, by omega⟩
    obtain rfl := Option.some.inj (hx.symm.trans hr')
    rw [hq]
    by_contra hne
    exact hunknown (hw.forkKnown_of_ne hg hat ⟨rp, hrp, hc.self_creator hrecord, hs⟩
      fun hqp => hne (congrArg some hqp))

/-- An event on an occupied slot is a second child of its self-parent, unless its creator is a known
forker. -/
theorem Whole.slot_or_branch (hw : g.Whole) (hg : g.Consistent) (hc : g.Checked hash event i) :
    g.eventForCreatorSeq event.creator (g.newSeq event) = none ∨ g.flagged i = true ∨
      (g.canonicalChild event.creator event.selfParent).any (· != hash) = true := by
  cases hslot : g.eventForCreatorSeq event.creator (g.newSeq event) with
  | none => exact .inl rfl
  | some f =>
    cases hflag : g.flagged i with
    | true => exact .inr (.inl rfl)
    | false =>
      refine .inr (.inr ?_)
      have hunknown : g.forkKnown event.creator ≠ true := by
        rw [forkKnown_eq hc.member, hflag]
        exact Bool.false_ne_true
      have hatf := hg.indexed hslot
      obtain ⟨rf, hrf, hcreator, hseq⟩ := hatf
      have hself := hw.selfParent_eq_of_slot hg hc hunknown hrf hcreator hseq
      obtain ⟨f', hf', hcanonical⟩ := hw.branch hrf
      rw [hcreator, hself] at hf'
      have hsame : f' = f := hcanonical.resolve_right (hcreator ▸ hunknown)
      rw [hf', hsame, Option.any_some, bne_iff_ne]
      rintro rfl
      rw [hc.fresh] at hrf
      cases hrf

theorem Whole.sheltered (hw : g.Whole) (hwf : g.WellFormed) (hfix : FixedRegistry registry g)
    (hexact : g.UndecidedExact) (event : Event) : g.Sheltered H event := by
  intro hash i _ hc
  refine ⟨hfix.hasRoster (newBase_pos hwf), fun w n hw' => ?_,
    hw.slot_or_branch hwf.toConsistent hc⟩
  obtain ⟨-, r, hr, rfl⟩ := (hexact w n).mp hw'
  exact hfix.hasRoster (hwf.round_pos hr)

theorem Whole.indexed (hw : g.Whole) (hg : g.Consistent) : g.Indexed := by
  intro x r i hx hi hflag
  obtain ⟨y, hy⟩ := Option.isSome_iff_exists.mp (hw.slot hx)
  have hat := hg.indexed hy
  by_contra hne
  have hyx : y ≠ x := fun hyx => hne (hyx ▸ hy)
  have hknown := hw.forkKnown_of_ne hg hat (isEventAt_of_get? hx) hyx
  rw [forkKnown_eq hi, hflag] at hknown
  cases hknown

theorem Reached.armed_of_inserts (hfree : H.CollisionFree S)
    (h : Reached H (fun _ op => op.Inserts S) registry g) : g.Armed H S where
  toSound := h.sound hfree fun _ _ hop => hop.from
  indexed := (h.whole hfree fun _ _ hop => hop.fromKeeps).indexed
    (h.sound hfree fun _ _ hop => hop.from).wf.toConsistent
  roster := h.hasRoster_next hfree fun _ _ hop => hop.from

/-- An event of a member whose parents are stored, the self-parent under the same creator, is
inserted. -/
theorem Reached.insert_ok (hfree : H.CollisionFree S)
    (h : Reached H (fun _ op => op.Inserts S) registry g) (hevent : event ∈ S)
    (hhash : H event = .ok hash) (hc : g.Checked hash event i) (iter : IterOrder) :
    ∃ g', Hashgraph.insert H iter event g = .ok hash g' ∧ g.Inserted hash event i g' := by
  have harmed := h.armed_of_inserts hfree
  exact harmed.insert_ok hfree hevent hhash hc ((h.whole hfree fun _ _ hop => hop.fromKeeps).sheltered
    harmed.wf (h.fixedRegistry hfree) harmed.exact event) iter

end Intake

end Hashgraph

end JKain
