import JKain.Consensus.Equivocation

/-!
# The ancestry queries and their definitions

The specification defines ancestry by the parent links, seeing by ancestry and the absence of a fork
in it, and strongly seeing by what is seen through the events of a supermajority. The program answers
the three questions from rows of sequence numbers, a flag for each known forker and searches by
sequence number.

`see` answers as it is defined, on every graph that was not pruned. `is_ancestor` does not: the own
slot of an event is set to its number, and an event that starts a new branch forgets the longer one
it has below it. `strongly_see` counts a member whose branches `x` has both below it, although `x`
sees no event of that member.
-/

namespace JKain

open Std JKain.Lib

namespace Hashgraph

/-- The ancestry of `x` holds two events of the creator on one self-parent, or two without one. -/
def AncestryForks (g : Hashgraph) (x : EventHash) (c : NodeId) : Prop :=
  ∃ a b ra rb, a ≠ b ∧ g.Anc x a ∧ g.Anc x b ∧ g.get? a = some ra ∧ g.get? b = some rb ∧
    ra.event.creator = c ∧ rb.event.creator = c ∧ ra.event.selfParent = rb.event.selfParent

/-- The definition of seeing: `y` is an ancestor of `x`, whose ancestry has no fork of its creator. -/
def CanSee (g : Hashgraph) (x y : EventHash) : Prop :=
  ∃ ry, g.get? y = some ry ∧ g.Anc x y ∧ ¬g.AncestryForks x ry.event.creator

open Classical in
/-- The members with an event that `x` sees and that sees `y`. -/
noncomputable def seenThrough (registry : MembershipRegistry) (g : Hashgraph) (x y : EventHash) :
    Finset NodeId :=
  registry.memberIds.toFinset.filter fun m =>
    ∃ z rz, g.get? z = some rz ∧ rz.event.creator = m ∧ g.CanSee x z ∧ g.CanSee z y

/-- The definition of strongly seeing: `x` sees `y`, and through the events of more than two thirds
of the members. -/
def CanStronglySee (registry : MembershipRegistry) (g : Hashgraph) (x y : EventHash) : Prop :=
  g.CanSee x y ∧ 2 * registry.memberIds.toFinset.card < 3 * (seenThrough registry g x y).card

/-- No ancestor of `x` by the creator has an ancestor by the creator with a higher number. -/
def KeepsOwnNumbers (g : Hashgraph) (x : EventHash) (c : NodeId) : Prop :=
  ∀ u z s t, g.Anc x u → g.Anc u z → g.IsEventAt c s u → g.IsEventAt c t z → t ≤ s

/-- Two parentless events of member 0 and an event on both. -/
def twoRoots : List Event :=
  [plainEvent 1 0 none none, plainEvent 2 0 none (some 1), plainEvent 3 0 (some 1) (some 2)]

/-- Member 0 starts again without a self-parent, on the end of its own chain. -/
def rejoinedChain : List Event :=
  [plainEvent 1 0 none none, plainEvent 2 0 (some 1) none, plainEvent 3 0 none (some 2)]

/-- Member 3 forks with two parentless events, and member 0 builds on both. -/
def bothBranches : List Event :=
  [plainEvent 1 0 none none, plainEvent 2 1 none (some 1), plainEvent 4 3 none (some 1),
    plainEvent 5 3 none (some 2), plainEvent 6 0 (some 1) (some 4),
    plainEvent 7 0 (some 6) (some 5)]

section Queries

variable {H : Hasher} {S : Set Event} {registry : MembershipRegistry} {g : Hashgraph}
  {x y z a b : EventHash} {r ry : EventRecord} {c : NodeId} {s : ℕ}

theorem AncestryForks.forkedBy (h : g.AncestryForks x c) : g.ForkedBy c := by
  obtain ⟨a, b, ra, rb, hne, -, -, hrest⟩ := h
  exact ⟨a, b, ra, rb, hne, hrest⟩

namespace Whole

/-! ## Forks by numbers and forks by self-parents -/

/-- The search by sequence numbers finds exactly the forks of the definition. -/
theorem seesFork_iff (hw : g.Whole) (hg : g.Consistent) :
    g.SeesFork x c ↔ g.AncestryForks x c := by
  constructor
  · rintro ⟨s, a, b, hne, hxa, hxb, ha, hb⟩
    obtain ⟨u, v, ru, rv, huv, hau, hbv, hrest⟩ := hw.exists_siblings_of_ne hg ha hb hne
    exact ⟨u, v, ru, rv, huv, hxa.trans hau.anc, hxb.trans hbv.anc, hrest⟩
  · rintro ⟨a, b, ra, rb, hne, hxa, hxb, hra, hrb, hca, hcb, hself⟩
    have hseq : rb.seq = ra.seq := by
      rw [hw.seq hra, hw.seq hrb, newSeq, newSeq, selfRecord, selfRecord, hself]
    exact ⟨ra.seq, a, b, hne, hxa, hxb, ⟨ra, hra, hca, rfl⟩, ⟨rb, hrb, hcb, hseq⟩⟩

/-! ## Rows -/

/-- A row names every ancestor of a creator that keeps its numbers. -/
theorem le_reachOf_of_keepsOwnNumbers (hw : g.Whole) (hg : g.Consistent) (hx : (g.get? x).isSome)
    (hkeeps : g.KeepsOwnNumbers x c) (hz : g.Anc x z) (hat : g.IsEventAt c s z) :
    s ≤ g.reachOf x c := by
  induction x, hx using hw.parents_induction with
  | step x r hr ih =>
    by_cases hc : c = r.event.creator
    · subst hc
      rw [reachOf_self hg hr]
      exact hkeeps x z r.seq s .refl hz (isEventAt_of_get? hr) hat
    · rcases anc_cases hz with rfl | ⟨p, hp, hpz⟩
      · obtain ⟨r', hr', hcreator, -⟩ := hat
        obtain rfl := Option.some.inj (hr.symm.trans hr')
        exact absurd hcreator.symm hc
      · have hmem := (mem_parentsOf hr).mp hp
        have hle := ih p hmem (fun u z s t hu => hkeeps u z s t (.head hp hu)) hpz
        exact hle.trans (hw.reachOf_parent_le hr hc hmem)

/-! ## Seeing -/

theorem sees_iff_canSee (hw : g.Whole) (hg : g.Consistent) (hx : g.get? x = some r)
    (hy : g.get? y = some ry) : g.sees x y = true ↔ g.CanSee x y := by
  rw [hw.sees_iff hg hx hy, hw.seesFork_iff hg]
  constructor
  · rintro ⟨hanc, hfork⟩
    exact ⟨ry, hy, hanc, hfork⟩
  · rintro ⟨ry', hy', hanc, hfork⟩
    obtain rfl := Option.some.inj (hy.symm.trans hy')
    exact ⟨hanc, hfork⟩

/-- The event that `x` names for a creator has on its chain every event of the creator that `x`
sees. -/
theorem exists_newestOf_of_canSee (hw : g.Whole) (hg : g.Consistent) (hx : g.get? x = some r)
    {rz : EventRecord} (hz : g.get? z = some rz) (hsee : g.CanSee x z) :
    ∃ w, g.newestOf x rz.event.creator = some w ∧ g.SelfAnc w z := by
  obtain ⟨rz', hz', hanc, hfork⟩ := hsee
  obtain rfl := Option.some.inj (hz.symm.trans hz')
  rw [← hw.seesFork_iff hg] at hfork
  have hsome := Option.isSome_of_eq_some hx
  have hat := isEventAt_of_get? hz
  have hle := hw.le_reachOf hg hsome hfork hanc hat
  have hpos := hg.seq_pos hz
  obtain ⟨w, hw', hxw, hatw, -⟩ := hw.newestOf_eq hg hsome (c := rz.event.creator) (by omega)
  obtain ⟨u, hwu, hatu⟩ := hw.exists_selfAnc hg hatw hpos hle
  have huz : u = z := by
    by_contra hne
    exact hfork ⟨rz.seq, u, z, hne, hxw.trans hwu.anc, hanc, hatu, hat⟩
  exact ⟨w, hw', huz ▸ hwu⟩

/-! ## Strongly seeing -/

/-- Every member of the definition is counted. -/
theorem carries_of_canSee (hw : g.Whole) (hg : g.Consistent) (hx : g.get? x = some r)
    (hy : g.get? y = some ry) {rz : EventRecord} (hz : g.get? z = some rz) (hxz : g.CanSee x z)
    (hzy : g.CanSee z y) : g.carries x y rz.event.creator = true := by
  obtain ⟨w, hw', hwz⟩ := hw.exists_newestOf_of_canSee hg hx hz hxz
  exact (hw.carries_iff hg hx hy).mpr
    ⟨w, hw', z, hwz, (hw.sees_iff_canSee hg hz hy).mpr hzy⟩

/-- A member without a fork in the ancestry is counted for an event of the definition. -/
theorem exists_canSee_of_carries (hw : g.Whole) (hg : g.Consistent) (hx : g.get? x = some r)
    (hy : g.get? y = some ry) (hfork : ¬g.AncestryForks x c) (h : g.carries x y c = true) :
    ∃ z rz, g.get? z = some rz ∧ rz.event.creator = c ∧ g.CanSee x z ∧ g.CanSee z y := by
  obtain ⟨z, -, hxz, ⟨rz, hz, rfl, -⟩, hzy⟩ := hw.exists_of_carries hg hx hy h
  exact ⟨z, rz, hz, rfl, ⟨rz, hz, hxz, hfork⟩, (hw.sees_iff_canSee hg hz hy).mp hzy⟩

end Whole

theorem mem_seenThrough : c ∈ seenThrough registry g x y ↔ c ∈ registry.memberIds.toFinset ∧
    ∃ z rz, g.get? z = some rz ∧ rz.event.creator = c ∧ g.CanSee x z ∧ g.CanSee z y := by
  classical
  rw [seenThrough, Finset.mem_filter]

/-- Under a fixed registry `strongly_see` compares what it counts with the number of members. -/
theorem FixedRegistry.stronglySee_eq (hfix : FixedRegistry registry g) (hwf : g.WellFormed)
    (hx : g.get? x = some r) (hy : g.get? y = some ry) :
    g.stronglySee x y = .ok (g.sees x y &&
      decide (2 * registry.memberIds.toFinset.card < 3 * (g.carriers x y).card)) := by
  have hcount := hfix.memberCountAtRound_of_pos (hwf.round_pos hy)
  have hround : (g.get? y).elim 1 (·.round) = ry.round := by
    rw [hy]
    rfl
  have hcovers : Covers (fun _ => False) g ry.round := by
    intro e he
    rw [memberCountAtRound, he] at hcount
    cases hcount
  have hreturns := (hwf.stronglySeeAt_safe hx hy hcovers).returns.eq_ok
  rw [stronglySee, hround, hreturns, ← stronglySeesAt,
    Whole.stronglySeesAt_eq hwf.toConsistent hx hy, hcount]
  simp only [Except.toOption, Option.any_some, Nat.mul_comm]

/-- Without forks in the ancestry, the members counted are those of the definition. -/
theorem FixedRegistry.carriers_eq_seenThrough (hfix : FixedRegistry registry g) (hw : g.Whole)
    (hg : g.Consistent) (hx : g.get? x = some r) (hy : g.get? y = some ry)
    (hfork : ∀ m, ¬g.AncestryForks x m) : g.carriers x y = seenThrough registry g x y := by
  ext m
  rw [mem_seenThrough]
  constructor
  · intro hm
    exact ⟨hfix.carriers_subset hm,
      hw.exists_canSee_of_carries hg hx hy (hfork m) (Whole.mem_carriers.mp hm)⟩
  · rintro ⟨-, z, rz, hz, rfl, hxz, hzy⟩
    exact Whole.mem_carriers.mpr (hw.carries_of_canSee hg hx hy hz hxz hzy)

/-! ## The three questions over every run -/

/-- `see` answers as seeing is defined, whatever forks the graph holds. -/
theorem see_meets_definition (hfree : H.CollisionFree S)
    (hg : Reached H (fun _ op => op.Inserts S) registry g) (hx : g.get? x = some r)
    (hy : g.get? y = some ry) :
    ∃ b, g.see x y = .ok b ∧
      (b = true ↔ g.Anc x y ∧ ¬g.AncestryForks x ry.event.creator) := by
  have hw := hg.whole hfree fun _ _ h => h.fromKeeps
  have hcons := (hg.sound hfree fun _ _ h => h.from).wf.toConsistent
  refine ⟨g.sees x y, hcons.see_eq hx hy, ?_⟩
  rw [hw.sees_iff hcons hx hy, hw.seesFork_iff hcons]

/-- Two parentless events of one member with an event on both: it sees neither. -/
theorem see_meets_definition_two_roots :
    ∃ g r ry, Reached stampHash (fun _ op => op.Inserts {e | e ∈ twoRoots}) (plainRegistry 1) g ∧
      g.get? 3 = some r ∧ g.get? 1 = some ry ∧ g.see 3 1 = .ok false ∧
        ¬(g.Anc 3 1 ∧ ¬g.AncestryForks 3 ry.event.creator) := by
  have hrun : (replay stampHash (.new (plainRegistry 1)) (twoRoots.map (.insert inOrder))).any
      (fun g => (g.get? 3).isSome && (g.get? 1).isSome && !g.sees 3 1) = true := by decide +kernel
  obtain ⟨g, hg, hvalues⟩ := exists_built (S := {e | e ∈ twoRoots}) _ _ _ (fun _ he => he) hrun
  simp only [Bool.and_eq_true, Option.isSome_iff_exists, Bool.not_eq_true'] at hvalues
  obtain ⟨⟨⟨r, hr⟩, ⟨ry, hry⟩⟩, hsees⟩ := hvalues
  obtain ⟨b, hb, hiff⟩ := see_meets_definition (collisionFree_stampHash (by decide)) hg hr hry
  rw [sees, hb] at hsees
  cases hsees
  exact ⟨g, r, ry, hg, hr, hry, hb, fun h => Bool.false_ne_true (hiff.mpr h)⟩

end Queries

end Hashgraph

end JKain
