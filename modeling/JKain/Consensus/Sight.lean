import JKain.Consensus.Whole

/-!
# What the ancestry queries mean

In a graph that was never pruned `see` and `strongly_see` answer questions about the stored parent
links alone, although they go by the rows and the first-arrival indices as long as a creator is not
a known forker: `x` sees `y` if `y` is an ancestor of `x` and the ancestry of `x` holds no fork of
the creator of `y`. A member carries the sight of `y` to `x` if one of its events below `x` sees
`y`, on the self-parent chain of the event that the row of `x` names.
-/

namespace JKain

open Std JKain.Lib

namespace Hashgraph

/-- `y` is `x` or is met on the stored self-parent links from `x`. -/
def SelfAnc (g : Hashgraph) : EventHash → EventHash → Prop :=
  Relation.ReflTransGen fun a b => ∃ r, g.get? a = some r ∧ r.event.selfParent = some b

/-- Two stored events of the creator have one self-parent, or none. -/
def ForkedBy (g : Hashgraph) (c : NodeId) : Prop :=
  ∃ a b ra rb, a ≠ b ∧ g.get? a = some ra ∧ g.get? b = some rb ∧ ra.event.creator = c ∧
    rb.event.creator = c ∧ ra.event.selfParent = rb.event.selfParent

section Links

variable {g : Hashgraph} {x y z a b : EventHash} {r : EventRecord} {c : NodeId} {s t : ℕ}

theorem mem_parentsOf (hx : g.get? x = some r) : y ∈ g.parentsOf x ↔ y ∈ r.event.parents := by
  rw [parentsOf, hx]
  rfl

theorem exists_of_mem_parentsOf (h : y ∈ g.parentsOf x) :
    ∃ r, g.get? x = some r ∧ y ∈ r.event.parents := by
  cases hx : g.get? x with
  | none =>
    rw [parentsOf, hx] at h
    cases h
  | some r => exact ⟨r, rfl, (mem_parentsOf hx).mp h⟩

theorem SelfAnc.anc (h : g.SelfAnc x y) : g.Anc x y := by
  induction h with
  | refl => exact .refl
  | tail _ hlink ih =>
    obtain ⟨r, hr, hself⟩ := hlink
    exact ih.tail ((mem_parentsOf hr).mpr (Event.mem_parents.mpr (.inl hself)))

theorem IsEventAt.isSome (h : g.IsEventAt c s x) : (g.get? x).isSome := by
  obtain ⟨r, hr, -, -⟩ := h
  exact Option.isSome_of_eq_some hr

theorem isEventAt_of_get? (hx : g.get? x = some r) : g.IsEventAt r.event.creator r.seq x :=
  ⟨r, hx, rfl, rfl⟩

theorem SeesFork.mono (h : g.Anc x y) (hfork : g.SeesFork y c) : g.SeesFork x c := by
  obtain ⟨s, a, b, hne, ha, hb, hata, hatb⟩ := hfork
  exact ⟨s, a, b, hne, h.trans ha, h.trans hb, hata, hatb⟩

/-- Where no fork is known, `is_ancestor` compares a number with an entry of a row. -/
theorem Consistent.isAncestor_unforked {i : ℕ} (hg : g.Consistent)
    (hclean : ∀ i, g.flagged i = false) (hx : g.get? x = some r) {ry : EventRecord}
    (hy : g.get? y = some ry) (hi : g.memberIndexOf ry.event.creator = some i) :
    g.isAncestor x y = .ok (decide (x = y) || decide (ry.seq ≤ EventRecord.slot r i)) := by
  have hlt := hg.index_lt hi
  unfold isAncestor
  by_cases hxy : x = y
  · rw [if_pos hxy, decide_eq_true hxy, Bool.true_or]
  · rw [if_neg hxy, decide_eq_false hxy, Bool.false_or, Consistent.getOrUnknown_eq hx,
      Consistent.getOrUnknown_eq hy]
    simp only [bind, Except.bind, hi, okOr, hg.ancestorSeq_eq hx hlt,
      hg.creatorHasKnownFork_eq hlt, hclean i]
    by_cases hle : ry.seq ≤ EventRecord.slot r i
    · rw [if_neg (by omega), decide_eq_true hle]
      rfl
    · rw [if_pos (by omega), decide_eq_false hle]
      rfl

/-- Where no fork is known, `see` does not differ from `is_ancestor`. -/
theorem Consistent.sees_unforked {i : ℕ} (hg : g.Consistent) (hclean : ∀ i, g.flagged i = false)
    (hx : g.get? x = some r) {ry : EventRecord} (hy : g.get? y = some ry)
    (hi : g.memberIndexOf ry.event.creator = some i) :
    g.sees x y = (decide (x = y) || decide (ry.seq ≤ EventRecord.slot r i)) := by
  unfold sees see
  rw [hg.isAncestor_unforked hclean hx hy hi]
  cases decide (x = y) || decide (ry.seq ≤ EventRecord.slot r i) with
  | false => rfl
  | true =>
    simp only [bind, Except.bind, if_true, Consistent.getOrUnknown_eq hy, hi, okOr,
      hg.creatorHasKnownFork_eq (hg.index_lt hi), hclean i]
    rfl

namespace Whole

theorem isSome_of_anc (hw : g.Whole) (hx : (g.get? x).isSome) (h : g.Anc x y) :
    (g.get? y).isSome := by
  induction h with
  | refl => exact hx
  | tail _ hlink ih =>
    obtain ⟨r, hr, hp⟩ := exists_of_mem_parentsOf hlink
    exact hw.parents hr _ hp

/-- Ancestors of one another are equal: the links lead to lower ranks. -/
theorem anc_antisymm (hw : g.Whole) (hxy : g.Anc x y) (hyx : g.Anc y x) : x = y := by
  obtain ⟨rank, hrank⟩ := hw.rank
  have hle {u v : EventHash} (h : g.Anc u v) : u = v ∨ rank v < rank u := by
    induction h with
    | refl => exact .inl rfl
    | tail _ hlink ih =>
      have hlt := hrank hlink
      rcases ih with rfl | ih
      · exact .inr hlt
      · exact .inr (hlt.trans ih)
  rcases hle hxy with hsame | hlt
  · exact hsame
  · rcases hle hyx with hsame | hlt'
    · exact hsame.symm
    · omega

/-- A proper ancestor is an ancestor of a parent. -/
theorem anc_cases (h : g.Anc x y) : x = y ∨ ∃ p ∈ g.parentsOf x, g.Anc p y := by
  rcases Relation.ReflTransGen.cases_head h with hsame | ⟨p, hp, hrest⟩
  · exact .inl hsame
  · exact .inr ⟨p, hp, hrest⟩

/-- Induction along the parent links. -/
theorem parents_induction (hw : g.Whole) {motive : ∀ x, (g.get? x).isSome → Prop}
    (step : ∀ x r (hr : g.get? x = some r),
      (∀ p (hp : p ∈ r.event.parents), motive p (hw.parents hr p hp)) →
        motive x (Option.isSome_of_eq_some hr))
    (x : EventHash) (hx : (g.get? x).isSome) : motive x hx := by
  obtain ⟨rank, hrank⟩ := hw.rank
  induction hn : rank x using Nat.strong_induction_on generalizing x with
  | _ n ih =>
    obtain ⟨r, hr⟩ := Option.isSome_iff_exists.mp hx
    refine step x r hr fun p hp => ?_
    exact ih (rank p) (hn ▸ hrank ((mem_parentsOf hr).mpr hp)) p (hw.parents hr p hp) rfl

/-! ## A creator's events -/

theorem seq_eq_one (hw : g.Whole) (hx : g.get? x = some r) (hself : r.event.selfParent = none) :
    r.seq = 1 := by
  rw [hw.seq hx, newSeq, selfRecord, hself]
  rfl

/-- The event before a creator's event. -/
theorem exists_selfParent (hw : g.Whole) (hg : g.Consistent) (hx : g.IsEventAt c (s + 2) x) :
    ∃ r p, g.get? x = some r ∧ r.event.selfParent = some p ∧ g.IsEventAt c (s + 1) p := by
  obtain ⟨r, hr, hc, hs⟩ := hx
  cases hself : r.event.selfParent with
  | none =>
    have := hw.seq_eq_one hr hself
    omega
  | some p =>
    obtain ⟨rp, hrp⟩ := Option.isSome_iff_exists.mp
      (hw.parents hr p (Event.mem_parents.mpr (.inl hself)))
    obtain ⟨hseq, hcreator⟩ := hg.self_parent hr hself hrp
    exact ⟨r, p, hr, hself, rp, hrp, hcreator.trans hc, by omega⟩

/-- The chain of a creator's event has an event of every lower number. -/
theorem exists_selfAnc (hw : g.Whole) (hg : g.Consistent) (hx : g.IsEventAt c s x) (hpos : 0 < t)
    (hle : t ≤ s) : ∃ u, g.SelfAnc x u ∧ g.IsEventAt c t u := by
  induction s generalizing x with
  | zero => omega
  | succ s ih =>
    rcases Nat.lt_or_eq_of_le hle with hlt | rfl
    · obtain ⟨k, rfl⟩ : ∃ k, s = k + 1 := ⟨s - 1, by omega⟩
      obtain ⟨r, p, hr, hself, hp⟩ := hw.exists_selfParent hg hx
      obtain ⟨u, hu, hat⟩ := ih hp (by omega)
      exact ⟨u, .head ⟨r, hr, hself⟩ hu, hat⟩
    · exact ⟨x, .refl, hx⟩

theorem selfParent_eq_none (hw : g.Whole) (hg : g.Consistent) (hx : g.get? x = some r)
    (hseq : r.seq = 1) : r.event.selfParent = none := by
  cases hself : r.event.selfParent with
  | none => rfl
  | some p =>
    obtain ⟨rp, hrp⟩ := Option.isSome_iff_exists.mp
      (hw.parents hx p (Event.mem_parents.mpr (.inl hself)))
    have hstep := (hg.self_parent hx hself hrp).1
    have hpos := hg.seq_pos hrp
    omega

/-- Of two events on one self-parent at most one is the registered first child. -/
theorem forkKnown_of_siblings (hw : g.Whole) {ra rb : EventRecord} (ha : g.get? a = some ra)
    (hb : g.get? b = some rb) (hcreator : ra.event.creator = rb.event.creator)
    (hself : ra.event.selfParent = rb.event.selfParent) (hne : a ≠ b) :
    g.forkKnown rb.event.creator = true := by
  obtain ⟨f, hf, hfa⟩ := hw.branch ha
  obtain ⟨f', hf', hfb⟩ := hw.branch hb
  rw [hcreator, hself] at hf
  rw [hcreator] at hfa
  obtain rfl := Option.some.inj (hf.symm.trans hf')
  rcases hfa with rfl | hknown
  · exact hfb.resolve_left hne
  · exact hknown

/-- Two events of a creator with one number have two events on their chains, or are themselves two,
on one self-parent. -/
theorem exists_siblings_of_ne (hw : g.Whole) (hg : g.Consistent) (ha : g.IsEventAt c s a)
    (hb : g.IsEventAt c s b) (hne : a ≠ b) :
    ∃ u v ru rv, u ≠ v ∧ g.SelfAnc a u ∧ g.SelfAnc b v ∧ g.get? u = some ru ∧ g.get? v = some rv ∧
      ru.event.creator = c ∧ rv.event.creator = c ∧ ru.event.selfParent = rv.event.selfParent := by
  induction s generalizing a b with
  | zero =>
    obtain ⟨r, hr, -, hs⟩ := ha
    have := hg.seq_pos hr
    omega
  | succ s ih =>
    obtain ⟨ra, hra, hca, hsa⟩ := ha
    obtain ⟨rb, hrb, hcb, hsb⟩ := hb
    cases s with
    | zero =>
      refine ⟨a, b, ra, rb, hne, .refl, .refl, hra, hrb, hca, hcb, ?_⟩
      rw [hw.selfParent_eq_none hg hra hsa, hw.selfParent_eq_none hg hrb hsb]
    | succ s =>
      -- Either the events share their self-parent, or the self-parents are the two events.
      obtain ⟨ra', p, hra', hself, hp⟩ := hw.exists_selfParent hg ⟨ra, hra, hca, hsa⟩
      obtain ⟨rb', q, hrb', hself', hq⟩ := hw.exists_selfParent hg ⟨rb, hrb, hcb, hsb⟩
      obtain rfl := Option.some.inj (hra.symm.trans hra')
      obtain rfl := Option.some.inj (hrb.symm.trans hrb')
      by_cases hpq : p = q
      · exact ⟨a, b, ra, rb, hne, .refl, .refl, hra, hrb, hca, hcb, by rw [hself, hself', hpq]⟩
      · obtain ⟨u, v, ru, rv, huv, hpu, hqv, hrest⟩ := ih hp hq hpq
        exact ⟨u, v, ru, rv, huv, .head ⟨ra, hra, hself⟩ hpu, .head ⟨rb, hrb, hself'⟩ hqv, hrest⟩

theorem forkedBy_of_ne (hw : g.Whole) (hg : g.Consistent) (ha : g.IsEventAt c s a)
    (hb : g.IsEventAt c s b) (hne : a ≠ b) : g.ForkedBy c := by
  obtain ⟨u, v, ru, rv, huv, -, -, hrest⟩ := hw.exists_siblings_of_ne hg ha hb hne
  exact ⟨u, v, ru, rv, huv, hrest⟩

/-- Two events of a creator with one number give the creator away. -/
theorem forkKnown_of_ne (hw : g.Whole) (hg : g.Consistent) (ha : g.IsEventAt c s a)
    (hb : g.IsEventAt c s b) (hne : a ≠ b) : g.forkKnown c = true := by
  obtain ⟨a', b', ra, rb, hne', hra, hrb, hca, rfl, hself⟩ := hw.forkedBy_of_ne hg ha hb hne
  exact hw.forkKnown_of_siblings hra hrb hca hself hne'

theorem not_seesFork (hw : g.Whole) (hg : g.Consistent) (h : g.forkKnown c = false) :
    ¬g.SeesFork x c := by
  rintro ⟨s, a, b, hne, -, -, ha, hb⟩
  rw [hw.forkKnown_of_ne hg ha hb hne] at h
  cases h

/-! ## Rows -/

theorem reachOf_self (hg : g.Consistent) (hx : g.get? x = some r) :
    g.reachOf x r.event.creator = r.seq := by
  obtain ⟨i, hi⟩ := hg.member hx
  rw [reachOf_of_get? hx, hi]
  show r.ancestorSeqs[i]?.getD 0 = r.seq
  rw [hg.own_slot hx hi]
  rfl

/-- A row names an ancestor. -/
theorem exists_of_reachOf (hw : g.Whole) (hg : g.Consistent) (hx : (g.get? x).isSome)
    (hne : g.reachOf x c ≠ 0) : ∃ z, g.Anc x z ∧ g.IsEventAt c (g.reachOf x c) z := by
  induction x, hx using hw.parents_induction with
  | step x r hr ih =>
    by_cases hc : c = r.event.creator
    · subst hc
      exact ⟨x, .refl, r, hr, rfl, (reachOf_self hg hr).symm⟩
    · have hparent {p : EventHash} (hp : p ∈ r.event.parents)
          (heq : g.reachOf x c = g.reachOf p c) :
          ∃ z, g.Anc x z ∧ g.IsEventAt c (g.reachOf x c) z := by
        rw [heq] at hne ⊢
        obtain ⟨z, hz, hat⟩ := ih p hp hne
        exact ⟨z, .head ((mem_parentsOf hr).mpr hp) hz, hat⟩
      have hreach := hw.reach hr hc
      rw [newReach] at hreach
      rcases max_choice (r.event.selfParent.elim 0 (g.reachOf · c))
        (r.event.otherParent.elim 0 (g.reachOf · c)) with hmax | hmax
      · rw [hmax] at hreach
        cases hself : r.event.selfParent with
        | none => exact absurd (by rw [hreach, hself]; rfl) hne
        | some p =>
          rw [hself] at hreach
          exact hparent (Event.mem_parents.mpr (.inl hself)) hreach
      · rw [hmax] at hreach
        cases hother : r.event.otherParent with
        | none => exact absurd (by rw [hreach, hother]; rfl) hne
        | some p =>
          rw [hother] at hreach
          exact hparent (Event.mem_parents.mpr (.inr hother)) hreach

theorem reachOf_parent_le (hw : g.Whole) (hx : g.get? x = some r) (hc : c ≠ r.event.creator)
    {p : EventHash} (hp : p ∈ r.event.parents) : g.reachOf p c ≤ g.reachOf x c := by
  rw [hw.reach hx hc, newReach]
  rcases Event.mem_parents.mp hp with hp | hp
  · rw [hp]
    exact le_max_left _ _
  · rw [hp]
    exact le_max_right _ _

/-- A row names every creator's newest event in the ancestry, unless that holds a fork of the
creator: the own slot of a forker's event can be below what its other parent names. -/
theorem le_reachOf (hw : g.Whole) (hg : g.Consistent) (hx : (g.get? x).isSome)
    (hfork : ¬g.SeesFork x c) (hz : g.Anc x z) (hat : g.IsEventAt c s z) :
    s ≤ g.reachOf x c := by
  induction x, hx using hw.parents_induction with
  | step x r hr ih =>
    rcases anc_cases hz with rfl | ⟨p, hp, hpz⟩
    · obtain ⟨r', hr', rfl, rfl⟩ := hat
      rw [reachOf_self hg hr']
    · rw [mem_parentsOf hr] at hp
      have hanc : g.Anc x p := .single ((mem_parentsOf hr).mpr hp)
      have hle := ih p hp (fun h => hfork (h.mono hanc)) hpz
      by_cases hc : c = r.event.creator
      · -- An event of the creator above the own number sits on a chain through that number.
        subst hc
        rw [reachOf_self hg hr]
        by_contra hlt
        obtain ⟨u, hu, hatu⟩ := hw.exists_selfAnc hg hat (hg.seq_pos hr) (by omega)
        have hpu : g.Anc p u := hpz.trans hu.anc
        refine hfork ⟨r.seq, x, u, ?_, .refl, hanc.trans hpu, isEventAt_of_get? hr, hatu⟩
        rintro rfl
        obtain rfl := hw.anc_antisymm hanc hpu
        obtain ⟨rank, hrank⟩ := hw.rank
        exact absurd (hrank ((mem_parentsOf hr).mpr hp)) (lt_irrefl _)
      · exact hle.trans (hw.reachOf_parent_le hr hc hp)

/-! ## Seeing -/

theorem reachOf_eq_slot (hx : g.get? x = some r) {i : ℕ} (hi : g.memberIndexOf c = some i) :
    g.reachOf x c = EventRecord.slot r i := by
  rw [reachOf_of_get? hx, hi]
  rfl

theorem forkKnown_eq {i : ℕ} (hi : g.memberIndexOf c = some i) : g.forkKnown c = g.flagged i := by
  rw [forkKnown, hi]
  rfl

/-- `is_ancestor` decides ancestry where the row reaches the ancestors of the creator asked
about. -/
theorem isAncestor_iff_of_reach (hw : g.Whole) (hg : g.Consistent) (hx : g.get? x = some r)
    {ry : EventRecord} (hy : g.get? y = some ry)
    (hreach : g.Anc x y → ry.seq ≤ g.reachOf x ry.event.creator) :
    ∃ b, g.isAncestor x y = .ok b ∧ (b = true ↔ g.Anc x y) := by
  obtain ⟨i, hi⟩ := hg.member hy
  unfold isAncestor
  by_cases hxy : x = y
  · rw [if_pos hxy]
    exact ⟨true, rfl, by simp [hxy, Anc, Reach, Relation.ReflTransGen.refl]⟩
  · rw [if_neg hxy, Consistent.getOrUnknown_eq hx, Consistent.getOrUnknown_eq hy]
    simp only [bind, Except.bind, hi, okOr, hg.ancestorSeq_eq hx (hg.index_lt hi),
      hg.creatorHasKnownFork_eq (hg.index_lt hi), ← reachOf_eq_slot hx hi, ← forkKnown_eq hi]
    by_cases hlt : ry.seq > g.reachOf x ry.event.creator
    · rw [if_pos hlt]
      refine ⟨false, rfl, iff_of_false (by simp) fun hanc => ?_⟩
      have hle := hreach hanc
      omega
    · rw [if_neg hlt]
      cases hknown : g.forkKnown ry.event.creator with
      | true => exact g.ancestryContainsEvent_eq x y
      | false =>
        -- The row names an event above `y`, and its chain has no other event of that number.
        refine ⟨true, rfl, iff_of_true rfl ?_⟩
        have hpos := hg.seq_pos hy
        obtain ⟨z, hz, hat⟩ := hw.exists_of_reachOf hg (Option.isSome_of_eq_some hx)
          (c := ry.event.creator) (by omega)
        obtain ⟨u, hu, hatu⟩ := hw.exists_selfAnc hg hat hpos (by omega)
        have huy : u = y := by
          by_contra hne
          rw [hw.forkKnown_of_ne hg hatu (isEventAt_of_get? hy) hne] at hknown
          cases hknown
        exact hz.trans (huy ▸ hu.anc)

/-- `is_ancestor` decides ancestry for events whose creators the ancestry holds no fork of. -/
theorem isAncestor_iff (hw : g.Whole) (hg : g.Consistent) (hx : g.get? x = some r)
    {ry : EventRecord} (hy : g.get? y = some ry) (hfork : ¬g.SeesFork x ry.event.creator) :
    ∃ b, g.isAncestor x y = .ok b ∧ (b = true ↔ g.Anc x y) :=
  hw.isAncestor_iff_of_reach hg hx hy fun hanc =>
    hw.le_reachOf hg (Option.isSome_of_eq_some hx) hfork hanc (isEventAt_of_get? hy)

/-- `see` decides ancestry without a fork of the creator in the ancestry. -/
theorem sees_iff (hw : g.Whole) (hg : g.Consistent) (hx : g.get? x = some r) {ry : EventRecord}
    (hy : g.get? y = some ry) :
    g.sees x y = true ↔ g.Anc x y ∧ ¬g.SeesFork x ry.event.creator := by
  obtain ⟨i, hi⟩ := hg.member hy
  unfold sees see
  obtain ⟨fork, hfork, hforkiff⟩ := g.ancestryContainsForkOf_eq x ry.event.creator
  simp only [Consistent.getOrUnknown_eq hy, bind, Except.bind, hi, okOr,
    hg.creatorHasKnownFork_eq (hg.index_lt hi), ← forkKnown_eq hi, hfork]
  by_cases hsees : g.SeesFork x ry.event.creator
  · -- The fork is known, and the last test answers no whatever the first one did.
    have hknown : g.forkKnown ry.event.creator = true := by
      by_contra hknown
      exact hw.not_seesFork hg (Bool.not_eq_true _ ▸ hknown) hsees
    obtain ⟨b, hb⟩ : ∃ b, g.isAncestor x y = .ok b :=
      ⟨_, (hg.isAncestor_safe (E := fun _ => False) hx hy).returns.eq_ok⟩
    rw [hb]
    cases b <;> simp [hknown, hforkiff.mpr hsees, hsees, truth, pure, Except.pure]
  · obtain ⟨b, hb, hbiff⟩ := hw.isAncestor_iff hg hx hy hsees
    have hno : fork = false := Bool.eq_false_iff.mpr fun h => hsees (hforkiff.mp h)
    rw [hb, and_iff_left hsees, ← hbiff]
    cases b <;> cases g.forkKnown ry.event.creator <;>
      simp [hno, truth, pure, Except.pure]

end Whole

end Links

/-! ## Strongly seeing -/

/-- The event of the creator that the row of `x` names, found from `x`. -/
def newestOf (g : Hashgraph) (x : EventHash) (c : NodeId) : Option EventHash :=
  if g.reachOf x c = 0 then none
  else (g.ancestorEventForCreator x c (g.reachOf x c)).toOption.getD none

/-- Whether the member counts towards `x` strongly seeing `y`. -/
def carries (g : Hashgraph) (x y : EventHash) (c : NodeId) : Bool :=
  (g.get? x).any fun r => (g.memberIndexOf c).any fun i => truth (g.memberCounts x y r (c, i))

/-- The members that count towards `x` strongly seeing `y`. -/
def carriers (g : Hashgraph) (x y : EventHash) : Finset NodeId :=
  (g.memberIndex.keys.filter (g.carries x y)).toFinset

section Strongly

variable {g : Hashgraph} {x y z : EventHash} {r ry : EventRecord} {c : NodeId} {s : ℕ}

namespace Whole

/-- The two ways to find a creator's event agree on what the ancestry holds. -/
theorem creatorChainEvent_eq (hw : g.Whole) (hg : g.Consistent) {i : ℕ}
    (hi : g.memberIndexOf c = some i) (h : ∃ z, g.Anc x z ∧ g.IsEventAt c s z) :
    g.creatorChainEvent x c i s = g.ancestorEventForCreator x c s := by
  obtain ⟨z, hz, hat⟩ := h
  unfold creatorChainEvent
  rw [hg.creatorHasKnownFork_eq (hg.index_lt hi), ← forkKnown_eq hi]
  cases hknown : g.forkKnown c with
  | true => rfl
  | false =>
    obtain ⟨res, hres, hfound, hnone⟩ := g.ancestorEventForCreator_eq x c s
    have hunique {a b : EventHash} (ha : g.IsEventAt c s a) (hb : g.IsEventAt c s b) : a = b := by
      by_contra hne
      rw [hw.forkKnown_of_ne hg ha hb hne] at hknown
      cases hknown
    obtain ⟨f, hf⟩ : ∃ f, g.eventForCreatorSeq c s = some f := by
      obtain ⟨rz, hrz, rfl, rfl⟩ := hat
      exact Option.isSome_iff_exists.mp (hw.slot hrz)
    rw [hres]
    cases res with
    | none => exact absurd hat (hnone rfl z hz)
    | some a =>
      rw [hunique (hfound a rfl).2 (hg.indexed hf)]
      simp [bind, Except.bind, pure, Except.pure, hf]

theorem newestOf_eq (hw : g.Whole) (hg : g.Consistent) (hx : (g.get? x).isSome)
    (hne : g.reachOf x c ≠ 0) : ∃ z, g.newestOf x c = some z ∧ g.Anc x z ∧
      g.IsEventAt c (g.reachOf x c) z ∧
      g.ancestorEventForCreator x c (g.reachOf x c) = .ok (some z) := by
  obtain ⟨z, hz, hat⟩ := hw.exists_of_reachOf hg hx hne
  obtain ⟨res, hres, hfound, hnone⟩ := g.ancestorEventForCreator_eq x c (g.reachOf x c)
  cases res with
  | none => exact absurd hat (hnone rfl z hz)
  | some a =>
    refine ⟨a, ?_, (hfound a rfl).1, (hfound a rfl).2, hres⟩
    rw [newestOf, if_neg hne, hres]
    rfl

theorem newestOf_spec (hw : g.Whole) (hg : g.Consistent) (hx : (g.get? x).isSome)
    (h : g.newestOf x c = some z) : g.Anc x z ∧ g.IsEventAt c (g.reachOf x c) z := by
  have hne : g.reachOf x c ≠ 0 := by
    intro hzero
    rw [newestOf, if_pos hzero] at h
    cases h
  obtain ⟨z', hz', hanc, hat, -⟩ := hw.newestOf_eq hg hx hne
  obtain rfl := Option.some.inj (hz'.symm.trans h)
  exact ⟨hanc, hat⟩

/-- The walk down a chain finds an event that sees the target, if there is one. -/
theorem chainReaches_iff (hw : g.Whole) (hg : g.Consistent) (hy : g.get? y = some ry) {fuel : ℕ}
    (hx : g.get? x = some r) (hfuel : r.seq < fuel) :
    truth (g.chainReaches y fuel x) = true ↔ ∃ z, g.SelfAnc x z ∧ g.sees z y = true := by
  induction fuel generalizing x r with
  | zero => omega
  | succ fuel ih =>
    unfold chainReaches
    rw [hg.see_eq hx hy]
    simp only [bind, Except.bind, hx, Option.bind_some]
    cases hsees : g.sees x y with
    | true =>
      simp only [if_true]
      exact iff_of_true rfl ⟨x, .refl, hsees⟩
    | false =>
      have hhead : (∃ z, g.SelfAnc x z ∧ g.sees z y = true) ↔
          ∃ p, r.event.selfParent = some p ∧ ∃ z, g.SelfAnc p z ∧ g.sees z y = true := by
        constructor
        · rintro ⟨z, hz, hzy⟩
          rcases Relation.ReflTransGen.cases_head hz with rfl | ⟨p, ⟨r', hr', hself⟩, hpz⟩
          · rw [hsees] at hzy
            cases hzy
          · obtain rfl := Option.some.inj (hx.symm.trans hr')
            exact ⟨p, hself, z, hpz, hzy⟩
        · rintro ⟨p, hself, z, hpz, hzy⟩
          exact ⟨z, .head ⟨r, hx, hself⟩ hpz, hzy⟩
      rw [hhead]
      cases hself : r.event.selfParent with
      | none => simp [truth, pure, Except.pure]
      | some p =>
        obtain ⟨rp, hrp⟩ := Option.isSome_iff_exists.mp
          (hw.parents hx p (Event.mem_parents.mpr (.inl hself)))
        have hseq := (hg.self_parent hx hself hrp).1
        simpa [hrp] using ih hrp (by omega)

/-- A member carries the sight of `y` to `x` if an event on the chain of the event that the row of
`x` names sees `y`. -/
theorem carries_iff (hw : g.Whole) (hg : g.Consistent) (hx : g.get? x = some r)
    (hy : g.get? y = some ry) : g.carries x y c = true ↔
      ∃ z, g.newestOf x c = some z ∧ ∃ u, g.SelfAnc z u ∧ g.sees u y = true := by
  have hsome := Option.isSome_of_eq_some hx
  rw [carries, hx, Option.any_some]
  cases hi : g.memberIndexOf c with
  | none =>
    refine iff_of_false (by simp) ?_
    rintro ⟨z, hz, -⟩
    rw [newestOf, if_pos (reachOf_eq_zero hi)] at hz
    cases hz
  | some i =>
    rw [Option.any_some, memberCounts, hg.ancestorSeq_eq hx (hg.index_lt hi),
      ← reachOf_eq_slot hx hi]
    simp only [bind, Except.bind]
    by_cases hzero : g.reachOf x c = 0
    · rw [if_pos hzero, newestOf, if_pos hzero]
      simp [truth, pure, Except.pure]
    · obtain ⟨z, hz, hanc, hat, hfind⟩ := hw.newestOf_eq hg hsome hzero
      rw [if_neg hzero, Consistent.memberChainReaches_eq,
        hw.creatorChainEvent_eq hg hi ⟨z, hanc, hat⟩, hfind, hz]
      obtain ⟨rz, hrz, -, hseq⟩ := hat
      simp only [bind, Except.bind, Option.some.injEq, exists_eq_left']
      exact hw.chainReaches_iff hg hy hrz (by omega)

theorem mem_carriers : c ∈ g.carriers x y ↔ g.carries x y c = true := by
  rw [carriers, List.mem_toFinset, List.mem_filter, and_iff_right_of_imp]
  intro h
  rw [carries, Option.any_eq_true] at h
  obtain ⟨r, -, h⟩ := h
  rw [Option.any_eq_true] at h
  obtain ⟨i, hi, -⟩ := h
  rw [ExtTreeMap.mem_keys, ← ExtTreeMap.isSome_getElem?_iff_mem]
  exact Option.isSome_of_eq_some hi

/-- The carriers are what the loop of `strongly_see_at` counts. -/
theorem card_carriers (hx : g.get? x = some r) : (g.carriers x y).card =
    g.memberIndex.toList.countP fun m => truth (g.memberCounts x y r m) := by
  have hnodup : (g.memberIndex.keys.filter (g.carries x y)).Nodup :=
    ExtTreeMap.nodup_keys.filter _
  rw [carriers, List.toFinset_card_of_nodup hnodup, ← List.countP_eq_length_filter,
    ← ExtTreeMap.map_fst_toList_eq_keys, List.countP_map]
  refine List.countP_congr fun m hm => ?_
  have hi : g.memberIndexOf m.1 = some m.2 := ExtTreeMap.mem_toList_iff_getElem?_eq_some.mp hm
  simp only [Function.comp_apply, carries, hx, hi, Option.any_some]

theorem stronglySeesAt_eq (hg : g.Consistent) (hx : g.get? x = some r)
    (hy : g.get? y = some ry) (n : ℕ) : g.stronglySeesAt x y n = (g.sees x y &&
      (g.memberCountAtRound n).toOption.any fun total =>
        decide (total * 2 < (g.carriers x y).card * 3)) := by
  have hcount : countM (g.memberCounts x y r) g.memberIndex.toList = .ok (g.carriers x y).card := by
    rw [card_carriers hx]
    exact (countM_returns (E := fun _ => False) fun m hm =>
      (hg.memberCounts_safe hx hy (hg.memberIndex_lt hm)).returns).eq_ok
  unfold stronglySeesAt stronglySeeAt
  rw [hg.see_eq hx hy, Consistent.getOrUnknown_eq hx]
  simp only [bind, Except.bind, hcount]
  cases g.sees x y with
  | false => rfl
  | true =>
    cases g.memberCountAtRound n with
    | error e => rfl
    | ok total => rfl

end Whole

end Strongly

/-! ## Rounds along the links -/

section Rounds

variable {g : Hashgraph} {x y : EventHash} {r ry : EventRecord}

namespace Whole

theorem le_newBase (hx : g.get? x = some r) (hy : g.get? y = some ry)
    (hp : y ∈ r.event.parents) : ry.round ≤ g.newBase r.event := by
  rcases Event.mem_parents.mp hp with hself | hother
  · have hrec : g.selfRecord r.event = some ry := by rw [selfRecord, hself]; exact hy
    rw [newBase, hrec]
    cases g.otherRecord r.event with
    | none => exact le_rfl
    | some r' => exact le_max_left _ _
  · have hrec : g.otherRecord r.event = some ry := by rw [otherRecord, hother]; exact hy
    rw [newBase, hrec]
    cases g.selfRecord r.event with
    | none => exact le_rfl
    | some r' => exact le_max_right _ _

theorem newBase_le_round (hw : g.Whole) (hx : g.get? x = some r) :
    g.newBase r.event ≤ r.round := by
  obtain ⟨b, hround, -⟩ := hw.round hx
  rw [hround]
  exact g.newBase_le_newRound r.event b

theorem round_le_newBase_succ (hw : g.Whole) (hx : g.get? x = some r) :
    r.round ≤ g.newBase r.event + 1 := by
  obtain ⟨b, hround, -⟩ := hw.round hx
  rw [hround, newRound]
  split <;> omega

/-- Rounds do not decrease along the links, and a proper ancestor's is not above the base round. -/
theorem round_le_of_anc (hw : g.Whole) (hx : g.get? x = some r) (hy : g.get? y = some ry)
    (hanc : g.Anc x y) : x = y ∨ ry.round ≤ g.newBase r.event := by
  induction x, (Option.isSome_of_eq_some hx) using hw.parents_induction generalizing r with
  | step x r' hr' ih =>
    obtain rfl := Option.some.inj (hx.symm.trans hr')
    rcases anc_cases hanc with hsame | ⟨p, hp, hpy⟩
    · exact .inl hsame
    · rw [mem_parentsOf hx] at hp
      obtain ⟨rp, hrp⟩ := Option.isSome_iff_exists.mp (hw.parents hx p hp)
      have hbase := le_newBase hx hrp hp
      rcases ih p hp hrp hpy with rfl | hle
      · obtain rfl := Option.some.inj (hrp.symm.trans hy)
        exact .inr hbase
      · exact .inr (hle.trans ((hw.newBase_le_round hrp).trans hbase))

/-- Base rounds do not decrease along the links. -/
theorem newBase_le_of_anc (hw : g.Whole) (hx : g.get? x = some r) (hy : g.get? y = some ry)
    (hanc : g.Anc x y) : g.newBase ry.event ≤ g.newBase r.event := by
  rcases hw.round_le_of_anc hx hy hanc with rfl | hle
  · rw [Option.some.inj (hx.symm.trans hy)]
  · exact (hw.newBase_le_round hy).trans hle

/-- A witness is in a later round than the events below it on its chain. -/
theorem round_lt_of_selfAnc (hw : g.Whole) (hx : g.get? x = some r) (hy : g.get? y = some ry)
    (hwit : r.isWitness = true) (hchain : g.SelfAnc x y) (hne : x ≠ y) : ry.round < r.round := by
  rcases Relation.ReflTransGen.cases_head hchain with hsame | ⟨p, ⟨r', hr', hself⟩, hrest⟩
  · exact absurd hsame hne
  · obtain rfl := Option.some.inj (hx.symm.trans hr')
    obtain ⟨rp, hrp⟩ := Option.isSome_iff_exists.mp
      (hw.parents hx p (Event.mem_parents.mpr (.inl hself)))
    have hrec : g.selfRecord r.event = some rp := by rw [selfRecord, hself]; exact hrp
    obtain ⟨b, hround, hflag⟩ := hw.round hx
    have hlt : rp.round < r.round := by
      rw [hflag, newWitness, hrec] at hwit
      rw [hround]
      exact of_decide_eq_true hwit
    rcases hw.round_le_of_anc hrp hy (SelfAnc.anc hrest) with rfl | hle
    · rwa [← Option.some.inj (hrp.symm.trans hy)]
    · exact (hle.trans (hw.newBase_le_round hrp)).trans_lt hlt

/-- A creator that has not forked has one witness in a round. -/
theorem witness_unique (hw : g.Whole) (hwf : g.WellFormed) {n : ℕ}
    (hx : x ∈ g.witnessesOfRound n) (hy : y ∈ g.witnessesOfRound n)
    (hrx : g.get? x = some r) (hry : g.get? y = some ry)
    (hcreator : r.event.creator = ry.event.creator) (hfork : ¬g.ForkedBy ry.event.creator) :
    x = y := by
  have hg := hwf.toConsistent
  obtain ⟨r', hr', hround, hwit⟩ := hwf.witness_sound hx
  obtain ⟨ry', hry', hround', hwit'⟩ := hwf.witness_sound hy
  obtain rfl := Option.some.inj (hrx.symm.trans hr')
  obtain rfl := Option.some.inj (hry.symm.trans hry')
  have hunique {s : ℕ} {a b : EventHash} (ha : g.IsEventAt ry.event.creator s a)
      (hb : g.IsEventAt ry.event.creator s b) : a = b := by
    by_contra hne
    exact hfork (hw.forkedBy_of_ne hg ha hb hne)
  -- The lower of the two is on the chain of the upper one, which is in a later round.
  have hat : g.IsEventAt ry.event.creator r.seq x := ⟨r, hrx, hcreator, rfl⟩
  by_contra hne
  rcases Nat.le_total r.seq ry.seq with hle | hle
  · obtain ⟨u, hu, hatu⟩ := hw.exists_selfAnc hg (isEventAt_of_get? hry) (hg.seq_pos hrx) hle
    have hlt := hw.round_lt_of_selfAnc hry hrx hwit' (hunique hatu hat ▸ hu) (Ne.symm hne)
    omega
  · obtain ⟨u, hu, hatu⟩ := hw.exists_selfAnc hg hat (hg.seq_pos hry) hle
    have hlt := hw.round_lt_of_selfAnc hrx hry hwit (hunique hatu (isEventAt_of_get? hry) ▸ hu) hne
    omega

end Whole

end Rounds

end Hashgraph

end JKain
