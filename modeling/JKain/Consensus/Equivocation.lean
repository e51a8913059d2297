import JKain.Consensus.RoundSpec
import JKain.Lib.Election

/-!
# Forks and quorums

A member that does not fork has one chain of events, the same in every graph that holds a part of
it. Two quorums share such a member as long as fewer than a third of the members fork, and of its
two events below two observers one is below the other: the upper one has both branches of a fork in
its ancestry and sees neither. So no two events that fork are both strongly seen.
-/

namespace JKain

open Std JKain.Lib

/-- The creator has two events of `S` on one self-parent, or two without. -/
def Forks (S : Set Event) (c : NodeId) : Prop :=
  ∃ e ∈ S, ∃ e' ∈ S, e ≠ e' ∧ e.creator = c ∧ e'.creator = c ∧ e.selfParent = e'.selfParent

/-- `b` is `a` or is met on the self-parent links from `a` in `S`. -/
def Descends (H : Hasher) (S : Set Event) : EventHash → EventHash → Prop :=
  Relation.ReflTransGen fun a b => ∃ e ∈ S, H e = .ok a ∧ e.selfParent = some b

/-- The events of a creator that does not fork are told by their numbers. -/
theorem Numbered.eq_of_not_forks {H : Hasher} {S : Set Event} {e e' : Event} {n : ℕ}
    (h : Numbered H S e n) (h' : Numbered H S e' n) (hcreator : e.creator = e'.creator)
    (hfork : ¬Forks S e.creator) : e = e' := by
  induction h generalizing e' with
  | root he hself =>
    cases h' with
    | root he' hself' =>
      by_contra hne
      exact hfork ⟨_, he, _, he', hne, rfl, hcreator.symm, hself.trans hself'.symm⟩
    | child _ _ _ _ hnum' => cases hnum'
  | child he hself hp hpc _ ih =>
    cases h' with
    | root _ _ => rename_i hnum; cases hnum
    | child he' hself' hp' hpc' hnum' =>
      have hsame := ih hnum' (hpc.trans (hcreator.trans hpc'.symm)) (hpc ▸ hfork)
      rw [hsame, hp', Except.ok.injEq] at hp
      by_contra hne
      exact hfork ⟨_, he, _, he', hne, rfl, hcreator.symm, by rw [hself, hself', hp]⟩

theorem mem_of_forks {l : List Event} {F : Finset NodeId} (h : l.Pairwise fun e e' =>
      (e.creator, e.selfParent) = (e'.creator, e'.selfParent) → e.creator ∈ F) (c : NodeId)
    (hc : Forks {e | e ∈ l} c) : c ∈ F := by
  obtain ⟨e, he, e', he', hne, rfl, hcreator, hself⟩ := hc
  have : Std.Symm fun e e' : Event =>
      (e.creator, e.selfParent) = (e'.creator, e'.selfParent) → e.creator ∈ F := by
    refine ⟨fun a b hab heq => ?_⟩
    rw [show b.creator = a.creator from (Prod.ext_iff.mp heq).1]
    exact hab heq.symm
  exact h.forall he he' hne (by rw [hcreator, hself])

namespace Hashgraph

section Chains

variable {H : Hasher} {S : Set Event} {g g' : Hashgraph} {x y u u' w w' : EventHash}
  {r ry : EventRecord} {c m : NodeId} {s s' : ℕ}

theorem Sound.descends (hs : g.Sound H S) (h : g.SelfAnc x y) : Descends H S x y := by
  induction h with
  | refl => exact .refl
  | tail _ hlink ih =>
    obtain ⟨r, hr, hself⟩ := hlink
    obtain ⟨hhash, hnum⟩ := hs.numbered hr
    exact ih.tail ⟨r.event, hnum.mem, hhash, hself⟩

/-- The links in `S` from a stored event are links of the graph. -/
theorem Sound.selfAnc_of_descends (hs : g.Sound H S) (hfree : H.CollisionFree S) (hw : g.Whole)
    (hx : (g.get? x).isSome) (h : Descends H S x y) : g.SelfAnc x y := by
  induction h using Relation.ReflTransGen.head_induction_on with
  | refl => exact .refl
  | head hlink _ ih =>
    obtain ⟨e, he, hhash, hself⟩ := hlink
    obtain ⟨r, hr⟩ := Option.isSome_iff_exists.mp hx
    obtain ⟨hhash', hnum⟩ := hs.numbered hr
    obtain rfl := hfree _ hnum.mem _ he _ hhash' hhash
    exact .head ⟨r, hr, hself⟩ (ih (hw.parents hr _ (Event.mem_parents.mpr (.inl hself))))

/-- The chain of a creator's event is the creator's. -/
theorem SelfAnc.isEventAt (hw : g.Whole) (hg : g.Consistent) (h : g.SelfAnc x y)
    (hat : g.IsEventAt c s x) : ∃ t, g.IsEventAt c t y := by
  induction h with
  | refl => exact ⟨s, hat⟩
  | tail _ hlink ih =>
    obtain ⟨t, rb, hrb, hc, -⟩ := ih
    obtain ⟨r, hr, hself⟩ := hlink
    obtain rfl := Option.some.inj (hr.symm.trans hrb)
    obtain ⟨rp, hrp⟩ := Option.isSome_iff_exists.mp
      (hw.parents hr _ (Event.mem_parents.mpr (.inl hself)))
    exact ⟨rp.seq, rp, hrp, (hg.self_parent hr hself hrp).2.trans hc, rfl⟩

/-- A member that counts has an event below the observer that sees the target. -/
theorem Whole.exists_of_carries (hw : g.Whole) (hg : g.Consistent) (hx : g.get? x = some r)
    (hy : g.get? y = some ry) (h : g.carries x y c = true) :
    ∃ u s, g.Anc x u ∧ g.IsEventAt c s u ∧ g.sees u y = true := by
  obtain ⟨z, hz, u, hu, hsees⟩ := (hw.carries_iff hg hx hy).mp h
  obtain ⟨hanc, hat⟩ := hw.newestOf_spec hg (Option.isSome_of_eq_some hx) hz
  obtain ⟨t, hatu⟩ := hu.isEventAt hw hg hat
  exact ⟨u, t, hanc.trans hu.anc, hatu, hsees⟩

/-- The events of a member that does not fork are on one chain, across graphs. -/
theorem Meets.selfAnc_of_not_forks (h : Meets g g') (hs : g.Sound H S) (hs' : g'.Sound H S)
    (hfork : ¬Forks S m) (hu : g.IsEventAt m s u) (hu' : g'.IsEventAt m s' u') (hle : s ≤ s') :
    g'.SelfAnc u' u := by
  obtain ⟨r, hr, rfl, rfl⟩ := hu
  obtain ⟨v, hv, rv, hrv, hcreator, hseq⟩ :=
    h.whole'.exists_selfAnc h.consistent' hu' (h.consistent.seq_pos hr) hle
  obtain ⟨hhash, hnum⟩ := hs.numbered hr
  obtain ⟨hhash', hnum'⟩ := hs'.numbered hrv
  rw [hseq] at hnum'
  have hevent := hnum.eq_of_not_forks hnum' hcreator.symm hfork
  rw [hevent, hhash', Except.ok.injEq] at hhash
  exact hhash ▸ hv

/-- Two events of one creator in an ancestry, neither on the chain of the other, are a fork. -/
theorem Whole.seesFork_of_branches (hw : g.Whole) (hg : g.Consistent) (hx : g.Anc x w)
    (hx' : g.Anc x w') (hat : g.IsEventAt c s w) (hat' : g.IsEventAt c s' w')
    (hne : ¬g.SelfAnc w w') (hne' : ¬g.SelfAnc w' w) : g.SeesFork x c := by
  have hpos {t : ℕ} {a : EventHash} (ha : g.IsEventAt c t a) : 0 < t := by
    obtain ⟨r, hr, -, rfl⟩ := ha
    exact hg.seq_pos hr
  rcases Nat.le_total s s' with hle | hle
  · obtain ⟨v, hv, hatv⟩ := hw.exists_selfAnc hg hat' (hpos hat) hle
    exact ⟨s, v, w, fun hvw => hne' (hvw ▸ hv), hx'.trans hv.anc, hx, hatv, hat⟩
  · obtain ⟨v, hv, hatv⟩ := hw.exists_selfAnc hg hat (hpos hat') hle
    exact ⟨s', v, w', fun hvw => hne (hvw ▸ hv), hx.trans hv.anc, hx', hatv, hat'⟩

/-- An honest member's two events do not see two branches of a fork, one each. -/
theorem Meets.not_sees_branches (h : Meets g g') (hs : g.Sound H S) (hs' : g'.Sound H S)
    (hfork : ¬Forks S m) (hu : g.IsEventAt m s u) (hu' : g'.IsEventAt m s' u') (hle : s ≤ s')
    {rw' rw'' : EventRecord} (hw : g.get? w = some rw') (hw' : g'.get? w' = some rw'')
    (hcreator : rw'.event.creator = rw''.event.creator) (hne : ¬Descends H S w w')
    (hne' : ¬Descends H S w' w) (hsees : g.sees u w = true) (hsees' : g'.sees u' w' = true) :
    False := by
  obtain ⟨r, hr⟩ := Option.isSome_iff_exists.mp hu.isSome
  obtain ⟨r', hr'⟩ := Option.isSome_iff_exists.mp hu'.isSome
  -- The lower event is in the second graph too, and with it the branch it sees.
  have hchain := h.selfAnc_of_not_forks hs hs' hfork hu hu' hle
  have hstored : Meets.Both g g' u :=
    ⟨hu.isSome, h.whole'.isSome_of_anc hu'.isSome hchain.anc⟩
  obtain ⟨hanc, -⟩ := (h.whole.sees_iff h.consistent hr hw).mp hsees
  obtain ⟨hanc', hno⟩ := (h.whole'.sees_iff h.consistent' hr' hw').mp hsees'
  obtain ⟨hbelow, hboth⟩ := h.anc hstored hanc
  refine hno (h.whole'.seesFork_of_branches h.consistent' (hchain.anc.trans hbelow) hanc'
    (h.isEventAt ⟨rw', hw, hcreator, rfl⟩ hboth.2) (isEventAt_of_get? hw') ?_ ?_)
  · exact fun hdown => hne (hs'.descends hdown)
  · exact fun hdown => hne' (hs'.descends hdown)

/-- `see` answers yes about stored events only. -/
theorem exists_of_see (h : g.see x y = .ok true) :
    ∃ r ry, g.get? x = some r ∧ g.get? y = some ry := by
  cases hy : g.get? y with
  | none =>
    by_cases hxy : x = y
    · simp [see, isAncestor, hxy, getOrUnknown, hy, okOr, bind, Except.bind] at h
    · cases hx : g.get? x <;>
        simp [see, isAncestor, hxy, getOrUnknown, hx, hy, okOr, bind, Except.bind] at h
  | some ry =>
    by_cases hxy : x = y
    · exact ⟨ry, ry, hxy ▸ hy, rfl⟩
    · cases hx : g.get? x with
      | none => simp [see, isAncestor, hxy, getOrUnknown, hx, okOr, bind, Except.bind] at h
      | some r => exact ⟨r, ry, rfl, rfl⟩

/-- What `strongly_see` says when it answers yes, under a fixed registry. -/
theorem FixedRegistry.of_stronglySee {registry : MembershipRegistry}
    (hfix : FixedRegistry registry g) (hwf : g.WellFormed) (h : g.stronglySee x w = .ok true) :
    ∃ r rw', g.get? x = some r ∧ g.get? w = some rw' ∧
      2 * registry.memberIds.toFinset.card < 3 * (g.carriers x w).card := by
  have hsee : g.see x w = .ok true := by
    unfold stronglySee stronglySeeAt at h
    cases hs : g.see x w with
    | error e =>
      rw [hs] at h
      cases h
    | ok b =>
      cases b with
      | true => rfl
      | false =>
        rw [hs] at h
        cases h
  obtain ⟨r, rw', hr, hrw⟩ := exists_of_see hsee
  refine ⟨r, rw', hr, hrw, ?_⟩
  have hstrong : g.stronglySeesAt x w rw'.round = true := by
    rw [stronglySee, hrw] at h
    exact (congrArg truth h :)
  rw [Whole.stronglySeesAt_eq hwf.toConsistent hr hrw,
    hfix.memberCountAtRound_of_pos (hwf.round_pos hrw), Bool.and_eq_true] at hstrong
  have hlt := of_decide_eq_true hstrong.2
  omega

theorem FixedRegistry.carriers_subset {registry : MembershipRegistry}
    (hfix : FixedRegistry registry g) : g.carriers x w ⊆ registry.memberIds.toFinset := by
  intro c hc
  rw [carriers, List.mem_toFinset, List.mem_filter, ExtTreeMap.mem_keys, hfix.memberIndex_eq,
    indexMembers, ExtTreeMap.mem_ofList] at hc
  simpa using hc.1

section Branches

variable {registry : MembershipRegistry} {F : Finset NodeId} {x x' : EventHash}
  {rw' rw'' : EventRecord}

/-- Two branches of a creator are not both strongly seen, as long as fewer than a third of the
members fork: the quorums that carry them have an honest member in common. -/
theorem Reached.not_stronglySee_branches (hfree : H.CollisionFree S)
    (hF : ∀ c, Forks S c → c ∈ F) (hcard : 3 * F.card < registry.len)
    (hg : Reached H (fun _ op => op.Inserts S) registry g)
    (hg' : Reached H (fun _ op => op.Inserts S) registry g') (hrw : g.get? w = some rw')
    (hrw' : g'.get? w' = some rw'') (hcreator : rw'.event.creator = rw''.event.creator)
    (hne : ¬Descends H S w w') (hne' : ¬Descends H S w' w)
    (hstrong : g.stronglySee x w = .ok true) (hstrong' : g'.stronglySee x' w' = .ok true) :
    False := by
  have hmeets := hg.meets_of_inserts hfree hg'
  have hs := hg.sound hfree fun _ _ h => h.from
  have hs' := hg'.sound hfree fun _ _ h => h.from
  have hfix := hg.fixedRegistry hfree
  have hfix' := hg'.fixedRegistry hfree
  obtain ⟨r, -, hr, -, hquorum⟩ := hfix.of_stronglySee hs.wf hstrong
  obtain ⟨r', -, hr', -, hquorum'⟩ := hfix'.of_stronglySee hs'.wf hstrong'
  rw [registry.len_eq] at hcard
  obtain ⟨m, hm, hm', hmF⟩ := exists_common_of_quorums hfix.carriers_subset
    hfix'.carriers_subset hquorum hquorum' hcard
  have hfork : ¬Forks S m := fun h => hmF (hF m h)
  -- The common member has an event below each observer, and one of them is below the other.
  obtain ⟨u, s, -, hu, hsees⟩ := hmeets.whole.exists_of_carries hmeets.consistent hr hrw
    (Whole.mem_carriers.mp hm)
  obtain ⟨u', s', -, hu', hsees'⟩ := hmeets.whole'.exists_of_carries hmeets.consistent' hr' hrw'
    (Whole.mem_carriers.mp hm')
  rcases Nat.le_total s s' with hle | hle
  · exact hmeets.not_sees_branches hs hs' hfork hu hu' hle hrw hrw' hcreator hne hne' hsees hsees'
  · exact hmeets.symm.not_sees_branches hs' hs hfork hu' hu hle hrw' hrw hcreator.symm hne' hne
      hsees' hsees

/-- No two events of a creator, neither on the self-parent chain of the other, are strongly seen,
in one graph or in two, as long as fewer than a third of the members fork. -/
theorem strongly_see_excludes_forks {registry : MembershipRegistry} {F : Finset NodeId}
    {e f : Event} (hfree : H.CollisionFree S) (hF : ∀ c, Forks S c → c ∈ F)
    (hcard : 3 * F.card < registry.len)
    (hg : Reached H (fun _ op => op.Inserts S) registry g)
    (hg' : Reached H (fun _ op => op.Inserts S) registry g') (he : e ∈ S) (hf : f ∈ S)
    (hw : H e = .ok w) (hw' : H f = .ok w') (hcreator : e.creator = f.creator)
    (hne : ¬Descends H S w w') (hne' : ¬Descends H S w' w) (x x' : EventHash) :
    ¬(g.stronglySee x w = .ok true ∧ g'.stronglySee x' w' = .ok true) := by
  rintro ⟨hstrong, hstrong'⟩
  have hs := hg.sound hfree fun _ _ h => h.from
  have hs' := hg'.sound hfree fun _ _ h => h.from
  obtain ⟨-, rw', -, hrw, -⟩ := (hg.fixedRegistry hfree).of_stronglySee hs.wf hstrong
  obtain ⟨-, rw'', -, hrw', -⟩ := (hg'.fixedRegistry hfree).of_stronglySee hs'.wf hstrong'
  have hevent : rw'.event = e := by
    obtain ⟨hhash, hnum⟩ := hs.numbered hrw
    exact hfree _ hnum.mem _ he _ hhash hw
  have hevent' : rw''.event = f := by
    obtain ⟨hhash, hnum⟩ := hs'.numbered hrw'
    exact hfree _ hnum.mem _ hf _ hhash hw'
  exact hg.not_stronglySee_branches hfree hF hcard hg' hrw hrw'
    (by rw [hevent, hevent', hcreator]) hne hne' hstrong hstrong'

end Branches

end Chains

/-- Member 3 forks with its first event, and the others build on one branch. -/
def forkedRoot : List Event :=
  [plainEvent 1 0 none none, plainEvent 2 1 none none, plainEvent 3 2 none none,
    plainEvent 4 3 none none, plainEvent 5 3 none none, plainEvent 6 0 (some 1) (some 4),
    plainEvent 7 1 (some 2) (some 6), plainEvent 8 2 (some 3) (some 7),
    plainEvent 9 0 (some 6) (some 8)]

theorem not_descends_forkedRoot {a b : EventHash} (ha : a ∈ [4, 5]) (hne : a ≠ b) :
    ¬Descends stampHash {e | e ∈ forkedRoot} a b := by
  intro h
  rcases Relation.ReflTransGen.cases_head h with rfl | ⟨p, ⟨e, he, hhash, hself⟩, -⟩
  · exact hne rfl
  · have hroot : ∀ e ∈ forkedRoot, e.timestamp ∈ [4, 5] → e.selfParent = none := by decide
    rw [stampHash, Except.ok.injEq] at hhash
    rw [hroot e he (hhash ▸ ha)] at hself
    cases hself

/-- Member 0 strongly sees one branch, so nobody strongly sees the other. -/
theorem strongly_see_excludes_forks_root :
    ∃ g, Reached stampHash (fun _ op => op.Inserts {e | e ∈ forkedRoot}) (plainRegistry 4) g ∧
      g.stronglySee 9 4 = .ok true ∧ ∀ x, g.stronglySee x 5 ≠ .ok true := by
  have hrun : (replay stampHash (.new (plainRegistry 4)) (forkedRoot.map (.insert inOrder))).any
      (fun g => truth (g.stronglySee 9 4)) = true := by decide +kernel
  obtain ⟨g, hg, hstrong⟩ := exists_built (S := {e | e ∈ forkedRoot}) _ _ _ (fun _ he => he) hrun
  rw [truth_eq_true_iff] at hstrong
  refine ⟨g, hg, hstrong, fun x hx => ?_⟩
  exact strongly_see_excludes_forks (F := {3}) (e := plainEvent 4 3 none none)
    (f := plainEvent 5 3 none none) (collisionFree_stampHash (by decide))
    (mem_of_forks (by decide)) (by decide +kernel) hg hg (by decide) (by decide) rfl rfl rfl
    (not_descends_forkedRoot (by decide) (by decide))
    (not_descends_forkedRoot (by decide) (by decide)) 9 x ⟨hstrong, hx⟩

/-! ## The famous witnesses of a round

The registered first child of a self-parent stands for its branch, so which famous witness of a
forker takes part in the ordering is settled by the arrival of the branches. -/

/-- No creator of a famous witness of the round has forked among the stored events. -/
def FamousUnforked (g : Hashgraph) (n : ℕ) : Prop :=
  ∀ w r, w ∈ g.witnessesOfRound n → g.fameOf w = some .famous → g.get? w = some r →
    ¬g.ForkedBy r.event.creator

section Famous

variable {H : Hasher} {S : Set Event} {registry : MembershipRegistry} {g g' : Hashgraph}
  {w : EventHash} {r : EventRecord} {c : NodeId} {n : ℕ}

/-- The events of a creator that has not forked are the first on their self-parents. -/
theorem Whole.isCanonical (hw : g.Whole) (hr : g.get? w = some r)
    (hfork : ¬g.ForkedBy r.event.creator) : g.isCanonical w = true := by
  obtain ⟨f, hf, -⟩ := hw.branch hr
  obtain ⟨rf, hrf, hcreator, hself⟩ := hw.child hf
  have hfw : f = w := by
    by_contra hne
    exact hfork ⟨f, w, rf, r, hne, hrf, hr, hcreator, rfl, hself⟩
  rw [Hashgraph.isCanonical, hr, Option.any_some, hf, hfw]
  exact beq_self_eq_true _

theorem Meets.forkedBy (h : Meets g g') (hsame : ∀ x, (g'.get? x).isSome → (g.get? x).isSome)
    (hfork : g'.ForkedBy c) : g.ForkedBy c := by
  obtain ⟨a, b, ra, rb, hne, hra, hrb, hca, hcb, hself⟩ := hfork
  obtain ⟨ra', hra'⟩ := Option.isSome_iff_exists.mp (hsame a (Option.isSome_of_eq_some hra))
  obtain ⟨rb', hrb'⟩ := Option.isSome_iff_exists.mp (hsame b (Option.isSome_of_eq_some hrb))
  have ha := h.event_eq hra' hra
  have hb := h.event_eq hrb' hrb
  exact ⟨a, b, ra', rb', hne, hra', hrb', ha ▸ hca, hb ▸ hcb, by rw [ha, hb, hself]⟩

theorem mem_famousWitnessesOfRound :
    w ∈ g.famousWitnessesOfRound n ↔
      w ∈ g.witnessesOfRound n ∧ g.fameOf w = some .famous ∧ g.isCanonical w = true := by
  rw [famousWitnessesOfRound, List.mem_filter, Bool.and_eq_true, beq_iff_eq]

/-- The witnesses of a round are the same in graphs that hold the same events. -/
theorem Reached.mem_witnessesOfRound (hfree : H.CollisionFree S)
    (hg : Reached H (fun _ op => op.Inserts S) registry g)
    (hg' : Reached H (fun _ op => op.Inserts S) registry g')
    (hsame : ∀ x, (g.get? x).isSome → (g'.get? x).isSome) (hw : w ∈ g.witnessesOfRound n) :
    w ∈ g'.witnessesOfRound n := by
  obtain ⟨r, hr, hround, hwit⟩ := (hg.sound hfree fun _ _ h => h.from).wf.witness_sound hw
  have hstored := hsame w (Option.isSome_of_eq_some hr)
  obtain ⟨r', hr'⟩ := Option.isSome_iff_exists.mp hstored
  obtain ⟨hround', hwit'⟩ := hg.sameRound hfree hg' ⟨Option.isSome_of_eq_some hr, hstored⟩ r r' hr hr'
  rw [← hround, hround']
  exact (hg'.sound hfree fun _ _ h => h.from).wf.witness_complete hr' (hwit' ▸ hwit)

/-- A creator that does not fork in `S` has not forked in a graph over `S`. -/
theorem Sound.not_forkedBy (hs : g.Sound H S) (hforks : ¬Forks S c) : ¬g.ForkedBy c := by
  rintro ⟨a, b, ra, rb, hne, hra, hrb, hca, hcb, hself⟩
  obtain ⟨hha, hnum⟩ := hs.numbered hra
  obtain ⟨hhb, hnum'⟩ := hs.numbered hrb
  refine hforks ⟨ra.event, hnum.mem, rb.event, hnum'.mem, fun heq => hne ?_, hca, hcb, hself⟩
  rw [heq, hhb] at hha
  exact (Except.ok.inj hha).symm

end Famous

/-- The histories that build on the branch 4 of member 3, with the branches in the given order. -/
def branchHistory (first second : EventHash) : List Event :=
  [plainEvent 1 0 none none, plainEvent 2 1 none none, plainEvent 3 2 none none,
    plainEvent first 3 none none, plainEvent second 3 none none, plainEvent 6 0 (some 1) (some 4),
    plainEvent 7 1 (some 2) (some 6), plainEvent 8 2 (some 3) (some 7),
    plainEvent 9 0 (some 6) (some 8), plainEvent 10 1 (some 7) (some 9),
    plainEvent 11 2 (some 8) (some 10), plainEvent 12 0 (some 9) (some 11),
    plainEvent 13 1 (some 10) (some 12), plainEvent 14 2 (some 11) (some 13),
    plainEvent 15 0 (some 12) (some 14), plainEvent 16 1 (some 13) (some 15)]

end Hashgraph

end JKain
