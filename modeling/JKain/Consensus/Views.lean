import JKain.Consensus.Sight

/-!
# Two graphs over the same events

Two graphs that were never pruned and store the same event under every hash they both hold agree on
everything that the ancestry queries say about these events. So does one graph before and after an
insertion. The rounds follow: `RoundsSettled` says that every stored event has the round which its
ancestry gives it in the present graph, and two settled graphs with the same rosters give an event
that both hold the same round and the same witness flag.
-/

namespace JKain

open Std JKain.Lib

namespace Hashgraph

/-- Two whole graphs store the same event under a hash that both hold. -/
structure Meets (g g' : Hashgraph) : Prop where
  whole : g.Whole
  whole' : g'.Whole
  consistent : g.Consistent
  consistent' : g'.Consistent
  event_eq : ∀ {x r r'}, g.get? x = some r → g'.get? x = some r' → r.event = r'.event

namespace Meets

variable {g g' : Hashgraph} {x y z : EventHash} {r r' : EventRecord} {c : NodeId} {s : ℕ}

theorem symm (h : Meets g g') : Meets g' g :=
  ⟨h.whole', h.whole, h.consistent', h.consistent, fun hx hx' => (h.event_eq hx' hx).symm⟩

/-- Both graphs hold the event. -/
def Both (g g' : Hashgraph) (x : EventHash) : Prop := (g.get? x).isSome ∧ (g'.get? x).isSome

theorem Both.symm (h : Both g g' x) : Both g' g x := ⟨h.2, h.1⟩

theorem both_parent (h : Meets g g') (hx : g.get? x = some r) (hx' : (g'.get? x).isSome)
    {p : EventHash} (hp : p ∈ r.event.parents) : Both g g' p := by
  obtain ⟨r', hr'⟩ := Option.isSome_iff_exists.mp hx'
  exact ⟨h.whole.parents hx p hp, h.whole'.parents hr' p (h.event_eq hx hr' ▸ hp)⟩

/-- The ancestry of an event is the same in both graphs. -/
theorem anc (h : Meets g g') (hx : Both g g' x) (hanc : g.Anc x y) :
    g'.Anc x y ∧ Both g g' y := by
  induction hanc with
  | refl => exact ⟨.refl, hx⟩
  | tail _ hlink ih =>
    obtain ⟨hxa, ha⟩ := ih
    obtain ⟨r, hr, hp⟩ := exists_of_mem_parentsOf hlink
    obtain ⟨r', hr'⟩ := Option.isSome_iff_exists.mp ha.2
    exact ⟨hxa.tail ((mem_parentsOf hr').mpr (h.event_eq hr hr' ▸ hp)), h.both_parent hr ha.2 hp⟩

theorem anc_iff (h : Meets g g') (hx : Both g g' x) : g.Anc x y ↔ g'.Anc x y :=
  ⟨fun hanc => (h.anc hx hanc).1, fun hanc => (h.symm.anc hx.symm hanc).1⟩

theorem selfAnc (h : Meets g g') (hx : Both g g' x) (hanc : g.SelfAnc x y) : g'.SelfAnc x y := by
  induction hanc with
  | refl => exact .refl
  | tail hrest hlink ih =>
    obtain ⟨r, hr, hself⟩ := hlink
    obtain ⟨r', hr'⟩ := Option.isSome_iff_exists.mp (h.anc hx (SelfAnc.anc hrest)).2.2
    exact ih.tail ⟨r', hr', h.event_eq hr hr' ▸ hself⟩

/-- Induction along the parent links of an event that both graphs hold. -/
theorem both_induction (h : Meets g g') {motive : ∀ x, Both g g' x → Prop}
    (step : ∀ x r r' (hr : g.get? x = some r) (hr' : g'.get? x = some r'),
      (∀ p (hp : p ∈ r.event.parents),
        motive p (h.both_parent hr (Option.isSome_of_eq_some hr') hp)) →
      motive x ⟨Option.isSome_of_eq_some hr, Option.isSome_of_eq_some hr'⟩)
    (x : EventHash) (hx : Both g g' x) : motive x hx := by
  obtain ⟨hx, hx'⟩ := hx
  induction x, hx using h.whole.parents_induction with
  | step x r hr ih =>
    obtain ⟨r', hr'⟩ := Option.isSome_iff_exists.mp hx'
    exact step x r r' hr hr' fun p hp => ih p hp (h.both_parent hr hx' hp).2

theorem seq_eq (h : Meets g g') (hx : g.get? x = some r) (hx' : g'.get? x = some r') :
    r.seq = r'.seq := by
  have hboth : Both g g' x := ⟨Option.isSome_of_eq_some hx, Option.isSome_of_eq_some hx'⟩
  revert r r'
  induction x, hboth using h.both_induction with
  | step x r r' hr hr' ih =>
    intro r₁ r₁' hr₁ hr₁'
    obtain rfl := Option.some.inj (hr.symm.trans hr₁)
    obtain rfl := Option.some.inj (hr'.symm.trans hr₁')
    rw [h.whole.seq hr, h.whole'.seq hr', ← h.event_eq hr hr']
    unfold newSeq selfRecord
    cases hself : r.event.selfParent with
    | none => rfl
    | some p =>
      have hp := Event.mem_parents.mpr (.inl hself)
      obtain ⟨hp₁, hp₂⟩ := h.both_parent hr (Option.isSome_of_eq_some hr') hp
      obtain ⟨rp, hrp⟩ := Option.isSome_iff_exists.mp hp₁
      obtain ⟨rp', hrp'⟩ := Option.isSome_iff_exists.mp hp₂
      rw [Option.bind_some, Option.bind_some, hrp, hrp']
      exact congrArg (· + 1) (ih p hp hrp hrp')

theorem isEventAt (h : Meets g g') (hat : g.IsEventAt c s x) (hx : (g'.get? x).isSome) :
    g'.IsEventAt c s x := by
  obtain ⟨r, hr, rfl, rfl⟩ := hat
  obtain ⟨r', hr'⟩ := Option.isSome_iff_exists.mp hx
  exact ⟨r', hr', by rw [h.event_eq hr hr'], (h.seq_eq hr hr').symm⟩

theorem seesFork (h : Meets g g') (hx : Both g g' x) (hfork : g.SeesFork x c) :
    g'.SeesFork x c := by
  obtain ⟨s, a, b, hne, ha, hb, hata, hatb⟩ := hfork
  obtain ⟨ha', hastored⟩ := h.anc hx ha
  obtain ⟨hb', hbstored⟩ := h.anc hx hb
  exact ⟨s, a, b, hne, ha', hb', h.isEventAt hata hastored.2, h.isEventAt hatb hbstored.2⟩

theorem reachOf_eq (h : Meets g g') (hx : Both g g' x) (c : NodeId) :
    g.reachOf x c = g'.reachOf x c := by
  induction x, hx using h.both_induction with
  | step x r r' hr hr' ih =>
    have hevent := h.event_eq hr hr'
    by_cases hc : c = r.event.creator
    · rw [hc, Whole.reachOf_self h.consistent hr, hevent, Whole.reachOf_self h.consistent' hr']
      exact h.seq_eq hr hr'
    · have hparent {o : Option EventHash} (ho : ∀ p, o = some p → p ∈ r.event.parents) :
          o.elim 0 (g.reachOf · c) = o.elim 0 (g'.reachOf · c) := by
        cases o with
        | none => rfl
        | some p => exact ih p (ho p rfl)
      rw [h.whole.reach hr hc, h.whole'.reach hr' (hevent ▸ hc), newReach, newReach, ← hevent,
        hparent fun p hp => Event.mem_parents.mpr (.inl hp),
        hparent fun p hp => Event.mem_parents.mpr (.inr hp)]

/-- `see` answers alike. -/
theorem sees_eq (h : Meets g g') (hx : Both g g' x) (hy : Both g g' y) :
    g.sees x y = g'.sees x y := by
  obtain ⟨r, hr⟩ := Option.isSome_iff_exists.mp hx.1
  obtain ⟨r', hr'⟩ := Option.isSome_iff_exists.mp hx.2
  obtain ⟨ry, hry⟩ := Option.isSome_iff_exists.mp hy.1
  obtain ⟨ry', hry'⟩ := Option.isSome_iff_exists.mp hy.2
  rw [Bool.eq_iff_iff, h.whole.sees_iff h.consistent hr hry, h.whole'.sees_iff h.consistent' hr' hry',
    h.anc_iff hx, h.event_eq hry hry']
  exact and_congr_right fun _ => not_congr ⟨h.seesFork hx, h.symm.seesFork hx.symm⟩

/-- The search for a creator's event meets the same events. -/
theorem ancestorEventForCreator_eq (h : Meets g g') (hx : Both g g' x) (c : NodeId) (s : ℕ) :
    g.ancestorEventForCreator x c s = g'.ancestorEventForCreator x c s := by
  have hended (t : Hashgraph) : bfs (fun _ => none) (t.expandForCreator c s) t.traversalFuel [x] ∅ ()
      ≠ .outOfFuel := by
    intro hfuel
    obtain ⟨res, hres, -⟩ := t.ancestorEventForCreator_eq x c s
    rw [ancestorEventForCreator, hfuel] at hres
    cases hres
  have hsame : ∀ a ∈ {a | g.Anc x a}, ∀ acc,
      g'.expandForCreator c s acc a = g.expandForCreator c s acc a := by
    intro a ha acc
    obtain ⟨-, ha₁, ha₂⟩ := h.anc hx ha
    obtain ⟨ra, hra⟩ := Option.isSome_iff_exists.mp ha₁
    obtain ⟨ra', hra'⟩ := Option.isSome_iff_exists.mp ha₂
    simp only [expandForCreator, hra, hra', h.event_eq hra hra', h.seq_eq hra hra']
  have hclosed : ∀ a ∈ {a | g.Anc x a}, ∀ acc acc' next,
      g.expandForCreator c s acc a = .ok (acc', next) → ∀ b ∈ next, b ∈ {a | g.Anc x a} := by
    intro a ha acc acc' next hexpand b hb
    rcases g.expandForCreator_cases c s acc a with ⟨-, heq⟩ | ⟨-, heq⟩
    · rw [heq] at hexpand
      cases hexpand
    · rw [heq] at hexpand
      obtain rfl : g.parentsOf a = next := (Prod.ext_iff.mp (Except.ok.inj hexpand)).2
      exact Relation.ReflTransGen.tail ha hb
  unfold ancestorEventForCreator
  rw [← bfs_add_fuel (hended g) g'.traversalFuel, ← bfs_add_fuel (hended g') g.traversalFuel,
    Nat.add_comm g'.traversalFuel, bfs_congr hsame hclosed (by simp [Anc, Reach,
      Relation.ReflTransGen.refl])]

theorem newestOf_eq (h : Meets g g') (hx : Both g g' x) (c : NodeId) :
    g.newestOf x c = g'.newestOf x c := by
  rw [newestOf, newestOf, h.reachOf_eq hx, h.ancestorEventForCreator_eq hx]

theorem carries_of (h : Meets g g') (hx : Both g g' x) (hy : Both g g' y)
    (hcarries : g.carries x y c = true) : g'.carries x y c = true := by
  obtain ⟨r, hr⟩ := Option.isSome_iff_exists.mp hx.1
  obtain ⟨r', hr'⟩ := Option.isSome_iff_exists.mp hx.2
  obtain ⟨ry, hry⟩ := Option.isSome_iff_exists.mp hy.1
  obtain ⟨ry', hry'⟩ := Option.isSome_iff_exists.mp hy.2
  obtain ⟨z, hz, u, hu, hsees⟩ := (h.whole.carries_iff h.consistent hr hry).mp hcarries
  have hzboth := (h.anc hx (h.whole.newestOf_spec h.consistent hx.1 hz).1).2
  refine (h.whole'.carries_iff h.consistent' hr' hry').mpr
    ⟨z, (h.newestOf_eq hx c).symm.trans hz, u, h.selfAnc hzboth hu, ?_⟩
  rw [← h.sees_eq (h.anc hzboth hu.anc).2 hy, hsees]

theorem carriers_eq (h : Meets g g') (hx : Both g g' x) (hy : Both g g' y) :
    g.carriers x y = g'.carriers x y := by
  ext c
  rw [Whole.mem_carriers, Whole.mem_carriers]
  exact ⟨h.carries_of hx hy, h.symm.carries_of hx.symm hy.symm⟩

/-- `strongly_see_at` answers alike, if the roster of the round is the same. -/
theorem stronglySeesAt_eq (h : Meets g g') (hx : Both g g' x) (hy : Both g g' y) {n : ℕ}
    (hn : g.memberCountAtRound n = g'.memberCountAtRound n) :
    g.stronglySeesAt x y n = g'.stronglySeesAt x y n := by
  obtain ⟨r, hr⟩ := Option.isSome_iff_exists.mp hx.1
  obtain ⟨r', hr'⟩ := Option.isSome_iff_exists.mp hx.2
  obtain ⟨ry, hry⟩ := Option.isSome_iff_exists.mp hy.1
  obtain ⟨ry', hry'⟩ := Option.isSome_iff_exists.mp hy.2
  rw [Whole.stronglySeesAt_eq h.consistent hr hry, Whole.stronglySeesAt_eq h.consistent' hr' hry',
    h.sees_eq hx hy, h.carriers_eq hx hy, hn]

end Meets

/-! ## Rounds -/

/-- Whether a stored event strongly sees a supermajority of the witnesses of its base round, itself
left out. -/
def bumped (g : Hashgraph) (x : EventHash) (event : Event) : Bool :=
  decide ((g.witnessesOfRound (g.newBase event)).countP
      (fun w => decide (w ≠ x) && g.stronglySeesAt x w (g.newBase event)) * 3 >
    g.totalAt (g.newBase event) * 2)

/-- Every stored event has the round and the flag that its ancestry gives it. -/
def RoundsSettled (g : Hashgraph) : Prop :=
  ∀ x r, g.get? x = some r → r.round = g.newRound r.event (g.bumped x r.event) ∧
    r.isWitness = g.newWitness r.event (g.bumped x r.event)

section Rounds

variable {g g' : Hashgraph} {x w : EventHash} {r r' : EventRecord} {event : Event} {n : ℕ}

theorem totalAt_of_memberCountAtRound_eq (h : g.memberCountAtRound n = g'.memberCountAtRound n) :
    g.totalAt n = g'.totalAt n := by
  rw [totalAt, h, totalAt]

/-- What an event strongly sees is in its ancestry. -/
theorem WellFormed.anc_of_stronglySeesAt (hwf : g.WellFormed) (hw : g.Whole)
    (hx : (g.get? x).isSome) (hn : w ∈ g.witnessesOfRound n)
    (hsees : g.stronglySeesAt x w n = true) : g.Anc x w := by
  obtain ⟨r, hr⟩ := Option.isSome_iff_exists.mp hx
  obtain ⟨rw', hrw, -, -⟩ := hwf.witness_sound hn
  rw [Whole.stronglySeesAt_eq hwf.toConsistent hr hrw, Bool.and_eq_true] at hsees
  exact ((hw.sees_iff hwf.toConsistent hr hrw).mp hsees.1).1

theorem WellFormed.stronglySees_eq (hwf : g.WellFormed) (hw : w ∈ g.witnessesOfRound n)
    (x : EventHash) : g.stronglySees x w = g.stronglySeesAt x w n := by
  obtain ⟨r, hr, hround, -⟩ := hwf.witness_sound hw
  rw [stronglySees, stronglySee, hr, Option.elim_some, hround, stronglySeesAt]

/-- Two lists without duplicates count alike if they hold the same elements that pass. -/
theorem countP_eq_of_mem_iff {α : Type} {l l' : List α} {p p' : α → Bool} (hl : l.Nodup)
    (hl' : l'.Nodup) (h : ∀ a, (a ∈ l ∧ p a = true) ↔ (a ∈ l' ∧ p' a = true)) :
    l.countP p = l'.countP p' := by
  rw [List.countP_eq_length_filter, List.countP_eq_length_filter]
  refine ((List.perm_ext_iff_of_nodup (hl.filter p) (hl'.filter p')).mpr fun a => ?_).length_eq
  rw [List.mem_filter, List.mem_filter, h]

/-- The records of an event in the two graphs agree on its round. -/
def SameRound (g g' : Hashgraph) (x : EventHash) : Prop :=
  ∀ r r', g.get? x = some r → g'.get? x = some r' →
    r.round = r'.round ∧ r.isWitness = r'.isWitness

namespace Meets

theorem newBase_eq (h : Meets g g') (hx : g.get? x = some r) (hx' : (g'.get? x).isSome)
    (hparents : ∀ p ∈ r.event.parents, SameRound g g' p) :
    g.newBase r.event = g'.newBase r.event ∧
      ∀ b, g.newWitness r.event b = g'.newWitness r.event b := by
  have hround {o : Option EventHash} (ho : ∀ p, o = some p → p ∈ r.event.parents) :
      (o.bind g.get?).map (·.round) = (o.bind g'.get?).map (·.round) := by
    cases o with
    | none => rfl
    | some p =>
      obtain ⟨hp, hp'⟩ := h.both_parent hx hx' (ho p rfl)
      obtain ⟨rp, hrp⟩ := Option.isSome_iff_exists.mp hp
      obtain ⟨rp', hrp'⟩ := Option.isSome_iff_exists.mp hp'
      rw [Option.bind_some, Option.bind_some, hrp, hrp', Option.map_some, Option.map_some,
        (hparents p (ho p rfl) rp rp' hrp hrp').1]
  have hself : (g.selfRecord r.event).map (·.round) = (g'.selfRecord r.event).map (·.round) :=
    hround fun p hp => Event.mem_parents.mpr (.inl hp)
  have hother : (g.otherRecord r.event).map (·.round) = (g'.otherRecord r.event).map (·.round) :=
    hround fun p hp => Event.mem_parents.mpr (.inr hp)
  have hbase : g.newBase r.event = g'.newBase r.event := by
    rw [newBase, hself, hother, newBase]
  refine ⟨hbase, fun b => ?_⟩
  rw [newWitness, newWitness, hself, newRound, newRound, hbase]

/-- Witnesses that the event strongly sees in one graph are witnesses in the other. -/
theorem mem_strong (h : Meets g g') (hwf : g.WellFormed) (hwf' : g'.WellFormed)
    (hx : Meets.Both g g' x) (hbelow : ∀ z, g.Anc x z → z ≠ x → SameRound g g' z)
    (hn : g.memberCountAtRound n = g'.memberCountAtRound n)
    (hw : w ∈ g.witnessesOfRound n ∧ (decide (w ≠ x) && g.stronglySeesAt x w n) = true) :
    w ∈ g'.witnessesOfRound n ∧ (decide (w ≠ x) && g'.stronglySeesAt x w n) = true := by
  obtain ⟨hmem, hstrong⟩ := hw
  rw [Bool.and_eq_true, decide_eq_true_eq] at hstrong
  have hanc := hwf.anc_of_stronglySeesAt h.whole hx.1 hmem hstrong.2
  obtain ⟨-, hboth⟩ := h.anc hx hanc
  obtain ⟨rw', hrw', hround, hwit⟩ := hwf.witness_sound hmem
  obtain ⟨rw'', hrw''⟩ := Option.isSome_iff_exists.mp hboth.2
  obtain ⟨hround', hwit'⟩ := hbelow w hanc hstrong.1 _ _ hrw' hrw''
  refine ⟨?_, ?_⟩
  · rw [← hround, hround']
    exact hwf'.witness_complete hrw'' (hwit' ▸ hwit)
  · rw [Bool.and_eq_true, decide_eq_true_eq, ← h.stronglySeesAt_eq hx hboth hn]
    exact hstrong

/-- Settled graphs with the same rosters give an event the same round. -/
theorem sameRound (h : Meets g g') (hwf : g.WellFormed) (hwf' : g'.WellFormed) (hs : g.RoundsSettled)
    (hs' : g'.RoundsSettled) (hrosters : ∀ {x r}, g.get? x = some r → (g'.get? x).isSome →
      g.memberCountAtRound (g.newBase r.event) = g'.memberCountAtRound (g.newBase r.event))
    (hx : Meets.Both g g' x) : SameRound g g' x := by
  -- The induction carries the statement for the whole ancestry.
  suffices hall : ∀ z, g.Anc x z → SameRound g g' z from hall x .refl
  induction x, hx using h.both_induction with
  | step x r r' hr hr' ih =>
    have hstored := Option.isSome_of_eq_some hr'
    have hboth : Meets.Both g g' x := ⟨Option.isSome_of_eq_some hr, hstored⟩
    have hbelow : ∀ z, g.Anc x z → z ≠ x → SameRound g g' z := by
      intro z hz hne
      rcases Whole.anc_cases hz with rfl | ⟨p, hp, hpz⟩
      · exact absurd rfl hne
      · exact ih p ((mem_parentsOf hr).mp hp) z hpz
    obtain ⟨hbase, hflag⟩ := h.newBase_eq hr hstored fun p hp => ih p hp p .refl
    have hn := hrosters hr hstored
    have hbumped : g.bumped x r.event = g'.bumped x r'.event := by
      have hbelow' : ∀ z, g'.Anc x z → z ≠ x → SameRound g' g z := by
        intro z hz hne r₁ r₁' hr₁ hr₁'
        obtain ⟨hround, hwit⟩ := hbelow z ((h.anc_iff hboth).mpr hz) hne _ _ hr₁' hr₁
        exact ⟨hround.symm, hwit.symm⟩
      rw [bumped, bumped, ← h.event_eq hr hr', ← hbase, ← totalAt_of_memberCountAtRound_eq hn]
      congr 3
      exact countP_eq_of_mem_iff (hwf.witness_nodup _) (hwf'.witness_nodup _) fun w =>
        ⟨h.mem_strong hwf hwf' hboth hbelow hn, h.symm.mem_strong hwf' hwf hboth.symm hbelow' hn.symm⟩
    intro z hz
    by_cases hzx : z = x
    · subst hzx
      intro r₁ r₁' hr₁ hr₁'
      obtain rfl := Option.some.inj (hr.symm.trans hr₁)
      obtain rfl := Option.some.inj (hr'.symm.trans hr₁')
      obtain ⟨hround, hwit⟩ := hs _ _ hr
      obtain ⟨hround', hwit'⟩ := hs' _ _ hr'
      rw [hround, hround', hwit, hwit', hbumped, ← h.event_eq hr hr', newRound, newRound, hbase,
        hflag]
      exact ⟨rfl, rfl⟩
    · exact hbelow z hz hzx

end Meets

end Rounds

end Hashgraph

end JKain
