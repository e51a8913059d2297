import JKain.Consensus.Finality
import JKain.Consensus.Intake

/-!
# What the order means

Over a set of events without forks and a static registry, as long as nothing is pruned. The round an
event is received in is the first decided round whose famous witnesses all have the event as an
ancestor, and its consensus timestamp is the median, over these witnesses, of the timestamp of the
event through which the witness received it first.

The search of `first_seen_timestamp` runs over the members, and over the numbers of one member's
events by bisection. Along a member's chain the events that have the target as an ancestor are the
upper ones, so that the bisection ends at the least of them; over the members the invariant is that
the earliest event so far is the least among the events of the members that are done.
-/

namespace JKain

open Std JKain.Lib

namespace Hashgraph

/-- The number of an event on its creator's chain. -/
def seqOf (g : Hashgraph) (x : EventHash) : ℕ := (g.get? x).elim 0 (·.seq)

/-- The key by which `first_seen_timestamp` compares events: the number, then the hash. -/
def seqHash (g : Hashgraph) (x : EventHash) : ℕ ×ₗ EventHash := toLex (g.seqOf x, x)

/-- The declared timestamp of an event. -/
def timestampOf (g : Hashgraph) (x : EventHash) : Timestamp :=
  (g.get? x).elim 0 (·.event.timestamp)

/-- The famous witnesses of a round. -/
def famousOf (g : Hashgraph) (n : ℕ) : List EventHash :=
  (g.witnessesOfRound n).filter fun w => g.fameOf w == some .famous

/-- `z` lies in the ancestry of `w` and has `x` as an ancestor. -/
def Between (g : Hashgraph) (w x z : EventHash) : Prop := g.Anc w z ∧ g.Anc z x

/-- `z` is the event with the smallest number, then the smallest hash, among those of `D`. -/
structure Least (g : Hashgraph) (D : EventHash → Prop) (z : EventHash) : Prop where
  mem : D z
  le : ∀ y, D y → g.seqHash z ≤ g.seqHash y

/-- `z` is the event through which `w` received `x` first. -/
def FirstSeen (g : Hashgraph) (w x z : EventHash) : Prop := g.Least (g.Between w x) z

/-- The order of `x` as it is defined: `n` is a decided round, the first one with a famous witness
all of whose famous witnesses have `x` as an ancestor, and `t` the median of the timestamps of the
events through which they received `x` first. -/
structure ReceivedAs (g : Hashgraph) (x : EventHash) (n : ℕ) (t : Timestamp) : Prop where
  decided : g.isRoundDecided n = true
  famous : g.famousOf n ≠ []
  all : ∀ w ∈ g.famousOf n, g.Anc w x
  first : ∀ m < n, g.famousOf m ≠ [] → ∃ w ∈ g.famousOf m, ¬g.Anc w x
  median : ∃ first : EventHash → EventHash, (∀ w ∈ g.famousOf n, g.FirstSeen w x (first w)) ∧
    medianTimestamp ((g.famousOf n).map fun w => g.timestampOf (first w)) = .ok t

/-! ## Chains without forks -/

section Unforked

variable {g : Hashgraph} {w x y z : EventHash} {r rw rx : EventRecord} {c : NodeId} {i s : ℕ}
  (hw : g.Whole) (hg : g.Consistent) (hclean : ∀ i, g.flagged i = false)

theorem seqOf_eq (hx : g.get? x = some r) : g.seqOf x = r.seq := by
  rw [seqOf, hx, Option.elim_some]

theorem IsEventAt.seqOf_eq (h : g.IsEventAt c s x) : g.seqOf x = s := by
  obtain ⟨r, hr, -, hseq⟩ := h
  rw [Hashgraph.seqOf_eq hr, hseq]

include hclean in
theorem forkKnown_eq_false (c : NodeId) : g.forkKnown c = false := by
  rw [forkKnown]
  cases g.memberIndexOf c with
  | none => rfl
  | some i => exact hclean i

include hw hg hclean

/-- A creator has one event of each number. -/
theorem Whole.isEventAt_unique (hx : g.IsEventAt c s x) (hy : g.IsEventAt c s y) : x = y := by
  by_contra hne
  have hforked := hw.forkKnown_of_ne hg hx hy hne
  rw [forkKnown_eq_false hclean] at hforked
  cases hforked

theorem Whole.sees_iff_anc (hx : g.get? x = some r) (hy : (g.get? y).isSome) :
    g.sees x y = true ↔ g.Anc x y := by
  obtain ⟨ry, hry⟩ := Option.isSome_iff_exists.mp hy
  rw [hw.sees_iff hg hx hry, and_iff_left]
  exact hw.not_seesFork hg (forkKnown_eq_false hclean _)

/-- The index by creator and number holds exactly the stored events. -/
theorem Whole.eventForCreatorSeq_iff : g.eventForCreatorSeq c s = some x ↔ g.IsEventAt c s x := by
  refine ⟨hg.indexed, ?_⟩
  rintro ⟨r, hr, rfl, rfl⟩
  obtain ⟨i, hi⟩ := hg.member hr
  exact hw.indexed hg x r i hr hi (hclean i)

omit hw in
theorem Consistent.creatorChainEvent_unforked (hi : i < g.memberCount) :
    g.creatorChainEvent w c i s = .ok (g.eventForCreatorSeq c s) := by
  unfold creatorChainEvent
  rw [hg.creatorHasKnownFork_eq hi, hclean i]
  rfl

/-- What the search asks of a number. -/
theorem Whole.chainEventSees_iff (hi : i < g.memberCount) (hx : (g.get? x).isSome) :
    truth (g.chainEventSees w x c i s) = true ↔ ∃ z, g.IsEventAt c s z ∧ g.Anc z x := by
  obtain ⟨rx, hrx⟩ := Option.isSome_iff_exists.mp hx
  unfold chainEventSees
  rw [hg.creatorChainEvent_unforked hclean hi]
  cases hslot : g.eventForCreatorSeq c s with
  | none =>
    constructor
    · intro hsees
      cases hsees
    · rintro ⟨z, hz, -⟩
      rw [(hw.eventForCreatorSeq_iff hg hclean).mpr hz] at hslot
      cases hslot
  | some z =>
    have hz := hg.indexed hslot
    obtain ⟨rz, hrz, -⟩ := id hz
    show truth (unwrapOrFalse (g.see z x)) = true ↔ _
    rw [hg.unwrapOrFalse_see_eq hrz hrx, truth_eq_true_iff, Except.ok.injEq,
      hw.sees_iff_anc hg hclean hrz hx]
    refine ⟨fun hanc => ⟨z, hz, hanc⟩, ?_⟩
    rintro ⟨z', hz', hanc⟩
    rwa [hw.isEventAt_unique hg hclean hz hz']

omit hclean in
/-- Below what an event reaches, it has an ancestor of each number. -/
theorem Whole.exists_anc_of_le_reachOf (hx : (g.get? w).isSome) (hpos : 1 ≤ s)
    (hle : s ≤ g.reachOf w c) : ∃ z, g.Anc w z ∧ g.IsEventAt c s z := by
  obtain ⟨top, htop, hat⟩ := hw.exists_of_reachOf hg hx (c := c) (by omega)
  obtain ⟨z, hz, hatz⟩ := hw.exists_selfAnc hg hat hpos hle
  exact ⟨z, htop.trans hz.anc, hatz⟩

/-- The events of a creator that have `x` as an ancestor are the later ones. -/
theorem Whole.anc_of_le {j k : ℕ} (hz : g.IsEventAt c j z) (hanc : g.Anc z x) (hpos : 1 ≤ j)
    (hle : j ≤ k) (hy : g.IsEventAt c k y) : g.Anc y x := by
  obtain ⟨u, hu, hatu⟩ := hw.exists_selfAnc hg hy hpos hle
  rw [hw.isEventAt_unique hg hclean hz hatu] at hanc
  exact hu.anc.trans hanc

/-! ## The first event of each member, and of all -/

omit hw hg hclean in
/-- The earliest event of the search: none if `D` is empty, otherwise the least of `D`. -/
def Earliest (g : Hashgraph) (D : EventHash → Prop) : Option (ℕ × EventHash) → Prop
  | none => ∀ z, ¬D z
  | some (s, z) => g.Least D z ∧ g.seqOf z = s

omit hw hg hclean in
theorem Earliest.congr {D D' : EventHash → Prop} {earliest : Option (ℕ × EventHash)}
    (h : g.Earliest D earliest) (hD : ∀ z, D z ↔ D' z) : g.Earliest D' earliest := by
  obtain rfl : D = D' := funext fun z => propext (hD z)
  exact h

omit hw hg hclean in
/-- One more candidate, the least of `D'`. -/
theorem Earliest.join {D D' : EventHash → Prop} {earliest : Option (ℕ × EventHash)}
    (h : g.Earliest D earliest) (hz : g.Least D' z) :
    g.Earliest (fun y => D y ∨ D' y)
      (if isEarlier (g.seqOf z) z earliest then some (g.seqOf z, z) else earliest) := by
  cases earliest with
  | none =>
    refine ⟨⟨.inr hz.mem, ?_⟩, rfl⟩
    rintro y (hy | hy)
    · exact absurd hy (h y)
    · exact hz.le y hy
  | some best =>
    obtain ⟨s, b⟩ := best
    obtain ⟨hb, rfl⟩ := h
    have hearlier : isEarlier (g.seqOf z) z (some (g.seqOf b, b)) = true ↔
        g.seqHash z < g.seqHash b := by
      simp [isEarlier, seqHash, Prod.Lex.toLex_lt_toLex]
    by_cases hlt : g.seqHash z < g.seqHash b
    · rw [if_pos (hearlier.mpr hlt)]
      refine ⟨⟨.inr hz.mem, ?_⟩, rfl⟩
      rintro y (hy | hy)
      · exact hlt.le.trans (hb.le y hy)
      · exact hz.le y hy
    · rw [if_neg (mt hearlier.mp hlt)]
      refine ⟨⟨.inl hb.mem, ?_⟩, rfl⟩
      rintro y (hy | hy)
      · exact hb.le y hy
      · exact (le_of_not_gt hlt).trans (hz.le y hy)

/-- What a member contributes to the search is the least of its events between. -/
theorem Whole.earliestSeeing_member (hrw : g.get? w = some rw) (hx : (g.get? x).isSome)
    (hi : g.memberIndexOf c = some i) :
    ∃ first : Option (ℕ × EventHash),
      (∀ members earliest, g.earliestSeeing w x rw ((c, i) :: members) earliest =
        g.earliestSeeing w x rw members (first.elim earliest fun p =>
          if isEarlier p.1 p.2 earliest then some p else earliest)) ∧
      g.Earliest (fun z => g.Between w x z ∧ ∃ s, g.IsEventAt c s z) first := by
  obtain ⟨rx, hrx⟩ := Option.isSome_iff_exists.mp hx
  have hlt := hg.index_lt hi
  have hslot : g.reachOf w c = EventRecord.slot rw i := reachOf_eq_slot hrw hi
  have hwstored : (g.get? w).isSome := Option.isSome_of_eq_some hrw
  have htest {s : ℕ} := hw.chainEventSees_iff hg hclean (w := w) (c := c) (s := s) hlt hx
  -- The events between have their numbers from one up to what the witness reaches.
  have hbounds {z : EventHash} {s : ℕ} (hz : g.Between w x z) (hat : g.IsEventAt c s z) :
      1 ≤ s ∧ s ≤ EventRecord.slot rw i := by
    obtain ⟨rz, hrz, -, hseq⟩ := id hat
    have hpos := hg.seq_pos hrz
    have hle := hw.le_reachOf hg hwstored (hw.not_seesFork hg (forkKnown_eq_false hclean c)) hz.1 hat
    omega
  obtain ⟨first, hcons, hnone, hsome⟩ := hg.earliestSeeing_cons (c := c) hrw hrx hlt
  refine ⟨first, hcons, ?_⟩
  cases first with
  | none =>
    rintro z ⟨hz, s, hat⟩
    obtain ⟨hpos, hle⟩ := hbounds hz hat
    rcases hnone rfl with hzero | hblind
    · omega
    · -- The newest event below the witness would see the target too.
      obtain ⟨top, -, htop⟩ := hw.exists_anc_of_le_reachOf hg (c := c) hwstored
        (show 1 ≤ EventRecord.slot rw i by omega) hslot.ge
      have hanc := hw.anc_of_le hg hclean hat hz.2 hpos hle htop
      rw [htest.mpr ⟨top, htop, hanc⟩] at hblind
      cases hblind
  | some p =>
    obtain ⟨s, z⟩ := p
    obtain ⟨hpos, hle, hsees, hevent, hleast⟩ := hsome s z rfl
    obtain ⟨y, hy, hanc⟩ := htest.mp hsees
    -- The event at the number where the search ends.
    rw [hg.creatorChainEvent_unforked hclean hlt, (hw.eventForCreatorSeq_iff hg hclean).mpr hy,
      Except.ok.injEq, Option.some.injEq] at hevent
    subst hevent
    obtain ⟨u, hwu, hu⟩ := hw.exists_anc_of_le_reachOf hg (c := c) hwstored hpos (hslot ▸ hle)
    rw [hw.isEventAt_unique hg hclean hu hy] at hwu
    refine ⟨⟨⟨⟨hwu, hanc⟩, s, hy⟩, ?_⟩, hy.seqOf_eq⟩
    rintro z ⟨hz, k, hat⟩
    obtain ⟨hkpos, hkle⟩ := hbounds hz hat
    rw [seqHash, seqHash, hy.seqOf_eq, hat.seqOf_eq, Prod.Lex.toLex_le_toLex]
    have hge : s ≤ k := by
      by_contra hlt'
      have hmono (j l : ℕ) (hj : 1 ≤ j) (hjl : j ≤ l) (hl : l < EventRecord.slot rw i)
          (hpass : truth (g.chainEventSees w x c i j) = true) :
          truth (g.chainEventSees w x c i l) = true := by
        obtain ⟨a, ha, hax⟩ := htest.mp hpass
        obtain ⟨b, -, hb⟩ := hw.exists_anc_of_le_reachOf hg (c := c) (s := l) hwstored (by omega)
          (by omega)
        exact htest.mpr ⟨b, hb, hw.anc_of_le hg hclean ha hax hj hjl hb⟩
      have hfails := hleast hmono k hkpos (by omega)
      rw [htest.mpr ⟨z, hat, hz.2⟩] at hfails
      cases hfails
    rcases Nat.lt_or_eq_of_le hge with hlt' | rfl
    · exact .inl hlt'
    · exact .inr ⟨rfl, (hw.isEventAt_unique hg hclean hy hat).le⟩

/-- The search over a list of members finds the least of their events between. -/
theorem Whole.earliestSeeing_spec (hrw : g.get? w = some rw) (hx : (g.get? x).isSome)
    {members : List (NodeId × ℕ)} (hmembers : ∀ m ∈ members, g.memberIndexOf m.1 = some m.2)
    {D : EventHash → Prop} {earliest : Option (ℕ × EventHash)} (h : g.Earliest D earliest) :
    ∃ res, g.earliestSeeing w x rw members earliest = .ok (some res) ∧
      g.Earliest (fun z => D z ∨ g.Between w x z ∧ ∃ m ∈ members, ∃ s, g.IsEventAt m.1 s z)
        res := by
  induction members generalizing D earliest with
  | nil => exact ⟨earliest, rfl, h.congr fun z => by simp⟩
  | cons m members ih =>
    obtain ⟨c, i⟩ := m
    obtain ⟨first, hcons, hfirst⟩ := hw.earliestSeeing_member hg hclean hrw hx
      (hmembers (c, i) (by simp))
    have hrest : ∀ m ∈ members, g.memberIndexOf m.1 = some m.2 :=
      fun m hm => hmembers m (by simp [hm])
    have hnext : g.Earliest (fun z => D z ∨ g.Between w x z ∧ ∃ s, g.IsEventAt c s z)
        (first.elim earliest fun p =>
          if isEarlier p.1 p.2 earliest then some p else earliest) := by
      cases first with
      | none => exact h.congr fun z => (or_iff_left (hfirst z)).symm
      | some p =>
        obtain ⟨s, z⟩ := p
        obtain ⟨hleast, rfl⟩ := hfirst
        exact h.join hleast
    obtain ⟨res, hres, hearliest⟩ := ih hrest hnext
    refine ⟨res, by rw [hcons, hres], hearliest.congr fun z => ?_⟩
    simp only [List.mem_cons, exists_eq_or_imp, and_or_left, or_assoc]

/-- `first_seen_timestamp` is the timestamp of the event through which the witness received the
target first. -/
theorem Whole.firstSeenTimestamp_spec (hrw : g.get? w = some rw) (hanc : g.Anc w x) :
    ∃ z, g.FirstSeen w x z ∧ g.firstSeenTimestamp w x = .ok (some (g.timestampOf z)) := by
  have hwstored : (g.get? w).isSome := Option.isSome_of_eq_some hrw
  have hx := hw.isSome_of_anc hwstored hanc
  have hmembers (m : NodeId × ℕ) (hm : m ∈ g.memberIndex.toList) :
      g.memberIndexOf m.1 = some m.2 := ExtTreeMap.mem_toList_iff_getElem?_eq_some.mp hm
  obtain ⟨res, hres, hearliest⟩ := hw.earliestSeeing_spec hg hclean hrw hx hmembers
    (show g.Earliest (fun _ => False) none from fun _ => id)
  have hbetween (z : EventHash) : (False ∨ g.Between w x z ∧
      ∃ m ∈ g.memberIndex.toList, ∃ s, g.IsEventAt m.1 s z) ↔ g.Between w x z := by
    rw [false_or, and_iff_left_iff_imp]
    intro hz
    obtain ⟨rz, hrz⟩ := Option.isSome_iff_exists.mp (hw.isSome_of_anc hwstored hz.1)
    obtain ⟨i, hi⟩ := hg.member hrz
    exact ⟨(rz.event.creator, i), ExtTreeMap.mem_toList_iff_getElem?_eq_some.mpr hi, rz.seq,
      isEventAt_of_get? hrz⟩
  replace hearliest := hearliest.congr hbetween
  cases res with
  | none => exact absurd ⟨hanc, .refl⟩ (hearliest x)
  | some p =>
    obtain ⟨s, z⟩ := p
    obtain ⟨hleast, -⟩ := hearliest
    refine ⟨z, hleast, ?_⟩
    obtain ⟨rz, hrz⟩ := Option.isSome_iff_exists.mp (hw.isSome_of_anc hwstored hleast.mem.1)
    unfold firstSeenTimestamp
    rw [hrw, timestampOf, hrz]
    simp only [hres, bind, Except.bind, Option.join_some, Option.bind_some, hrz, Option.map_some,
      Option.elim_some]
    rfl

/-! ## What a round assigns -/

omit hg in
theorem Whole.not_forkedBy (c : NodeId) : ¬g.ForkedBy c := by
  rintro ⟨a, b, ra, rb, hne, hra, hrb, hca, hcb, hself⟩
  have hforked := hw.forkKnown_of_siblings hra hrb (hca.trans hcb.symm) hself hne
  rw [forkKnown_eq_false hclean] at hforked
  cases hforked

omit hg in
/-- Without forks every famous witness is on the canonical branch. -/
theorem Whole.famousWitnessesOfRound_eq (hwf : g.WellFormed) (n : ℕ) :
    g.famousWitnessesOfRound n = g.famousOf n := by
  refine List.filter_congr fun v hv => ?_
  obtain ⟨rv, hrv, -⟩ := hwf.witness_sound hv
  rw [hw.isCanonical hrv (hw.not_forkedBy hclean _), Bool.and_true]

omit hw hg hclean in
theorem isSome_of_mem_famousOf (hwf : g.WellFormed) {n : ℕ} (hv : w ∈ g.famousOf n) :
    (g.get? w).isSome := by
  obtain ⟨r, hr, -⟩ := hwf.witness_sound (List.mem_filter.mp hv).1
  exact Option.isSome_of_eq_some hr

/-- Whether all witnesses of a list have the event as an ancestor. -/
theorem Whole.everyM_see_eq {famous : List EventHash}
    (hfamous : ∀ w ∈ famous, (g.get? w).isSome) (hx : (g.get? x).isSome) :
    ∃ all, everyM (fun w => unwrapOrFalse (g.see w x)) famous = .ok all ∧
      (all = true ↔ ∀ w ∈ famous, g.Anc w x) := by
  obtain ⟨rx, hrx⟩ := Option.isSome_iff_exists.mp hx
  have hsee (w : EventHash) (hv : w ∈ famous) : unwrapOrFalse (g.see w x) = .ok (g.sees w x) := by
    obtain ⟨rv, hrv⟩ := Option.isSome_iff_exists.mp (hfamous w hv)
    exact hg.unwrapOrFalse_see_eq hrv hrx
  refine ⟨famous.all fun w => g.sees w x,
    (everyM_returns (E := fun _ => False) fun w hv => .of_eq (hsee w hv)).eq_ok, ?_⟩
  rw [List.all_eq_true]
  refine forall₂_congr fun w hv => ?_
  obtain ⟨rv, hrv⟩ := Option.isSome_iff_exists.mp (hfamous w hv)
  exact hw.sees_iff_anc hg hclean hrv hx

/-- The timestamp for an event that all witnesses of a list have as an ancestor. -/
theorem Whole.orderTimestamp_spec {famous : List EventHash}
    (hfamous : ∀ w ∈ famous, (g.get? w).isSome) (hx : (g.get? x).isSome)
    (hall : ∀ w ∈ famous, g.Anc w x) :
    ∃ first : EventHash → EventHash, (∀ w ∈ famous, g.FirstSeen w x (first w)) ∧
      g.orderTimestamp famous x =
        (medianTimestamp (famous.map fun w => g.timestampOf (first w))).map some := by
  have hfirst (w : EventHash) : ∃ z, w ∈ famous →
      g.FirstSeen w x z ∧ g.firstSeenTimestamp w x = .ok (some (g.timestampOf z)) := by
    by_cases hv : w ∈ famous
    · obtain ⟨rv, hrv⟩ := Option.isSome_iff_exists.mp (hfamous w hv)
      obtain ⟨z, hz⟩ := hw.firstSeenTimestamp_spec hg hclean hrv (hall w hv)
      exact ⟨z, fun _ => hz⟩
    · exact ⟨w, fun h => absurd h hv⟩
  choose first hfirst using hfirst
  refine ⟨first, fun w hv => (hfirst w hv).1, ?_⟩
  obtain ⟨all, hevery, hiff⟩ := hw.everyM_see_eq hg hclean hfamous hx
  have hmap : famous.mapM (fun w => g.firstSeenTimestamp w x) =
      .ok (famous.map fun w => some (g.timestampOf (first w))) :=
    (mapM_returns (E := fun _ => False) fun w hv => .of_eq (hfirst w hv).2).eq_ok
  have hkeep : (famous.map fun w => some (g.timestampOf (first w))).filterMap id =
      famous.map fun w => g.timestampOf (first w) := by
    rw [List.filterMap_map, ← List.filterMap_eq_map]
    rfl
  unfold orderTimestamp
  rw [hevery, hiff.mpr hall]
  simp only [bind, Except.bind, if_true, hmap, hkeep]
  cases medianTimestamp (famous.map fun w => g.timestampOf (first w)) <;> rfl

/-- What a round assigns, and to which events. -/
theorem Whole.assignment_some (hwf : g.WellFormed) (hx : (g.get? x).isSome) {n : ℕ}
    {t : Timestamp} (h : g.assignment n x = some t) :
    g.famousOf n ≠ [] ∧ (∀ w ∈ g.famousOf n, g.Anc w x) ∧
      ∃ first : EventHash → EventHash, (∀ w ∈ g.famousOf n, g.FirstSeen w x (first w)) ∧
        medianTimestamp ((g.famousOf n).map fun w => g.timestampOf (first w)) = .ok t := by
  have hfamous (w : EventHash) (hv : w ∈ g.famousOf n) := isSome_of_mem_famousOf hwf hv
  rw [assignment, hw.famousWitnessesOfRound_eq hclean hwf] at h
  split at h
  · cases h
  · rename_i hne
    obtain ⟨all, hevery, hiff⟩ := hw.everyM_see_eq hg hclean hfamous hx
    cases all with
    | false =>
      simp only [orderTimestamp, hevery] at h
      cases h
    | true =>
      have hall := hiff.mp rfl
      obtain ⟨first, hfirst, htime⟩ := hw.orderTimestamp_spec hg hclean hfamous hx hall
      refine ⟨by simpa using hne, hall, first, hfirst, ?_⟩
      rw [htime] at h
      revert h
      cases medianTimestamp ((g.famousOf n).map fun w => g.timestampOf (first w)) with
      | error e =>
        intro h
        cases h
      | ok t' =>
        intro h
        cases h
        rfl

/-- A round that assigns nothing to an event has no famous witness, or one without the event as an
ancestor. -/
theorem Whole.assignment_none (hwf : g.WellFormed) (hx : (g.get? x).isSome) {n : ℕ}
    (h : g.assignment n x = none) (hne : g.famousOf n ≠ []) :
    ∃ w ∈ g.famousOf n, ¬g.Anc w x := by
  by_contra hcontra
  have hall (w : EventHash) (hv : w ∈ g.famousOf n) : g.Anc w x := by
    by_contra hno
    exact hcontra ⟨w, hv, hno⟩
  obtain ⟨first, -, htime⟩ := hw.orderTimestamp_spec hg hclean
    (fun w hv => isSome_of_mem_famousOf hwf hv) hx hall
  rw [assignment, hw.famousWitnessesOfRound_eq hclean hwf, if_neg (by simpa using hne), htime] at h
  have hsafe : Safe (fun _ => False)
      (medianTimestamp ((g.famousOf n).map fun w => g.timestampOf (first w))) :=
    medianTimestamp_safe (.inr (by simpa using hne))
  revert h hsafe
  cases medianTimestamp ((g.famousOf n).map fun w => g.timestampOf (first w)) with
  | error e => exact fun _ hsafe => (hsafe e rfl).elim
  | ok t =>
    intro h
    cases h

end Unforked

/-! ## The order stays as it is defined -/

/-- The order of the graph is as it is defined: for the events that have it, and for those that do
not, as far as the rounds were ordered. -/
structure Ordered (g : Hashgraph) : Prop where
  received : ∀ {x n}, g.roundReceived x = some n →
    ∃ t, g.consensusTimestamp x = some t ∧ g.ReceivedAs x n t
  pending : ∀ {x m}, (g.get? x).isSome → g.roundReceived x = none → m < g.nextRoundToOrder →
    g.famousOf m ≠ [] → ∃ w ∈ g.famousOf m, ¬g.Anc w x

section Transport

variable {g g' : Hashgraph} {w x z : EventHash} {m n : ℕ} {t : Timestamp}

theorem Meets.seqHash_eq (h : Meets g g') (hx : Meets.Both g g' x) :
    g'.seqHash x = g.seqHash x := by
  obtain ⟨r, hr⟩ := Option.isSome_iff_exists.mp hx.1
  obtain ⟨r', hr'⟩ := Option.isSome_iff_exists.mp hx.2
  rw [seqHash, seqHash, seqOf_eq hr, seqOf_eq hr', h.seq_eq hr hr']

theorem Meets.timestampOf_eq (h : Meets g g') (hx : Meets.Both g g' x) :
    g'.timestampOf x = g.timestampOf x := by
  obtain ⟨r, hr⟩ := Option.isSome_iff_exists.mp hx.1
  obtain ⟨r', hr'⟩ := Option.isSome_iff_exists.mp hx.2
  rw [timestampOf, timestampOf, hr, hr', Option.elim_some, Option.elim_some, h.event_eq hr hr']

theorem Meets.between (h : Meets g g') (hw : Meets.Both g g' w) (hz : g.Between w x z) :
    g'.Between w x z ∧ Meets.Both g g' z := by
  obtain ⟨hwz, hboth⟩ := h.anc hw hz.1
  exact ⟨⟨hwz, (h.anc hboth hz.2).1⟩, hboth⟩

/-- What a witness received first, it received first in every graph that has it. -/
theorem Meets.firstSeen (h : Meets g g') (hw : Meets.Both g g' w) (hz : g.FirstSeen w x z) :
    g'.FirstSeen w x z where
  mem := (h.between hw hz.mem).1
  le y hy := by
    obtain ⟨hy', hboth⟩ := h.symm.between hw.symm hy
    rw [h.seqHash_eq (h.between hw hz.mem).2, h.seqHash_eq hboth.symm]
    exact hz.le y hy'

/-- The order of an event in a graph that keeps the events and the famous witnesses. -/
theorem ReceivedAs.of_meets (hrec : g.ReceivedAs x n t) (h : Meets g g') (hwf : g.WellFormed)
    (hstored : ∀ y, (g.get? y).isSome → (g'.get? y).isSome) (hdecided : g'.isRoundDecided n = true)
    (hfamous : ∀ m ≤ n, g'.famousOf m = g.famousOf m) : g'.ReceivedAs x n t := by
  have hboth {w : EventHash} {m : ℕ} (hw : w ∈ g.famousOf m) : Meets.Both g g' w :=
    ⟨isSome_of_mem_famousOf hwf hw, hstored w (isSome_of_mem_famousOf hwf hw)⟩
  obtain ⟨first, hfirst, hmedian⟩ := hrec.median
  have htimes : ((g.famousOf n).map fun w => g'.timestampOf (first w)) =
      (g.famousOf n).map fun w => g.timestampOf (first w) := by
    refine List.map_congr_left fun w hw => h.timestampOf_eq ?_
    exact (h.between (hboth hw) (hfirst w hw).mem).2
  refine ⟨hdecided, by rw [hfamous n le_rfl]; exact hrec.famous, fun w hw => ?_,
    fun m hm hne => ?_, first, fun w hw => ?_, by rw [hfamous n le_rfl, htimes, hmedian]⟩
  · rw [hfamous n le_rfl] at hw
    exact (h.anc (hboth hw) (hrec.all w hw)).1
  · rw [hfamous m hm.le] at hne ⊢
    obtain ⟨w, hw, hno⟩ := hrec.first m hm hne
    exact ⟨w, hw, fun hanc => hno ((h.anc_iff (hboth hw)).mpr hanc)⟩
  · rw [hfamous n le_rfl] at hw
    exact h.firstSeen (hboth hw) (hfirst w hw)

theorem assignment_none_of_firstAssignment {k round : ℕ}
    (h : ∀ n t, g.firstAssignment x round k = some (n, t) → m < n) (hm : round ≤ m)
    (hm' : m < round + k) : g.assignment m x = none := by
  induction k generalizing round with
  | zero => omega
  | succ k ih =>
    rw [firstAssignment] at h
    cases hround : g.assignment round x with
    | some t =>
      have := h round t (by simp [hround])
      omega
    | none =>
      by_cases heq : m = round
      · rw [heq, hround]
      · have hnext : round + 1 ≤ m := by omega
        refine ih (fun n t hnt => h n t ?_) hnext (by omega)
        rw [hround, Option.map_none, Option.none_or, hnt]

theorem famousOf_zero (hwf : g.WellFormed) : g.famousOf 0 = [] := by
  by_contra hne
  obtain ⟨w, hw⟩ := List.exists_mem_of_ne_nil _ hne
  obtain ⟨r, hr, hround, -⟩ := hwf.witness_sound (List.mem_filter.mp hw).1
  have := hwf.round_pos hr
  omega

end Transport

section Step

variable {H : Hasher} {S : Set Event} {registry : MembershipRegistry} {g g' : Hashgraph}
  {hash x : EventHash} {event : Event} {i n : ℕ}

theorem Advances.famousOf_eq (h : Advances g g') (hwf : g.WellFormed) (hexact : g.UndecidedExact)
    (hn : g.Settled n) : g'.famousOf n = g.famousOf n := by
  rw [famousOf, famousOf, witnessesOfRound_of_skeleton_eq h.skeleton_eq]
  refine List.filter_congr fun w hw => ?_
  obtain ⟨status, hfame, hdecided⟩ := hn.exists_fame hwf hexact hw
  rw [hfame, h.fame_kept hfame hdecided]

/-- Where ordering starts from: the rounds below the next one are settled. -/
structure Ordering (g : Hashgraph) : Prop where
  wf : g.WellFormed
  whole : g.Whole
  clean : ∀ i, g.flagged i = false
  exact : g.UndecidedExact
  settled : g.DecidedSettled
  decided : ∀ {n}, 1 ≤ n → n < g.nextRoundToOrder → g.isRoundDecided n = true
  received : ∀ {x n}, g.roundReceived x = some n → n < g.nextRoundToOrder

/-- What voting and ordering do to the order of an event. -/
theorem Ordering.order_cases (hg : g.Ordering) (h : Advances g g') (hx : (g.get? x).isSome) :
    ((g.roundReceived x).isSome ∧ g'.orderOf x = g.orderOf x) ∨
      (g.roundReceived x = none ∧ g'.roundReceived x = none ∧
        g'.firstAssignment x g.nextRoundToOrder (g'.nextRoundToOrder - g.nextRoundToOrder) =
          none) ∨
      (g.roundReceived x = none ∧ ∃ n t,
        g'.firstAssignment x g.nextRoundToOrder (g'.nextRoundToOrder - g.nextRoundToOrder) =
          some (n, t) ∧ g'.orderOf x = (some n, some t)) := by
  have horder := h.order_eq hg.wf hg.exact hg.settled x hx
  have hfst : (g.orderOf x).1 = g.roundReceived x := rfl
  rw [stamp, hfst] at horder
  cases hold : g.roundReceived x with
  | some m =>
    rw [hold, if_pos (Option.isSome_some ..)] at horder
    exact .inl ⟨rfl, horder⟩
  | none =>
    rw [hold, Option.isSome_none, if_neg Bool.false_ne_true] at horder
    cases hfirst : g'.firstAssignment x g.nextRoundToOrder
        (g'.nextRoundToOrder - g.nextRoundToOrder) with
    | none =>
      rw [hfirst] at horder
      exact .inr (.inl ⟨rfl, (congrArg Prod.fst horder).trans hold, rfl⟩)
    | some a =>
      rw [hfirst] at horder
      exact .inr (.inr ⟨rfl, a.1, a.2, rfl, horder⟩)

/-- Voting and ordering keep the order as it is defined. -/
theorem Ordered.advance (h : g.Ordered) (hg : g.Ordering) (hadv : Advances g g') : g'.Ordered := by
  have hskel := hadv.skeleton_eq
  have hwf' := hadv.wellFormed hg.wf
  have hwhole' := hg.whole.of_rests (rests_of_skeleton_eq hskel)
  have hmeets : Meets g g' := (rests_of_skeleton_eq hskel).meets hg.whole hg.wf.toConsistent
    hwf'.toConsistent
  have hclean' (i : ℕ) : g'.flagged i = false := by
    rw [flagged, show g'.knownForkers = g.knownForkers from (congrArg knownForkers hskel :)]
    exact hg.clean i
  have hstored (y : EventHash) : (g'.get? y).isSome = (g.get? y).isSome :=
    isSome_get?_of_skeleton_eq hskel y
  have hfamous {m : ℕ} (hm : m < g.nextRoundToOrder) : g'.famousOf m = g.famousOf m := by
    rcases Nat.eq_zero_or_pos m with rfl | hpos
    · rw [famousOf_zero hwf', famousOf_zero hg.wf]
    · exact hadv.famousOf_eq hg.wf hg.exact (hg.settled m (hg.decided hpos hm))
  have hnext := hadv.next_le
  -- A round that was passed without receiving a pending event has a famous witness without it.
  have hpassed {x : EventHash} {m : ℕ} (hx : (g'.get? x).isSome) (hnone : g.roundReceived x = none)
      (hm : m < g'.nextRoundToOrder)
      (hlater : ∀ n t, g'.firstAssignment x g.nextRoundToOrder
        (g'.nextRoundToOrder - g.nextRoundToOrder) = some (n, t) → m < n)
      (hne : g'.famousOf m ≠ []) : ∃ w ∈ g'.famousOf m, ¬g'.Anc w x := by
    by_cases hold : m < g.nextRoundToOrder
    · rw [hfamous hold] at hne ⊢
      obtain ⟨w, hw, hno⟩ := h.pending (hstored x ▸ hx) hnone hold hne
      have hw' := isSome_of_mem_famousOf hg.wf hw
      exact ⟨w, hw, fun hanc => hno ((hmeets.anc_iff ⟨hw', hstored w ▸ hw'⟩).mpr hanc)⟩
    · exact hwhole'.assignment_none hwf'.toConsistent hclean' hwf' hx
        (assignment_none_of_firstAssignment hlater (by omega) (by omega)) hne
  refine ⟨fun {x n} hx => ?_, fun {x m} hx hnone hm hne => ?_⟩
  · have hx' : (g'.get? x).isSome := by
      obtain ⟨r, hr, -⟩ := Option.bind_eq_some_iff.mp hx
      exact Option.isSome_of_eq_some hr
    rcases hg.order_cases hadv (hstored x ▸ hx') with
      ⟨-, hsame⟩ | ⟨-, hnone, -⟩ | ⟨hold, n', t, hfirst, hnew⟩
    · have hold : g.roundReceived x = some n := (congrArg Prod.fst hsame).symm.trans hx
      obtain ⟨t, ht, hrec⟩ := h.received hold
      refine ⟨t, (congrArg Prod.snd hsame).trans ht, hrec.of_meets hmeets hg.wf
        (fun y hy => hstored y ▸ hy) (hadv.decided_kept hrec.decided) fun m hm => ?_⟩
      exact hfamous (hm.trans_lt (hg.received hold))
    · rw [hnone] at hx
      cases hx
    · obtain rfl : n' = n := Option.some.inj ((congrArg Prod.fst hnew).symm.trans hx)
      obtain ⟨hlow, hhigh⟩ := firstAssignment_bounds hfirst
      obtain ⟨hne, hall, hmedian⟩ := hwhole'.assignment_some hwf'.toConsistent hclean' hwf' hx'
        (assignment_of_firstAssignment hfirst)
      refine ⟨t, congrArg Prod.snd hnew, hadv.ordered_decided n' hlow (by omega), hne, hall,
        fun m hm => hpassed hx' hold (by omega) fun n t hnt => ?_, hmedian⟩
      rw [hfirst, Option.some.injEq, Prod.mk.injEq] at hnt
      omega
  · rcases hg.order_cases hadv (hstored x ▸ hx) with
      ⟨hsome, hsame⟩ | ⟨hold, -, hfirst⟩ | ⟨-, n, t, -, hnew⟩
    · rw [← show g'.roundReceived x = g.roundReceived x from congrArg Prod.fst hsame, hnone] at hsome
      cases hsome
    · refine hpassed hx hold hm (fun n t hnt => ?_) hne
      rw [hfirst] at hnt
      cases hnt
    · rw [show g'.roundReceived x = some n from congrArg Prod.fst hnew] at hnone
      cases hnone

/-- Placing a new event keeps the order as it is defined: no older witness has it as an ancestor. -/
theorem Ordered.placed (h : g.Ordered) (hg : g.Ordering) (hc : g.Checked hash event i)
    (hfit : g.Fits hash event)
    (hlt : ∀ {n}, g.isRoundDecided n = true → ∀ b, n < g.newRound event b) :
    (g.placed hash event i).Ordered := by
  have hmeets : Meets g (g.placed hash event i) := hc.meets hg.whole hg.wf.toConsistent hfit _
  have hstored (y : EventHash) (hy : (g.get? y).isSome) :
      ((g.placed hash event i).get? y).isSome := by
    obtain ⟨r, hr⟩ := Option.isSome_iff_exists.mp hy
    exact Option.isSome_of_eq_some (hc.get?_place_of_some _ hr)
  have hnext : (g.placed hash event i).nextRoundToOrder = g.nextRoundToOrder :=
    nextRoundToOrder_place
  have horder (x : EventHash) : (g.placed hash event i).orderOf x = g.orderOf x :=
    orderOf_place hc.fresh x
  have hwf' : (g.placed hash event i).WellFormed := hg.wf.place hc hfit _
  have hfamous {m : ℕ} (hm : m < g.nextRoundToOrder) :
      (g.placed hash event i).famousOf m = g.famousOf m := by
    rcases Nat.eq_zero_or_pos m with rfl | hpos
    · rw [famousOf_zero hwf', famousOf_zero hg.wf]
    · rw [famousOf, famousOf, witnessesOfRound_placed (hlt (hg.decided hpos hm)) le_rfl]
      refine List.filter_congr fun w hw => ?_
      obtain ⟨r, hr, -⟩ := hg.wf.witness_sound hw
      rw [Hashgraph.placed, fameOf_place, if_neg (hc.ne hr)]
  refine ⟨fun {x n} hx => ?_, fun {x m} hx hnone hm hne => ?_⟩
  · have hold : g.roundReceived x = some n := (congrArg Prod.fst (horder x)).symm.trans hx
    obtain ⟨t, ht, hrec⟩ := h.received hold
    refine ⟨t, (congrArg Prod.snd (horder x)).trans ht, hrec.of_meets hmeets hg.wf hstored ?_
      fun m hm => hfamous (hm.trans_lt (hg.received hold))⟩
    rw [isRoundDecided, Hashgraph.placed, fullyDecidedRounds_place]
    exact hrec.decided
  · rw [hnext] at hm
    rw [hfamous hm] at hne ⊢
    -- An old witness has an event as an ancestor exactly if it had.
    have hanc {w : EventHash} (hw : w ∈ g.famousOf m) :
        (g.get? w).isSome ∧ (g.Anc w x ↔ (g.placed hash event i).Anc w x) := by
      have hw' := isSome_of_mem_famousOf hg.wf hw
      exact ⟨hw', hmeets.anc_iff ⟨hw', hstored w hw'⟩⟩
    by_cases hxh : x = hash
    · obtain ⟨w, hw⟩ := List.exists_mem_of_ne_nil _ hne
      refine ⟨w, hw, fun hcontra => ?_⟩
      have hxs := hg.whole.isSome_of_anc (hanc hw).1 ((hanc hw).2.mpr hcontra)
      rw [hxh, hc.fresh] at hxs
      cases hxs
    · have hold : (g.get? x).isSome := by
        rwa [Hashgraph.placed, get?_place, if_neg hxh] at hx
      obtain ⟨w, hw, hno⟩ := h.pending hold ((congrArg Prod.fst (horder x)).symm.trans hnone) hm hne
      exact ⟨w, hw, fun hcontra => hno ((hanc hw).2.mpr hcontra)⟩

theorem Closing.clean (h : Closing H S registry g) (i : ℕ) : g.flagged i = false := by
  obtain ⟨past, htraced⟩ := h.traced
  exact htraced.unflagged i

/-- Where ordering starts from after an insertion into a graph from which nothing was pruned. -/
theorem Closing.ordering_placed (h : Closing H S registry g) (hmark : g.Watermarked)
    (hfree : H.CollisionFree S) (hforks : ForkFree S) (hevent : event ∈ S)
    (hhash : H event = .ok hash) (hc : g.Checked hash event i) :
    (g.placed hash event i).Ordering := by
  obtain ⟨past, htraced⟩ := h.traced
  have hfit := h.sound.fits hfree hevent hhash hc
  refine ⟨h.sound.wf.place hc hfit _, h.whole.place h.sound.wf.toConsistent hc _, ?_,
    h.sound.exact.place hc _, h.settled.placed fun hn b => ?_, fun {n} hpos hn => ?_,
    fun {x n} hx => ?_⟩
  · exact (htraced.place hfree hforks h.sound hevent hhash hc h.fixed.columns _).unflagged
  · exact h.lt_newRound hfree hforks hevent hhash hc hn b
  · rw [isRoundDecided, placed, fullyDecidedRounds_place]
    rw [placed, nextRoundToOrder_place] at hn
    exact hmark.decided hpos hn
  · rw [placed, nextRoundToOrder_place]
    exact (hmark.received ((congrArg Prod.fst (orderOf_place hc.fresh x)).symm.trans hx)).2

theorem Closing.ordering (h : Closing H S registry g) (hmark : g.Watermarked) : g.Ordering :=
  ⟨h.sound.wf, h.whole, h.clean, h.sound.exact, h.settled, hmark.decided,
    fun hx => (hmark.received hx).2⟩

/-- Along every run of insertions the order is as it is defined. -/
theorem Reached.ordered (hfree : H.CollisionFree S) (hforks : ForkFree S)
    (hg : Reached H (fun _ op => op.Inserts S) registry g) : g.Ordered := by
  induction hg with
  | new =>
    refine ⟨fun {x n} hx => ?_, fun {x m} hx => ?_⟩
    · rw [roundReceived, get?_new] at hx
      cases hx
    · rw [get?_new] at hx
      cases hx
  | @step t t' op ht hadm hop hleads ih =>
    have hclosing := ht.closing hfree hforks
    have hmark := ht.watermarked hfree fun _ _ hop => hop.from
    cases op.effect hclosing.sound hfree hadm hop.from hleads with
    | none hsame => exact hsame ▸ ih
    | insert hhash hc hinserted =>
      have hfit := hclosing.sound.fits hfree hop hhash hc
      have hplaced := ih.placed (hclosing.ordering hmark) hc hfit fun hn b =>
        hclosing.lt_newRound hfree hforks hop hhash hc hn b
      exact hplaced.advance (hclosing.ordering_placed hmark hfree hforks hop hhash hc)
        hinserted.advances
    | addMember _ _ => exact hop.elim
    | prune _ _ => exact hop.elim

/-- An event is received in no earlier round than its own. -/
theorem Ordered.round_le (h : g.Ordered) (hwf : g.WellFormed) (hw : g.Whole) {r : EventRecord}
    (hx : g.get? x = some r) (hn : g.roundReceived x = some n) : r.round ≤ n := by
  obtain ⟨t, -, hrec⟩ := h.received hn
  obtain ⟨w, hmem⟩ := List.exists_mem_of_ne_nil _ hrec.famous
  obtain ⟨rw', hrw, hround, -⟩ := hwf.witness_sound (List.mem_filter.mp hmem).1
  rcases hw.round_le_of_anc hrw hx (hrec.all w hmem) with rfl | hle
  · obtain rfl := Option.some.inj (hrw.symm.trans hx)
    exact hround.le
  · have := hw.newBase_le_round hrw
    omega

/-- What a received event has as an ancestor was received before it, or with it. -/
theorem Ordered.received_of_anc (h : g.Ordered) (hw : g.Whole) (hmark : g.Watermarked)
    {z : EventHash} (hn : g.roundReceived z = some n) (hanc : g.Anc z x) :
    ∃ m ≤ n, g.roundReceived x = some m := by
  have hz : (g.get? z).isSome := by
    obtain ⟨r, hr, -⟩ := Option.bind_eq_some_iff.mp hn
    exact Option.isSome_of_eq_some hr
  obtain ⟨t, -, hrec⟩ := h.received hn
  have hall (w : EventHash) (hmem : w ∈ g.famousOf n) : g.Anc w x := (hrec.all w hmem).trans hanc
  cases hx : g.roundReceived x with
  | none =>
    obtain ⟨w, hmem, hno⟩ := h.pending (hw.isSome_of_anc hz hanc) hx (hmark.received hn).2
      hrec.famous
    exact absurd (hall w hmem) hno
  | some m =>
    refine ⟨m, ?_, rfl⟩
    by_contra hlt
    obtain ⟨t', -, hrec'⟩ := h.received hx
    obtain ⟨w, hmem, hno⟩ := hrec'.first n (by omega) hrec.famous
    exact absurd (hall w hmem) hno

/-- The ancestors of an ordered event are ordered, in its round or before. -/
theorem order_respects_ancestry (hfree : H.CollisionFree S) (hforks : ForkFree S)
    (hg : Reached H (fun _ op => op.Inserts S) registry g) {y : EventHash}
    (hy : y ∈ g.consensusOrder n) (hanc : g.Anc y x) : ∃ m ≤ n, x ∈ g.consensusOrder m := by
  simp only [mem_consensusOrder] at hy ⊢
  exact (hg.ordered hfree hforks).received_of_anc (hg.whole hfree fun _ _ hop => hop.fromKeeps)
    (hg.watermarked hfree fun _ _ hop => hop.from) hy hanc

theorem order_respects_ancestry_solo :
    ∃ g : Hashgraph, 2 ∈ g.consensusOrder 2 ∧ g.Anc 2 1 ∧ ∃ m ≤ 2, 1 ∈ g.consensusOrder m := by
  obtain ⟨g, hg, hp⟩ := exists_built (S := {e | e ∈ soloChain 6}) (plainRegistry 1) (soloChain 6)
    (fun g => g.roundReceived 2 == some 2 && g.parentsOf 2 == [1]) (fun _ => id) (by decide +kernel)
  simp only [Bool.and_eq_true, beq_iff_eq] at hp
  have hy : 2 ∈ g.consensusOrder 2 := mem_consensusOrder.mpr hp.1
  have hanc : g.Anc 2 1 := .single (hp.2 ▸ List.mem_cons_self)
  exact ⟨g, hy, hanc, order_respects_ancestry (collisionFree_soloChain 6)
    (forkFree_of_pairwise (by decide)) hg hy hanc⟩

end Step

end Hashgraph

end JKain
