import JKain.Consensus.Received

/-!
# A graph after prunes, beside the graph that kept everything

`Shadow g g'` relates a graph `g` from which nothing was pruned to a graph `g'` of the same events
from which some were: what is stored in `g'` is stored in `g` with the same number, row and round,
and whatever a missing event had as an ancestor was received in a round below the next one to order.
So an event that is still to be ordered, or of a round still to be ordered, is no ancestor of a
missing event (`Kept`), and the queries about it, which end where an event is missing, answer alike
in both graphs.
-/

namespace JKain

open Std JKain.Lib

namespace Hashgraph

/-- `g'` is what prunes left of `g`: the part that round assignment writes. -/
structure Shadow (registry : MembershipRegistry) (g g' : Hashgraph) : Prop where
  whole : g.Whole
  wf : g.WellFormed
  wf' : g'.WellFormed
  clean : ∀ i, g.flagged i = false
  clean' : ∀ i, g'.flagged i = false
  fixed : FixedRegistry registry g
  fixed' : FixedRegistry registry g'
  record : ∀ {x r'}, g'.get? x = some r' → ∃ r, g.get? x = some r ∧ r.bare = r'.bare
  /-- What a missing event has as an ancestor was received. -/
  lost : ∀ {z x}, (g.get? z).isSome → g'.get? z = none → g.Anc z x →
    ∃ r n, g.get? x = some r ∧ g.roundReceived x = some n ∧ r.round ≤ n ∧ n < g.nextRoundToOrder
  slot : ∀ {c s x}, g'.eventForCreatorSeq c s = some x ↔
    g.eventForCreatorSeq c s = some x ∧ (g'.get? x).isSome
  latest : ∀ c, g'.latestEventBy c = g.latestEventBy c
  canonical : ∀ {x}, (g'.get? x).isSome → g'.isCanonical x = true
  witnesses : ∀ n, g'.witnessesOfRound n =
    (g.witnessesOfRound n).filter fun x => (g'.get? x).isSome
  highest : g'.highestWitnessRound = g.highestWitnessRound

/-- Nothing that has `y` as an ancestor is missing. -/
def Kept (g g' : Hashgraph) (y : EventHash) : Prop :=
  ∀ z, (g.get? z).isSome → g.Anc z y → (g'.get? z).isSome

theorem Kept.isSome {g g' : Hashgraph} {x : EventHash} (h : Kept g g' x)
    (hx : (g.get? x).isSome) : (g'.get? x).isSome := h x hx .refl

/-- Two ballots with the same fame and the same votes of the events stored in `g'`. -/
structure Alike (g' : Hashgraph) (b b' : Ballot) : Prop where
  fame : b'.fame = b.fame
  votes : ∀ {y}, (g'.get? y).isSome → b'.votes y = b.votes y

namespace Shadow

variable {registry : MembershipRegistry} {g g' : Hashgraph} {w x y z : EventHash}
  {r r' : EventRecord} {c : NodeId} {i n s : ℕ} (h : Shadow registry g g')
include h

/-! ## The stored events -/

theorem isSome_left (hx : (g'.get? x).isSome) : (g.get? x).isSome := by
  obtain ⟨r', hr'⟩ := Option.isSome_iff_exists.mp hx
  obtain ⟨r, hr, -⟩ := h.record hr'
  exact Option.isSome_of_eq_some hr

/-- A record in both graphs. -/
theorem record_eq (hx : g.get? x = some r) (hx' : g'.get? x = some r') :
    r'.event = r.event ∧ r'.seq = r.seq ∧ r'.ancestorSeqs = r.ancestorSeqs ∧ r'.round = r.round ∧
      r'.isWitness = r.isWitness := by
  obtain ⟨r₁, hr₁, hbare⟩ := h.record hx'
  obtain rfl := Option.some.inj (hr₁.symm.trans hx)
  exact ⟨(congrArg EventRecord.event hbare.symm :), (congrArg EventRecord.seq hbare.symm :),
    (congrArg EventRecord.ancestorSeqs hbare.symm :), (congrArg EventRecord.round hbare.symm :),
    (congrArg EventRecord.isWitness hbare.symm :)⟩

theorem exists_records (hx : (g'.get? x).isSome) :
    ∃ r r', g.get? x = some r ∧ g'.get? x = some r' := by
  obtain ⟨r', hr'⟩ := Option.isSome_iff_exists.mp hx
  obtain ⟨r, hr, -⟩ := h.record hr'
  exact ⟨r, r', hr, hr'⟩

theorem slot_eq (hx : g.get? x = some r) (hx' : g'.get? x = some r') (i : ℕ) :
    EventRecord.slot r' i = EventRecord.slot r i := by
  rw [EventRecord.slot, EventRecord.slot, (h.record_eq hx hx').2.2.1]

theorem roundOf_eq (hx : (g'.get? x).isSome) : g'.roundOf x = g.roundOf x := by
  obtain ⟨r, r', hr, hr'⟩ := h.exists_records hx
  rw [Hashgraph.roundOf_eq hr, Hashgraph.roundOf_eq hr', (h.record_eq hr hr').2.2.2.1]

theorem memberIndex_eq : g'.memberIndex = g.memberIndex := by
  rw [h.fixed.memberIndex_eq, h.fixed'.memberIndex_eq]

theorem memberIndexOf_eq (c : NodeId) : g'.memberIndexOf c = g.memberIndexOf c := by
  rw [memberIndexOf, memberIndexOf, h.memberIndex_eq]

theorem memberCount_eq : g'.memberCount = g.memberCount := by
  rw [h.fixed.memberCount_eq, h.fixed'.memberCount_eq]

theorem memberCountAtRound_eq (n : ℕ) : g'.memberCountAtRound n = g.memberCountAtRound n :=
  h.fixed'.memberCountAtRound_eq h.fixed n

theorem totalAt_eq (n : ℕ) : g'.totalAt n = g.totalAt n :=
  totalAt_of_memberCountAtRound_eq (h.memberCountAtRound_eq n)

/-! ## What is kept -/

/-- Nothing that has a pending event as an ancestor is missing. -/
theorem kept_of_pending (hx : g.roundReceived x = none) : Kept g g' x := by
  intro z hz hanc
  by_contra hmissing
  obtain ⟨r, n, -, hn, -⟩ := h.lost hz (by simpa using hmissing) hanc
  rw [hx] at hn
  cases hn

/-- Nothing that has an event of a round still to be ordered as an ancestor is missing. -/
theorem kept_of_round (hx : g.get? x = some r) (hr : g.nextRoundToOrder ≤ r.round) :
    Kept g g' x := by
  intro z hz hanc
  by_contra hmissing
  obtain ⟨r₁, n, hr₁, -, hle, hlt⟩ := h.lost hz (by simpa using hmissing) hanc
  obtain rfl := Option.some.inj (hr₁.symm.trans hx)
  omega

/-- The witnesses of a round still to be ordered are all there. -/
theorem witnesses_eq (hn : g.nextRoundToOrder ≤ n) :
    g'.witnessesOfRound n = g.witnessesOfRound n := by
  rw [h.witnesses n, List.filter_eq_self]
  intro w hw
  obtain ⟨r, hr, hround, -⟩ := h.wf.witness_sound hw
  exact (h.kept_of_round hr (by omega)).isSome (Option.isSome_of_eq_some hr)

/-! ## Seeing -/

theorem sees_eq (hx : (g'.get? x).isSome) (hy : (g'.get? y).isSome) :
    g'.sees x y = g.sees x y := by
  obtain ⟨r, r', hr, hr'⟩ := h.exists_records hx
  obtain ⟨ry, ry', hry, hry'⟩ := h.exists_records hy
  obtain ⟨i, hi⟩ := h.wf.member hry
  obtain ⟨hevent, hseq, -⟩ := h.record_eq hry hry'
  have hi' : g'.memberIndexOf ry'.event.creator = some i := by
    rw [h.memberIndexOf_eq, hevent, hi]
  rw [h.wf.sees_unforked h.clean hr hry hi, h.wf'.sees_unforked h.clean' hr' hry' hi', hseq,
    h.slot_eq hr hr']

theorem see_eq (hx : (g'.get? x).isSome) (hy : (g'.get? y).isSome) : g'.see x y = g.see x y := by
  obtain ⟨r, r', hr, hr'⟩ := h.exists_records hx
  obtain ⟨ry, ry', hry, hry'⟩ := h.exists_records hy
  rw [h.wf.see_eq hr hry, h.wf'.see_eq hr' hry', h.sees_eq hx hy]

/-- A chain of events that do not all survive ends, in the shadow, before anything that could see
the target. -/
theorem chainReaches_missing (hkept : Kept g g' y) (hy : (g.get? y).isSome) {fuel : ℕ}
    (hx : g.get? x = some r) (hfuel : r.seq < fuel) (hmissing : g'.get? x = none) :
    g.chainReaches y fuel x = .ok false := by
  obtain ⟨ry, hry⟩ := Option.isSome_iff_exists.mp hy
  have hreturns := (h.wf.chainReaches_safe (E := fun _ => False) hry hx hfuel).returns.eq_ok
  rw [hreturns]
  congr 1
  by_contra htrue
  rw [Bool.not_eq_false, h.whole.chainReaches_iff h.wf.toConsistent hry hx hfuel] at htrue
  obtain ⟨z, hz, hsees⟩ := htrue
  obtain ⟨rz, hrz⟩ := Option.isSome_iff_exists.mp
    (h.whole.isSome_of_anc (Option.isSome_of_eq_some hx) hz.anc)
  have hanc := (h.whole.sees_iff_anc h.wf.toConsistent h.clean hrz hy).mp hsees
  have hstored := hkept x (Option.isSome_of_eq_some hx) (hz.anc.trans hanc)
  rw [hmissing] at hstored
  cases hstored

/-- The walk down a member's chain answers alike. -/
theorem chainReaches_eq (hkept : Kept g g' y) (hy : (g.get? y).isSome) {fuel : ℕ}
    (hx : g.get? x = some r) (hx' : (g'.get? x).isSome) (hfuel : r.seq < fuel) :
    g'.chainReaches y fuel x = g.chainReaches y fuel x := by
  induction fuel generalizing x r with
  | zero => omega
  | succ fuel ih =>
    obtain ⟨r', hr'⟩ := Option.isSome_iff_exists.mp hx'
    unfold chainReaches
    rw [h.see_eq hx' (hkept.isSome hy), hx, hr', Option.bind_some, Option.bind_some,
      (h.record_eq hx hr').1]
    cases hself : r.event.selfParent with
    | none => rfl
    | some p =>
      obtain ⟨rp, hrp⟩ := Option.isSome_iff_exists.mp
        (h.whole.parents hx p (Event.mem_parents.mpr (.inl hself)))
      have hseq := (h.wf.self_parent hx hself hrp).1
      have hstep : (if (g'.get? p).isNone then pure false else g'.chainReaches y fuel p) =
          if (g.get? p).isNone then pure false else g.chainReaches y fuel p := by
        rw [hrp, Option.isNone_some, if_neg Bool.false_ne_true]
        cases hp' : g'.get? p with
        | none => exact (h.chainReaches_missing hkept hy hrp (by omega) hp').symm
        | some rp' => exact ih hrp (Option.isSome_of_eq_some hp') (by omega)
      simp only [hstep]

/-- The event a member's chain is entered at: the one of the other graph, if it survives. -/
theorem creatorChainEvent_cases (hi : g.memberIndexOf c = some i) (s : ℕ) :
    (g'.creatorChainEvent x c i s = g.creatorChainEvent w c i s ∧
        ∀ z, g.creatorChainEvent w c i s = .ok (some z) → (g'.get? z).isSome) ∨
      ∃ z, g.IsEventAt c s z ∧ g'.get? z = none ∧ g.creatorChainEvent w c i s = .ok (some z) ∧
        g'.creatorChainEvent x c i s = .ok none := by
  have hlt := h.wf.index_lt hi
  rw [h.wf.creatorChainEvent_unforked h.clean hlt,
    h.wf'.creatorChainEvent_unforked h.clean' (h.memberCount_eq ▸ hlt)]
  cases hz : g.eventForCreatorSeq c s with
  | none =>
    refine .inl ⟨?_, by simp⟩
    cases hz' : g'.eventForCreatorSeq c s with
    | none => rfl
    | some z =>
      rw [(h.slot.mp hz').1] at hz
      cases hz
  | some z =>
    cases hmissing : g'.get? z with
    | some rz =>
      have hz' := h.slot.mpr ⟨hz, Option.isSome_of_eq_some hmissing⟩
      refine .inl ⟨by rw [hz'], fun z₁ hz₁ => ?_⟩
      rw [Except.ok.injEq, Option.some.injEq] at hz₁
      exact hz₁ ▸ Option.isSome_of_eq_some hmissing
    | none =>
      refine .inr ⟨z, h.wf.indexed hz, hmissing, rfl, ?_⟩
      cases hz' : g'.eventForCreatorSeq c s with
      | none => rfl
      | some z₁ =>
        obtain ⟨hz₁, hstored⟩ := h.slot.mp hz'
        rw [hz, Option.some.injEq] at hz₁
        rw [← hz₁, hmissing] at hstored
        cases hstored

theorem memberCounts_eq (hkept : Kept g g' y) (hy : (g.get? y).isSome) (hx : g.get? x = some r)
    (hx' : g'.get? x = some r') (hi : g.memberIndexOf c = some i) :
    g'.memberCounts x y r' (c, i) = g.memberCounts x y r (c, i) := by
  have hlt := h.wf.index_lt hi
  unfold memberCounts
  rw [h.wf.ancestorSeq_eq hx hlt, h.wf'.ancestorSeq_eq hx' (h.memberCount_eq ▸ hlt),
    h.slot_eq hx hx']
  simp only [bind, Except.bind]
  by_cases hzero : EventRecord.slot r i = 0
  · rw [if_pos hzero, if_pos hzero]
  · rw [if_neg hzero, if_neg hzero, Consistent.memberChainReaches_eq,
      Consistent.memberChainReaches_eq]
    rcases h.creatorChainEvent_cases (x := x) (w := x) hi (EventRecord.slot r i) with
      ⟨hsame, hstored⟩ | ⟨z, hat, hmissing, hz, hz'⟩
    · rw [hsame]
      obtain ⟨z, hz, hat⟩ := h.wf.creatorChainEvent_cases (x := x) hlt c (EventRecord.slot r i)
      rw [hz]
      cases z with
      | none => rfl
      | some z =>
        obtain ⟨rz, hrz, -, hseq⟩ := hat z rfl
        exact h.chainReaches_eq hkept hy hrz (hstored z hz) (by omega)
    · obtain ⟨rz, hrz, -, hseq⟩ := hat
      rw [hz, hz']
      exact (h.chainReaches_missing hkept hy hrz (by omega) hmissing).symm

theorem carriers_eq (hkept : Kept g g' y) (hy : (g.get? y).isSome) (hx : (g'.get? x).isSome) :
    g'.carriers x y = g.carriers x y := by
  obtain ⟨r, r', hr, hr'⟩ := h.exists_records hx
  ext c
  rw [Whole.mem_carriers, Whole.mem_carriers, carries, carries, hr, hr', Option.any_some, Option.any_some,
    h.memberIndexOf_eq]
  cases hi : g.memberIndexOf c with
  | none => rfl
  | some i => rw [Option.any_some, Option.any_some, h.memberCounts_eq hkept hy hr hr' hi]

/-- Strongly seeing an event that is kept. -/
theorem stronglySeesAt_eq (hkept : Kept g g' y) (hy : (g.get? y).isSome)
    (hx : (g'.get? x).isSome) (n : ℕ) : g'.stronglySeesAt x y n = g.stronglySeesAt x y n := by
  obtain ⟨r, r', hr, hr'⟩ := h.exists_records hx
  obtain ⟨ry, ry', hry, hry'⟩ := h.exists_records (hkept.isSome hy)
  rw [Whole.stronglySeesAt_eq h.wf.toConsistent hr hry,
    Whole.stronglySeesAt_eq h.wf'.toConsistent hr' hry', h.sees_eq hx (hkept.isSome hy),
    h.carriers_eq hkept hy hx, h.memberCountAtRound_eq]

theorem stronglySees_eq (hn : g.nextRoundToOrder ≤ n) (hw : w ∈ g.witnessesOfRound n)
    (hx : (g'.get? x).isSome) : g'.stronglySees x w = g.stronglySees x w := by
  obtain ⟨r, hr, hround, -⟩ := h.wf.witness_sound hw
  have hw' : w ∈ g'.witnessesOfRound n := by rwa [h.witnesses_eq hn]
  rw [h.wf.stronglySees_eq hw, h.wf'.stronglySees_eq hw']
  exact h.stronglySeesAt_eq (h.kept_of_round hr (by omega)) (Option.isSome_of_eq_some hr) hx n

/-- What a witness heard of a round still to be ordered. -/
theorem heard_eq (hy : (g'.get? y).isSome) (hround : g.nextRoundToOrder ≤ g.roundOf y - 1) :
    g'.heard y = g.heard y := by
  rw [heard, heard, h.roundOf_eq hy, h.witnesses_eq hround]
  exact List.filter_congr fun w hw => h.stronglySees_eq hround hw hy

/-! ## The order of an event that is kept -/

/-- What the search for the first event asks of a number, and the event it ends at. -/
theorem chainEventSees_eq (hkept : Kept g g' x) (hx : (g.get? x).isSome)
    (hi : g.memberIndexOf c = some i) (s : ℕ) :
    g'.chainEventSees w x c i s = g.chainEventSees w x c i s ∧
      (truth (g.chainEventSees w x c i s) = true →
        g'.creatorChainEvent w c i s = g.creatorChainEvent w c i s) := by
  obtain ⟨rx, hrx⟩ := Option.isSome_iff_exists.mp hx
  rcases h.creatorChainEvent_cases (x := w) (w := w) hi s with
    ⟨hsame, hstored⟩ | ⟨z, hat, hmissing, hz, hz'⟩
  · refine ⟨?_, fun _ => hsame⟩
    obtain ⟨z, hz, -⟩ := h.wf.creatorChainEvent_cases (x := w) (h.wf.index_lt hi) c s
    unfold chainEventSees
    rw [hsame, hz]
    cases z with
    | none => rfl
    | some z =>
      show unwrapOrFalse (g'.see z x) = unwrapOrFalse (g.see z x)
      rw [h.see_eq (hstored z hz) (hkept.isSome hx)]
  · -- A missing event does not have the target as an ancestor.
    obtain ⟨rz, hrz, -⟩ := hat
    have hblind : g.sees z x = false := by
      by_contra hsees
      rw [Bool.not_eq_false, h.whole.sees_iff_anc h.wf.toConsistent h.clean hrz hx] at hsees
      have hstored := hkept z (Option.isSome_of_eq_some hrz) hsees
      rw [hmissing] at hstored
      cases hstored
    have htest : g.chainEventSees w x c i s = .ok false := by
      unfold chainEventSees
      rw [hz]
      show unwrapOrFalse (g.see z x) = .ok false
      rw [h.wf.unwrapOrFalse_see_eq hrz hrx, hblind]
    refine ⟨?_, fun hpass => ?_⟩
    · rw [htest]
      unfold chainEventSees
      rw [hz']
      rfl
    · rw [htest] at hpass
      cases hpass

theorem earliestSeeing_eq (hkept : Kept g g' x) (hx : (g.get? x).isSome) (hw : g.get? w = some r)
    (hw' : g'.get? w = some r') {members : List (NodeId × ℕ)}
    (hmembers : ∀ m ∈ members, g.memberIndexOf m.1 = some m.2)
    (earliest : Option (ℕ × EventHash)) :
    g'.earliestSeeing w x r' members earliest = g.earliestSeeing w x r members earliest := by
  obtain ⟨rx, hrx⟩ := Option.isSome_iff_exists.mp hx
  induction members generalizing earliest with
  | nil => rfl
  | cons m members ih =>
    obtain ⟨c, i⟩ := m
    have hi : g.memberIndexOf c = some i := hmembers (c, i) (by simp)
    have hlt := h.wf.index_lt hi
    have htest : g'.chainEventSees w x c i = g.chainEventSees w x c i :=
      funext fun s => (h.chainEventSees_eq hkept hx hi s).1
    have hrest := ih fun m hm => hmembers m (by simp [hm])
    simp only [earliestSeeing, h.wf.ancestorSeq_eq hw hlt,
      h.wf'.ancestorSeq_eq hw' (h.memberCount_eq ▸ hlt), h.slot_eq hw hw', htest, hrest, bind,
      Except.bind]
    by_cases hzero : EventRecord.slot r i = 0
    · rw [if_pos hzero, if_pos hzero]
    · rw [if_neg hzero, if_neg hzero]
      have hreturns (s : ℕ) : g.chainEventSees w x c i s =
          .ok (truth (g.chainEventSees w x c i s)) :=
        (h.wf.chainEventSees_safe (E := fun _ => False) hrx hlt c s).returns.eq_ok
      rw [hreturns]
      cases hlast : truth (g.chainEventSees w x c i (EventRecord.slot r i)) with
      | false => rfl
      | true =>
        obtain ⟨low, hlow, -, hle, hpass, -⟩ := lowerBoundM_returns (E := fun _ => False)
          (EventRecord.slot r i - 1) (fun s _ _ => .of_eq (hreturns s))
          (show 1 ≤ EventRecord.slot r i by omega)
        have hsees : truth (g.chainEventSees w x c i low) = true := by
          by_cases hless : low < EventRecord.slot r i
          · exact hpass le_rfl hless
          · rw [show low = EventRecord.slot r i by omega, hlast]
        simp only [if_true, hlow.eq_ok, (h.chainEventSees_eq hkept hx hi low).2 hsees]

theorem firstSeenTimestamp_eq (hkept : Kept g g' x) (hx : (g.get? x).isSome)
    (hw : (g'.get? w).isSome) : g'.firstSeenTimestamp w x = g.firstSeenTimestamp w x := by
  obtain ⟨r, r', hr, hr'⟩ := h.exists_records hw
  obtain ⟨rx, hrx⟩ := Option.isSome_iff_exists.mp hx
  obtain ⟨rx', hrx'⟩ := Option.isSome_iff_exists.mp (hkept.isSome hx)
  have hmembers (m : NodeId × ℕ) (hm : m ∈ g.memberIndex.toList) :
      g.memberIndexOf m.1 = some m.2 := ExtTreeMap.mem_toList_iff_getElem?_eq_some.mp hm
  have hsame := h.earliestSeeing_eq hkept hx hr hr' hmembers none
  -- The event found is stored in both graphs.
  obtain ⟨res, hres, hstored, -⟩ := h.wf'.earliestSeeing_eq hr' hrx'
    (fun m hm => h.wf'.memberIndex_lt hm) none (by simp)
  rw [h.memberIndex_eq] at hres
  unfold firstSeenTimestamp
  rw [hr, hr']
  simp only [h.memberIndex_eq, ← hsame, hres]
  cases res with
  | none => rfl
  | some p =>
    obtain ⟨rp, rp', hrp, hrp'⟩ := h.exists_records (hstored p rfl)
    simp only [bind, Except.bind, Option.join_some, Option.bind_some, hrp, hrp', Option.map_some,
      (h.record_eq hrp hrp').1]

theorem orderTimestamp_eq (hkept : Kept g g' x) (hx : (g.get? x).isSome) {famous : List EventHash}
    (hfamous : ∀ w ∈ famous, (g'.get? w).isSome) :
    g'.orderTimestamp famous x = g.orderTimestamp famous x := by
  have hevery : everyM (fun w => unwrapOrFalse (g'.see w x)) famous =
      everyM (fun w => unwrapOrFalse (g.see w x)) famous := by
    obtain ⟨rx, hrx⟩ := Option.isSome_iff_exists.mp hx
    have hleft (w : EventHash) (hw : w ∈ famous) :
        Returns (fun _ => False) (unwrapOrFalse (g.see w x)) (g.sees w x) := by
      obtain ⟨r, r', hr, -⟩ := h.exists_records (hfamous w hw)
      exact .of_eq (h.wf.unwrapOrFalse_see_eq hr hrx)
    have hright (w : EventHash) (hw : w ∈ famous) :
        Returns (fun _ => False) (unwrapOrFalse (g'.see w x)) (g.sees w x) := by
      rw [h.see_eq (hfamous w hw) (hkept.isSome hx)]
      exact hleft w hw
    rw [(everyM_returns hleft).eq_ok, (everyM_returns hright).eq_ok]
  have hmap : famous.mapM (fun w => g'.firstSeenTimestamp w x) =
      famous.mapM fun w => g.firstSeenTimestamp w x :=
    mapM_congr fun w hw => h.firstSeenTimestamp_eq hkept hx (hfamous w hw)
  unfold orderTimestamp
  rw [hevery, hmap]

/-! ## The elections of candidates of a round still to be ordered -/

theorem coinOf_eq (hy : (g'.get? y).isSome) : g'.coinOf y = g.coinOf y := by
  obtain ⟨r, r', hr, hr'⟩ := h.exists_records hy
  simp only [coinOf, coinRoundVote, hr, hr', (h.record_eq hr hr').1]

theorem outcome_eq {b b' : Ballot} (hb : Alike g' b b') (hw : (g'.get? w).isSome)
    (hy : (g'.get? y).isSome) (hnext : g.nextRoundToOrder ≤ g.roundOf w)
    (hlt : g.roundOf w < g.roundOf y) : g'.outcome y w b'.votes = g.outcome y w b.votes := by
  have hround : g.nextRoundToOrder ≤ g.roundOf y - 1 := by omega
  have hcount (v : Bool) : (g.heard y).countP (b'.votes · == some v) =
      (g.heard y).countP (b.votes · == some v) := by
    refine List.countP_congr fun s hs => ?_
    have hs' : s ∈ g'.heard y := by rwa [h.heard_eq hy hround]
    obtain ⟨r', hr', -⟩ := h.wf'.witness_sound (List.mem_filter.mp hs').1
    rw [hb.votes (Option.isSome_of_eq_some hr')]
  have hconclusion (yes no : ℕ) : g'.conclusion y w yes no = g.conclusion y w yes no := by
    simp only [conclusion, h.roundOf_eq hy, h.roundOf_eq hw, h.totalAt_eq, h.coinOf_eq hy]
  unfold outcome
  rw [h.roundOf_eq hy, h.roundOf_eq hw, h.sees_eq hy hw, h.heard_eq hy hround, hcount, hcount,
    hconclusion]

theorem alike_ask {b b' : Ballot} (hb : Alike g' b b') (hw : (g'.get? w).isSome)
    (hy : (g'.get? y).isSome) (hnext : g.nextRoundToOrder ≤ g.roundOf w)
    (hlt : g.roundOf w < g.roundOf y) : Alike g' (b.ask g w y) (b'.ask g' w y) := by
  unfold Ballot.ask
  rw [hb.fame, hb.votes hy, h.outcome_eq hb hw hy hnext hlt]
  by_cases hask : b.fame = some .undecided ∧ b.votes y = none
  · rw [if_pos hask, if_pos hask]
    cases g.outcome y w b.votes with
    | decided status => exact ⟨rfl, hb.votes⟩
    | cast v =>
      refine ⟨hb.fame, fun {u} hu => ?_⟩
      show Function.update b'.votes y (some v) u = Function.update b.votes y (some v) u
      by_cases huy : u = y
      · rw [huy, Function.update_self, Function.update_self]
      · rw [Function.update_of_ne huy, Function.update_of_ne huy, hb.votes hu]
  · rw [if_neg hask, if_neg hask]
    exact hb

theorem alike_eager {b b' : Ballot} (hb : Alike g' b b') (hw : (g'.get? w).isSome)
    (hnext : g.nextRoundToOrder ≤ g.roundOf w) : Alike g' (b.eager g w) (b'.eager g' w) := by
  have hvoters : g'.witnessesOfRound (g.roundOf w + 1) = g.witnessesOfRound (g.roundOf w + 1) :=
    h.witnesses_eq (by omega)
  have hcast : (g.witnessesOfRound (g.roundOf w + 1)).filterMap b'.votes =
      (g.witnessesOfRound (g.roundOf w + 1)).filterMap b.votes := by
    refine List.filterMap_congr fun s hs => hb.votes ?_
    rw [← hvoters] at hs
    obtain ⟨r', hr', -⟩ := h.wf'.witness_sound hs
    exact Option.isSome_of_eq_some hr'
  have houtcome : g'.eagerOutcome w b'.votes = g.eagerOutcome w b.votes := by
    simp only [eagerOutcome, h.roundOf_eq hw, hvoters, hcast, h.totalAt_eq, h.highest]
  unfold Ballot.eager
  rw [hb.fame, houtcome]
  by_cases hopen : b.fame = some .undecided
  · rw [if_pos hopen, if_pos hopen]
    cases g.eagerOutcome w b.votes with
    | none => exact hb
    | some status => exact ⟨rfl, hb.votes⟩
  · rw [if_neg hopen, if_neg hopen]
    exact hb

theorem alike_foldl_ask {b b' : Ballot} (hb : Alike g' b b') (hw : (g'.get? w).isSome)
    (hnext : g.nextRoundToOrder ≤ g.roundOf w) {l : List EventHash}
    (hl : ∀ y ∈ l, (g'.get? y).isSome ∧ g.roundOf w < g.roundOf y) :
    Alike g' (l.foldl (Ballot.ask g w) b) (l.foldl (Ballot.ask g' w) b') := by
  induction l generalizing b b' with
  | nil => exact hb
  | cons y l ih =>
    obtain ⟨hy, hlt⟩ := hl y (by simp)
    exact ih (h.alike_ask hb hw hy hnext hlt) fun u hu => hl u (by simp [hu])

theorem alike_backfillRound {b b' : Ballot} (hb : Alike g' b b') (hw : (g'.get? w).isSome)
    (hnext : g.nextRoundToOrder ≤ g.roundOf w) (hn : g.roundOf w < n) :
    Alike g' (b.backfillRound g w n) (b'.backfillRound g' w n) := by
  have hvoters : g'.witnessesOfRound n = g.witnessesOfRound n := h.witnesses_eq (by omega)
  unfold Ballot.backfillRound
  rw [hvoters]
  refine h.alike_eager (h.alike_foldl_ask hb hw hnext fun y hy => ?_) hw hnext
  obtain ⟨r, hr, hround, -⟩ := h.wf.witness_sound hy
  rw [← hvoters] at hy
  obtain ⟨r', hr', -⟩ := h.wf'.witness_sound hy
  exact ⟨Option.isSome_of_eq_some hr', by rw [Hashgraph.roundOf_eq hr]; omega⟩

theorem alike_foldl_backfillRound {b b' : Ballot} (hb : Alike g' b b') (hw : (g'.get? w).isSome)
    (hnext : g.nextRoundToOrder ≤ g.roundOf w) {rounds : List ℕ}
    (hrounds : ∀ n ∈ rounds, g.roundOf w < n) :
    Alike g' (rounds.foldl (Ballot.backfillRound g w) b)
      (rounds.foldl (Ballot.backfillRound g' w) b') := by
  induction rounds generalizing b b' with
  | nil => exact hb
  | cons n rounds ih =>
    exact ih (h.alike_backfillRound hb hw hnext (hrounds n (by simp)))
      fun m hm => hrounds m (by simp [hm])

/-- The ballots after a witness was inserted. -/
theorem alike_polled (hw : (g'.get? w).isSome) (hy : (g'.get? y).isSome)
    (hballot : ∀ {u}, (g'.get? u).isSome → Alike g' (g.ballot u) (g'.ballot u))
    (hnext : g.fameOf w = some .undecided → g.nextRoundToOrder ≤ g.roundOf w)
    (hy' : g.nextRoundToOrder ≤ g.roundOf y) : Alike g' (g.polled y w) (g'.polled y w) := by
  unfold polled
  by_cases hwy : w = y
  · rw [if_pos hwy, if_pos hwy]
    unfold Ballot.backfill
    rw [h.roundOf_eq hy, h.highest]
    refine h.alike_eager (h.alike_foldl_backfillRound (hballot hy) hy hy' fun n hn => ?_) hy hy'
    have := List.mem_range'_1.mp hn
    omega
  · have hfame : g'.fameOf w = g.fameOf w := (hballot hw).fame
    rw [if_neg hwy, if_neg hwy, hfame, h.roundOf_eq hw, h.roundOf_eq hy]
    by_cases hvotes : g.fameOf w = some .undecided ∧ g.roundOf w < g.roundOf y
    · rw [if_pos hvotes, if_pos hvotes]
      exact h.alike_eager (h.alike_ask (hballot hw) hw hy (hnext hvotes.1) hvotes.2) hw
        (hnext hvotes.1)
    · rw [if_neg hvotes, if_neg hvotes]
      exact hballot hw

end Shadow

end Hashgraph

end JKain
