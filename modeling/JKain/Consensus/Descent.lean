import JKain.Consensus.Lineage

/-!
# Ancestry after pruning

Over events without forks `is_ancestor` tells of two stored events whether one descends from the
other in the whole history, also where the events between them were pruned and where members have
joined since: the rows of the stored events bound the numbers of everything they stem from, from
below (`Charted.row`) and from above (`Ranged.full`).
-/

namespace JKain

open Std JKain.Lib

namespace Hashgraph

/-- The rows reach what the events stem from. -/
structure Ranged (H : Hasher) (S : Set Event) (past : Finset EventHash) (g : Hashgraph) :
    Prop where
  columns : ∀ {c c' i}, g.memberIndexOf c = some i → g.memberIndexOf c' = some i → c = c'
  member : ∀ e ∈ S, ∀ x ∈ past, H e = .ok x → ∃ i, g.memberIndexOf e.creator = some i
  full : ∀ {w r e z n i}, g.get? w = some r → Stems H S w z → H e = .ok z → Numbered H S e n →
    g.memberIndexOf e.creator = some i → n ≤ EventRecord.slot r i

section Ranged

variable {H : Hasher} {S : Set Event} {past : Finset EventHash} {registry : MembershipRegistry}
  {g g' : Hashgraph} {hash x y : EventHash} {event : Event} {r ry : EventRecord} {i : ℕ}

theorem ranged_new (registry : MembershipRegistry) : (Hashgraph.new registry).Ranged H S ∅ where
  columns hc hc' := FixedRegistry.columns ⟨rfl, rfl, rfl⟩ hc hc'
  member _ _ x hx := absurd hx (Finset.notMem_empty x)
  full hw := by
    rw [get?_new] at hw
    cases hw

/-! ## One more event -/

/-- On the parent links of the past there is no way back. -/
theorem Charted.not_stems_back (h : g.Charted H S past) (hevent : event ∈ S)
    (hhash : H event = .ok hash) {p : EventHash} (hp : p ∈ event.parents) (hpast : p ∈ past)
    (hback : Stems H S p hash) : False := by
  obtain ⟨rank, hrank⟩ := h.ranked
  -- ranks do not grow on the way from the parent
  have hdown : ∀ q, Stems H S p q → q ∈ past ∧ rank q ≤ rank p := by
    intro q hq
    induction hq with
    | refl => exact ⟨hpast, le_rfl⟩
    | tail _ hlink ih =>
      obtain ⟨e, he, ha, hq⟩ := hlink
      obtain ⟨hmem, hlt⟩ := hrank e he _ ih.1 ha _ hq
      exact ⟨hmem, hlt.le.trans ih.2⟩
  obtain ⟨hmem, hle⟩ := hdown hash hback
  have hup := (hrank event hevent hash hmem hhash p hp).2
  omega

/-- No event that a new event stems from has a larger number than it on its own branch. -/
theorem Charted.le_newSeq (h : g.Charted H S past) (hforks : ForkFree S) (hs : g.Sound H S)
    (hevent : event ∈ S) (hhash : H event = .ok hash) (hc : g.Checked hash event i)
    {p z : EventHash} {e : Event} {n : ℕ} (hp : p ∈ event.parents) (hstems : Stems H S p z)
    (hz : H e = .ok z) (hnum : Numbered H S e n) (hcreator : e.creator = event.creator) :
    n ≤ g.newSeq event := by
  by_contra hlt
  have hback : Stems H S z hash :=
    hnum.stems hforks (hs.numbered_new hevent hc) hcreator.symm (Nat.le_of_not_le hlt) hz hhash
  exact h.not_stems_back hevent hhash hp (h.stored (hc.parents p hp)) (hstems.trans hback)

section Place

variable (h : g.Ranged H S past) (hcharted : g.Charted H S past) (hfree : H.CollisionFree S)
  (hforks : ForkFree S) (hs : g.Sound H S) (hevent : event ∈ S) (hhash : H event = .ok hash)
  (hc : g.Checked hash event i)

include h hcharted hfree hforks hs hevent hhash hc in
theorem Ranged.full_place (b : Bool) {e : Event} {z : EventHash} {n j : ℕ}
    (hstems : Stems H S hash z) (hz : H e = .ok z) (hnum : Numbered H S e n)
    (hj : g.memberIndexOf e.creator = some j) :
    n ≤ EventRecord.slot (g.newRecord event i b) j := by
  rw [hs.wf.toConsistent.slot_newRecord hc]
  rcases hstems.cases hfree hevent hhash with rfl | ⟨p, hp, hstems⟩
  · obtain rfl := hfree e hnum.mem event hevent hash hz hhash
    rw [hc.member, Option.some.injEq] at hj
    rw [if_pos hj, hnum.unique hfree (hs.numbered_new hevent hc)]
  · split
    · rename_i heq
      subst heq
      exact hcharted.le_newSeq hforks hs hevent hhash hc hp hstems hz hnum
        (h.columns hj hc.member)
    · obtain ⟨rp, hrp⟩ := Option.isSome_iff_exists.mp (hc.parents p hp)
      have hle := h.full hrp hstems hz hnum hj
      rcases Event.mem_parents.mp hp with hself | hother
      · rw [show g.selfRecord event = some rp by rw [selfRecord, hself, Option.bind_some, hrp]]
        exact hle.trans (le_max_left _ _)
      · rw [show g.otherRecord event = some rp by rw [otherRecord, hother, Option.bind_some, hrp]]
        exact hle.trans (le_max_right _ _)

include h hcharted hfree hforks hs hevent hhash hc in
theorem Ranged.place (b : Bool) : (g.place hash event i b).Ranged H S (past ∪ {hash}) where
  columns hj hj' := by
    rw [memberIndexOf, memberIndex_place] at hj hj'
    exact h.columns hj hj'
  member e he x hx hex := by
    rw [memberIndexOf, memberIndex_place]
    rcases Finset.mem_union.mp hx with hx | hx
    · exact h.member e he x hx hex
    · obtain rfl := Finset.mem_singleton.mp hx
      obtain rfl := hfree e he event hevent x hex hhash
      exact ⟨i, hc.member⟩
  full {w r e z n j} hw hstems hz hnum hj := by
    rw [memberIndexOf, memberIndex_place] at hj
    rcases get?_place_cases hw with ⟨rfl, rfl⟩ | hw
    · exact h.full_place hcharted hfree hforks hs hevent hhash hc b hstems hz hnum hj
    · exact h.full hw hstems hz hnum hj

end Place

/-! ## Voting, ordering, pruning and joining -/

theorem Ranged.of_skeleton_eq (hskel : g'.skeleton = g.skeleton) (h : g.Ranged H S past) :
    g'.Ranged H S past := by
  have hindex : ∀ c, g'.memberIndexOf c = g.memberIndexOf c := fun c => by
    rw [memberIndexOf, show g'.memberIndex = g.memberIndex from (congrArg memberIndex hskel :),
      memberIndexOf]
  refine ⟨fun hj hj' => ?_, fun e he x hx hex => ?_, fun {w r e z n j} hw hstems hz hnum hj => ?_⟩
  · rw [hindex] at hj hj'
    exact h.columns hj hj'
  · rw [hindex]
    exact h.member e he x hx hex
  · obtain ⟨r', hr', hbare⟩ := get?_of_skeleton_eq hskel hw
    rw [hindex] at hj
    rw [show EventRecord.slot r j = EventRecord.slot r' j from
      (congrArg (EventRecord.slot · j) hbare.symm :)]
    exact h.full hr' hstems hz hnum hj

theorem Ranged.pruned {threshold : ℕ} {gone : Finset EventHash} (h : g.Ranged H S past)
    (hpruned : Pruned g g' threshold gone) : g'.Ranged H S past := by
  have hindex : ∀ c, g'.memberIndexOf c = g.memberIndexOf c := fun c => by
    rw [memberIndexOf, hpruned.memberIndex_eq, memberIndexOf]
  refine ⟨fun hj hj' => ?_, fun e he x hx hex => ?_, fun hw hstems hz hnum hj => ?_⟩
  · rw [hindex] at hj hj'
    exact h.columns hj hj'
  · rw [hindex]
    exact h.member e he x hx hex
  · rw [hindex] at hj
    exact h.full (hpruned.get?_iff.mp hw).1 hstems hz hnum hj

section Widen

variable {node : NodeId} {activationRound : ℕ} {newRegistry : MembershipRegistry}

/-- A new column is 0, the others stay. -/
theorem Consistent.slot_widen (hg : g.Consistent) (hx : g.get? x = some r) (j : ℕ) :
    EventRecord.slot { r with ancestorSeqs := r.ancestorSeqs ++ [0] } j =
      if j = g.memberCount then 0 else EventRecord.slot r j := by
  rw [EventRecord.slot, EventRecord.slot, List.getElem?_append, hg.row_length hx]
  rcases Nat.lt_trichotomy j g.memberCount with hlt | rfl | hgt
  · rw [if_pos hlt, if_neg hlt.ne]
  · simp
  · rw [if_neg hgt.not_gt, if_neg hgt.ne', List.getElem?_eq_none (by simp; omega),
      List.getElem?_eq_none (by rw [hg.row_length hx]; omega)]

theorem Charted.widen (h : g.Charted H S past) (hs : g.Sound H S) :
    (g.widen node activationRound newRegistry).Charted H S past where
  unflagged j := by
    show (g.knownForkers ++ [false])[j]?.getD false = false
    rw [List.getElem?_append]
    split
    · exact h.unflagged j
    · cases j - g.knownForkers.length <;> rfl
  branch hf := h.branch hf
  stored {x} hx := by
    obtain ⟨r, hr⟩ := Option.isSome_iff_exists.mp hx
    obtain ⟨r', hr', -⟩ := exists_of_get?_widen hr
    exact h.stored (Option.isSome_of_eq_some hr')
  ranked := h.ranked
  row {w r c j} hw hj hslot := by
    obtain ⟨r', hr', rfl⟩ := exists_of_get?_widen hw
    rw [hs.wf.toConsistent.slot_widen hr'] at hslot ⊢
    rw [memberIndexOf_widen] at hj
    split at hslot
    · exact absurd rfl hslot
    · rename_i hne
      rw [if_neg hne]
      split at hj
      · exact absurd (Option.some.inj hj).symm hne
      · exact h.row hr' hj hslot

theorem Ranged.widen (h : g.Ranged H S past) (hcharted : g.Charted H S past) (hs : g.Sound H S)
    (hnew : g.memberIndexOf node = none) :
    (g.widen node activationRound newRegistry).Ranged H S past where
  columns {c c' j} hj hj' := by
    rw [memberIndexOf_widen] at hj hj'
    have hfresh {c : NodeId} (hc : g.memberIndexOf c = some g.memberCount) : False :=
      Nat.lt_irrefl _ (hs.wf.index_lt hc)
    split at hj
    · rename_i heq
      obtain rfl := Option.some.inj hj
      split at hj'
      · rename_i heq'
        exact heq.trans heq'.symm
      · exact (hfresh hj').elim
    · split at hj'
      · obtain rfl := Option.some.inj hj'
        exact (hfresh hj).elim
      · exact h.columns hj hj'
  member e he x hx hex := by
    obtain ⟨j, hj⟩ := h.member e he x hx hex
    rw [memberIndexOf_widen]
    split
    · exact ⟨_, rfl⟩
    · exact ⟨j, hj⟩
  full {w r e z n j} hw hstems hz hnum hj := by
    obtain ⟨r', hr', rfl⟩ := exists_of_get?_widen hw
    -- the creator of an event of the past is not the new member
    have hpast := hcharted.past_of_stems (hcharted.stored (Option.isSome_of_eq_some hr')) hstems
    obtain ⟨k, hk⟩ := h.member e hnum.mem z hpast hz
    rw [memberIndexOf_widen, if_neg fun heq => by rw [heq, hnew] at hk; cases hk] at hj
    rw [hs.wf.toConsistent.slot_widen hr', if_neg (hs.wf.index_lt hj).ne]
    exact h.full hr' hstems hz hnum hj

end Widen

/-! ## Runs -/

/-- In every graph of a run over events without forks the rows are exact. -/
theorem Reached.ranged (hfree : H.CollisionFree S) (hforks : ForkFree S)
    (h : Reached H (fun _ op => op.From S) registry g) :
    ∃ past, g.Charted H S past ∧ g.Ranged H S past := by
  refine h.invariant (I := fun g => ∃ past, g.Charted H S past ∧ g.Ranged H S past) hfree
    (fun _ _ hop => hop) ⟨∅, charted_new registry, ranged_new registry⟩
    fun g g' op hs ⟨past, hcharted, hranged⟩ hop heffect => ?_
  cases heffect with
  | none hsame => exact hsame ▸ ⟨past, hcharted, hranged⟩
  | @insert _ event hash i hhash hc hinserted =>
    have hskel := hinserted.advances.skeleton_eq
    exact ⟨past ∪ {hash},
      .of_skeleton_eq hskel (hcharted.place hfree hforks hs hop hhash hc hranged.columns _),
      .of_skeleton_eq hskel (hranged.place hcharted hfree hforks hs hop hhash hc _)⟩
  | addMember hnew hwiden =>
    exact hwiden ▸ ⟨past, hcharted.widen hs, hranged.widen hcharted hs hnew⟩
  | prune _ hpruned => exact ⟨past, hcharted.pruned hpruned, hranged.pruned hpruned⟩

/-- `is_ancestor` on two stored events. -/
theorem isAncestor_iff_stems (hfree : H.CollisionFree S) (hforks : ForkFree S)
    (h : Reached H (fun _ op => op.From S) registry g) (hx : g.get? x = some r)
    (hy : g.get? y = some ry) :
    ∃ b, g.isAncestor x y = .ok b ∧ (b = true ↔ Stems H S x y) := by
  have hs := h.sound hfree fun _ _ hop => hop
  obtain ⟨past, hcharted, hranged⟩ := h.ranged hfree hforks
  obtain ⟨j, hj⟩ := hs.wf.member hy
  refine ⟨_, hs.wf.toConsistent.isAncestor_unforked hcharted.unflagged hx hy hj, ?_⟩
  rw [Bool.or_eq_true, decide_eq_true_iff, decide_eq_true_iff]
  constructor
  · rintro (rfl | hle)
    · exact .refl
    · exact hcharted.stems_of_le hforks hs hx hy hj hle
  · intro hstems
    exact .inr (hranged.full hx hstems (hs.numbered hy).1 (hs.numbered hy).2 hj)

/-- Two stored events that stem from each other are one. -/
theorem stems_antisymm (hfree : H.CollisionFree S) (hforks : ForkFree S)
    (h : Reached H (fun _ op => op.From S) registry g) (hx : g.get? x = some r)
    (hxy : Stems H S x y) (hyx : Stems H S y x) : x = y := by
  have hs := h.sound hfree fun _ _ hop => hop
  obtain ⟨past, hcharted, -⟩ := h.ranged hfree hforks
  obtain ⟨hhash, hnum⟩ := hs.numbered hx
  rcases hxy.cases hfree hnum.mem hhash with heq | ⟨p, hp, hstems⟩
  · exact heq
  · have hpast := hcharted.past_of_stems (hcharted.stored (Option.isSome_of_eq_some hx))
      (.single ⟨_, hnum.mem, hhash, hp⟩)
    exact (hcharted.not_stems_back hnum.mem hhash hp hpast (hstems.trans hyx)).elim

end Ranged

end Hashgraph

end JKain
