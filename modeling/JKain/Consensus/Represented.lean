import JKain.Consensus.Run

/-!
# The representation invariant

On inputs without forks, where each creator extends its own newest event, the indices of a graph
mirror its events exactly, through insertions, prunings and new members. A pruned event is not
inserted again: that would extend nothing, and the children it had are no longer listed.
-/

namespace JKain

open Std JKain.Lib

namespace Hashgraph

/-- The indices mirror the stored events. -/
structure Represented (g : Hashgraph) : Prop where
  /-- Rows have one entry per member, with the event's own number in its creator's slot. -/
  row : ∀ {x r}, g.get? x = some r → r.ancestorSeqs.length = g.memberCount ∧
    ∃ i, g.memberIndexOf r.event.creator = some i ∧ r.ancestorSeqs[i]? = some r.seq
  /-- `by_creator_seq` maps exactly the stored pairs of creator and number. -/
  slot : ∀ {c s x}, g.eventForCreatorSeq c s = some x ↔ g.IsEventAt c s x
  /-- `latest_by_creator` names a stored event with the largest number of its creator. -/
  latest : ∀ {c x}, g.latestEventBy c = some x → ∃ r, g.get? x = some r ∧ r.event.creator = c ∧
    ∀ {y ry}, g.get? y = some ry → ry.event.creator = c → ry.seq ≤ r.seq
  /-- Every creator of a stored event has a newest one. -/
  latest_some : ∀ {x r}, g.get? x = some r → (g.latestEventBy r.event.creator).isSome
  /-- The children of a stored event are the stored events that name it as a parent, once for each
  time they do. -/
  child : ∀ {p}, (g.get? p).isSome → ∀ x, (g.childrenOf p).count x = (g.parentsOf x).count p
  /-- The witness lists hold witnesses of their round. -/
  witness : ∀ {n x}, x ∈ g.witnessesOfRound n →
    ∃ r, g.get? x = some r ∧ r.round = n ∧ r.isWitness = true
  /-- `undecided_witnesses` maps exactly the stored undecided witnesses to their rounds. -/
  undecided : ∀ {w : EventHash} {n : ℕ}, g.undecidedWitnesses[w]? = some n ↔
    ∃ r, g.get? w = some r ∧ r.isWitness = true ∧ r.fameStatus = .undecided ∧ r.round = n

/-- The states of runs on inputs without forks, with the hashes inserted so far: an accepted event
was not inserted before and its self-parent is its creator's newest event. -/
inductive Chained (H : Hasher) (S : Set Event) (registry : MembershipRegistry) :
    Finset EventHash → Hashgraph → Prop
  | new : Chained H S registry ∅ (Hashgraph.new registry)
  | insert {past : Finset EventHash} {g g' : Hashgraph} {iter : IterOrder} {event : Event}
      {hash : EventHash} : Chained H S registry past g → event ∈ S → hash ∉ past →
      event.selfParent = g.latestEventBy event.creator →
      Hashgraph.insert H iter event g = .ok hash g' → Chained H S registry (past ∪ {hash}) g'
  | reject {past : Finset EventHash} {g g' : Hashgraph} {iter : IterOrder} {event : Event}
      {c : ConsensusError} : Chained H S registry past g → event ∈ S →
      Hashgraph.insert H iter event g = .error (.err c) g' → Chained H S registry past g'
  | addMember {past : Finset EventHash} {g g' : Hashgraph} {node : NodeId} {activationRound : ℕ}
      {newRegistry : MembershipRegistry} : Chained H S registry past g →
      g.memberIndexOf node = none →
      Returned (Hashgraph.addMember node activationRound newRegistry) g g' →
      Chained H S registry past g'
  | prune {past : Finset EventHash} {g g' : Hashgraph} {threshold : ℕ} :
      Chained H S registry past g → threshold < g.nextRoundToOrder →
      Returned (pruneBeforeRound threshold) g g' → Chained H S registry past g'

/-- What the indices that only depend on the history satisfy: the hashes of `past` cover the stored
events, their parents and the keys of the children lists. -/
structure Mirrored (past : Finset EventHash) (g : Hashgraph) : Prop where
  slot : ∀ {c s x}, g.IsEventAt c s x → g.eventForCreatorSeq c s = some x
  latest : ∀ {c x}, g.latestEventBy c = some x → ∃ r, g.get? x = some r ∧
    ∀ {y ry}, g.get? y = some ry → ry.event.creator = c → ry.seq ≤ r.seq
  latest_some : ∀ {x r}, g.get? x = some r → (g.latestEventBy r.event.creator).isSome
  child : ∀ {p}, (g.get? p).isSome → ∀ x, (g.childrenOf p).count x = (g.parentsOf x).count p
  stored_past : ∀ {x}, (g.get? x).isSome → x ∈ past
  parents_past : ∀ {x p}, p ∈ g.parentsOf x → p ∈ past
  childless : ∀ {p}, p ∉ past → g.childrenOf p = []

section Mirrored

variable {H : Hasher} {S : Set Event} {registry : MembershipRegistry} {past : Finset EventHash}
  {g g' : Hashgraph} {hash : EventHash} {event : Event} {i : ℕ}

theorem Sound.represented (hs : g.Sound H S) (h : g.Mirrored past) : g.Represented where
  row := fun hx => by
    obtain ⟨i, hi⟩ := hs.wf.member hx
    exact ⟨hs.wf.row_length hx, i, hi, hs.wf.own_slot hx hi⟩
  slot := ⟨hs.wf.indexed, h.slot⟩
  latest := fun hx => by
    obtain ⟨r, hr, hmax⟩ := h.latest hx
    obtain ⟨r', hr', hc⟩ := hs.wf.latest hx
    obtain rfl := Option.some.inj (hr.symm.trans hr')
    exact ⟨r, hr, hc, hmax⟩
  latest_some := h.latest_some
  child := h.child
  witness := hs.wf.witness_sound
  undecided := fun {w n} => by
    refine (hs.exact w n).trans ⟨?_, ?_⟩
    · rintro ⟨hfame, r, hr, hround⟩
      obtain ⟨r', hr', hwit⟩ := exists_witness_of_fameOf hfame
      obtain rfl := Option.some.inj (hr.symm.trans hr')
      refine ⟨r, hr, hwit, ?_, hround⟩
      simpa [fameOf, hr, hwit] using hfame
    · rintro ⟨r, hr, hwit, hundecided, hround⟩
      exact ⟨by simp [fameOf, hr, hwit, hundecided], r, hr, hround⟩

/-- The mirrored indices are part of the skeleton. -/
theorem Mirrored.of_skeleton_eq (hskel : g'.skeleton = g.skeleton) (h : g.Mirrored past) :
    g'.Mirrored past := by
  have hcore := core_eq_of_skeleton_eq hskel
  have hslots : g'.byCreatorSeq = g.byCreatorSeq := (congrArg byCreatorSeq hskel :)
  have hlatest (c : NodeId) : g'.latestEventBy c = g.latestEventBy c := by
    rw [latestEventBy, show g'.latestByCreator = g.latestByCreator from
      (congrArg latestByCreator hskel :), latestEventBy]
  have hchildren (p : EventHash) : g'.childrenOf p = g.childrenOf p := by
    rw [childrenOf, show g'.children = g.children from (congrArg children hskel :), childrenOf]
  have hparents (x : EventHash) : g'.parentsOf x = g.parentsOf x := by
    rw [parentsOf_of_core_eq hcore]
  have hsome := isSome_get?_of_skeleton_eq hskel
  refine ⟨fun {c s x} hx => ?_, fun {c x} hx => ?_, fun {x r} hx => ?_, fun {p} hp x => ?_,
    fun {x} hx => ?_, fun {x p} hp => ?_, fun {p} hp => ?_⟩
  · rw [eventForCreatorSeq, hslots]
    exact h.slot (isEventAt_of_core_eq hcore.symm hx)
  · rw [hlatest] at hx
    obtain ⟨r, hr, hmax⟩ := h.latest hx
    obtain ⟨r', hr', hbare⟩ := get?_of_skeleton_eq hskel.symm hr
    refine ⟨r', hr', fun {y ry} hy hc => ?_⟩
    obtain ⟨ry', hry', hbare'⟩ := get?_of_skeleton_eq hskel hy
    rw [show r'.seq = r.seq from (congrArg EventRecord.seq hbare :),
      ← show ry'.seq = ry.seq from (congrArg EventRecord.seq hbare' :)]
    rw [← show ry'.event = ry.event from (congrArg EventRecord.event hbare' :)] at hc
    exact (hmax hry' hc :)
  · obtain ⟨r', hr', hbare⟩ := get?_of_skeleton_eq hskel hx
    rw [hlatest, ← show r'.event = r.event from (congrArg EventRecord.event hbare :)]
    exact h.latest_some hr'
  · rw [hsome] at hp
    rw [hchildren, hparents]
    exact h.child hp x
  · rw [hsome] at hx
    exact h.stored_past hx
  · rw [hparents] at hp
    exact h.parents_past hp
  · rw [hchildren]
    exact h.childless hp

/-! ## A new event -/

theorem childrenOf_place {b : Bool} (p : EventHash) :
    (g.place hash event i b).childrenOf p =
      g.childrenOf p ++ List.replicate (event.parents.count p) hash := by
  have hchildren : (g.place hash event i b).children = event.parents.foldl
      (fun children parent => children.insert parent (children[parent]?.getD [] ++ [hash]))
      g.children := by
    unfold place
    split <;> rfl
  rw [childrenOf, hchildren, childrenOf]
  -- Each turn appends the hash to one list.
  generalize g.children = children
  induction event.parents generalizing children with
  | nil => simp
  | cons q parents ih =>
    rw [List.foldl_cons, ih, ExtTreeMap.getElem?_insert]
    by_cases hq : q = p
    · simp [hq, ← List.replicate_succ, List.replicate_succ']
    · simp [hq]

theorem latestEventBy_place {b : Bool} (c : NodeId) :
    (g.place hash event i b).latestEventBy c =
      if event.creator = c ∧ (g.latestEventBy event.creator).all (fun latest =>
        decide (g.newSeq event > (g.get? latest).elim 0 (·.seq))) = true then some hash
      else g.latestEventBy c := by
  have hlatest : (g.place hash event i b).latestByCreator =
      if (g.latestEventBy event.creator).all fun latest =>
          decide (g.newSeq event > (g.get? latest).elim 0 (·.seq)) then
        g.latestByCreator.insert event.creator hash
      else g.latestByCreator := by
    unfold place
    split <;> rfl
  rw [latestEventBy, hlatest]
  by_cases hnew : (g.latestEventBy event.creator).all (fun latest =>
      decide (g.newSeq event > (g.get? latest).elim 0 (·.seq))) = true
  · rw [if_pos hnew, ExtTreeMap.getElem?_insert]
    by_cases hc : event.creator = c
    · rw [if_pos (by simp [hc]), if_pos ⟨hc, hnew⟩]
    · simp [hc, latestEventBy]
  · rw [if_neg hnew, if_neg (fun h => hnew h.2)]
    rfl

/-- An event that extends its creator's newest event has the largest number. -/
theorem Mirrored.seq_lt_newSeq (h : g.Mirrored past)
    (hextends : event.selfParent = g.latestEventBy event.creator) {x : EventHash} {r : EventRecord}
    (hx : g.get? x = some r) (hcreator : r.event.creator = event.creator) :
    r.seq < g.newSeq event := by
  obtain ⟨tip, htip⟩ := Option.isSome_iff_exists.mp (hcreator ▸ h.latest_some hx)
  obtain ⟨rt, hrt, hmax⟩ := h.latest htip
  rw [newSeq_eq (hextends.trans htip) hrt]
  exact Nat.lt_succ_of_le (hmax hx hcreator)

theorem Mirrored.place (h : g.Mirrored past) (hg : g.Consistent) (hc : g.Checked hash event i)
    (hpast : hash ∉ past) (hextends : event.selfParent = g.latestEventBy event.creator) (b : Bool) :
    (g.place hash event i b).Mirrored (past ∪ {hash}) := by
  have hpos := g.newSeq_pos event
  have hnew : (g.latestEventBy event.creator).all (fun latest =>
      decide (g.newSeq event > (g.get? latest).elim 0 (·.seq))) = true := by
    rw [Option.all_eq_true_iff_get]
    intro hsome
    obtain ⟨tip, htip⟩ := Option.isSome_iff_exists.mp hsome
    obtain ⟨rt, hrt, -⟩ := h.latest htip
    simp [htip, hrt, newSeq_eq (hextends.trans htip) hrt]
  have hparents : ∀ p ∈ event.parents, p ∈ past ∧ p ≠ hash := by
    intro p hp
    have hstored := hc.parents p hp
    refine ⟨h.stored_past hstored, ?_⟩
    rintro rfl
    rw [hc.fresh] at hstored
    cases hstored
  refine ⟨fun {c s x} hx => ?_, fun {c x} hx => ?_, fun {x r} hx => ?_, fun {p} hp x => ?_,
    fun {x} hx => ?_, fun {x p} hp => ?_, fun {p} hp => ?_⟩
  · obtain ⟨r, hr, rfl, rfl⟩ := hx
    rw [eventForCreatorSeq_place]
    rcases get?_place_cases hr with ⟨rfl, rfl⟩ | hr
    · -- The slot of the new number is free.
      have hfree : g.eventForCreatorSeq event.creator (g.newSeq event) = none := by
        by_contra hsome
        obtain ⟨y, hy⟩ := Option.ne_none_iff_exists'.mp hsome
        obtain ⟨ry, hry, hcreator, hseq⟩ := hg.indexed hy
        exact absurd hseq (h.seq_lt_newSeq hextends hry hcreator).ne
      exact if_pos ⟨rfl, hfree⟩
    · have hold := h.slot ⟨r, hr, rfl, rfl⟩
      rw [if_neg (by simp [hold]), hold]
  · rw [latestEventBy_place] at hx
    split at hx
    · rename_i hcond
      obtain rfl := Option.some.inj hx
      refine ⟨_, get?_place_self, fun {y ry} hy hcreator => ?_⟩
      rcases get?_place_cases hy with ⟨-, rfl⟩ | hy
      · exact le_rfl
      · exact (h.seq_lt_newSeq hextends hy (hcreator.trans hcond.1.symm)).le
    · rename_i hcond
      have hne : event.creator ≠ c := fun heq => hcond ⟨heq, hnew⟩
      obtain ⟨r, hr, hmax⟩ := h.latest hx
      refine ⟨r, hc.get?_place_of_some b hr, fun {y ry} hy hcreator => ?_⟩
      rcases get?_place_cases hy with ⟨-, rfl⟩ | hy
      · exact absurd hcreator hne
      · exact hmax hy hcreator
  · rw [latestEventBy_place]
    split
    · rfl
    · rename_i hcond
      rcases get?_place_cases hx with ⟨-, rfl⟩ | hx
      · exact absurd ⟨rfl, hnew⟩ hcond
      · exact h.latest_some hx
  · rw [childrenOf_place, parentsOf_place, List.count_append]
    by_cases hph : p = hash
    · -- Nothing names the new event as a parent.
      subst hph
      have hzero : (g.parentsOf x).count p = 0 :=
        List.count_eq_zero.mpr fun hmem => hpast (h.parents_past hmem)
      have hself : event.parents.count p = 0 :=
        List.count_eq_zero.mpr fun hmem => (hparents p hmem).2 rfl
      rw [h.childless hpast, hself, List.replicate_zero]
      by_cases hx : x = p
      · simp [hx, hself]
      · simp [hx, hzero]
    · have hp' : (g.get? p).isSome := by
        rwa [get?_place, if_neg hph] at hp
      rw [h.child hp']
      by_cases hx : x = hash
      · have hnone : g.parentsOf x = [] := by
          rw [parentsOf, hx, hc.fresh]
          rfl
        rw [if_pos hx, hnone, hx, List.count_replicate_self]
        simp
      · rw [if_neg hx, List.count_replicate, if_neg (by simpa using Ne.symm hx), Nat.add_zero]
  · rw [Finset.mem_union, Finset.mem_singleton]
    by_cases hxh : x = hash
    · exact .inr hxh
    · rw [get?_place, if_neg hxh] at hx
      exact .inl (h.stored_past hx)
  · rw [parentsOf_place] at hp
    apply Finset.mem_union_left
    split at hp
    · exact (hparents p hp).1
    · exact h.parents_past hp
  · rw [Finset.mem_union, not_or, Finset.mem_singleton] at hp
    rw [childrenOf_place, h.childless hp.1, List.count_eq_zero.mpr]
    · rfl
    · exact fun hmem => hp.1 (hparents p hmem).1

/-! ## New members and prunings -/

theorem Mirrored.widen (h : g.Mirrored past) (node : NodeId) (activationRound : ℕ)
    (newRegistry : MembershipRegistry) :
    (g.widen node activationRound newRegistry).Mirrored past := by
  have hsome (x : EventHash) : ((g.widen node activationRound newRegistry).get? x).isSome =
      (g.get? x).isSome := by
    rw [get?_widen, Option.isSome_map]
  refine ⟨fun {c s x} hx => ?_, fun {c x} hx => ?_, fun {x r} hx => ?_, fun {p} hp x => ?_,
    fun {x} hx => ?_, fun {x p} hp => ?_, h.childless⟩
  · obtain ⟨r, hr, hc, hs⟩ := hx
    obtain ⟨r', hr', rfl⟩ := exists_of_get?_widen hr
    exact h.slot ⟨r', hr', hc, hs⟩
  · obtain ⟨r, hr, hmax⟩ := h.latest hx
    refine ⟨_, get?_widen_of_some hr, fun {y ry} hy hc => ?_⟩
    obtain ⟨ry', hry', rfl⟩ := exists_of_get?_widen hy
    exact (hmax hry' hc :)
  · obtain ⟨r', hr', rfl⟩ := exists_of_get?_widen hx
    exact (h.latest_some hr' :)
  · rw [hsome] at hp
    rw [parentsOf_widen]
    exact h.child hp x
  · rw [hsome] at hx
    exact h.stored_past hx
  · rw [parentsOf_widen] at hp
    exact h.parents_past hp

theorem Mirrored.pruned {threshold : ℕ} {gone : Finset EventHash} (h : g.Mirrored past)
    (hg : g.Consistent) (hgone : ∀ x ∈ gone, (g.get? x).isSome)
    (hpruned : Pruned g g' threshold gone) : g'.Mirrored past := by
  have hg' := hpruned.consistent hg
  have hslot {c : NodeId} {s : ℕ} {x : EventHash} (hx : g'.IsEventAt c s x) :
      g'.eventForCreatorSeq c s = some x := by
    obtain ⟨r, hr, hc, hs⟩ := hx
    obtain ⟨hr, hxgone⟩ := hpruned.get?_iff.mp hr
    exact hpruned.slot_iff.mpr ⟨h.slot ⟨r, hr, hc, hs⟩, hxgone⟩
  have hparents {x : EventHash} (hx : x ∉ gone) : g'.parentsOf x = g.parentsOf x := by
    rw [parentsOf, hpruned.get?_eq hx, parentsOf]
  have hnoparents {x : EventHash} (hx : x ∈ gone) : g'.parentsOf x = [] := by
    rw [parentsOf, hpruned.get?_gone hx]
    rfl
  refine ⟨hslot, fun {c x} hx => ?_, fun {x r} hx => ?_, fun {p} hp x => ?_, fun {x} hx => ?_,
    fun {x p} hp => ?_, fun {p} hp => ?_⟩
  · cases htip : g.latestEventBy c with
    | none =>
      rw [hpruned.latest_none htip] at hx
      cases hx
    | some tip =>
      by_cases htipgone : tip ∈ gone
      · -- The new tip is the highest indexed event, and all stored events are indexed.
        rw [hpruned.latest_gone htip htipgone, Option.map_eq_some_iff] at hx
        obtain ⟨best, hbest, rfl⟩ := hx
        obtain ⟨r, hr, -, hseq⟩ := hg'.indexed (eventForCreatorSeq_of_highestIndexed hbest)
        refine ⟨r, hr, fun {y ry} hy hc => ?_⟩
        obtain ⟨best', hbest', hle⟩ := exists_highestIndexed (hslot ⟨ry, hy, hc, rfl⟩)
        rw [hbest, Option.some.injEq] at hbest'
        rw [hseq, hbest']
        exact hle
      · rw [hpruned.latest_kept htip htipgone, Option.some.injEq] at hx
        subst hx
        obtain ⟨r, hr, hmax⟩ := h.latest htip
        exact ⟨r, hpruned.get?_iff.mpr ⟨hr, htipgone⟩, fun {y ry} hy hc =>
          hmax (hpruned.get?_iff.mp hy).1 hc⟩
  · obtain ⟨tip, htip⟩ := Option.isSome_iff_exists.mp (h.latest_some (hpruned.get?_iff.mp hx).1)
    by_cases htipgone : tip ∈ gone
    · obtain ⟨best, hbest, -⟩ := exists_highestIndexed (hslot ⟨r, hx, rfl, rfl⟩)
      rw [hpruned.latest_gone htip htipgone, hbest]
      rfl
    · rw [hpruned.latest_kept htip htipgone]
      rfl
  · obtain ⟨rp, hrp⟩ := Option.isSome_iff_exists.mp hp
    obtain ⟨hrp, hpgone⟩ := hpruned.get?_iff.mp hrp
    have hold := h.child (Option.isSome_of_eq_some hrp) x
    rw [hpruned.children_eq hpgone]
    by_cases hx : x ∈ gone
    · rw [hnoparents hx, List.count_nil, List.count_eq_zero, List.mem_filter]
      rintro ⟨hmem, hkeep⟩
      have hpos : 0 < (g.parentsOf x).count p := hold ▸ List.count_pos_iff.mpr hmem
      simp [hx, List.count_pos_iff.mp hpos] at hkeep
    · rw [List.count_filter (by simp [hx]), hold, hparents hx]
  · obtain ⟨r, hr⟩ := Option.isSome_iff_exists.mp hx
    exact h.stored_past (Option.isSome_of_eq_some (hpruned.get?_iff.mp hr).1)
  · by_cases hx : x ∈ gone
    · rw [hnoparents hx] at hp
      cases hp
    · rw [hparents hx] at hp
      exact h.parents_past hp
  · rw [hpruned.children_eq fun hpgone => hp (h.stored_past (hgone p hpgone)), h.childless hp]
    rfl

theorem mirrored_new (registry : MembershipRegistry) : (Hashgraph.new registry).Mirrored ∅ := by
  have hno {x : EventHash} {r : EventRecord} (hx : (Hashgraph.new registry).get? x = some r) :
      False := by
    rw [get?_new] at hx
    cases hx
  have hparents (x : EventHash) : (Hashgraph.new registry).parentsOf x = [] := by
    rw [parentsOf, get?_new]
    rfl
  refine ⟨fun hx => ?_, fun {c x} hx => ?_, fun hx => (hno hx).elim, fun {p} hp => ?_,
    fun {x} hx => ?_, fun {x p} hp => ?_, fun {p} _ => ?_⟩
  · obtain ⟨r, hr, -, -⟩ := hx
    exact (hno hr).elim
  · rw [latestEventBy, Hashgraph.new, ExtTreeMap.getElem?_empty] at hx
    cases hx
  · rw [get?_new] at hp
    cases hp
  · rw [get?_new] at hx
    cases hx
  · rw [hparents] at hp
    cases hp
  · rw [childrenOf, Hashgraph.new, ExtTreeMap.getElem?_empty]
    rfl

/-- The states of a run on inputs without forks are sound, and their indices mirrored. -/
theorem Chained.mirrored (hfree : H.CollisionFree S) (h : Chained H S registry past g) :
    g.Sound H S ∧ g.Mirrored past := by
  induction h with
  | new => exact ⟨sound_new registry, mirrored_new registry⟩
  | insert _ hevent hpast hextends hok ih =>
    obtain ⟨hs, hm⟩ := ih
    obtain ⟨i, hhash, hc, hinserted⟩ := checked_of_insert_ok hs hfree hevent hok
    exact ⟨hinserted.sound hs hfree hevent hhash hc, (hm.place hs.wf.toConsistent hc hpast
      hextends _).of_skeleton_eq hinserted.advances.skeleton_eq⟩
  | reject _ hevent hfail ih =>
    obtain ⟨hs, hm⟩ := ih
    rcases insert_cases hs hfree hevent (.inr ⟨_, hfail⟩) with ⟨-, rfl⟩ | ⟨_, _, _, _, _, hok⟩
    · exact ⟨hs, hm⟩
    · rw [hfail] at hok
      cases hok
  | addMember _ hnew hret ih =>
    obtain ⟨hs, hm⟩ := ih
    obtain rfl := hret.of_holds (addMember_spec hnew)
    exact ⟨hs.widen hnew _ _, hm.widen _ _ _⟩
  | prune _ hlt hret ih =>
    obtain ⟨hs, hm⟩ := ih
    rcases hret.of_holds ((pruneBeforeRound_spec hs.wf.toConsistent hlt).mono
      fun _ _ h => h.imp (·.2.2) (·.2)) with rfl | hpruned
    · exact ⟨hs, hm⟩
    · refine ⟨hs.pruned hpruned, hm.pruned hs.wf.toConsistent (fun x hx => ?_) hpruned⟩
      obtain ⟨⟨r, hr, -⟩, -⟩ := mem_prunedEvents.mp (List.mem_toFinset.mp hx)
      exact Option.isSome_of_eq_some hr

end Mirrored

end Hashgraph

end JKain
