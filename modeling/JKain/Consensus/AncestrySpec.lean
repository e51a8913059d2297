import JKain.Consensus.Ancestry

/-!
# What the traversals compute

`Anc g x y` says that `y` is met on the stored parent links from `x`, `x` included. The three
traversals of `ancestry.rs` end within their fuel in every graph, and answer questions about this
relation: no assumption on the graph is needed.
-/

namespace JKain

open Std JKain.Lib

namespace Hashgraph

variable {g : Hashgraph} {x y : EventHash} {creator : NodeId} {seq : ℕ}

/-- The parents of a stored event; an absent one has none. -/
def parentsOf (g : Hashgraph) (hash : EventHash) : List EventHash :=
  (g.get? hash).elim [] (·.event.parents)

/-- `y` is `x` or an ancestor of `x` along stored parent links. -/
def Anc (g : Hashgraph) : EventHash → EventHash → Prop := Reach g.parentsOf

theorem Event.length_parents_le (e : Event) : e.parents.length ≤ 2 := by
  unfold Event.parents
  cases e.selfParent <;> cases e.otherParent <;> simp

theorem length_parentsOf_le (g : Hashgraph) (hash : EventHash) :
    (g.parentsOf hash).length ≤ 2 := by
  unfold parentsOf
  cases g.get? hash with
  | none => simp
  | some record => exact Event.length_parents_le record.event

/-- The stored hashes as a finite set. -/
def stored (g : Hashgraph) : Finset EventHash := g.events.keys.toFinset

theorem mem_stored : x ∈ g.stored ↔ (g.get? x).isSome := by
  rw [stored, List.mem_toFinset, ExtTreeMap.mem_keys, ExtTreeMap.mem_iff_isSome_getElem?, get?]

theorem parentsOf_eq_nil (h : x ∉ g.stored) : g.parentsOf x = [] := by
  rw [mem_stored, Bool.not_eq_true, Option.isSome_eq_false_iff, Option.isNone_iff_eq_none] at h
  rw [parentsOf, h]
  rfl

/-- An expansion that yields the parents of the expanded event is bounded by the stored events. -/
theorem bounded_of_parents {ρ α : Type} {expand : α → EventHash → Except ρ (α × List EventHash)}
    (h : ∀ acc c acc' next, expand acc c = .ok (acc', next) → next = g.parentsOf c) :
    Bounded g.stored 2 expand := by
  intro acc c acc' next hx
  rw [h acc c acc' next hx]
  exact ⟨g.length_parentsOf_le c, parentsOf_eq_nil⟩

theorem work_lt_traversalFuel (g : Hashgraph) (x : EventHash) :
    work g.stored 2 [x] ∅ < g.traversalFuel := by
  have hcard : g.stored.card ≤ g.events.size := by
    rw [← ExtTreeMap.length_keys]
    exact List.toFinset_card_le _
  rw [work, Finset.sdiff_empty, traversalFuel, List.length_singleton]
  omega

/-! ## Search for an event -/

theorem expandParents_eq (g : Hashgraph) (acc : Unit) (c : EventHash) :
    g.expandParents acc c = .ok ((), g.parentsOf c) := by
  unfold expandParents parentsOf
  cases g.get? c <;> rfl

/-- `ancestry_contains_event` decides ancestry. -/
theorem ancestryContainsEvent_eq (g : Hashgraph) (x y : EventHash) :
    ∃ b, g.ancestryContainsEvent x y = .ok b ∧ (b = true ↔ g.Anc x y) := by
  let answers : Search Unit Unit → Prop := fun r =>
    (∃ u, r = .found u ∧ g.Anc x y) ∨ ∃ u, r = .exhausted u ∧ ¬g.Anc x y
  have hsearch : answers (bfs (fun current => if current = y then some () else none)
      g.expandParents g.traversalFuel [x] ∅ ()) := by
    -- No visited event is the target: the target is compared before the visited test.
    refine bfs_induction (P := answers) (I := fun queue visited _ =>
        Frontier g.parentsOf x queue visited ∧ y ∉ visited)
      (bounded_of_parents (g := g) ?_) ?_ ?_ ?_ ?_ ?_ (g.work_lt_traversalFuel x)
      ⟨Frontier.init _ x, by simp⟩
    · intro acc c acc' next hx
      rw [expandParents_eq] at hx
      exact (Prod.ext_iff.mp (Except.ok.inj hx)).2.symm
    · rintro visited acc ⟨hfront, hy⟩
      exact .inr ⟨acc, rfl, fun hanc => hy (hfront.mem_visited_iff.mpr hanc)⟩
    · rintro c queue visited acc r ⟨hfront, -⟩ he
      have hc : c = y := by
        by_contra hne
        simp [hne] at he
      subst hc
      exact .inl ⟨r, rfl, hfront.queue_reach c (by simp)⟩
    · rintro c queue visited acc ⟨hfront, hy⟩ - hc
      exact ⟨hfront.skip hc, hy⟩
    · intro c queue visited acc r _ _ _ hx
      rw [expandParents_eq] at hx
      exact absurd hx (by simp)
    · rintro c queue visited acc acc' next ⟨hfront, hy⟩ he - hx
      rw [expandParents_eq] at hx
      obtain rfl : g.parentsOf c = next := (Prod.ext_iff.mp (Except.ok.inj hx)).2
      have hne : c ≠ y := by
        rintro rfl
        simp at he
      refine ⟨hfront.step, ?_⟩
      rw [Finset.mem_insert]
      rintro (rfl | hmem)
      · exact hne rfl
      · exact hy hmem
  unfold ancestryContainsEvent
  rcases hsearch with ⟨u, hr, hanc⟩ | ⟨u, hr, hanc⟩
  · exact ⟨true, by rw [hr], by simpa using hanc⟩
  · exact ⟨false, by rw [hr], by simpa using hanc⟩

/-! ## Search for a creator's event -/

/-- The stored event `hash` is the creator's and has number `seq`. -/
def IsEventAt (g : Hashgraph) (creator : NodeId) (seq : ℕ) (hash : EventHash) : Prop :=
  ∃ record, g.get? hash = some record ∧ record.event.creator = creator ∧ record.seq = seq

/-- The two ways an expansion of the search by creator and number goes. -/
theorem expandForCreator_cases (g : Hashgraph) (creator : NodeId) (seq : ℕ) (acc : Unit)
    (c : EventHash) :
    (g.IsEventAt creator seq c ∧ g.expandForCreator creator seq acc c = .error c) ∨
      (¬g.IsEventAt creator seq c ∧
        g.expandForCreator creator seq acc c = .ok ((), g.parentsOf c)) := by
  unfold expandForCreator IsEventAt parentsOf
  cases hget : g.get? c with
  | none => exact .inr ⟨by simp, rfl⟩
  | some record =>
    by_cases hat : record.event.creator = creator ∧ record.seq = seq
    · exact .inl ⟨⟨record, rfl, hat⟩, by simp [hat]⟩
    · exact .inr ⟨by simpa using hat, by simp [hat]⟩

/-- `ancestor_event_for_creator` returns an ancestor at the slot, if there is one. -/
theorem ancestorEventForCreator_eq (g : Hashgraph) (x : EventHash) (creator : NodeId) (seq : ℕ) :
    ∃ r, g.ancestorEventForCreator x creator seq = .ok r ∧
      (∀ hash, r = some hash → g.Anc x hash ∧ g.IsEventAt creator seq hash) ∧
      (r = none → ∀ hash, g.Anc x hash → ¬g.IsEventAt creator seq hash) := by
  let answers : Search EventHash Unit → Prop := fun r =>
    (∃ hash, r = .found hash ∧ g.Anc x hash ∧ g.IsEventAt creator seq hash) ∨
      ∃ u, r = .exhausted u ∧ ∀ hash, g.Anc x hash → ¬g.IsEventAt creator seq hash
  have hsearch : answers (bfs (fun _ => none) (g.expandForCreator creator seq)
      g.traversalFuel [x] ∅ ()) := by
    refine bfs_induction (P := answers) (I := fun queue visited _ =>
        Frontier g.parentsOf x queue visited ∧ ∀ c ∈ visited, ¬g.IsEventAt creator seq c)
      (bounded_of_parents (g := g) ?_) ?_ ?_ ?_ ?_ ?_ (g.work_lt_traversalFuel x)
      ⟨Frontier.init _ x, by simp⟩
    · intro acc c acc' next hx
      rcases g.expandForCreator_cases creator seq acc c with ⟨-, he⟩ | ⟨-, he⟩
      · exact absurd (he.symm.trans hx) (by simp)
      · exact (Prod.ext_iff.mp (Except.ok.inj (he.symm.trans hx))).2.symm
    · rintro visited acc ⟨hfront, hnone⟩
      exact .inr ⟨acc, rfl, fun hash hanc => hnone hash (hfront.mem_visited_iff.mpr hanc)⟩
    · intro c queue visited acc r _ he
      exact absurd he (by simp)
    · rintro c queue visited acc ⟨hfront, hnone⟩ - hc
      exact ⟨hfront.skip hc, hnone⟩
    · rintro c queue visited acc r ⟨hfront, -⟩ - - hx
      rcases g.expandForCreator_cases creator seq acc c with ⟨hat, he⟩ | ⟨-, he⟩
      · obtain rfl : c = r := Except.error.inj (he.symm.trans hx)
        exact .inl ⟨c, rfl, hfront.queue_reach c (by simp), hat⟩
      · exact absurd (he.symm.trans hx) (by simp)
    · rintro c queue visited acc acc' next ⟨hfront, hnone⟩ - - hx
      rcases g.expandForCreator_cases creator seq acc c with ⟨-, he⟩ | ⟨hat, he⟩
      · exact absurd (he.symm.trans hx) (by simp)
      · obtain rfl : g.parentsOf c = next :=
          (Prod.ext_iff.mp (Except.ok.inj (he.symm.trans hx))).2
        refine ⟨hfront.step, fun a ha => ?_⟩
        rcases Finset.mem_insert.mp ha with rfl | ha
        · exact hat
        · exact hnone a ha
  unfold ancestorEventForCreator
  rcases hsearch with ⟨hash, hr, hanc, hat⟩ | ⟨u, hr, hnone⟩
  · refine ⟨some hash, by rw [hr], ?_, by simp⟩
    rintro hash' heq
    obtain rfl : hash = hash' := Option.some.inj heq
    exact ⟨hanc, hat⟩
  · exact ⟨none, by rw [hr], by simp, fun _ => hnone⟩

/-! ## Search for a fork -/

theorem IsEventAt.seq_unique {s s' : ℕ} {c : EventHash} (h : g.IsEventAt creator s c)
    (h' : g.IsEventAt creator s' c) : s = s' := by
  obtain ⟨record, hget, -, rfl⟩ := h
  obtain ⟨record', hget', -, rfl⟩ := h'
  rw [hget] at hget'
  rw [Option.some.inj hget']

/-- The ancestry of `x` holds two events of the creator with one number. -/
def SeesFork (g : Hashgraph) (x : EventHash) (creator : NodeId) : Prop :=
  ∃ s a b, a ≠ b ∧ g.Anc x a ∧ g.Anc x b ∧ g.IsEventAt creator s a ∧ g.IsEventAt creator s b

/-- `seen_seqs` holds the visited events of the creator by their number. -/
structure SeenSeqs (g : Hashgraph) (creator : NodeId) (visited : Finset EventHash)
    (seen : ExtTreeMap ℕ EventHash) : Prop where
  complete : ∀ c ∈ visited, ∀ s, g.IsEventAt creator s c → seen[s]? = some c
  sound : ∀ s c, seen[s]? = some c → c ∈ visited ∧ g.IsEventAt creator s c

/-- The three ways an expansion of the search for a fork goes. -/
theorem expandForFork_cases (g : Hashgraph) (creator : NodeId) (seen : ExtTreeMap ℕ EventHash)
    (c : EventHash) :
    ((∀ s, ¬g.IsEventAt creator s c) ∧
        g.expandForFork creator seen c = .ok (seen, g.parentsOf c)) ∨
      (∃ s e, g.IsEventAt creator s c ∧ seen[s]? = some e ∧ e ≠ c ∧
        g.expandForFork creator seen c = .error ()) ∨
      (∃ s, g.IsEventAt creator s c ∧ (∀ e, seen[s]? = some e → e = c) ∧
        g.expandForFork creator seen c = .ok (seen.insert s c, g.parentsOf c)) := by
  unfold expandForFork IsEventAt parentsOf
  cases hget : g.get? c with
  | none => exact .inl ⟨by simp, rfl⟩
  | some record =>
    by_cases hc : record.event.creator = creator
    · right
      cases hseen : seen[record.seq]? with
      | none => exact .inr ⟨record.seq, ⟨record, rfl, hc, rfl⟩, by simp [hseen], by simp [hc, hseen]⟩
      | some e =>
        by_cases he : e = c
        · refine .inr ⟨record.seq, ⟨record, rfl, hc, rfl⟩, ?_, by simp [hc, hseen, he]⟩
          intro e' he'
          rw [hseen] at he'
          exact (Option.some.inj he').symm.trans he
        · exact .inl ⟨record.seq, e, ⟨record, rfl, hc, rfl⟩, hseen, he, by simp [hc, hseen, he]⟩
    · exact .inl ⟨by simp [hc], by simp [hc]⟩

theorem SeenSeqs.visit_other {visited : Finset EventHash} {seen : ExtTreeMap ℕ EventHash}
    {c : EventHash} (h : g.SeenSeqs creator visited seen) (hc : ∀ s, ¬g.IsEventAt creator s c) :
    g.SeenSeqs creator (insert c visited) seen where
  complete := by
    intro a ha s hat
    rcases Finset.mem_insert.mp ha with rfl | ha
    · exact absurd hat (hc s)
    · exact h.complete a ha s hat
  sound := fun s a ha => ⟨Finset.mem_insert_of_mem (h.sound s a ha).1, (h.sound s a ha).2⟩

theorem SeenSeqs.visit {visited : Finset EventHash} {seen : ExtTreeMap ℕ EventHash}
    {c : EventHash} {s : ℕ} (h : g.SeenSeqs creator visited seen) (hat : g.IsEventAt creator s c)
    (hfree : ∀ e, seen[s]? = some e → e = c) :
    g.SeenSeqs creator (insert c visited) (seen.insert s c) where
  complete := by
    intro a ha s' hat'
    rw [ExtTreeMap.getElem?_insert]
    by_cases hs : s = s'
    · subst hs
      rcases Finset.mem_insert.mp ha with rfl | ha
      · simp
      · simp [hfree a (h.complete a ha s hat')]
    · rcases Finset.mem_insert.mp ha with rfl | ha
      · exact absurd (hat.seq_unique hat') hs
      · simpa [hs] using h.complete a ha s' hat'
  sound := by
    intro s' a ha
    rw [ExtTreeMap.getElem?_insert] at ha
    by_cases hs : s = s'
    · subst hs
      obtain rfl : c = a := by simpa using ha
      exact ⟨Finset.mem_insert_self c visited, hat⟩
    · have ha' : seen[s']? = some a := by simpa [hs] using ha
      exact ⟨Finset.mem_insert_of_mem (h.sound s' a ha').1, (h.sound s' a ha').2⟩

/-- `ancestry_contains_fork_of` decides whether the ancestry holds a fork of the creator. -/
theorem ancestryContainsForkOf_eq (g : Hashgraph) (x : EventHash) (creator : NodeId) :
    ∃ b, g.ancestryContainsForkOf x creator = .ok b ∧ (b = true ↔ g.SeesFork x creator) := by
  let answers : Search Unit (ExtTreeMap ℕ EventHash) → Prop := fun r =>
    (∃ u, r = .found u ∧ g.SeesFork x creator) ∨
      ∃ seen, r = .exhausted seen ∧ ¬g.SeesFork x creator
  have hsearch : answers (bfs (fun _ => none) (g.expandForFork creator)
      g.traversalFuel [x] ∅ ∅) := by
    refine bfs_induction (P := answers) (I := fun queue visited seen =>
        Frontier g.parentsOf x queue visited ∧ g.SeenSeqs creator visited seen)
      (bounded_of_parents (g := g) ?_) ?_ ?_ ?_ ?_ ?_ (g.work_lt_traversalFuel x)
      ⟨Frontier.init _ x, ⟨by simp, by simp⟩⟩
    · intro seen c seen' next hx
      rcases g.expandForFork_cases creator seen c with ⟨-, he⟩ | ⟨s, e, -, -, -, he⟩ | ⟨s, -, -, he⟩
      · exact (Prod.ext_iff.mp (Except.ok.inj (he.symm.trans hx))).2.symm
      · exact absurd (he.symm.trans hx) (by simp)
      · exact (Prod.ext_iff.mp (Except.ok.inj (he.symm.trans hx))).2.symm
    · -- All ancestors are visited, so two of them with one number share their entry.
      rintro visited seen ⟨hfront, hseen⟩
      refine .inr ⟨seen, rfl, ?_⟩
      rintro ⟨s, a, b, hne, ha, hb, hata, hatb⟩
      have hsa := hseen.complete a (hfront.mem_visited_iff.mpr ha) s hata
      have hsb := hseen.complete b (hfront.mem_visited_iff.mpr hb) s hatb
      exact hne (Option.some.inj (hsa.symm.trans hsb))
    · intro c queue visited seen r _ he
      exact absurd he (by simp)
    · rintro c queue visited seen ⟨hfront, hseen⟩ - hc
      exact ⟨hfront.skip hc, hseen⟩
    · rintro c queue visited seen r ⟨hfront, hseen⟩ - - hx
      rcases g.expandForFork_cases creator seen c with
        ⟨-, he⟩ | ⟨s, e, hat, hs, hne, -⟩ | ⟨s, -, -, he⟩
      · exact absurd (he.symm.trans hx) (by simp)
      · obtain ⟨hvisited, hate⟩ := hseen.sound s e hs
        exact .inl ⟨r, rfl, s, e, c, hne, hfront.visited_reach e hvisited,
          hfront.queue_reach c (by simp), hate, hat⟩
      · exact absurd (he.symm.trans hx) (by simp)
    · rintro c queue visited seen seen' next ⟨hfront, hseen⟩ - - hx
      rcases g.expandForFork_cases creator seen c with
        ⟨hnot, he⟩ | ⟨s, e, -, -, -, he⟩ | ⟨s, hat, hfree, he⟩
      · obtain ⟨rfl, rfl⟩ := Prod.ext_iff.mp (Except.ok.inj (he.symm.trans hx))
        exact ⟨hfront.step, hseen.visit_other hnot⟩
      · exact absurd (he.symm.trans hx) (by simp)
      · obtain ⟨rfl, rfl⟩ := Prod.ext_iff.mp (Except.ok.inj (he.symm.trans hx))
        exact ⟨hfront.step, hseen.visit hat hfree⟩
  unfold ancestryContainsForkOf
  rcases hsearch with ⟨u, hr, hfork⟩ | ⟨seen, hr, hfork⟩
  · exact ⟨true, by rw [hr], by simpa using hfork⟩
  · exact ⟨false, by rw [hr], by simpa using hfork⟩

end Hashgraph

end JKain
