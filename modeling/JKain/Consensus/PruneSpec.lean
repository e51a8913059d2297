import JKain.Consensus.Prune
import JKain.Consensus.InsertSpec

/-!
# What pruning and a new member do

The removal loop of a pruning takes the pruned events out of every index and leaves the entries of
the other events alone. A creator whose newest event was removed is then pointed at its highest
surviving one. A new member widens the rows and changes no event otherwise.
-/

namespace JKain

open Std JKain.Lib

namespace Hashgraph

/-! ## The removal loop -/

section Removal

variable {g t : Hashgraph} {gone : Finset EventHash} {hash : EventHash} {r : EventRecord}

/-- The graph `t` is `g` without the events of `gone` and their index entries. -/
structure Forgotten (g t : Hashgraph) (gone : Finset EventHash) : Prop where
  get?_iff : ∀ {x r}, t.get? x = some r ↔ g.get? x = some r ∧ x ∉ gone
  slot_iff : ∀ {c s x}, t.eventForCreatorSeq c s = some x ↔
    g.eventForCreatorSeq c s = some x ∧ x ∉ gone
  latest_iff : ∀ {c x}, t.latestEventBy c = some x ↔ g.latestEventBy c = some x ∧ x ∉ gone
  child_sub : ∀ {c p x}, t.canonicalChild c p = some x → g.canonicalChild c p = some x
  child_kept : ∀ {c p x}, g.canonicalChild c p = some x → x ∉ gone →
    t.canonicalChild c p = some x
  children_eq : ∀ {p}, p ∉ gone → t.childrenOf p =
    (g.childrenOf p).filter fun x => !(decide (x ∈ gone) && decide (p ∈ g.parentsOf x))
  frame : t = { g with
    events := t.events
    children := t.children
    firstChild := t.firstChild
    byCreatorSeq := t.byCreatorSeq
    latestByCreator := t.latestByCreator }

theorem Forgotten.refl (g : Hashgraph) : Forgotten g g ∅ where
  get?_iff := by simp
  slot_iff := by simp
  latest_iff := by simp
  child_sub := id
  child_kept := fun h _ => h
  children_eq := by simp
  frame := rfl

theorem forget_of_none (h : g.get? hash = none) : g.forget hash = g := by
  unfold forget
  rw [h]

theorem forget_of_some (h : g.get? hash = some r) :
    g.forget hash = { g with
      events := g.events.erase hash
      children := (r.event.parents.foldl
        (fun children parent => children.modify parent (·.filter (· != hash)))
        g.children).erase hash
      firstChild := if g.firstChild[(r.event.creator, r.event.selfParent)]? = some hash then
          g.firstChild.erase (r.event.creator, r.event.selfParent)
        else g.firstChild
      byCreatorSeq := if g.byCreatorSeq[(r.event.creator, r.seq)]? = some hash then
          g.byCreatorSeq.erase (r.event.creator, r.seq)
        else g.byCreatorSeq
      latestByCreator := if g.latestByCreator[r.event.creator]? = some hash then
          g.latestByCreator.erase r.event.creator
        else g.latestByCreator } := by
  unfold forget
  rw [h]

theorem getElem?_foldl_modify (parents : List EventHash)
    (children : ExtTreeMap EventHash (List EventHash)) (p : EventHash) :
    (parents.foldl (fun children parent => children.modify parent (·.filter (· != hash)))
        children)[p]?.getD [] =
      if p ∈ parents then (children[p]?.getD []).filter (· != hash) else children[p]?.getD [] := by
  induction parents generalizing children with
  | nil => simp
  | cons q parents ih =>
    rw [List.foldl_cons, ih, ExtTreeMap.getElem?_modify]
    by_cases hq : q = p
    · subst hq
      cases hchildren : children[q]? with
      | none => simp
      | some l => simp [List.filter_filter]
    · simp [hq, Ne.symm hq]

section EraseIf

variable {κ : Type} [Ord κ] [TransOrd κ] [LawfulEqOrd κ] {m : ExtTreeMap κ EventHash} {key k : κ}
  {x : EventHash}

omit [LawfulEqOrd κ] in
theorem getElem?_of_eraseIf
    (h : (if m[key]? = some hash then m.erase key else m)[k]? = some x) : m[k]? = some x := by
  split at h
  · rw [ExtTreeMap.getElem?_erase] at h
    split at h
    · cases h
    · exact h
  · exact h

theorem getElem?_eraseIf_of_ne (h : m[k]? = some x) (hx : x ≠ hash) :
    (if m[key]? = some hash then m.erase key else m)[k]? = some x := by
  split
  · rename_i hkey
    rw [ExtTreeMap.getElem?_erase, if_neg]
    · exact h
    · intro hk
      rw [LawfulEqCmp.eq_of_compare hk, h, Option.some.injEq] at hkey
      exact hx hkey
  · exact h

omit [LawfulEqOrd κ] in
theorem getElem?_eraseIf_self_ne :
    (if m[k]? = some hash then m.erase k else m)[k]? ≠ some hash := by
  intro h
  split at h
  · rw [ExtTreeMap.getElem?_erase, if_pos ReflCmp.compare_self] at h
    cases h
  · rename_i hne
    exact hne h

end EraseIf

/-- Removing one more event. -/
theorem Forgotten.step (h : Forgotten g t gone) (hg : g.Consistent)
    (hstored : (g.get? hash).isSome) : Forgotten g (t.forget hash) (gone ∪ {hash}) := by
  obtain ⟨r, hr⟩ := Option.isSome_iff_exists.mp hstored
  have hmem (x : EventHash) : x ∉ gone ∪ {hash} ↔ x ∉ gone ∧ x ≠ hash := by
    simp [and_comm]
  by_cases hgone : hash ∈ gone
  · -- The event was removed before.
    have hnone : t.get? hash = none := by
      cases hx : t.get? hash with
      | none => rfl
      | some r' => exact absurd hgone (h.get?_iff.mp hx).2
    rw [forget_of_none hnone, Finset.union_eq_left.mpr (by simpa using hgone)]
    exact h
  have hforget := forget_of_some (h.get?_iff.mpr ⟨hr, hgone⟩)
  have hget (x : EventHash) : (t.forget hash).get? x = if hash = x then none else t.get? x := by
    rw [hforget, get?, ExtTreeMap.getElem?_erase, get?]
    simp
  have hslot : (t.forget hash).byCreatorSeq = if t.byCreatorSeq[(r.event.creator, r.seq)]? = some hash
      then t.byCreatorSeq.erase (r.event.creator, r.seq) else t.byCreatorSeq := by
    rw [hforget]
  have hlatest : (t.forget hash).latestByCreator =
      if t.latestByCreator[r.event.creator]? = some hash then
        t.latestByCreator.erase r.event.creator else t.latestByCreator := by
    rw [hforget]
  have hchild : (t.forget hash).firstChild =
      if t.firstChild[(r.event.creator, r.event.selfParent)]? = some hash then
        t.firstChild.erase (r.event.creator, r.event.selfParent) else t.firstChild := by
    rw [hforget]
  refine ⟨fun {x r'} => ?_, fun {c s x} => ?_, fun {c x} => ?_, fun {c p x} hx => ?_,
    fun {c p x} hx hx' => ?_, fun {p} hp => ?_, ?_⟩
  · rw [hget, hmem]
    by_cases hx : hash = x
    · simp [hx]
    · rw [if_neg hx, h.get?_iff]
      simp [Ne.symm hx]
  · rw [eventForCreatorSeq, hslot, hmem]
    constructor
    · intro hx
      obtain ⟨hx', hxgone⟩ := h.slot_iff.mp (getElem?_of_eraseIf hx)
      refine ⟨hx', hxgone, ?_⟩
      rintro rfl
      -- The slot is the event's own.
      obtain ⟨r', hr', rfl, rfl⟩ := hg.indexed hx'
      rw [hr, Option.some.injEq] at hr'
      subst hr'
      exact getElem?_eraseIf_self_ne hx
    · rintro ⟨hx, hxgone, hne⟩
      exact getElem?_eraseIf_of_ne (h.slot_iff.mpr ⟨hx, hxgone⟩) hne
  · rw [latestEventBy, hlatest, hmem]
    constructor
    · intro hx
      obtain ⟨hx', hxgone⟩ := h.latest_iff.mp (getElem?_of_eraseIf hx)
      refine ⟨hx', hxgone, ?_⟩
      rintro rfl
      obtain ⟨r', hr', rfl⟩ := hg.latest hx'
      rw [hr, Option.some.injEq] at hr'
      subst hr'
      exact getElem?_eraseIf_self_ne hx
    · rintro ⟨hx, hxgone, hne⟩
      exact getElem?_eraseIf_of_ne (h.latest_iff.mpr ⟨hx, hxgone⟩) hne
  · rw [canonicalChild, hchild] at hx
    exact h.child_sub (getElem?_of_eraseIf hx)
  · rw [canonicalChild, hchild]
    obtain ⟨hxgone, hne⟩ := (hmem x).mp hx'
    exact getElem?_eraseIf_of_ne (h.child_kept hx hxgone) hne
  · obtain ⟨hpgone, hne⟩ := (hmem p).mp hp
    have hchildren : (t.forget hash).childrenOf p =
        if p ∈ r.event.parents then (t.childrenOf p).filter (· != hash) else t.childrenOf p := by
      rw [hforget, childrenOf, ExtTreeMap.getElem?_erase, if_neg (by simpa using Ne.symm hne),
        getElem?_foldl_modify]
      rfl
    have hparents : g.parentsOf hash = r.event.parents := by
      rw [parentsOf, hr]
      rfl
    rw [hchildren, h.children_eq hpgone]
    split
    · rename_i hpar
      rw [List.filter_filter]
      refine List.filter_congr fun x _ => ?_
      by_cases hx : x = hash
      · simp [hx, hparents, hpar]
      · simp [hx]
    · rename_i hpar
      refine List.filter_congr fun x _ => ?_
      by_cases hx : x = hash
      · simp [hx, hparents, hpar]
      · simp [hx]
  · rw [hforget, h.frame]

/-- The removal loop. -/
theorem Forgotten.foldl (h : Forgotten g t gone) (hg : g.Consistent) {l : List EventHash}
    (hl : ∀ x ∈ l, (g.get? x).isSome) : Forgotten g (l.foldl forget t) (gone ∪ l.toFinset) := by
  induction l generalizing t gone with
  | nil => simpa using h
  | cons x l ih =>
    have hstep := ih (h.step hg (hl x (by simp))) fun y hy => hl y (by simp [hy])
    rw [List.toFinset_cons, Finset.insert_eq, ← Finset.union_assoc]
    exact hstep

end Removal

/-! ## The tips -/

section Tips

variable {g : Hashgraph} {c : NodeId}

theorem higherEntry_cases (c : NodeId) (best : Option (ℕ × EventHash))
    (entry : (NodeId × ℕ) × EventHash) :
    (higherEntry c best entry = best ∧
        (entry.1.1 = c → ∃ p, best = some p ∧ entry.1.2 ≤ p.1)) ∨
      (higherEntry c best entry = some (entry.1.2, entry.2) ∧ entry.1.1 = c ∧
        ∀ p, best = some p → p.1 ≤ entry.1.2) := by
  unfold higherEntry
  by_cases hc : entry.1.1 = c
  · cases best with
    | none => simp [hc]
    | some p =>
      by_cases hle : entry.1.2 ≤ p.1
      · simp [hc, hle]
      · simp [hc, hle]
        omega
  · simp [hc]

/-- The fold over the slots ends at the best of the start and the creator's entries. -/
theorem foldl_higherEntry (c : NodeId) (l : List ((NodeId × ℕ) × EventHash))
    (best : Option (ℕ × EventHash)) :
    (∀ p, l.foldl (higherEntry c) best = some p → best = some p ∨ ((c, p.1), p.2) ∈ l) ∧
      ∀ s, (∃ p, best = some p ∧ s ≤ p.1) ∨ (∃ x, ((c, s), x) ∈ l) →
        ∃ p, l.foldl (higherEntry c) best = some p ∧ s ≤ p.1 := by
  induction l generalizing best with
  | nil => simp
  | cons entry l ih =>
    obtain ⟨hsound, hbound⟩ := ih (higherEntry c best entry)
    rw [List.foldl_cons]
    rcases higherEntry_cases c best entry with ⟨heq, hle⟩ | ⟨heq, hc, hle⟩
    · rw [heq] at hsound hbound ⊢
      refine ⟨fun p hp => (hsound p hp).imp_right (List.mem_cons_of_mem _), fun s hs => ?_⟩
      rcases hs with hs | ⟨x, hx⟩
      · exact hbound s (.inl hs)
      · rcases List.mem_cons.mp hx with rfl | hx
        · exact hbound s (.inl (hle rfl))
        · exact hbound s (.inr ⟨x, hx⟩)
    · rw [heq] at hsound hbound ⊢
      refine ⟨fun p hp => .inr ?_, fun s hs => ?_⟩
      · rcases hsound p hp with hp | hp
        · obtain rfl := Option.some.inj hp
          rw [← hc]
          exact List.mem_cons_self
        · exact List.mem_cons_of_mem _ hp
      · rcases hs with ⟨p, hp, hs⟩ | ⟨x, hx⟩
        · exact hbound s (.inl ⟨_, rfl, hs.trans (hle p hp)⟩)
        · rcases List.mem_cons.mp hx with rfl | hx
          · exact hbound s (.inl ⟨_, rfl, le_rfl⟩)
          · exact hbound s (.inr ⟨x, hx⟩)

theorem eventForCreatorSeq_of_highestIndexed {p : ℕ × EventHash}
    (h : g.highestIndexed c = some p) : g.eventForCreatorSeq c p.1 = some p.2 := by
  rcases (foldl_higherEntry c _ none).1 p h with hp | hp
  · cases hp
  · exact ExtTreeMap.mem_toList_iff_getElem?_eq_some.mp hp

theorem exists_highestIndexed {s : ℕ} {x : EventHash} (h : g.eventForCreatorSeq c s = some x) :
    ∃ p, g.highestIndexed c = some p ∧ s ≤ p.1 :=
  (foldl_higherEntry c _ none).2 s
    (.inr ⟨x, ExtTreeMap.mem_toList_iff_getElem?_eq_some.mpr h⟩)

theorem latestEventBy_repoint (g : Hashgraph) (c c' : NodeId) :
    (g.repoint c).latestEventBy c' = if c' = c ∧ g.latestEventBy c = none then
      (g.highestIndexed c).map (·.2) else g.latestEventBy c' := by
  unfold repoint
  cases hlatest : g.latestEventBy c with
  | some x => simp
  | none =>
    cases hhigh : g.highestIndexed c with
    | none =>
      by_cases hc : c' = c
      · simp [hc, hlatest]
      · simp [hc]
    | some p =>
      have hinsert : ({ g with latestByCreator := g.latestByCreator.insert c p.2 } :
          Hashgraph).latestEventBy c' = if c = c' then some p.2 else g.latestEventBy c' := by
        rw [latestEventBy, ExtTreeMap.getElem?_insert, latestEventBy]
        simp
      by_cases hc : c' = c
      · simpa [hc] using hinsert
      · simpa [hc, Ne.symm hc] using hinsert

theorem frame_repoint (g : Hashgraph) (c : NodeId) :
    g.repoint c = { g with latestByCreator := (g.repoint c).latestByCreator } := by
  unfold repoint
  split
  · rfl
  · split <;> rfl

/-- The loop over the creators whose newest event was removed. -/
theorem foldl_repoint (g : Hashgraph) (tips : List NodeId) :
    tips.foldl repoint g = { g with latestByCreator := (tips.foldl repoint g).latestByCreator } ∧
      ∀ c, (tips.foldl repoint g).latestEventBy c = if c ∈ tips ∧ g.latestEventBy c = none then
        (g.highestIndexed c).map (·.2) else g.latestEventBy c := by
  induction tips generalizing g with
  | nil => exact ⟨rfl, by simp⟩
  | cons c tips ih =>
    obtain ⟨hframe, hlatest⟩ := ih (g.repoint c)
    have hhigh (c' : NodeId) : (g.repoint c).highestIndexed c' = g.highestIndexed c' := by
      rw [frame_repoint]
      rfl
    refine ⟨?_, fun c' => ?_⟩
    · rw [List.foldl_cons, hframe, frame_repoint g c]
    · rw [List.foldl_cons, hlatest, hhigh, latestEventBy_repoint]
      by_cases hc : c' = c
      · subst hc
        cases g.latestEventBy c' <;> simp
      · simp [hc]

end Tips

/-! ## The pruned graph -/

section Prune

variable {g g' : Hashgraph} {threshold : ℕ}

theorem mem_liveParents {x : EventHash} :
    x ∈ g.liveParents threshold ↔
      ∃ y ry, g.get? y = some ry ∧ expired threshold ry = false ∧ x ∈ ry.event.parents := by
  simp only [liveParents, List.mem_flatMap, List.mem_filter, Prod.exists,
    ExtTreeMap.mem_toList_iff_getElem?_eq_some, Bool.not_eq_true', and_assoc, get?]

theorem mem_expiredEvents {x : EventHash} :
    x ∈ g.expiredEvents threshold ↔ ∃ r, g.get? x = some r ∧ expired threshold r = true := by
  simp only [expiredEvents, List.mem_map, List.mem_filter, Prod.exists, exists_and_right,
    exists_eq_right, ExtTreeMap.mem_toList_iff_getElem?_eq_some, get?]

theorem mem_prunedEvents {x : EventHash} :
    x ∈ g.prunedEvents threshold ↔ (∃ r, g.get? x = some r ∧ expired threshold r = true) ∧
      ∀ y ry, g.get? y = some ry → expired threshold ry = false → x ∉ ry.event.parents := by
  rw [prunedEvents, List.mem_filter, decide_eq_true_iff, mem_liveParents, mem_expiredEvents]
  simp only [not_exists, not_and]

/-- What pruning makes of the graph: `gone` are the removed events. -/
structure Pruned (g g' : Hashgraph) (threshold : ℕ) (gone : Finset EventHash) : Prop where
  get?_iff : ∀ {x r}, g'.get? x = some r ↔ g.get? x = some r ∧ x ∉ gone
  slot_iff : ∀ {c s x}, g'.eventForCreatorSeq c s = some x ↔
    g.eventForCreatorSeq c s = some x ∧ x ∉ gone
  child_sub : ∀ {c p x}, g'.canonicalChild c p = some x → g.canonicalChild c p = some x
  child_kept : ∀ {c p x}, g.canonicalChild c p = some x → x ∉ gone →
    g'.canonicalChild c p = some x
  children_eq : ∀ {p}, p ∉ gone → g'.childrenOf p =
    (g.childrenOf p).filter fun x => !(decide (x ∈ gone) && decide (p ∈ g.parentsOf x))
  latest_kept : ∀ {c x}, g.latestEventBy c = some x → x ∉ gone → g'.latestEventBy c = some x
  latest_none : ∀ {c}, g.latestEventBy c = none → g'.latestEventBy c = none
  latest_gone : ∀ {c tip}, g.latestEventBy c = some tip → tip ∈ gone →
    g'.latestEventBy c = (g'.highestIndexed c).map (·.2)
  witnesses_eq : ∀ n, g'.witnessesOfRound n =
    (g.witnessesOfRound n).filter fun x => (g'.get? x).isSome
  undecided_eq : ∀ w : EventHash, g'.undecidedWitnesses[w]? =
    if w ∈ gone then none else g.undecidedWitnesses[w]?
  memberIndex_eq : g'.memberIndex = g.memberIndex
  memberCount_eq : g'.memberCount = g.memberCount
  knownForkers_eq : g'.knownForkers = g.knownForkers
  highest_eq : g'.highestWitnessRound = g.highestWitnessRound
  decided_eq : g'.fullyDecidedRounds = g.fullyDecidedRounds
  next_eq : g'.nextRoundToOrder = g.nextRoundToOrder
  log_eq : g'.orderLog = g.orderLog
  roster_eq : g'.rosterHistory = g.rosterHistory.pruneBefore threshold

theorem getElem?_foldl_erase (pruned : List EventHash) (undecided : ExtTreeMap EventHash ℕ)
    (w : EventHash) :
    (pruned.foldl (fun undecided hash => undecided.erase hash) undecided)[w]? =
      if w ∈ pruned then none else undecided[w]? := by
  induction pruned generalizing undecided with
  | nil => simp
  | cons x pruned ih =>
    rw [List.foldl_cons, ih, ExtTreeMap.getElem?_erase]
    by_cases hx : x = w
    · simp [hx]
    · simp [hx, Ne.symm hx]

theorem witnessesOfRound_forgetWitnesses (g : Hashgraph) (pruned : List EventHash) (n : ℕ) :
    (g.forgetWitnesses pruned).witnessesOfRound n =
      (g.witnessesOfRound n).filter fun x => (g.get? x).isSome := by
  rw [forgetWitnesses, witnessesOfRound, ExtTreeMap.getElem?_map, witnessesOfRound]
  cases g.witnessesByRound[n]? <;> rfl

/-- The graph `prune` leaves. -/
theorem pruned_prune (hg : g.Consistent) (threshold : ℕ) :
    Pruned g (g.prune threshold) threshold (g.prunedEvents threshold).toFinset := by
  set gone := g.prunedEvents threshold with hgone
  set tips := (g.latestByCreator.toList.filter fun p => p.2 ∈ gone).map (·.1) with htips
  have hmem_tips (c : NodeId) : c ∈ tips ↔ ∃ tip, g.latestEventBy c = some tip ∧ tip ∈ gone := by
    simp [htips, latestEventBy, ExtTreeMap.mem_toList_iff_getElem?_eq_some]
  have hstored : ∀ x ∈ gone, (g.get? x).isSome := by
    intro x hx
    obtain ⟨⟨r, hr, -⟩, -⟩ := mem_prunedEvents.mp hx
    rw [hr]
    rfl
  obtain ⟨hget, hslot, hlatest, hsub, hkept, hchildren, hframe⟩ :=
    (Forgotten.refl g).foldl hg hstored
  rw [Finset.empty_union] at hget hslot hlatest hkept hchildren
  set t := gone.foldl forget g with ht
  obtain ⟨hframe', hlatest'⟩ := foldl_repoint t tips
  set u := tips.foldl repoint t with hu
  -- The witness bookkeeping and the roster do not touch the events.
  have hprune : g.prune threshold = { u.forgetWitnesses gone with
      rosterHistory := u.rosterHistory.pruneBefore threshold } := rfl
  have hsame : u = { g with
      events := t.events
      children := t.children
      firstChild := t.firstChild
      byCreatorSeq := t.byCreatorSeq
      latestByCreator := u.latestByCreator } := by
    rw [hframe', hframe]
  have hhigh (c : NodeId) : (g.prune threshold).highestIndexed c = t.highestIndexed c := by
    rw [hprune, highestIndexed, highestIndexed, forgetWitnesses, hframe']
  have hget' (x : EventHash) : (g.prune threshold).get? x = t.get? x := by
    rw [hprune, get?, get?, forgetWitnesses, hframe']
  have hnew (c : NodeId) : (g.prune threshold).latestEventBy c = u.latestEventBy c := rfl
  have htip {c : NodeId} {x : EventHash} (hx : g.latestEventBy c = some x) (hmem : x ∈ gone) :
      t.latestEventBy c = none := by
    cases hcase : t.latestEventBy c with
    | none => rfl
    | some y =>
      obtain ⟨hy, hy'⟩ := hlatest.mp hcase
      rw [hx, Option.some.injEq] at hy
      exact absurd (List.mem_toFinset.mpr (hy ▸ hmem)) hy'
  refine ⟨fun {x r} => ?_, fun {c s x} => ?_, fun {c p x} hx => ?_, fun {c p x} hx hxgone => ?_,
    fun {p} hp => ?_, fun {c x} hx hxgone => ?_, fun {c} hc => ?_, fun {c tip} hc hmem => ?_,
    fun n => ?_, fun w => ?_, ?_, ?_, ?_, ?_, ?_, ?_, ?_, ?_⟩
  · rw [hget', hget]
  · rw [← hslot, hprune, eventForCreatorSeq, eventForCreatorSeq, forgetWitnesses, hframe']
  · refine hsub ?_
    rw [← hx, hprune, canonicalChild, canonicalChild, forgetWitnesses, hframe']
  · rw [← hkept hx hxgone, hprune, canonicalChild, canonicalChild, forgetWitnesses, hframe']
  · rw [← hchildren hp, hprune, childrenOf, childrenOf, forgetWitnesses, hframe']
  · have hx' := hlatest.mpr ⟨hx, hxgone⟩
    rw [hnew, hlatest', if_neg (by simp [hx']), hx']
  · have hnone : t.latestEventBy c = none := by
      cases hcase : t.latestEventBy c with
      | none => rfl
      | some y =>
        rw [(hlatest.mp hcase).1] at hc
        cases hc
    have hno : ¬(c ∈ tips ∧ t.latestEventBy c = none) := by
      rw [hmem_tips, hc]
      simp
    rw [hnew, hlatest', if_neg hno, hnone]
  · have hmem := List.mem_toFinset.mp hmem
    rw [hnew, hlatest', if_pos ⟨(hmem_tips c).mpr ⟨tip, hc, hmem⟩, htip hc hmem⟩, hhigh]
  · have hwitness : (g.prune threshold).witnessesOfRound n =
        (u.forgetWitnesses gone).witnessesOfRound n := rfl
    rw [hwitness, witnessesOfRound_forgetWitnesses]
    have hold : u.witnessesOfRound n = g.witnessesOfRound n := by
      rw [hsame]
      rfl
    have hu (x : EventHash) : u.get? x = (g.prune threshold).get? x := by
      rw [hget', get?, hframe']
      rfl
    simp only [hold, hu]
  · have hundecided : (g.prune threshold).undecidedWitnesses =
        gone.foldl (fun undecided hash => undecided.erase hash) u.undecidedWitnesses := rfl
    rw [hundecided, getElem?_foldl_erase, hsame]
    simp
  all_goals
    rw [hprune, forgetWitnesses, hsame]

end Prune

/-! ## What pruning keeps -/

namespace Pruned

variable {g g' : Hashgraph} {threshold : ℕ} {gone : Finset EventHash}

theorem memberIndexOf_eq (h : Pruned g g' threshold gone) (c : NodeId) :
    g'.memberIndexOf c = g.memberIndexOf c := by
  rw [memberIndexOf, h.memberIndex_eq, memberIndexOf]

theorem consistent (h : Pruned g g' threshold gone) (hg : g.Consistent) : g'.Consistent := by
  have hold {x : EventHash} {r : EventRecord} (hx : g'.get? x = some r) : g.get? x = some r :=
    (h.get?_iff.mp hx).1
  have hslot {c : NodeId} {s : ℕ} {x : EventHash} (hx : g'.eventForCreatorSeq c s = some x) :
      g'.IsEventAt c s x := by
    obtain ⟨hx, hxgone⟩ := h.slot_iff.mp hx
    obtain ⟨r, hr, hc, hs⟩ := hg.indexed hx
    exact ⟨r, h.get?_iff.mpr ⟨hr, hxgone⟩, hc, hs⟩
  refine ⟨fun {x r} hx => ?_, fun {c i} hi => ?_, ?_, fun {x r} hx => ?_, fun {x r i} hx hi => ?_,
    fun {x r} hx => hg.seq_pos (hold hx),
    fun {x r p rp} hx hself hp => hg.self_parent (hold hx) hself (hold hp), hslot,
    fun {c x} hx => ?_⟩
  · rw [h.memberIndexOf_eq]
    exact hg.member (hold hx)
  · rw [h.memberIndexOf_eq] at hi
    rw [h.memberCount_eq]
    exact hg.index_lt hi
  · rw [h.knownForkers_eq, h.memberCount_eq]
    exact hg.forkers_length
  · rw [h.memberCount_eq]
    exact hg.row_length (hold hx)
  · rw [h.memberIndexOf_eq] at hi
    exact hg.own_slot (hold hx) hi
  · cases htip : g.latestEventBy c with
    | none =>
      rw [h.latest_none htip] at hx
      cases hx
    | some tip =>
      by_cases hgone : tip ∈ gone
      · -- The new tip is the highest indexed event.
        rw [h.latest_gone htip hgone, Option.map_eq_some_iff] at hx
        obtain ⟨p, hp, rfl⟩ := hx
        obtain ⟨r, hr, hc, -⟩ := hslot (eventForCreatorSeq_of_highestIndexed hp)
        exact ⟨r, hr, hc⟩
      · rw [h.latest_kept htip hgone, Option.some.injEq] at hx
        subst hx
        obtain ⟨r, hr, hc⟩ := hg.latest htip
        exact ⟨r, h.get?_iff.mpr ⟨hr, hgone⟩, hc⟩

theorem wellFormed (h : Pruned g g' threshold gone) (hwf : g.WellFormed) : g'.WellFormed := by
  have hold {x : EventHash} {r : EventRecord} (hx : g'.get? x = some r) : g.get? x = some r :=
    (h.get?_iff.mp hx).1
  refine ⟨h.consistent hwf.toConsistent, fun {x r} hx => hwf.round_pos (hold hx),
    fun {n x} hx => ?_, fun {x r} hx hwit => ?_, fun n => ?_, fun {x r} hx hwit => ?_⟩
  · rw [h.witnesses_eq, List.mem_filter] at hx
    obtain ⟨r, hr⟩ := Option.isSome_iff_exists.mp hx.2
    obtain ⟨r', hr', hround, hwit⟩ := hwf.witness_sound hx.1
    rw [hold hr, Option.some.injEq] at hr'
    exact ⟨r, hr, hr' ▸ hround, hr' ▸ hwit⟩
  · rw [h.witnesses_eq, List.mem_filter, hx]
    exact ⟨hwf.witness_complete (hold hx) hwit, rfl⟩
  · rw [h.witnesses_eq]
    exact (hwf.witness_nodup n).filter _
  · rw [h.highest_eq]
    exact hwf.witness_le (hold hx) hwit

theorem get?_eq (h : Pruned g g' threshold gone) {x : EventHash} (hx : x ∉ gone) :
    g'.get? x = g.get? x := by
  cases hget : g.get? x with
  | some r => exact h.get?_iff.mpr ⟨hget, hx⟩
  | none =>
    cases hget' : g'.get? x with
    | none => rfl
    | some r =>
      rw [(h.get?_iff.mp hget').1] at hget
      cases hget

theorem get?_gone (h : Pruned g g' threshold gone) {x : EventHash} (hx : x ∈ gone) :
    g'.get? x = none := by
  cases hget : g'.get? x with
  | none => rfl
  | some r => exact absurd hx (h.get?_iff.mp hget).2

theorem fameOf_eq (h : Pruned g g' threshold gone) (w : EventHash) :
    g'.fameOf w = if w ∈ gone then none else g.fameOf w := by
  unfold fameOf
  by_cases hw : w ∈ gone
  · rw [h.get?_gone hw, if_pos hw]
    rfl
  · rw [h.get?_eq hw, if_neg hw]

theorem undecidedExact (h : Pruned g g' threshold gone) (hexact : g.UndecidedExact) :
    g'.UndecidedExact := by
  intro w n
  rw [h.undecided_eq, h.fameOf_eq]
  by_cases hw : w ∈ gone
  · simp [hw]
  · rw [if_neg hw, if_neg hw, h.get?_eq hw]
    exact hexact w n

theorem votesCast (h : Pruned g g' threshold gone) (hcast : g.VotesCast fun _ => False) :
    g'.VotesCast fun _ => False := by
  intro w s hw hs hlt _ _
  rw [h.fameOf_eq] at hw
  have hwgone : w ∉ gone := by
    intro hmem
    rw [if_pos hmem] at hw
    cases hw
  rw [if_neg hwgone] at hw
  rw [h.witnesses_eq, List.mem_filter] at hs
  have hsgone : s ∉ gone := by
    intro hmem
    rw [h.get?_gone hmem] at hs
    exact absurd hs.2 (by simp)
  have hround {x : EventHash} (hx : x ∉ gone) : g'.roundOf x = g.roundOf x := by
    rw [roundOf, h.get?_eq hx, roundOf]
  rw [hround hsgone] at hs hlt
  rw [hround hwgone] at hlt
  rw [recordedVote, h.get?_eq hsgone]
  exact hcast w s hw hs.1 hlt id id

theorem indexed (h : Pruned g g' threshold gone) (hindexed : g.Indexed) : g'.Indexed := by
  intro x r i hx hi hflag
  obtain ⟨hx, hxgone⟩ := h.get?_iff.mp hx
  rw [h.memberIndexOf_eq] at hi
  rw [flagged, h.knownForkers_eq] at hflag
  exact h.slot_iff.mpr ⟨hindexed x r i hx hi hflag, hxgone⟩

end Pruned

/-- `prune_before_round` on an ordered round: the graph stays, or is pruned. -/
theorem pruneBeforeRound_spec {E : Fault → Prop} {g : Hashgraph} {threshold : ℕ}
    (hg : g.Consistent) (hle : threshold < g.nextRoundToOrder) :
    Holds E (pruneBeforeRound threshold) g fun result g' =>
      (g.expiredEvents threshold = [] ∧ result = [] ∧ g' = g) ∨
        (result = g.prunedEvents threshold ∧
          Pruned g g' threshold (g.prunedEvents threshold).toFinset) := by
  unfold pruneBeforeRound
  rw [Holds.bind_iff, Holds.get_iff, if_pos hle, Holds.ite_iff]
  refine ⟨fun hempty => .inl ⟨by simpa using hempty, rfl, rfl⟩, fun _ => ?_⟩
  rw [Holds.bind_iff, Holds.modify_iff]
  exact .inr ⟨rfl, pruned_prune hg threshold⟩

/-! ## A new member -/

section Widen

variable {g : Hashgraph} {node : NodeId} {activationRound : ℕ} {registry : MembershipRegistry}

theorem get?_widen (x : EventHash) :
    (g.widen node activationRound registry).get? x =
      (g.get? x).map fun r => { r with ancestorSeqs := r.ancestorSeqs ++ [0] } := by
  rw [widen, get?, ExtTreeMap.getElem?_map, get?]

theorem exists_of_get?_widen {x : EventHash} {r : EventRecord}
    (h : (g.widen node activationRound registry).get? x = some r) :
    ∃ r', g.get? x = some r' ∧ r = { r' with ancestorSeqs := r'.ancestorSeqs ++ [0] } := by
  rw [get?_widen, Option.map_eq_some_iff] at h
  obtain ⟨r', hr', rfl⟩ := h
  exact ⟨r', hr', rfl⟩

theorem get?_widen_of_some {x : EventHash} {r : EventRecord} (h : g.get? x = some r) :
    (g.widen node activationRound registry).get? x =
      some { r with ancestorSeqs := r.ancestorSeqs ++ [0] } := by
  rw [get?_widen, h]
  rfl

theorem parentsOf_widen (x : EventHash) :
    (g.widen node activationRound registry).parentsOf x = g.parentsOf x := by
  rw [parentsOf, get?_widen, parentsOf]
  cases g.get? x <;> rfl

theorem memberIndexOf_widen (c : NodeId) :
    (g.widen node activationRound registry).memberIndexOf c =
      if c = node then some g.memberCount else g.memberIndexOf c := by
  rw [widen, memberIndexOf, ExtTreeMap.getElem?_insert, memberIndexOf]
  by_cases hc : node = c
  · simp [hc]
  · simp [hc, Ne.symm hc]

/-- The creators of stored events keep their index. -/
theorem Consistent.memberIndexOf_widen (hg : g.Consistent) (hnew : g.memberIndexOf node = none)
    {x : EventHash} {r : EventRecord} (hx : g.get? x = some r) :
    (g.widen node activationRound registry).memberIndexOf r.event.creator =
      g.memberIndexOf r.event.creator := by
  rw [Hashgraph.memberIndexOf_widen, if_neg]
  intro hc
  obtain ⟨i, hi⟩ := hg.member hx
  rw [hc, hnew] at hi
  cases hi

theorem isEventAt_widen {c : NodeId} {s : ℕ} {x : EventHash} (h : g.IsEventAt c s x) :
    (g.widen node activationRound registry).IsEventAt c s x := by
  obtain ⟨r, hr, hc, hs⟩ := h
  exact ⟨_, get?_widen_of_some hr, hc, hs⟩

theorem Consistent.widen (hg : g.Consistent) (hnew : g.memberIndexOf node = none) :
    (g.widen node activationRound registry).Consistent := by
  refine ⟨fun {x r} hx => ?_, fun {c i} hi => ?_, ?_, fun {x r} hx => ?_, fun {x r i} hx hi => ?_,
    fun {x r} hx => ?_, fun {x r p rp} hx hself hp => ?_,
    fun {c s x} hx => isEventAt_widen (hg.indexed hx), fun {c x} hx => ?_⟩
  · obtain ⟨r', hr', rfl⟩ := exists_of_get?_widen hx
    obtain ⟨i, hi⟩ := hg.member hr'
    exact ⟨i, (hg.memberIndexOf_widen hnew hr').trans hi⟩
  · rw [Hashgraph.memberIndexOf_widen] at hi
    show i < g.memberCount + 1
    split at hi
    · obtain rfl := Option.some.inj hi
      omega
    · have := hg.index_lt hi
      omega
  · show (g.knownForkers ++ [false]).length = g.memberCount + 1
    rw [List.length_append, hg.forkers_length]
    rfl
  · obtain ⟨r', hr', rfl⟩ := exists_of_get?_widen hx
    show (r'.ancestorSeqs ++ [0]).length = g.memberCount + 1
    rw [List.length_append, hg.row_length hr']
    rfl
  · obtain ⟨r', hr', rfl⟩ := exists_of_get?_widen hx
    have hi := (hg.memberIndexOf_widen hnew hr').symm.trans hi
    have hlt : i < r'.ancestorSeqs.length := by
      rw [hg.row_length hr']
      exact hg.index_lt hi
    show (r'.ancestorSeqs ++ [0])[i]? = some r'.seq
    rw [List.getElem?_append_left hlt]
    exact hg.own_slot hr' hi
  · obtain ⟨r', hr', rfl⟩ := exists_of_get?_widen hx
    exact (hg.seq_pos hr' :)
  · obtain ⟨r', hr', rfl⟩ := exists_of_get?_widen hx
    obtain ⟨rp', hrp', rfl⟩ := exists_of_get?_widen hp
    exact (hg.self_parent hr' hself hrp' :)
  · obtain ⟨r, hr, hc⟩ := hg.latest hx
    exact ⟨_, get?_widen_of_some hr, hc⟩

theorem WellFormed.widen (hwf : g.WellFormed) (hnew : g.memberIndexOf node = none) :
    (g.widen node activationRound registry).WellFormed := by
  refine ⟨hwf.toConsistent.widen hnew, fun {x r} hx => ?_, fun {n x} hx => ?_,
    fun {x r} hx hwit => ?_, hwf.witness_nodup, fun {x r} hx hwit => ?_⟩
  · obtain ⟨r', hr', rfl⟩ := exists_of_get?_widen hx
    exact (hwf.round_pos hr' :)
  · obtain ⟨r, hr, hround, hwit⟩ := hwf.witness_sound hx
    exact ⟨_, get?_widen_of_some hr, hround, hwit⟩
  · obtain ⟨r', hr', rfl⟩ := exists_of_get?_widen hx
    exact (hwf.witness_complete hr' hwit :)
  · obtain ⟨r', hr', rfl⟩ := exists_of_get?_widen hx
    exact (hwf.witness_le hr' hwit :)

theorem fameOf_widen (w : EventHash) :
    (g.widen node activationRound registry).fameOf w = g.fameOf w := by
  unfold fameOf
  rw [get?_widen]
  cases g.get? w <;> rfl

theorem roundOf_widen (x : EventHash) :
    (g.widen node activationRound registry).roundOf x = g.roundOf x := by
  unfold roundOf
  rw [get?_widen]
  cases g.get? x <;> rfl

theorem recordedVote_widen (y w : EventHash) :
    (g.widen node activationRound registry).recordedVote y w = g.recordedVote y w := by
  unfold recordedVote
  rw [get?_widen]
  cases g.get? y <;> rfl

theorem UndecidedExact.widen (hexact : g.UndecidedExact) :
    (g.widen node activationRound registry).UndecidedExact := by
  intro w n
  rw [fameOf_widen, get?_widen]
  refine (hexact w n).trans (and_congr_right fun _ => ?_)
  cases g.get? w <;> simp

theorem VotesCast.widen (hcast : g.VotesCast fun _ => False) :
    (g.widen node activationRound registry).VotesCast fun _ => False := by
  intro w s hw hs hlt _ _
  rw [fameOf_widen] at hw
  rw [roundOf_widen] at hs
  rw [roundOf_widen, roundOf_widen] at hlt
  rw [recordedVote_widen]
  exact hcast w s hw hs hlt id id

theorem Indexed.widen (hindexed : g.Indexed) (hg : g.Consistent)
    (hnew : g.memberIndexOf node = none) : (g.widen node activationRound registry).Indexed := by
  intro x r i hx hi hflag
  obtain ⟨r', hr', rfl⟩ := exists_of_get?_widen hx
  have hi := (hg.memberIndexOf_widen hnew hr').symm.trans hi
  have hlt : i < g.knownForkers.length := by
    rw [hg.forkers_length]
    exact hg.index_lt hi
  have hflag' : g.flagged i = false := by
    have heq : (g.widen node activationRound registry).flagged i = g.flagged i := by
      rw [flagged, Hashgraph.widen, List.getElem?_append_left hlt, flagged]
    rw [← heq, hflag]
  exact hindexed x r' i hr' hi hflag'

/-- `add_member` on a node that is no member. -/
theorem addMember_spec {E : Fault → Prop} (hnew : g.memberIndexOf node = none) :
    Holds E (addMember node activationRound registry) g fun _ g' =>
      g' = g.widen node activationRound registry := by
  unfold addMember
  rw [Holds.bind_iff, Holds.get_iff, if_neg (by simp [hnew]), Holds.modify_iff]

end Widen

end Hashgraph

end JKain
