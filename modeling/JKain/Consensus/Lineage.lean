import JKain.Consensus.Equivocation
import JKain.Consensus.Represented
import JKain.Consensus.Watermark

/-!
# The newest events of the members

Over a set of events without forks and a static registry, with prunings at any moment, also where
pruned events are inserted again. A round is decided only once every member's newest event is of a
later round, and an event is received in a round only if a witness of that round descends from it.
So the newest event of a member is never received in a decided round, and no pruning removes it.

A pruned graph does not hold the links to what is gone; descent is therefore taken in the set of
events.
-/

namespace JKain

open Std JKain.Lib

/-- `b` is `a` or is met on the parent links from `a` in `S`. -/
def Stems (H : Hasher) (S : Set Event) : EventHash → EventHash → Prop :=
  Relation.ReflTransGen fun a b => ∃ e ∈ S, H e = .ok a ∧ b ∈ e.parents

section Stems

variable {H : Hasher} {S : Set Event} {a b : EventHash} {e e' : Event} {m n : ℕ}

theorem Stems.of_descends (h : Descends H S a b) : Stems H S a b := by
  induction h with
  | refl => exact .refl
  | tail _ hlink ih =>
    obtain ⟨e, he, ha, hself⟩ := hlink
    exact ih.tail ⟨e, he, ha, Event.mem_parents.mpr (.inl hself)⟩

/-- What an event stems from is the event or what one of its parents stems from. -/
theorem Stems.cases (hfree : H.CollisionFree S) (he : e ∈ S) (ha : H e = .ok a)
    (h : Stems H S a b) : a = b ∨ ∃ p ∈ e.parents, Stems H S p b := by
  rcases Relation.ReflTransGen.cases_head h with hsame | ⟨p, ⟨e', he', ha', hp⟩, hrest⟩
  · exact .inl hsame
  · obtain rfl := hfree e he e' he' a ha ha'
    exact .inr ⟨p, hp, hrest⟩

/-- The chain of a numbered event leads down to every lower number. -/
theorem Numbered.exists_descends (h : Numbered H S e n) (ha : H e = .ok a) (hpos : 0 < m)
    (hle : m ≤ n) : ∃ e' b, H e' = .ok b ∧ Numbered H S e' m ∧ e'.creator = e.creator ∧
      Descends H S a b := by
  induction h generalizing a with
  | root he hself =>
    obtain rfl : m = 1 := by omega
    exact ⟨_, a, ha, .root he hself, rfl, .refl⟩
  | @child e p hash n he hself hp hcreator hnum ih =>
    rcases Nat.lt_or_eq_of_le hle with hlt | rfl
    · obtain ⟨e', b, hb, hnum', hcreator', hdesc⟩ := ih hp (by omega)
      exact ⟨e', b, hb, hnum', hcreator'.trans hcreator, .head ⟨e, he, ha, hself⟩ hdesc⟩
    · exact ⟨e, a, ha, .child he hself hp hcreator hnum, rfl, .refl⟩

theorem not_forks_of_forkFree (h : Hashgraph.ForkFree S) (c : NodeId) : ¬Forks S c := by
  rintro ⟨e, he, e', he', hne, hc, hc', hself⟩
  exact hne (h e he e' he' (hc.trans hc'.symm) hself)

theorem Numbered.pos (h : Numbered H S e n) : 0 < n := by
  cases h with
  | root _ _ => exact Nat.one_pos
  | child _ _ _ _ _ => exact Nat.succ_pos _

/-- Without forks a creator's event stems from every earlier one. -/
theorem Numbered.stems (hforks : Hashgraph.ForkFree S) (h : Numbered H S e n)
    (h' : Numbered H S e' m) (hcreator : e'.creator = e.creator) (hle : m ≤ n) (ha : H e = .ok a)
    (hb : H e' = .ok b) : Stems H S a b := by
  obtain ⟨f, z, hz, hnum, hf, hdesc⟩ := h.exists_descends ha h'.pos hle
  obtain rfl := hnum.eq_of_not_forks h' (hf.trans hcreator.symm) (not_forks_of_forkFree hforks _)
  rw [hb, Except.ok.injEq] at hz
  exact hz ▸ .of_descends hdesc

end Stems

namespace Hashgraph

/-- The operation inserts an event of `S` or prunes: the registry is static. -/
def Op.Static (S : Set Event) : Op → Prop
  | .insert _ event => event ∈ S
  | .prune _ => True
  | .addMember _ _ _ => False

theorem Op.Inserts.static {S : Set Event} {op : Op} (h : op.Inserts S) : op.Static S := by
  cases op with
  | insert _ _ => exact h
  | addMember _ _ _ => exact h
  | prune _ => trivial

/-- A run that only inserts events of `S` is a run with a static registry. -/
theorem Reached.mono {H : Hasher} {P Q : Hashgraph → Op → Prop} {registry : MembershipRegistry}
    {g : Hashgraph} (hg : Reached H P registry g) (hPQ : ∀ g op, P g op → Q g op) :
    Reached H Q registry g := by
  induction hg with
  | new => exact .new
  | step _ hadm hop hleads ih => exact ih.step hadm (hPQ _ _ hop) hleads

theorem Reached.static {H : Hasher} {S : Set Event} {registry : MembershipRegistry} {g : Hashgraph}
    (hg : Reached H (fun _ op => op.Inserts S) registry g) :
    Reached H (fun _ op => op.Static S) registry g :=
  hg.mono fun _ _ hop => hop.static

theorem Op.Static.from {S : Set Event} {op : Op} (h : op.Static S) : op.From S := by
  cases op with
  | insert _ _ => exact h
  | addMember _ _ _ => trivial
  | prune _ => trivial

/-- What the rows and branches of a graph show of the events inserted so far, `past`, some of them
pruned since. -/
structure Charted (H : Hasher) (S : Set Event) (past : Finset EventHash) (g : Hashgraph) :
    Prop where
  /-- No member counts as a forker. -/
  unflagged : ∀ i, g.flagged i = false
  branch : ∀ {c p f}, g.canonicalChild c p = some f →
    ∃ e ∈ S, H e = .ok f ∧ e.creator = c ∧ e.selfParent = p
  stored : ∀ {x}, (g.get? x).isSome → x ∈ past
  /-- The past is closed under parents, and its parent links have no cycle. -/
  ranked : ∃ rank : EventHash → ℕ, ∀ e ∈ S, ∀ x ∈ past, H e = .ok x →
    ∀ p ∈ e.parents, p ∈ past ∧ rank p < rank x
  /-- The entries of a row are numbers of events the row's event stems from. -/
  row : ∀ {w r c i}, g.get? w = some r → g.memberIndexOf c = some i →
    EventRecord.slot r i ≠ 0 → ∃ e z, H e = .ok z ∧ e.creator = c ∧
      Numbered H S e (EventRecord.slot r i) ∧ Stems H S w z

section Charted

variable {H : Hasher} {S : Set Event} {past : Finset EventHash} {registry : MembershipRegistry}
  {g g' : Hashgraph} {hash x y : EventHash} {event : Event} {r : EventRecord} {i : ℕ}

theorem charted_new (registry : MembershipRegistry) : (Hashgraph.new registry).Charted H S ∅ := by
  refine ⟨fun i => ?_, fun {c p f} hf => ?_, fun {x} hx => ?_, ⟨fun _ => 0, fun _ _ x hx => ?_⟩,
    fun {w r c i} hw => ?_⟩
  · rw [flagged, Hashgraph.new, List.getElem?_replicate]
    split <;> rfl
  · rw [canonicalChild, show (Hashgraph.new registry).firstChild = ∅ from rfl,
      ExtTreeMap.getElem?_empty] at hf
    cases hf
  · rw [get?_new] at hx
    cases hx
  · exact absurd hx (Finset.notMem_empty x)
  · rw [get?_new] at hw
    cases hw

theorem Charted.past_of_stems (h : g.Charted H S past) (hx : x ∈ past) (hstems : Stems H S x y) :
    y ∈ past := by
  obtain ⟨rank, hrank⟩ := h.ranked
  induction hstems with
  | refl => exact hx
  | tail _ hlink ih =>
    obtain ⟨e, he, ha, hp⟩ := hlink
    exact (hrank e he _ ih ha _ hp).1

section Place

variable (h : g.Charted H S past) (hfree : H.CollisionFree S) (hforks : ForkFree S)
  (hs : g.Sound H S) (hevent : event ∈ S) (hhash : H event = .ok hash)
  (hc : g.Checked hash event i)

include h hforks hevent hhash in
theorem Charted.canonicalChild_cases :
    g.canonicalChild event.creator event.selfParent = none ∨
      g.canonicalChild event.creator event.selfParent = some hash := by
  cases hchild : g.canonicalChild event.creator event.selfParent with
  | none => exact .inl rfl
  | some f =>
    obtain ⟨e, he, hf, hcreator, hself⟩ := h.branch hchild
    obtain rfl := hforks e he event hevent hcreator hself
    rw [hhash, Except.ok.injEq] at hf
    exact .inr (congrArg some hf.symm)

include h hfree hevent hhash hc in
theorem Charted.ranked_place :
    ∃ rank : EventHash → ℕ, ∀ e ∈ S, ∀ x ∈ past ∪ {hash}, H e = .ok x →
      ∀ p ∈ e.parents, p ∈ past ∪ {hash} ∧ rank p < rank x := by
  obtain ⟨rank, hrank⟩ := h.ranked
  by_cases hpast : hash ∈ past
  · rw [Finset.union_eq_left.mpr (Finset.singleton_subset_iff.mpr hpast)]
    exact ⟨rank, hrank⟩
  · refine ⟨Function.update rank hash ((event.parents.map rank).max?.getD 0 + 1),
      fun e he x hx hex p hp => ?_⟩
    have hold (q : EventHash) (hq : q ∈ past) : q ≠ hash := fun heq => hpast (heq ▸ hq)
    rcases Finset.mem_union.mp hx with hx | hx
    · obtain ⟨hppast, hlt⟩ := hrank e he x hx hex p hp
      refine ⟨Finset.mem_union_left _ hppast, ?_⟩
      rwa [Function.update_of_ne (hold p hppast), Function.update_of_ne (hold x hx)]
    · obtain rfl := Finset.mem_singleton.mp hx
      obtain rfl := hfree e he event hevent x hex hhash
      have hppast := h.stored (hc.parents p hp)
      refine ⟨Finset.mem_union_left _ hppast, ?_⟩
      rw [Function.update_self, Function.update_of_ne (hold p hppast)]
      exact Nat.lt_succ_of_le (List.le_max?_getD_of_mem (List.mem_map_of_mem hp))

/-- The row of a new event. -/
theorem Consistent.slot_newRecord (hg : g.Consistent) (hc : g.Checked hash event i) (b : Bool)
    (j : ℕ) :
    EventRecord.slot (g.newRecord event i b) j = if i = j then g.newSeq event
      else max ((g.selfRecord event).elim 0 (EventRecord.slot · j))
        ((g.otherRecord event).elim 0 (EventRecord.slot · j)) := by
  have hi : i < (g.joinedRow event).length := by
    rw [hg.length_joinedRow]
    exact hg.index_lt hc.member
  rw [EventRecord.slot, newRecord, recordAt, List.getElem?_set, ← hg.getD_joinedRow]
  split
  · rename_i heq
    subst heq
    rfl
  · rfl

include h hs hevent hhash hc in
theorem Charted.row_place (hcolumns : ∀ {c c' i}, g.memberIndexOf c = some i →
      g.memberIndexOf c' = some i → c = c') (b : Bool) {c : NodeId} {j : ℕ}
    (hj : g.memberIndexOf c = some j)
    (hslot : EventRecord.slot (g.newRecord event i b) j ≠ 0) :
    ∃ e z, H e = .ok z ∧ e.creator = c ∧
      Numbered H S e (EventRecord.slot (g.newRecord event i b) j) ∧ Stems H S hash z := by
  have hlink {p : EventHash} (hp : p ∈ event.parents) {z : EventHash} (hz : Stems H S p z) :
      Stems H S hash z := .head ⟨event, hevent, hhash, hp⟩ hz
  rw [hs.wf.toConsistent.slot_newRecord hc] at hslot ⊢
  split
  · rename_i heq
    subst heq
    exact ⟨event, hash, hhash, hcolumns hc.member hj, hs.numbered_new hevent hc, .refl⟩
  · rename_i hne
    rw [if_neg hne] at hslot
    -- The larger entry is the one of a parent.
    rcases max_choice ((g.selfRecord event).elim 0 (EventRecord.slot · j))
      ((g.otherRecord event).elim 0 (EventRecord.slot · j)) with hmax | hmax
    · rw [hmax] at hslot ⊢
      cases hself : g.selfRecord event with
      | none =>
        rw [hself] at hslot
        exact absurd rfl hslot
      | some rp =>
        rw [hself] at hslot
        obtain ⟨p, hp, hrp⟩ := exists_selfParent_of_selfRecord hself
        obtain ⟨e, z, hz, hcreator, hnum, hstems⟩ := h.row hrp hj hslot
        exact ⟨e, z, hz, hcreator, hnum, hlink (Event.mem_parents.mpr (.inl hp)) hstems⟩
    · rw [hmax] at hslot ⊢
      cases hother : g.otherRecord event with
      | none =>
        rw [hother] at hslot
        exact absurd rfl hslot
      | some rp =>
        rw [hother] at hslot
        obtain ⟨p, hp, hrp⟩ := exists_otherParent_of_otherRecord hother
        obtain ⟨e, z, hz, hcreator, hnum, hstems⟩ := h.row hrp hj hslot
        exact ⟨e, z, hz, hcreator, hnum, hlink (Event.mem_parents.mpr (.inr hp)) hstems⟩

include h hfree hforks hs hevent hhash hc in
theorem Charted.place (hcolumns : ∀ {c c' i}, g.memberIndexOf c = some i →
      g.memberIndexOf c' = some i → c = c') (b : Bool) :
    (g.place hash event i b).Charted H S (past ∪ {hash}) where
  unflagged j := by
    have hi : i < g.knownForkers.length := by
      rw [hs.wf.forkers_length]
      exact hs.wf.index_lt hc.member
    rw [flagged_place hi, h.unflagged, Bool.false_or]
    rcases h.canonicalChild_cases hforks hevent hhash with hchild | hchild
    · simp [hchild]
    · simp [hchild]
  branch {c p f} hf := by
    rw [canonicalChild_place] at hf
    split at hf
    · rename_i hcond
      obtain ⟨rfl, rfl⟩ := Prod.mk.inj hcond.1
      obtain rfl := Option.some.inj hf
      exact ⟨event, hevent, hhash, rfl, rfl⟩
    · exact h.branch hf
  stored {x} hx := by
    rw [Finset.mem_union, Finset.mem_singleton]
    by_cases hxh : x = hash
    · exact .inr hxh
    · rw [get?_place, if_neg hxh] at hx
      exact .inl (h.stored hx)
  ranked := h.ranked_place hfree hevent hhash hc
  row {w r c j} hw hj hslot := by
    rw [memberIndexOf, memberIndex_place] at hj
    rcases get?_place_cases hw with ⟨rfl, rfl⟩ | hw
    · exact h.row_place hs hevent hhash hc hcolumns b hj hslot
    · exact h.row hw hj hslot

end Place

theorem Charted.of_skeleton_eq (hskel : g'.skeleton = g.skeleton) (h : g.Charted H S past) :
    g'.Charted H S past where
  unflagged j := by
    rw [flagged, show g'.knownForkers = g.knownForkers from (congrArg knownForkers hskel :)]
    exact h.unflagged j
  branch {c p f} hf := by
    rw [canonicalChild, show g'.firstChild = g.firstChild from
      (congrArg firstChild hskel :)] at hf
    exact h.branch hf
  stored {x} hx := h.stored (isSome_get?_of_skeleton_eq hskel x ▸ hx)
  ranked := h.ranked
  row {w r c j} hw hj hslot := by
    obtain ⟨r', hr', hbare⟩ := get?_of_skeleton_eq hskel hw
    have hrow : EventRecord.slot r j = EventRecord.slot r' j :=
      (congrArg (EventRecord.slot · j) hbare.symm :)
    rw [memberIndexOf, show g'.memberIndex = g.memberIndex from
      (congrArg memberIndex hskel :)] at hj
    rw [hrow] at hslot ⊢
    exact h.row hr' hj hslot

theorem Charted.pruned {threshold : ℕ} {gone : Finset EventHash} (h : g.Charted H S past)
    (hpruned : Pruned g g' threshold gone) : g'.Charted H S past where
  unflagged j := by
    rw [flagged, hpruned.knownForkers_eq]
    exact h.unflagged j
  branch hf := h.branch (hpruned.child_sub hf)
  stored {x} hx := by
    obtain ⟨r, hr⟩ := Option.isSome_iff_exists.mp hx
    exact h.stored (Option.isSome_of_eq_some (hpruned.get?_iff.mp hr).1)
  ranked := h.ranked
  row hw hj hslot := by
    rw [memberIndexOf, hpruned.memberIndex_eq] at hj
    exact h.row (hpruned.get?_iff.mp hw).1 hj hslot

/-- An event stems from the events its row reaches. -/
theorem Charted.stems_of_le (h : g.Charted H S past) (hforks : ForkFree S) (hs : g.Sound H S)
    {w : EventHash} {rw : EventRecord} {j : ℕ} (hw : g.get? w = some rw) (hx : g.get? x = some r)
    (hj : g.memberIndexOf r.event.creator = some j) (hle : r.seq ≤ EventRecord.slot rw j) :
    Stems H S w x := by
  have hpos := hs.wf.seq_pos hx
  obtain ⟨e, z, hz, hcreator, hnum, hstems⟩ := h.row hw hj (by omega)
  have hnumx := (hs.numbered hx).2
  exact hstems.trans (hnum.stems hforks hnumx hcreator.symm hle hz (hs.numbered hx).1)

/-- Where no fork is known, an event stems from what it sees. -/
theorem Charted.stems_of_sees (h : g.Charted H S past) (hforks : ForkFree S) (hs : g.Sound H S)
    {w : EventHash} {rw : EventRecord} (hw : g.get? w = some rw) (hx : g.get? x = some r)
    (hsees : g.sees w x = true) : Stems H S w x := by
  obtain ⟨j, hj⟩ := hs.wf.member hx
  rw [hs.wf.toConsistent.sees_unforked h.unflagged hw hx hj, Bool.or_eq_true] at hsees
  rcases hsees with hsame | hle
  · exact of_decide_eq_true hsame ▸ .refl
  · exact h.stems_of_le hforks hs hw hx hj (of_decide_eq_true hle)

end Charted

/-- What a graph shows of the events inserted so far, `past`, some of them pruned since. -/
structure Traced (H : Hasher) (S : Set Event) (past : Finset EventHash) (g : Hashgraph) :
    Prop where
  /-- No member counts as a forker. -/
  unflagged : ∀ i, g.flagged i = false
  branch : ∀ {c p f}, g.canonicalChild c p = some f →
    ∃ e ∈ S, H e = .ok f ∧ e.creator = c ∧ e.selfParent = p
  stored : ∀ {x}, (g.get? x).isSome → x ∈ past
  /-- Every event of the past is at most as new as the newest one of its creator. -/
  dated : ∀ x ∈ past, ∃ e n z rz, H e = .ok x ∧ Numbered H S e n ∧
    g.latestEventBy e.creator = some z ∧ g.get? z = some rz ∧ n ≤ rz.seq
  /-- The past is closed under parents, and its parent links have no cycle. -/
  ranked : ∃ rank : EventHash → ℕ, ∀ e ∈ S, ∀ x ∈ past, H e = .ok x →
    ∀ p ∈ e.parents, p ∈ past ∧ rank p < rank x
  /-- The entries of a row are numbers of events the row's event stems from. -/
  row : ∀ {w r c i}, g.get? w = some r → g.memberIndexOf c = some i →
    EventRecord.slot r i ≠ 0 → ∃ e z, H e = .ok z ∧ e.creator = c ∧
      Numbered H S e (EventRecord.slot r i) ∧ Stems H S w z
  /-- An event is of no lower round than the newest events it stems from. -/
  above : ∀ {c x rx y ry}, g.latestEventBy c = some x → g.get? x = some rx →
    g.get? y = some ry → Stems H S y x → rx.round ≤ ry.round

section Traced

variable {H : Hasher} {S : Set Event} {past : Finset EventHash} {registry : MembershipRegistry}
  {g g' : Hashgraph} {hash x y : EventHash} {event : Event} {ry : EventRecord} {i : ℕ}

theorem traced_new (registry : MembershipRegistry) : (Hashgraph.new registry).Traced H S ∅ := by
  have hcharted := charted_new (H := H) (S := S) registry
  refine ⟨hcharted.unflagged, hcharted.branch, hcharted.stored,
    fun x hx => absurd hx (Finset.notMem_empty x), hcharted.ranked, hcharted.row, fun _ hx => ?_⟩
  rw [get?_new] at hx
  cases hx

theorem Traced.charted (h : g.Traced H S past) : g.Charted H S past :=
  ⟨h.unflagged, h.branch, h.stored, h.ranked, h.row⟩

/-- The events of the past are told by creator and number. -/
theorem Traced.newSeq_le (h : g.Traced H S past) (hfree : H.CollisionFree S) (hs : g.Sound H S)
    (hevent : event ∈ S) (hhash : H event = .ok hash) (hc : g.Checked hash event i)
    (hpast : hash ∈ past) : ∃ z rz, g.latestEventBy event.creator = some z ∧
      g.get? z = some rz ∧ g.newSeq event ≤ rz.seq := by
  obtain ⟨e, n, z, rz, he, hnum, hz, hrz, hle⟩ := h.dated hash hpast
  obtain rfl := hfree e hnum.mem event hevent hash he hhash
  exact ⟨z, rz, hz, hrz, (hs.numbered_new hevent hc).unique hfree hnum ▸ hle⟩

/-! ## One more event -/

section Place

variable (h : g.Traced H S past) (hfree : H.CollisionFree S) (hforks : ForkFree S)
  (hs : g.Sound H S) (hevent : event ∈ S) (hhash : H event = .ok hash)
  (hc : g.Checked hash event i)

/-- The newest event of a creator after an insertion: the old one, or the new event if it is
newer than all of the past. -/
theorem latestEventBy_place_cases {b : Bool} {c : NodeId} {z : EventHash}
    (hz : (g.place hash event i b).latestEventBy c = some z) :
    (z = hash ∧ c = event.creator ∧ ∀ z' rz', g.latestEventBy c = some z' →
      g.get? z' = some rz' → rz'.seq < g.newSeq event) ∨ g.latestEventBy c = some z := by
  rw [latestEventBy_place] at hz
  split at hz
  · rename_i hcond
    obtain ⟨rfl, hall⟩ := hcond
    refine .inl ⟨(Option.some.inj hz).symm, rfl, fun z' rz' hz' hrz' => ?_⟩
    simpa [hz', hrz'] using hall
  · exact .inr hz

/-- The creator of the new event has a newest event at least as new. -/
theorem exists_latest_place (hg : g.Consistent) (hc : g.Checked hash event i) (b : Bool) :
    ∃ z rz, (g.place hash event i b).latestEventBy event.creator = some z ∧
      (g.place hash event i b).get? z = some rz ∧ g.newSeq event ≤ rz.seq := by
  rw [latestEventBy_place]
  split
  · exact ⟨hash, _, rfl, get?_place_self, le_rfl⟩
  · rename_i hcond
    cases hz : g.latestEventBy event.creator with
    | none => exact absurd ⟨rfl, by rw [hz]; rfl⟩ hcond
    | some z =>
      obtain ⟨rz, hrz, -⟩ := hg.latest hz
      refine ⟨z, rz, rfl, hc.get?_place_of_some b hrz, ?_⟩
      by_contra hlt
      refine hcond ⟨rfl, ?_⟩
      rw [hz, Option.all_some, hrz]
      exact decide_eq_true (Nat.lt_of_not_le hlt)

include h hs hevent hhash hc in
theorem Traced.dated_place (b : Bool) : ∀ x ∈ past ∪ {hash}, ∃ e n z rz, H e = .ok x ∧
    Numbered H S e n ∧ (g.place hash event i b).latestEventBy e.creator = some z ∧
      (g.place hash event i b).get? z = some rz ∧ n ≤ rz.seq := by
  intro x hx
  obtain ⟨z', rz', hz', hrz', hle'⟩ := exists_latest_place hs.wf.toConsistent hc b
  rcases Finset.mem_union.mp hx with hx | hx
  · obtain ⟨e, n, z, rz, he, hnum, hz, hrz, hle⟩ := h.dated x hx
    by_cases hsame : (g.place hash event i b).latestEventBy e.creator = some z
    · exact ⟨e, n, z, rz, he, hnum, hsame, hc.get?_place_of_some b hrz, hle⟩
    · -- The newest event of the creator was replaced by a newer one.
      rw [latestEventBy_place] at hsame
      split at hsame
      · rename_i hcond
        obtain ⟨hcreator, hall⟩ := hcond
        have hlt : rz.seq < g.newSeq event := by simpa [hcreator, hz, hrz] using hall
        exact ⟨e, n, z', rz', he, hnum, hcreator ▸ hz', hrz', by omega⟩
      · exact absurd hz hsame
  · obtain rfl := Finset.mem_singleton.mp hx
    exact ⟨event, g.newSeq event, z', rz', hhash, hs.numbered_new hevent hc, hz', hrz', hle'⟩

theorem round_le_newBase {p : EventHash} {rp : EventRecord} (hp : p ∈ event.parents)
    (hrp : g.get? p = some rp) : rp.round ≤ g.newBase event := by
  rw [newBase]
  rcases Event.mem_parents.mp hp with hself | hother
  · rw [show g.selfRecord event = some rp by rw [selfRecord, hself, Option.bind_some, hrp]]
    cases g.otherRecord event with
    | none => exact le_rfl
    | some ro => exact le_max_left _ _
  · rw [show g.otherRecord event = some rp by rw [otherRecord, hother, Option.bind_some, hrp]]
    cases g.selfRecord event with
    | none => exact le_rfl
    | some rs => exact le_max_right _ _

include h hfree hs hevent hhash hc in
theorem Traced.above_place (b : Bool) {c : NodeId} {x y : EventHash} {rx ry : EventRecord}
    (hx : (g.place hash event i b).latestEventBy c = some x)
    (hrx : (g.place hash event i b).get? x = some rx)
    (hry : (g.place hash event i b).get? y = some ry) (hstems : Stems H S y x) :
    rx.round ≤ ry.round := by
  rcases get?_place_cases hry with ⟨rfl, rfl⟩ | hry'
  · rcases get?_place_cases hrx with ⟨-, rfl⟩ | hrx'
    · exact le_rfl
    · -- The newest event is below a parent of the new one.
      rcases latestEventBy_place_cases hx with ⟨rfl, -, -⟩ | hold
      · rw [hc.fresh] at hrx'
        cases hrx'
      · rcases hstems.cases hfree hevent hhash with rfl | ⟨p, hp, hstems⟩
        · rw [hc.fresh] at hrx'
          cases hrx'
        · obtain ⟨rp, hrp⟩ := Option.isSome_iff_exists.mp (hc.parents p hp)
          calc rx.round ≤ rp.round := h.above hold hrx' hrp hstems
            _ ≤ g.newBase event := round_le_newBase hp hrp
            _ ≤ _ := newBase_le_newRound g event b
  · rcases latestEventBy_place_cases hx with ⟨rfl, rfl, hnewer⟩ | hold
    · -- Nothing stored stems from an event that is newer than the past.
      have hpast := h.charted.past_of_stems (h.stored (Option.isSome_of_eq_some hry')) hstems
      obtain ⟨z, rz, hz, hrz, hle⟩ := h.newSeq_le hfree hs hevent hhash hc hpast
      have := hnewer z rz hz hrz
      omega
    · rcases get?_place_cases hrx with ⟨rfl, -⟩ | hrx
      · obtain ⟨rz, hrz, -⟩ := hs.wf.latest hold
        rw [hc.fresh] at hrz
        cases hrz
      · exact h.above hold hrx hry' hstems

include h hfree hforks hs hevent hhash hc in
theorem Traced.place (hcolumns : ∀ {c c' i}, g.memberIndexOf c = some i →
      g.memberIndexOf c' = some i → c = c') (b : Bool) :
    (g.place hash event i b).Traced H S (past ∪ {hash}) where
  unflagged := (h.charted.place hfree hforks hs hevent hhash hc hcolumns b).unflagged
  branch := (h.charted.place hfree hforks hs hevent hhash hc hcolumns b).branch
  stored := (h.charted.place hfree hforks hs hevent hhash hc hcolumns b).stored
  dated := h.dated_place hs hevent hhash hc b
  ranked := (h.charted.place hfree hforks hs hevent hhash hc hcolumns b).ranked
  row := (h.charted.place hfree hforks hs hevent hhash hc hcolumns b).row
  above := h.above_place hfree hs hevent hhash hc b

end Place

/-! ## Voting, ordering and pruning -/

theorem latestEventBy_of_skeleton_eq (h : g'.skeleton = g.skeleton) (c : NodeId) :
    g'.latestEventBy c = g.latestEventBy c := by
  rw [latestEventBy, show g'.latestByCreator = g.latestByCreator from
    (congrArg latestByCreator h :), latestEventBy]

theorem Traced.of_skeleton_eq (hskel : g'.skeleton = g.skeleton) (h : g.Traced H S past) :
    g'.Traced H S past where
  unflagged := (h.charted.of_skeleton_eq hskel).unflagged
  branch := (h.charted.of_skeleton_eq hskel).branch
  stored := (h.charted.of_skeleton_eq hskel).stored
  dated x hx := by
    obtain ⟨e, n, z, rz, he, hnum, hz, hrz, hle⟩ := h.dated x hx
    obtain ⟨rz', hrz', hbare⟩ := get?_of_skeleton_eq hskel.symm hrz
    refine ⟨e, n, z, rz', he, hnum, (latestEventBy_of_skeleton_eq hskel _).trans hz, hrz', ?_⟩
    rw [show rz'.seq = rz.seq from (congrArg EventRecord.seq hbare :)]
    exact hle
  ranked := h.ranked
  row := (h.charted.of_skeleton_eq hskel).row
  above {c x rx y ry} hx hrx hry hstems := by
    obtain ⟨rx', hrx', hbare⟩ := get?_of_skeleton_eq hskel hrx
    obtain ⟨ry', hry', hbare'⟩ := get?_of_skeleton_eq hskel hry
    have hle := h.above (latestEventBy_of_skeleton_eq hskel c ▸ hx) hrx' hry' hstems
    rwa [show rx'.round = rx.round from (congrArg EventRecord.round hbare :),
      show ry'.round = ry.round from (congrArg EventRecord.round hbare' :)] at hle

/-- Pruning that leaves the newest events alone. -/
theorem Traced.pruned {threshold : ℕ} {gone : Finset EventHash} (h : g.Traced H S past)
    (hpruned : Pruned g g' threshold gone) (hkept : ∀ c x, g.latestEventBy c = some x → x ∉ gone) :
    g'.Traced H S past where
  unflagged := (h.charted.pruned hpruned).unflagged
  branch := (h.charted.pruned hpruned).branch
  stored := (h.charted.pruned hpruned).stored
  dated x hx := by
    obtain ⟨e, n, z, rz, he, hnum, hz, hrz, hle⟩ := h.dated x hx
    have hz' := hkept _ z hz
    exact ⟨e, n, z, rz, he, hnum, hpruned.latest_kept hz hz', hpruned.get?_iff.mpr ⟨hrz, hz'⟩, hle⟩
  ranked := h.ranked
  row := (h.charted.pruned hpruned).row
  above {c x rx y ry} hx hrx hry hstems := by
    have hold : g.latestEventBy c = some x := by
      cases hz : g.latestEventBy c with
      | none =>
        rw [hpruned.latest_none hz] at hx
        cases hx
      | some z => exact (hpruned.latest_kept hz (hkept c z hz)).symm.trans hx
    exact h.above hold (hpruned.get?_iff.mp hrx).1 (hpruned.get?_iff.mp hry).1 hstems

end Traced

/-! ## Runs of insertions and prunings -/

/-- The rounds a graph has decided are behind the newest events of all members, and those are not
received yet. -/
structure Ripe (registry : MembershipRegistry) (g : Hashgraph) : Prop where
  ahead : ∀ {n}, g.isRoundDecided n = true → ∀ c ∈ registry.memberIds,
    ∃ z rz, g.latestEventBy c = some z ∧ g.get? z = some rz ∧ n < rz.round
  pending : ∀ {c x}, g.latestEventBy c = some x → g.roundReceived x = none

section Ripe

variable {H : Hasher} {S : Set Event} {past : Finset EventHash} {registry : MembershipRegistry}
  {g g' : Hashgraph} {hash x : EventHash} {event : Event} {r : EventRecord} {i : ℕ}

theorem FixedRegistry.static {op : Op} (h : op.Effect H g g') (hop : op.Static S)
    (hg : FixedRegistry registry g) : FixedRegistry registry g' := by
  cases op with
  | insert iter event => exact hg.effect h hop
  | addMember _ _ _ => exact hop.elim
  | prune threshold =>
    cases h with
    | none hsame => exact hsame ▸ hg
    | prune _ hpruned =>
      refine ⟨hpruned.memberIndex_eq.trans hg.memberIndex_eq,
        hpruned.memberCount_eq.trans hg.memberCount_eq, ?_⟩
      rw [hpruned.roster_eq, hg.rosterHistory_eq, RosterHistory.pruneBefore_new]

theorem FixedRegistry.columns (hfix : FixedRegistry registry g) {c c' : NodeId} {j : ℕ}
    (hc : g.memberIndexOf c = some j) (hc' : g.memberIndexOf c' = some j) : c = c' := by
  rw [memberIndexOf, hfix.memberIndex_eq] at hc hc'
  exact (whole_new registry).columns hc hc'

theorem FixedRegistry.mem_memberIds (hfix : FixedRegistry registry g) (hwf : g.WellFormed)
    {c : NodeId} (hx : g.latestEventBy c = some x) : c ∈ registry.memberIds := by
  obtain ⟨r, hr, rfl⟩ := hwf.latest hx
  obtain ⟨j, hj⟩ := hwf.member hr
  rw [memberIndexOf, hfix.memberIndex_eq] at hj
  exact List.mem_of_getElem? (memberIndexOf_new.mp hj)

theorem FixedRegistry.viewComplete_iff (hfix : FixedRegistry registry g) {n : ℕ} (hn : 1 ≤ n) :
    g.viewComplete n = true ↔ ∀ c ∈ registry.memberIds,
      ∃ z rz, g.latestEventBy c = some z ∧ g.get? z = some rz ∧ n < rz.round := by
  have hroster : g.rosterForRound n = .ok registry := by
    rw [rosterForRound, hfix.rosterHistory_eq, RosterHistory.activeAt_new _ hn]
  have hany (c : NodeId) : ((g.latestEventBy c).bind g.get?).any
      (fun record => decide (record.round > n)) = true ↔
        ∃ z rz, g.latestEventBy c = some z ∧ g.get? z = some rz ∧ n < rz.round := by
    simp only [Option.any_eq_true, Option.bind_eq_some_iff, decide_eq_true_eq]
    constructor
    · rintro ⟨rz, ⟨z, hz, hrz⟩, hlt⟩
      exact ⟨z, rz, hz, hrz, hlt⟩
    · rintro ⟨z, rz, hz, hrz, hlt⟩
      exact ⟨rz, ⟨z, hz, hrz⟩, hlt⟩
  rw [viewComplete, roundViewComplete, hroster]
  exact List.all_eq_true.trans (forall₂_congr fun c _ => hany c)

/-- A new event of a higher number than its creator's newest one is of no lower round. -/
theorem Traced.round_le_newBase (h : g.Traced H S past) (hfree : H.CollisionFree S)
    (hforks : ForkFree S) (hs : g.Sound H S) (hevent : event ∈ S) (hhash : H event = .ok hash)
    (hc : g.Checked hash event i) {z : EventHash} {rz : EventRecord}
    (hz : g.latestEventBy event.creator = some z) (hrz : g.get? z = some rz)
    (hlt : rz.seq < g.newSeq event) : rz.round ≤ g.newBase event := by
  obtain ⟨r, hr, hcreator⟩ := hs.wf.latest hz
  obtain rfl := Option.some.inj (hrz.symm.trans hr)
  have hstems := (hs.numbered_new hevent hc).stems hforks (hs.numbered hrz).2 hcreator hlt.le
    hhash (hs.numbered hrz).1
  rcases hstems.cases hfree hevent hhash with rfl | ⟨p, hp, hstems⟩
  · rw [hc.fresh] at hrz
    cases hrz
  · obtain ⟨rp, hrp⟩ := Option.isSome_iff_exists.mp (hc.parents p hp)
    calc rz.round ≤ rp.round := h.above hz hrz hrp hstems
      _ ≤ g.newBase event := Hashgraph.round_le_newBase hp hrp

/-- The newest event after an insertion is of no lower round than the newest one before. -/
theorem Traced.round_le_place (h : g.Traced H S past) (hfree : H.CollisionFree S)
    (hforks : ForkFree S) (hs : g.Sound H S) (hevent : event ∈ S) (hhash : H event = .ok hash)
    (hc : g.Checked hash event i) (b : Bool) {c : NodeId} {z : EventHash} {rz : EventRecord}
    (hz : g.latestEventBy c = some z) (hrz : g.get? z = some rz) :
    ∃ z' rz', (g.place hash event i b).latestEventBy c = some z' ∧
      (g.place hash event i b).get? z' = some rz' ∧ rz.round ≤ rz'.round := by
  rw [latestEventBy_place]
  split
  · rename_i hcond
    obtain ⟨rfl, hall⟩ := hcond
    have hlt : rz.seq < g.newSeq event := by simpa [hz, hrz] using hall
    exact ⟨hash, _, rfl, get?_place_self,
      (h.round_le_newBase hfree hforks hs hevent hhash hc hz hrz hlt).trans
        (newBase_le_newRound g event b)⟩
  · exact ⟨z, rz, hz, hc.get?_place_of_some b hrz, le_rfl⟩

/-- An insertion keeps the newest events ahead of the decided rounds. -/
theorem Inserted.ahead (hinserted : g.Inserted hash event i g') (h : g.Traced H S past)
    (hfree : H.CollisionFree S) (hforks : ForkFree S) (hs : g.Sound H S) (hevent : event ∈ S)
    (hhash : H event = .ok hash) (hc : g.Checked hash event i) (hfix : FixedRegistry registry g')
    (hripe : g.Ripe registry) {n : ℕ} (hn : g'.isRoundDecided n = true) {c : NodeId}
    (hmem : c ∈ registry.memberIds) :
    ∃ z rz, g'.latestEventBy c = some z ∧ g'.get? z = some rz ∧ n < rz.round := by
  have hskel := hinserted.advances.skeleton_eq
  rcases hinserted.advances.closed hn with hold | hclosable
  · rw [isRoundDecided, placed, fullyDecidedRounds_place, ← isRoundDecided] at hold
    obtain ⟨z, rz, hz, hrz, hlt⟩ := hripe.ahead hold c hmem
    obtain ⟨z', rz', hz', hrz', hle⟩ :=
      h.round_le_place hfree hforks hs hevent hhash hc (g.bumps hash event i) hz hrz
    obtain ⟨r', hr', hbare⟩ := get?_of_skeleton_eq hskel.symm hrz'
    refine ⟨z', r', (latestEventBy_of_skeleton_eq hskel c).trans hz', hr', ?_⟩
    rw [show r'.round = rz'.round from (congrArg EventRecord.round hbare :)]
    omega
  · exact (hfix.viewComplete_iff (Nat.one_le_iff_ne_zero.mpr hclosable.1)).mp hclosable.2.2 c hmem

/-- An insertion receives a newest event only in rounds from its own on: a witness of the round it
is received in descends from it. -/
theorem Inserted.round_le_of_received (hinserted : g.Inserted hash event i g')
    (h : g'.Traced H S past) (hforks : ForkFree S) (hs : g'.Sound H S) {c : NodeId} {n : ℕ}
    (hx : g'.latestEventBy c = some x) (hr : g'.get? x = some r)
    (hn : g'.roundReceived x = some n) (hnew : (g.placed hash event i).roundReceived x ≠ some n) :
    r.round ≤ n := by
  have hskel := hinserted.advances.skeleton_eq
  obtain ⟨w, hw, hsees⟩ := (hinserted.advances.seen hn).resolve_left hnew
  rw [← witnessesOfRound_of_skeleton_eq hskel] at hw
  rw [← sees_skeleton, ← hskel, sees_skeleton] at hsees
  obtain ⟨rw', hrw, rfl, -⟩ := hs.wf.witness_sound hw
  exact h.above hx hr hrw (h.charted.stems_of_sees hforks hs hrw hr hsees)

/-- A newest event is not received: the round would be decided, and so behind the event. -/
theorem Inserted.ripe (hinserted : g.Inserted hash event i g') (h : g.Traced H S past)
    (hfree : H.CollisionFree S) (hforks : ForkFree S) (hs : g.Sound H S) (hevent : event ∈ S)
    (hhash : H event = .ok hash) (hc : g.Checked hash event i) (hfix' : FixedRegistry registry g')
    (htraced : g'.Traced H S (past ∪ {hash})) (hripe : g.Ripe registry) : g'.Ripe registry := by
  have hs' := hinserted.sound hs hfree hevent hhash hc
  have hahead {n : ℕ} (hn : g'.isRoundDecided n = true) {c : NodeId}
      (hmem : c ∈ registry.memberIds) :=
    hinserted.ahead h hfree hforks hs hevent hhash hc hfix' hripe hn hmem
  refine ⟨fun hn c hmem => hahead hn hmem, fun {c x} hx => ?_⟩
  have hold : (g.placed hash event i).roundReceived x = none := by
    have hplaced := latestEventBy_of_skeleton_eq hinserted.advances.skeleton_eq c ▸ hx
    rw [show (g.placed hash event i).roundReceived x = g.roundReceived x from
      congrArg Prod.fst (orderOf_place hc.fresh x)]
    rcases latestEventBy_place_cases hplaced with ⟨rfl, -, -⟩ | hlatest
    · rw [roundReceived, hc.fresh]
      rfl
    · exact hripe.pending hlatest
  by_contra hsome
  obtain ⟨n, hn⟩ := Option.ne_none_iff_exists'.mp hsome
  obtain ⟨r, hr, rfl⟩ := hs'.wf.latest hx
  have hle := hinserted.round_le_of_received htraced hforks hs' hx hr hn (by simp [hold])
  -- The round was ordered by this insertion, so it is decided now.
  have hdecided : g'.isRoundDecided n = true := by
    have heffect : (Op.insert inOrder event).Effect H g g' := .insert hhash hc hinserted
    rcases heffect.received hn with hbefore | ⟨hge, hlt⟩
    · rw [show (g.placed hash event i).roundReceived x = g.roundReceived x from
        congrArg Prod.fst (orderOf_place hc.fresh x), hbefore] at hold
      cases hold
    · refine hinserted.advances.ordered_decided n ?_ hlt
      rw [placed, nextRoundToOrder_place]
      exact hge
  obtain ⟨z, rz, hz, hrz, hlt⟩ := hahead hdecided (hfix'.mem_memberIds hs'.wf hx)
  rw [hx] at hz
  obtain rfl := Option.some.inj hz
  rw [hr] at hrz
  obtain rfl := Option.some.inj hrz
  omega

/-- Pruning leaves what is not received. -/
theorem Ripe.not_mem_pruned {threshold : ℕ} (hripe : g.Ripe registry) {c : NodeId}
    (hx : g.latestEventBy c = some x) : x ∉ (g.prunedEvents threshold).toFinset := by
  rw [List.mem_toFinset, mem_prunedEvents]
  rintro ⟨⟨r, hr, hexpired⟩, -⟩
  have hnone := hripe.pending hx
  rw [roundReceived, hr, Option.bind_some] at hnone
  rw [expired, hnone] at hexpired
  cases hexpired

theorem Ripe.pruned {threshold : ℕ} {gone : Finset EventHash} (hripe : g.Ripe registry)
    (hpruned : Pruned g g' threshold gone) (hkept : ∀ c x, g.latestEventBy c = some x → x ∉ gone) :
    g'.Ripe registry where
  ahead {n} hn c hmem := by
    rw [isRoundDecided, hpruned.decided_eq] at hn
    obtain ⟨z, rz, hz, hrz, hlt⟩ := hripe.ahead hn c hmem
    have hz' := hkept c z hz
    exact ⟨z, rz, hpruned.latest_kept hz hz', hpruned.get?_iff.mpr ⟨hrz, hz'⟩, hlt⟩
  pending {c x} hx := by
    have hold : g.latestEventBy c = some x := by
      cases hz : g.latestEventBy c with
      | none =>
        rw [hpruned.latest_none hz] at hx
        cases hx
      | some z => exact (hpruned.latest_kept hz (hkept c z hz)).symm.trans hx
    have hnone := hripe.pending hold
    cases hr : g'.get? x with
    | none => rw [roundReceived, hr, Option.bind_none]
    | some r =>
      rw [roundReceived, (hpruned.get?_iff.mp hr).1] at hnone
      rw [roundReceived, hr]
      exact hnone

/-- What holds in every graph of a run of insertions and prunings over events without forks. -/
theorem Reached.traced (hfree : H.CollisionFree S) (hforks : ForkFree S)
    (h : Reached H (fun _ op => op.Static S) registry g) :
    FixedRegistry registry g ∧ g.Ripe registry ∧ ∃ past, g.Traced H S past := by
  refine h.invariant
    (I := fun g => FixedRegistry registry g ∧ g.Ripe registry ∧ ∃ past, g.Traced H S past)
    hfree (fun _ _ hop => hop.from)
    ⟨⟨rfl, rfl, rfl⟩, ⟨fun hn => ?_, fun hx => ?_⟩, ∅, traced_new registry⟩
    fun g g' op hs ⟨hfix, hripe, past, htraced⟩ hop heffect => ?_
  · cases hn
  · cases hx
  · have hfix' := hfix.static heffect hop
    cases heffect with
    | none hsame => exact hsame ▸ ⟨hfix, hripe, past, htraced⟩
    | @insert _ event hash i hhash hc hinserted =>
      have hplaced : (g.placed hash event i).Traced H S (past ∪ {hash}) :=
        htraced.place hfree hforks hs hop hhash hc (fun hj hj' => hfix.columns hj hj') _
      have htraced' := hplaced.of_skeleton_eq hinserted.advances.skeleton_eq
      exact ⟨hfix', hinserted.ripe htraced hfree hforks hs hop hhash hc hfix' htraced' hripe,
        _, htraced'⟩
    | addMember _ _ => exact hop.elim
    | @prune threshold _ hpruned =>
      have hkept (c : NodeId) (x : EventHash) (hx : g.latestEventBy c = some x) :
          x ∉ (g.prunedEvents threshold).toFinset := hripe.not_mem_pruned hx
      exact ⟨hfix', hripe.pruned hpruned hkept, past, htraced.pruned hpruned hkept⟩

end Ripe

end Hashgraph

end JKain
