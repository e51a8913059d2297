import JKain.Consensus.Intake
import JKain.Consensus.Lineage
import JKain.Gossip.Frontier

/-!
# What a delta holds and what it does to the requester

Over events without forks the walks of `delta_events` collect exactly the stored events above the
summary, or meet an event that was pruned. A parent of a collected event is collected as well or is
below the summary, and what is below the summary of a graph that was never pruned is stored there.
So the requester takes every event of the delta in.
-/

namespace JKain

open Std JKain.Lib

/-! ## The walks -/

section Walks

variable {H : Hasher} {S : Set Event} {g : Hashgraph} {c : NodeId}
  {collected collected' : ExtTreeMap EventHash Event}

/-- The number below which a summary is complete for a creator. -/
def frontierOf (known : List (NodeId × ℕ)) (c : NodeId) : ℕ := (knownSeq known)[c]?.getD 0

/-- What a walk for the creator `c`, from its number `n` down to `frontier`, adds. -/
structure Walked (g : Hashgraph) (c : NodeId) (frontier n : ℕ)
    (collected collected' : ExtTreeMap EventHash Event) : Prop where
  sound : ∀ {x e}, collected'[x]? = some e → collected[x]? = some e ∨
    ∃ r, g.get? x = some r ∧ r.event = e ∧ e.creator = c ∧ frontier < r.seq
  kept : ∀ {x}, x ∈ collected → x ∈ collected'
  complete : ∀ m, frontier < m → m ≤ n → ∃ x ∈ collected', g.IsEventAt c m x

theorem collectChain_walked (hs : g.Sound H S) {frontier fuel n : ℕ} {cursor : Option EventHash}
    (hcursor : ∀ hash r, cursor = some hash → g.get? hash = some r →
      r.event.creator = c ∧ r.seq = n) (hnone : cursor = none → n = 0)
    (h : collectChain g frontier fuel cursor collected = .ok collected') :
    Walked g c frontier n collected collected' := by
  induction fuel generalizing n cursor collected with
  | zero =>
    cases cursor with
    | none =>
      obtain rfl := Except.ok.inj h
      exact ⟨.inl, id, fun m hm hle => by have := hnone rfl; omega⟩
    | some hash => cases h
  | succ fuel ih =>
    cases cursor with
    | none =>
      obtain rfl := Except.ok.inj h
      exact ⟨.inl, id, fun m hm hle => by have := hnone rfl; omega⟩
    | some hash =>
      cases hget : g.get? hash with
      | none => simp [collectChain, hget] at h
      | some r =>
        obtain ⟨hcreator, rfl⟩ := hcursor hash r rfl hget
        by_cases hle : r.seq ≤ frontier
        · rw [collectChain, hget] at h
          simp only [if_pos hle, Except.ok.injEq] at h
          subst h
          exact ⟨.inl, id, fun m hm hle' => by omega⟩
        · rw [collectChain, hget] at h
          simp only [if_neg hle] at h
          -- The walk goes on from the self-parent, one number below.
          have hrest := ih (n := r.seq - 1) (fun p rp hp hrp => ?_) (fun hself => ?_) h
          · refine ⟨fun {x e} hx => ?_, fun {x} hx => hrest.kept ?_, fun m hm hle' => ?_⟩
            · rcases hrest.sound hx with hold | hnew
              · rw [ExtTreeMap.getElem?_insert] at hold
                split at hold
                · rename_i heq
                  obtain rfl := Std.compare_eq_iff_eq.mp heq
                  obtain rfl := Option.some.inj hold
                  exact .inr ⟨r, hget, rfl, hcreator, by omega⟩
                · exact .inl hold
              · exact .inr hnew
            · exact ExtTreeMap.mem_insert.mpr (.inr hx)
            · by_cases hm' : m ≤ r.seq - 1
              · exact hrest.complete m hm hm'
              · obtain rfl : m = r.seq := by omega
                exact ⟨hash, hrest.kept (ExtTreeMap.mem_insert.mpr (.inl (by simp))), r, hget,
                  hcreator, rfl⟩
          · have hself := hs.wf.self_parent hget hp hrp
            exact ⟨hself.2.trans hcreator, by omega⟩
          · have hnum := (hs.numbered hget).2
            generalize r.seq = k at hnum
            cases hnum with
            | root _ _ => rfl
            | child _ hp _ _ _ =>
              rw [hself] at hp
              cases hp

/-- What the walks for the given creators collect. -/
structure Collects (g : Hashgraph) (known : List (NodeId × ℕ)) (creators : List NodeId)
    (collected : ExtTreeMap EventHash Event) : Prop where
  sound : ∀ {x e}, collected[x]? = some e →
    ∃ r, g.get? x = some r ∧ r.event = e ∧ frontierOf known e.creator < r.seq
  complete : ∀ c ∈ creators, ∀ z rz, g.latestEventBy c = some z → g.get? z = some rz →
    ∀ m, frontierOf known c < m → m ≤ rz.seq → ∃ x ∈ collected, g.IsEventAt c m x

theorem collectCreator_walked (hs : g.Sound H S) {seqs : ExtTreeMap NodeId ℕ}
    (h : collectCreator g seqs collected c = .ok collected') :
    Walked g c (seqs[c]?.getD 0) (((g.latestEventBy c).bind g.get?).elim 0 (·.seq)) collected
      collected' := by
  refine collectChain_walked hs (fun hash r hhash hr => ?_) (fun hnone => ?_) h
  · obtain ⟨rz, hrz, hcreator⟩ := hs.wf.latest hhash
    obtain rfl := Option.some.inj (hr.symm.trans hrz)
    rw [hhash, Option.bind_some, hr]
    exact ⟨hcreator, rfl⟩
  · rw [hnone]
    rfl

theorem foldlM_collectCreator (hs : g.Sound H S) {known : List (NodeId × ℕ)}
    {before creators : List NodeId} (hbefore : Collects g known before collected)
    (h : creators.foldlM (collectCreator g (knownSeq known)) collected = .ok collected') :
    Collects g known (before ++ creators) collected' := by
  induction creators generalizing before collected with
  | nil =>
    obtain rfl := Except.ok.inj h
    rwa [List.append_nil]
  | cons c creators ih =>
    rw [List.foldlM_cons] at h
    cases hstep : collectCreator g (knownSeq known) collected c with
    | error e =>
      rw [hstep] at h
      cases h
    | ok next =>
      rw [hstep] at h
      have hwalked := collectCreator_walked hs hstep
      have hnext : Collects g known (before ++ [c]) next := by
        refine ⟨fun {x e} hx => ?_, fun c' hc' z rz hz hrz m hm hle => ?_⟩
        · rcases hwalked.sound hx with hold | ⟨r, hr, he, rfl, hlt⟩
          · exact hbefore.sound hold
          · exact ⟨r, hr, he, hlt⟩
        · rcases List.mem_append.mp hc' with hc' | hc'
          · obtain ⟨x, hx, hat⟩ := hbefore.complete c' hc' z rz hz hrz m hm hle
            exact ⟨x, hwalked.kept hx, hat⟩
          · obtain rfl := List.mem_singleton.mp hc'
            refine hwalked.complete m hm ?_
            rw [hz, Option.bind_some, hrz]
            exact hle
      rw [List.append_cons]
      exact ih hnext h

/-- The collected events of a delta. -/
theorem collectDelta_collects (hs : g.Sound H S) {known : List (NodeId × ℕ)}
    {registry : MembershipRegistry} {order : IterOrder}
    (h : collectDelta order g known registry = .ok collected) :
    Collects g known registry.memberIds collected := by
  have hnil : Collects g known [] ∅ := by
    refine ⟨fun {x e} hx => ?_, fun c hc => absurd hc List.not_mem_nil⟩
    rw [ExtTreeMap.getElem?_empty] at hx
    cases hx
  have hall := foldlM_collectCreator hs hnil h
  refine ⟨hall.sound, fun c hc => hall.complete c ?_⟩
  rw [List.nil_append, (order.perm _).mem_iff, deltaCreators, List.mem_dedup]
  exact List.mem_append_left _ hc

/-- A walk fails only where a self-parent of a stored event is gone. -/
def Dangling (g : Hashgraph) (error : DeltaError) : Prop :=
  ∃ y ry p, g.get? y = some ry ∧ ry.event.selfParent = some p ∧ g.get? p = none ∧
    error = .missing p

theorem collectChain_dangling (hg : g.Consistent) {frontier fuel : ℕ} {cursor : Option EventHash}
    {error : DeltaError} (hfuel : ∀ hash, cursor = some hash → 0 < fuel)
    (hstored : ∀ hash r, cursor = some hash → g.get? hash = some r → r.seq < fuel)
    (hgone : ∀ hash, cursor = some hash → g.get? hash = none →
      ∃ y ry, g.get? y = some ry ∧ ry.event.selfParent = some hash)
    (h : collectChain g frontier fuel cursor collected = .error error) : Dangling g error := by
  induction fuel generalizing cursor collected with
  | zero =>
    cases cursor with
    | none => cases h
    | some hash => exact absurd (hfuel hash rfl) (lt_irrefl 0)
  | succ fuel ih =>
    cases cursor with
    | none => cases h
    | some hash =>
      cases hget : g.get? hash with
      | none =>
        obtain ⟨y, ry, hry, hself⟩ := hgone hash rfl hget
        rw [collectChain, hget] at h
        exact ⟨y, ry, hash, hry, hself, hget, (Except.error.inj h).symm⟩
      | some r =>
        have hlt := hstored hash r rfl hget
        have hpos := hg.seq_pos hget
        rw [collectChain, hget] at h
        simp only at h
        split at h
        · cases h
        · refine ih (fun _ _ => by omega) (fun p rp hp hrp => ?_)
            (fun p hp _ => ⟨hash, r, hget, hp⟩) h
          have := (hg.self_parent hget hp hrp).1
          omega

theorem collectDelta_dangling (hg : g.Consistent) {order : IterOrder} {known : List (NodeId × ℕ)}
    {registry : MembershipRegistry} {error : DeltaError}
    (h : collectDelta order g known registry = .error error) : Dangling g error := by
  have hstep (collected : ExtTreeMap EventHash Event) (c : NodeId) {error : DeltaError}
      (h : collectCreator g (knownSeq known) collected c = .error error) : Dangling g error := by
    refine collectChain_dangling hg (fun _ _ => Nat.succ_pos _) (fun hash r hhash hr => ?_)
      (fun hash hhash hnone => ?_) h
    · rw [hhash, Option.bind_some, hr]
      exact Nat.lt_succ_self _
    · obtain ⟨r, hr, -⟩ := hg.latest hhash
      rw [hnone] at hr
      cases hr
  unfold collectDelta at h
  generalize order.order _ = creators at h
  generalize (∅ : ExtTreeMap EventHash Event) = start at h
  induction creators generalizing start with
  | nil => cases h
  | cons c creators ih =>
    rw [List.foldlM_cons] at h
    cases hc : collectCreator g (knownSeq known) start c with
    | error e =>
      rw [hc] at h
      exact hstep start c (Except.error.inj h ▸ hc)
    | ok next =>
      rw [hc] at h
      exact ih next h

theorem collectDelta_returns (hw : g.Whole) (hg : g.Consistent) (order : IterOrder)
    (known : List (NodeId × ℕ)) (registry : MembershipRegistry) :
    ∃ collected, collectDelta order g known registry = .ok collected := by
  cases h : collectDelta order g known registry with
  | ok collected => exact ⟨collected, rfl⟩
  | error e =>
    obtain ⟨y, ry, p, hry, hself, hgone, -⟩ := collectDelta_dangling hg h
    have hp := hw.parents hry p (Event.mem_parents.mpr (.inl hself))
    rw [hgone] at hp
    cases hp

end Walks

/-! ## The order of the delta -/

/-- Every event of the list is new to a graph that holds `held` and then the events before it, and
its parents are held. -/
def Feeds : (EventHash → Prop) → List (EventHash × Event) → Prop
  | _, [] => True
  | held, (x, e) :: delta => (¬held x ∧ ∀ p ∈ e.parents, held p) ∧
      Feeds (fun y => held y ∨ y = x) delta

section Order

variable {collected : ExtTreeMap EventHash Event} {held : EventHash → Prop}

theorem feeds_of_parentsFirst (h : ∀ {x e}, collected[x]? = some e →
      ¬held x ∧ ∀ p ∈ e.parents, p ∈ collected ∨ held p) {done l : List EventHash}
    (hl : ParentsFirst (fun x => (collected[x]?).elim [] Event.parents) collected.keys done l) :
    Feeds (fun y => held y ∨ y ∈ done)
      (l.filterMap fun x => (collected[x]?).map (x, ·)) := by
  induction l generalizing done with
  | nil => trivial
  | cons x l ih =>
    obtain ⟨⟨hx, hdone, hparents⟩, hrest⟩ := hl
    obtain ⟨e, he⟩ := Option.isSome_iff_exists.mp
      (ExtTreeMap.isSome_getElem?_iff_mem.mpr (ExtTreeMap.mem_keys.mp hx))
    obtain ⟨hnew, hheld⟩ := h he
    have hnext : (fun y => (held y ∨ y ∈ done) ∨ y = x) = fun y => held y ∨ y ∈ x :: done := by
      funext y
      rw [List.mem_cons, or_assoc, or_comm (a := y ∈ done)]
    rw [List.filterMap_cons_some (by rw [he, Option.map_some]), Feeds, hnext]
    refine ⟨⟨not_or.mpr ⟨hnew, hdone⟩, fun p hp => ?_⟩, ih hrest⟩
    rcases hheld p hp with hcollected | hheld
    · refine .inr (hparents p ?_ (ExtTreeMap.mem_keys.mpr hcollected))
      simpa only [he, Option.elim_some] using hp
    · exact .inl hheld

/-- The parent relation within a delta has no cycle. -/
def AcyclicDelta (events : ExtTreeMap EventHash Event) : Prop :=
  ∀ x, ¬Relation.TransGen (fun parent child => parent ∈ events ∧
    ∃ e, events[child]? = some e ∧ parent ∈ e.parents) x x

theorem acyclic_parents_iff (order : IterOrder) (events : ExtTreeMap EventHash Event) :
    Acyclic (fun hash => (events[hash]?).elim [] Event.parents) (order.order events.keys) ↔
      AcyclicDelta events := by
  have hlinks : (fun p c => p ∈ order.order events.keys ∧ c ∈ order.order events.keys ∧
      p ∈ (events[c]?).elim [] Event.parents) =
        fun p c => p ∈ events ∧ ∃ e, events[c]? = some e ∧ p ∈ e.parents := by
    funext p c
    rw [(order.perm _).mem_iff, (order.perm _).mem_iff, ExtTreeMap.mem_keys, ExtTreeMap.mem_keys,
      ← ExtTreeMap.isSome_getElem?_iff_mem (a := c)]
    cases events[c]? with
    | none => simp
    | some e => simp
  rw [Acyclic, hlinks, AcyclicDelta]

/-- The order the events of a sorted delta come in. -/
theorem mem_filterMap_of_perm {l : List EventHash} (hperm : l.Perm collected.keys) (x : EventHash)
    (e : Event) :
    (x, e) ∈ l.filterMap (fun x => (collected[x]?).map (x, ·)) ↔ collected[x]? = some e := by
  simp only [List.mem_filterMap, Option.map_eq_some_iff, Prod.mk.injEq]
  refine ⟨?_, fun hx => ⟨x, ?_, e, hx, rfl, rfl⟩⟩
  · rintro ⟨y, -, e', he', rfl, rfl⟩
    exact he'
  · exact hperm.mem_iff.mpr (ExtTreeMap.mem_keys.mpr
      (ExtTreeMap.isSome_getElem?_iff_mem.mp (Option.isSome_of_eq_some hx)))

/-- `topo_sort` emits events parents first, and all of them exactly if there is no cycle. -/
theorem topoSort_eq (order : DeltaOrder) (collected : ExtTreeMap EventHash Event) :
    ∃ l, ParentsFirst (fun x => (collected[x]?).elim [] Event.parents) collected.keys [] l ∧
      (AcyclicDelta collected ∧ l.Perm collected.keys ∧
          topoSort order collected = .ok (l.filterMap fun x => (collected[x]?).map (x, ·)) ∨
        ¬AcyclicDelta collected ∧
          topoSort order collected = .error (.cycle l.length collected.size)) := by
  have hnodup : (order.events.order collected.keys).Nodup :=
    (order.events.perm _).nodup_iff.mpr ExtTreeMap.nodup_keys
  have hstart : (order.degrees.order collected.keys).Perm (order.events.order collected.keys) :=
    (order.degrees.perm _).trans (order.events.perm _).symm
  obtain ⟨l, hl, hfirst, hlen, hperm⟩ := kahn_length_iff
    (fun x => (collected[x]?).elim [] Event.parents) hnodup hstart
  have hsize : (order.events.order collected.keys).length = collected.size :=
    (order.events.perm _).length_eq.trans ExtTreeMap.length_keys
  rw [acyclic_parents_iff, hsize] at hlen
  rw [hsize] at hperm
  refine ⟨l, hfirst.congr fun x => (order.events.perm _).mem_iff, ?_⟩
  rw [topoSort, hl]
  by_cases hall : l.length = collected.size
  · refine .inl ⟨hlen.mp hall, (hperm hall).trans (order.events.perm _), ?_⟩
    simp only [hall, ne_eq, not_true, if_false]
  · refine .inr ⟨fun hacyclic => hall (hlen.mpr hacyclic), ?_⟩
    simp only [ne_eq, hall, not_false_eq_true, if_true]

/-- `topo_sort` emits all events of a delta whose parent links have no cycle. -/
theorem topoSort_ok (order : DeltaOrder)
    (hrank : ∃ rank : EventHash → ℕ, ∀ {x e}, collected[x]? = some e →
      ∀ p ∈ e.parents, rank p < rank x)
    (h : ∀ {x e}, collected[x]? = some e → ¬held x ∧ ∀ p ∈ e.parents, p ∈ collected ∨ held p) :
    ∃ delta, topoSort order collected = .ok delta ∧ Feeds held delta ∧
      ∀ x e, (x, e) ∈ delta ↔ collected[x]? = some e := by
  obtain ⟨rank, hrank⟩ := hrank
  have hacyclic : AcyclicDelta collected := by
    rw [← acyclic_parents_iff order.events]
    refine acyclic_of_rank rank fun x _ p hp _ => ?_
    cases hx : collected[x]? with
    | none =>
      rw [hx] at hp
      cases hp
    | some e =>
      rw [hx] at hp
      exact hrank hx p hp
  obtain ⟨l, hfirst, ⟨-, hperm, hsorted⟩ | ⟨hcycle, -⟩⟩ := topoSort_eq order collected
  · refine ⟨_, hsorted, ?_, mem_filterMap_of_perm hperm⟩
    have hfeeds := feeds_of_parentsFirst h hfirst
    simpa only [List.not_mem_nil, or_false] using hfeeds
  · exact absurd hacyclic hcycle

end Order

/-! ## Taking the delta in -/

section Delivery

variable {H : Hasher} {S : Set Event} {registry : MembershipRegistry} {r : Hashgraph}

/-- A graph checks an event of a member whose parents it holds and that continues its creator's
chain. -/
theorem Hashgraph.Sound.checked (hfree : H.CollisionFree S) (hs : r.Sound H S)
    (hfix : Hashgraph.FixedRegistry registry r) {x : EventHash} {e : Event} {n : ℕ}
    (hhash : H e = .ok x) (hnum : Numbered H S e n) (hmember : e.creator ∈ registry.memberIds)
    (hfresh : r.get? x = none) (hparents : ∀ p ∈ e.parents, (r.get? p).isSome) :
    ∃ i, r.Checked x e i := by
  obtain ⟨i, hi⟩ := List.mem_iff_getElem?.mp hmember
  refine ⟨i, hfresh, ?_, hparents, fun {rp} hrp => ?_⟩
  · rw [Hashgraph.memberIndexOf, hfix.memberIndex_eq]
    exact Hashgraph.memberIndexOf_new.mpr hi
  · obtain ⟨p, hp, hget⟩ := Hashgraph.exists_selfParent_of_selfRecord hrp
    obtain ⟨hhashp, hnump⟩ := hs.numbered hget
    cases hnum with
    | root _ hself =>
      rw [hself] at hp
      cases hp
    | @child _ p' _ _ _ hself hp' hcreator hnum' =>
      rw [hself] at hp
      obtain rfl := Option.some.inj hp
      rw [hfree _ hnump.mem p' hnum'.mem _ hhashp hp']
      exact hcreator

/-- A list that feeds a graph is inserted to its end. -/
theorem applyDelta_ok (hfree : H.CollisionFree S)
    (hr : Hashgraph.Reached H (fun _ op => op.Inserts S) registry r)
    {delta : List (EventHash × Event)} (hdelta : ∀ x e, (x, e) ∈ delta →
      H e = .ok x ∧ (∃ n, Numbered H S e n) ∧ e.creator ∈ registry.memberIds)
    (hfeeds : Feeds (fun y => (r.get? y).isSome) delta) (iter : ℕ → IterOrder) :
    ∃ r', applyDelta H iter (delta.map (·.2)) r = .ok (delta.map (·.1), 0) r' ∧
      Hashgraph.Reached H (fun _ op => op.Inserts S) registry r' ∧
      ∀ y, (r'.get? y).isSome ↔ (r.get? y).isSome ∨ y ∈ delta.map (·.1) := by
  induction delta generalizing r iter with
  | nil => exact ⟨r, rfl, hr, fun y => by simp⟩
  | cons head delta ih =>
    obtain ⟨x, e⟩ := head
    obtain ⟨⟨hnew, hparents⟩, hrest⟩ := hfeeds
    obtain ⟨hhash, ⟨n, hnum⟩, hmember⟩ := hdelta x e List.mem_cons_self
    have hs := hr.sound hfree fun _ _ hop => hop.from
    obtain ⟨i, hc⟩ := hs.checked hfree (hr.fixedRegistry hfree) hhash hnum hmember
      (Option.not_isSome_iff_eq_none.mp hnew) hparents
    obtain ⟨g, hinsert, hinserted⟩ := hr.insert_ok hfree hnum.mem hhash hc (iter 0)
    have hadm : (Hashgraph.Op.insert (iter 0) e).Admissible r := trivial
    have hg : Hashgraph.Reached H (fun _ op => op.Inserts S) registry g :=
      hr.step hadm hnum.mem (.inl ⟨x, hinsert⟩)
    have hstored (y : EventHash) : (g.get? y).isSome ↔ (r.get? y).isSome ∨ y = x :=
      (hinserted.isSome_iff y).trans or_comm
    have hheld : (fun y => (r.get? y).isSome = true ∨ y = x) = fun y => (g.get? y).isSome = true :=
      funext fun y => propext (hstored y).symm
    rw [hheld] at hrest
    obtain ⟨r', happly, hr', hstored'⟩ := ih hg
      (fun x e hmem => hdelta x e (List.mem_cons_of_mem _ hmem)) hrest fun k => iter (k + 1)
    refine ⟨r', ?_, hr', fun y => ?_⟩
    · rw [List.map_cons, applyDelta]
      simp only [hinsert, happly, List.map_cons]
    · rw [hstored', hstored, List.map_cons, List.mem_cons, or_assoc]

end Delivery

/-! ## Sender and receiver -/

section Summary

theorem getElem?_foldl_insert (f : NodeId → ℕ) (nodes : List NodeId) (seqs : ExtTreeMap NodeId ℕ)
    (c : NodeId) :
    ((nodes.map fun node => (node, f node)).foldl (fun seqs (node, seq) => seqs.insert node seq)
      seqs)[c]? = if c ∈ nodes then some (f c) else seqs[c]? := by
  induction nodes generalizing seqs with
  | nil => simp
  | cons node nodes ih =>
    rw [List.map_cons, List.foldl_cons, ih, ExtTreeMap.getElem?_insert]
    by_cases hc : c = node
    · subst hc
      simp
    · have hne : compare node c ≠ .eq := fun h => hc (Std.compare_eq_iff_eq.mp h).symm
      simp [hc, hne]

variable {H : Hasher} {S : Set Event} {registry : MembershipRegistry} {r : Hashgraph}
  {c : NodeId} {x z : EventHash} {e : Event} {rz : EventRecord} {n : ℕ}

theorem frontierOf_knownSummary (c : NodeId) :
    frontierOf (knownSummary r registry) c = if c ∈ registry.memberIds then
      ((r.latestEventBy c).bind r.get?).elim 0 (·.seq) else 0 := by
  rw [frontierOf, knownSeq, knownSummary, getElem?_foldl_insert]
  split <;> simp

theorem frontierOf_of_latest (hc : c ∈ registry.memberIds) (hz : r.latestEventBy c = some z)
    (hrz : r.get? z = some rz) : frontierOf (knownSummary r registry) c = rz.seq := by
  rw [frontierOf_knownSummary, if_pos hc, hz, Option.bind_some, hrz]
  rfl

/-- A graph that was never pruned holds what its summary covers. -/
theorem Hashgraph.Whole.isSome_of_le_frontier (hforks : Hashgraph.ForkFree S) (hw : r.Whole)
    (hs : r.Sound H S) (hhash : H e = .ok x) (hnum : Numbered H S e n)
    (hle : n ≤ frontierOf (knownSummary r registry) e.creator) : (r.get? x).isSome := by
  have hpos := hnum.pos
  rw [frontierOf_knownSummary] at hle
  split at hle
  · cases hz : r.latestEventBy e.creator with
    | none =>
      rw [hz] at hle
      exact absurd (hpos.trans_le hle) (lt_irrefl 0)
    | some z =>
      obtain ⟨rz, hrz, hcreator⟩ := hs.wf.latest hz
      rw [hz, Option.bind_some, hrz] at hle
      obtain ⟨u, -, ru, hru, hcu, rfl⟩ :=
        hw.exists_selfAnc hs.wf.toConsistent ⟨rz, hrz, hcreator, rfl⟩ hpos hle
      obtain ⟨hu, hnumu⟩ := hs.numbered hru
      obtain rfl := hnumu.eq_of_not_forks hnum hcu (not_forks_of_forkFree hforks _)
      rw [hhash, Except.ok.injEq] at hu
      exact hu ▸ Option.isSome_of_eq_some hru
  · omega

/-- A summary covers what the graph holds. -/
theorem Hashgraph.Traced.le_frontier {past : Finset EventHash} (hfree : H.CollisionFree S)
    (htraced : r.Traced H S past) (hs : r.Sound H S) (hfix : Hashgraph.FixedRegistry registry r)
    (hhash : H e = .ok x) (hnum : Numbered H S e n) (hx : (r.get? x).isSome) :
    n ≤ frontierOf (knownSummary r registry) e.creator := by
  obtain ⟨e', n', z, rz, he', hnum', hz, hrz, hle⟩ := htraced.dated x (htraced.stored hx)
  obtain rfl := hfree e' hnum'.mem e hnum.mem x he' hhash
  rwa [frontierOf_of_latest (hfix.mem_memberIds hs.wf hz) hz hrz, hnum.unique hfree hnum']

end Summary

section Sender

variable {H : Hasher} {S : Set Event} {registry : MembershipRegistry} {s : Hashgraph}
  {past : Finset EventHash} {known : List (NodeId × ℕ)}
  {collected : ExtTreeMap EventHash Event} {x : EventHash} {e : Event}

/-- An event of the sender's past is collected or covered by the summary. Where it is neither, the
walk for its creator would have met it. -/
theorem Collects.mem_or_le (hforks : Hashgraph.ForkFree S) (hs : s.Sound H S)
    (htraced : s.Traced H S past) (hfix : Hashgraph.FixedRegistry registry s)
    (h : Collects s known registry.memberIds collected) (hx : x ∈ past) :
    x ∈ collected ∨ ∃ e n, H e = .ok x ∧ Numbered H S e n ∧ n ≤ frontierOf known e.creator := by
  obtain ⟨e, n, z, rz, he, hnum, hz, hrz, hle⟩ := htraced.dated x hx
  rcases Nat.lt_or_ge (frontierOf known e.creator) n with hlt | hge
  · obtain ⟨y, hy, ry, hry, hcreator, rfl⟩ :=
      h.complete _ (hfix.mem_memberIds hs.wf hz) z rz hz hrz n hlt hle
    obtain ⟨hhashy, hnumy⟩ := hs.numbered hry
    obtain rfl := hnumy.eq_of_not_forks hnum hcreator (not_forks_of_forkFree hforks _)
    rw [he, Except.ok.injEq] at hhashy
    exact .inl (hhashy ▸ hy)
  · exact .inr ⟨e, n, he, hnum, hge⟩

theorem Collects.numbered (hs : s.Sound H S) (hfix : Hashgraph.FixedRegistry registry s)
    (h : Collects s known registry.memberIds collected) (hx : collected[x]? = some e) :
    ∃ n, H e = .ok x ∧ Numbered H S e n ∧ frontierOf known e.creator < n ∧
      e.creator ∈ registry.memberIds := by
  obtain ⟨r, hr, rfl, hlt⟩ := h.sound hx
  obtain ⟨j, hj⟩ := hs.wf.member hr
  rw [Hashgraph.memberIndexOf, hfix.memberIndex_eq] at hj
  exact ⟨r.seq, (hs.numbered hr).1, (hs.numbered hr).2, hlt,
    List.mem_of_getElem? (Hashgraph.memberIndexOf_new.mp hj)⟩

/-- The delta, when the walks end: it feeds a graph that holds what the summary covers. -/
theorem Collects.topoSort_ok (hforks : Hashgraph.ForkFree S)
    (hs : s.Sound H S) (htraced : s.Traced H S past)
    (hfix : Hashgraph.FixedRegistry registry s)
    (h : Collects s known registry.memberIds collected) {held : EventHash → Prop}
    (hheld : ∀ {x e n}, H e = .ok x → Numbered H S e n →
      (held x ↔ n ≤ frontierOf known e.creator)) (order : DeltaOrder) :
    ∃ delta, topoSort order collected = .ok delta ∧ Feeds held delta ∧
      ∀ x e, (x, e) ∈ delta ↔ collected[x]? = some e := by
  obtain ⟨rank, hrank⟩ := htraced.ranked
  have hpast {x : EventHash} {e : Event} (hx : collected[x]? = some e) :
      ∀ p ∈ e.parents, p ∈ past ∧ rank p < rank x := by
    obtain ⟨r, hr, rfl, -⟩ := h.sound hx
    obtain ⟨hhash, hnum⟩ := hs.numbered hr
    exact hrank _ hnum.mem x (htraced.stored (Option.isSome_of_eq_some hr)) hhash
  refine JKain.topoSort_ok order ⟨rank, fun hx p hp => (hpast hx p hp).2⟩ fun {x e} hx => ?_
  obtain ⟨n, hhash, hnum, hlt, -⟩ := h.numbered hs hfix hx
  refine ⟨fun hx' => ?_, fun p hp => ?_⟩
  · have := (hheld hhash hnum).mp hx'
    omega
  · rcases h.mem_or_le hforks hs htraced hfix (hpast hx p hp).1 with hmem | ⟨e', m, he', hnum', hle⟩
    · exact .inl hmem
    · exact .inr ((hheld he' hnum').mpr hle)

end Sender

section Sync

variable {H : Hasher} {S : Set Event} {registry : MembershipRegistry} {s r : Hashgraph}

open Hashgraph (ForkFree Reached FixedRegistry)

/-- When the walks end, the receiver takes the whole delta in and then holds what the sender
holds. -/
theorem delta_taken (hfree : H.CollisionFree S) (hforks : ForkFree S)
    (hs : Reached H (fun _ op => op.Static S) registry s)
    (hr : Reached H (fun _ op => op.Inserts S) registry r) (order : DeltaOrder)
    {collected : ExtTreeMap EventHash Event}
    (hcollected : collectDelta order.creators s (knownSummary r registry) registry =
      .ok collected) :
    ∃ delta, deltaEvents order s (knownSummary r registry) registry = .ok delta ∧
      (∀ x e, (x, e) ∈ delta → (s.get? x).isSome) ∧
      Feeds (fun y => (r.get? y).isSome) delta ∧
      ∀ iter, ∃ r', applyDelta H iter (delta.map (·.2)) r = .ok (delta.map (·.1), 0) r' ∧
        ∀ x, (s.get? x).isSome → (r'.get? x).isSome := by
  obtain ⟨hfix, -, past, htraced⟩ := hs.traced hfree hforks
  obtain ⟨hfix', -, past', htraced'⟩ := hr.static.traced hfree hforks
  have hsound := hs.sound hfree fun _ _ hop => hop.from
  have hsound' := hr.sound hfree fun _ _ hop => hop.from
  have hwhole' := hr.whole hfree fun _ _ hop => hop.fromKeeps
  have hheld {x : EventHash} {e : Event} {n : ℕ} (hhash : H e = .ok x) (hnum : Numbered H S e n) :
      (r.get? x).isSome = true ↔ n ≤ frontierOf (knownSummary r registry) e.creator :=
    ⟨htraced'.le_frontier hfree hsound' hfix' hhash hnum,
      hwhole'.isSome_of_le_frontier hforks hsound' hhash hnum⟩
  have hcollects := collectDelta_collects hsound hcollected
  obtain ⟨delta, hsorted, hfeeds, hmem⟩ :=
    hcollects.topoSort_ok hforks hsound htraced hfix hheld order
  have hdelta : deltaEvents order s (knownSummary r registry) registry = .ok delta := by
    rw [deltaEvents, hcollected]
    exact hsorted
  refine ⟨delta, hdelta, fun x e hx => ?_, hfeeds, fun iter => ?_⟩
  · obtain ⟨record, hrecord, -⟩ := hcollects.sound ((hmem x e).mp hx)
    exact Option.isSome_of_eq_some hrecord
  · have hsent (x : EventHash) (e : Event) (hx : (x, e) ∈ delta) :
        H e = .ok x ∧ (∃ n, Numbered H S e n) ∧ e.creator ∈ registry.memberIds := by
      obtain ⟨n, hhash, hnum, -, hmember⟩ := hcollects.numbered hsound hfix ((hmem x e).mp hx)
      exact ⟨hhash, ⟨n, hnum⟩, hmember⟩
    obtain ⟨r', happly, -, hstored⟩ := applyDelta_ok hfree hr hsent hfeeds iter
    refine ⟨r', happly, fun x hx => (hstored x).mpr ?_⟩
    rcases hcollects.mem_or_le hforks hsound htraced hfix (htraced.stored hx) with
      hin | ⟨e, n, hhash, hnum, hle⟩
    · obtain ⟨e, he⟩ := Option.isSome_iff_exists.mp (ExtTreeMap.isSome_getElem?_iff_mem.mpr hin)
      exact .inr (List.mem_map.mpr ⟨(x, e), (hmem x e).mpr he, rfl⟩)
    · exact .inl ((hheld hhash hnum).mpr hle)

/-- A delta of a sender that may have pruned, for the summary of a receiver that has not: either an
event the walks need is gone, or the receiver inserts every event of the delta and then holds every
event the sender holds. Without pruning there always is a delta. -/
theorem delta_sync_complete (hfree : H.CollisionFree S) (hforks : ForkFree S)
    (hs : Reached H (fun _ op => op.Static S) registry s)
    (hr : Reached H (fun _ op => op.Inserts S) registry r) (order : DeltaOrder)
    (iter : ℕ → IterOrder) :
    ((∃ hash, deltaEvents order s (knownSummary r registry) registry = .error (.missing hash)) ∨
      ∃ delta r', deltaEvents order s (knownSummary r registry) registry = .ok delta ∧
        applyDelta H iter (delta.map (·.2)) r = .ok (delta.map (·.1), 0) r' ∧
        ∀ x, (s.get? x).isSome → (r'.get? x).isSome) ∧
    (Reached H (fun _ op => op.Inserts S) registry s →
      ∃ delta, deltaEvents order s (knownSummary r registry) registry = .ok delta) := by
  have hsound := hs.sound hfree fun _ _ hop => hop.from
  refine ⟨?_, fun hinserts => ?_⟩
  · cases hcollected : collectDelta order.creators s (knownSummary r registry) registry with
    | error error =>
      obtain ⟨y, ry, p, -, -, -, rfl⟩ := collectDelta_dangling hsound.wf.toConsistent hcollected
      refine .inl ⟨p, ?_⟩
      rw [deltaEvents, hcollected]
      rfl
    | ok collected =>
      obtain ⟨delta, hdelta, -, -, htaken⟩ := delta_taken hfree hforks hs hr order hcollected
      obtain ⟨r', happly, hholds⟩ := htaken iter
      exact .inr ⟨delta, r', hdelta, happly, hholds⟩
  · obtain ⟨collected, hcollected⟩ := collectDelta_returns
      (hinserts.whole hfree fun _ _ hop => hop.fromKeeps) hsound.wf.toConsistent order.creators
      (knownSummary r registry) registry
    obtain ⟨delta, hdelta, -⟩ := delta_taken hfree hforks hs hr order hcollected
    exact ⟨delta, hdelta⟩

open Hashgraph (plainEvent plainRegistry stampHash inOrder collisionFree_stampHash
  forkFree_of_pairwise replay)

/-- The chain of a single member. -/
def soloChain : List Event :=
  [plainEvent 1 0 none none, plainEvent 2 0 (some 1) none, plainEvent 3 0 (some 2) none,
    plainEvent 4 0 (some 3) none, plainEvent 5 0 (some 4) none, plainEvent 6 0 (some 5) none]

/-- The sender has pruned the first event; the receiver holds the first three. -/
theorem delta_sync_complete_solo :
    ∃ s r delta r', s.get? 1 = none ∧
      deltaEvents ⟨inOrder, inOrder, inOrder⟩ s (knownSummary r (plainRegistry 1))
        (plainRegistry 1) = .ok delta ∧
      applyDelta stampHash (fun _ => inOrder) (delta.map (·.2)) r =
        .ok (delta.map (·.1), 0) r' ∧ ∀ x, (s.get? x).isSome → (r'.get? x).isSome := by
  have hrun : (replay stampHash (.new (plainRegistry 1))
        (soloChain.map (.insert inOrder) ++ [.prune 3])).any (fun s =>
      (replay stampHash (.new (plainRegistry 1))
        ((soloChain.take 3).map (.insert inOrder))).any fun r =>
          (s.get? 1).isNone && (deltaEvents ⟨inOrder, inOrder, inOrder⟩ s
            (knownSummary r (plainRegistry 1)) (plainRegistry 1)).toOption.isSome) = true := by
    decide +kernel
  obtain ⟨s, hs, hrun⟩ := (Option.any_eq_true _ _).mp hrun
  obtain ⟨r, hr, hrun⟩ := (Option.any_eq_true _ _).mp hrun
  obtain ⟨hgone, hok⟩ := Bool.and_eq_true_iff.mp hrun
  have hfree : stampHash.CollisionFree {e | e ∈ soloChain} := collisionFree_stampHash (by decide)
  have hforks : ForkFree {e | e ∈ soloChain} := forkFree_of_pairwise (by decide)
  have hinserts (l : List Event) (hl : l ⊆ soloChain) (op : Hashgraph.Op)
      (hop : op ∈ l.map (.insert inOrder)) : op.Inserts {e | e ∈ soloChain} := by
    obtain ⟨e, he, rfl⟩ := List.mem_map.mp hop
    exact hl he
  have hs' : Reached stampHash (fun _ op => op.Static {e | e ∈ soloChain}) (plainRegistry 1) s :=
    Reached.new.replay (fun op hop _ => by
      rcases List.mem_append.mp hop with hop | hop
      · exact (hinserts _ (List.Subset.refl _) op hop).static
      · exact List.mem_singleton.mp hop ▸ trivial) hs
  have hr' : Reached stampHash (fun _ op => op.Inserts {e | e ∈ soloChain}) (plainRegistry 1) r :=
    Reached.new.replay (fun op hop _ => hinserts _ (List.take_subset _ _) op hop) hr
  rcases (delta_sync_complete hfree hforks hs' hr' ⟨inOrder, inOrder, inOrder⟩
    fun _ => inOrder).1 with ⟨hash, hbehind⟩ | ⟨delta, r', hdelta, happly, hholds⟩
  · rw [hbehind] at hok
    cases hok
  · exact ⟨s, r, delta, r', Option.isNone_iff_eq_none.mp hgone, hdelta, happly, hholds⟩

/-! ## Forks -/

/-- The events of the two graphs. -/
def storedIn (s r : Hashgraph) : Set Event :=
  {e | ∃ x record, (s.get? x = some record ∨ r.get? x = some record) ∧ record.event = e}

/-- A run of insertions is one over the events it ends with: the others were refused. -/
theorem Hashgraph.Reached.of_stored {g : Hashgraph} (hfree : H.CollisionFree S)
    (h : Reached H (fun _ op => op.Inserts S) registry g) (S' : Set Event)
    (hstored : ∀ x record, g.get? x = some record → record.event ∈ S') :
    Reached H (fun _ op => op.Inserts S') registry g := by
  induction h with
  | new => exact .new
  | @step g g' op hg hadm hop hleads ih =>
    have hs := hg.sound hfree fun _ _ hop => hop.from
    cases op with
    | addMember _ _ _ => exact hop.elim
    | prune _ => exact hop.elim
    | insert iter event =>
      rcases Hashgraph.insert_cases hs hfree hop hleads with ⟨-, rfl⟩ |
        ⟨hash, i, hhash, hc, hinserted, hinsert⟩
      · exact ih hstored
      · have hskel := hinserted.advances.skeleton_eq
        -- What the graph held before and the new event are stored in the end.
        have hkept {x : EventHash} {record : EventRecord}
            (hx : (g.placed hash event i).get? x = some record) : record.event ∈ S' := by
          obtain ⟨record', hx', hbare⟩ := Hashgraph.get?_of_skeleton_eq hskel.symm hx
          rw [← show record'.event = record.event from (congrArg EventRecord.event hbare :)]
          exact hstored x record' hx'
        have hold := ih fun x record hx => hkept (hc.get?_place_of_some _ hx)
        exact hold.step hadm (hkept Hashgraph.get?_place_self) hleads

theorem Hasher.CollisionFree.mono {S' : Set Event} (hfree : H.CollisionFree S) (hsub : S' ⊆ S) :
    H.CollisionFree S' :=
  fun e he e' he' => hfree e (hsub he) e' (hsub he')

theorem storedIn_subset (hfree : H.CollisionFree S)
    (hs : Reached H (fun _ op => op.Inserts S) registry s)
    (hr : Reached H (fun _ op => op.Inserts S) registry r) : storedIn s r ⊆ S := by
  rintro e ⟨x, record, hx | hx, rfl⟩
  · exact ((hs.sound hfree fun _ _ hop => hop.from).numbered hx).2.mem
  · exact ((hr.sound hfree fun _ _ hop => hop.from).numbered hx).2.mem

/-- With a summary of zeros the delta holds everything. -/
theorem delta_of_zeros (hfree : H.CollisionFree S) (hforks : ForkFree S)
    (hs : Reached H (fun _ op => op.Inserts S) registry s) (order : DeltaOrder)
    {known : List (NodeId × ℕ)} (hzero : ∀ c, frontierOf known c = 0) :
    ∃ delta, deltaEvents order s known registry = .ok delta ∧
      ∀ x record, s.get? x = some record → (x, record.event) ∈ delta := by
  obtain ⟨hfix, -, past, htraced⟩ := hs.static.traced hfree hforks
  have hsound := hs.sound hfree fun _ _ hop => hop.from
  obtain ⟨collected, hcollected⟩ := collectDelta_returns
    (hs.whole hfree fun _ _ hop => hop.fromKeeps) hsound.wf.toConsistent order.creators known
    registry
  have hcollects := collectDelta_collects hsound hcollected
  have hheld {x : EventHash} {e : Event} {n : ℕ} (_ : H e = .ok x) (hnum : Numbered H S e n) :
      False ↔ n ≤ frontierOf known e.creator := by
    rw [hzero]
    exact iff_of_false not_false (Nat.not_le.mpr hnum.pos)
  obtain ⟨delta, hsorted, -, hmem⟩ :=
    hcollects.topoSort_ok hforks hsound htraced hfix hheld order
  refine ⟨delta, ?_, fun x record hx => (hmem x record.event).mpr ?_⟩
  · rw [deltaEvents, hcollected]
    exact hsorted
  · have hpast := htraced.stored (Option.isSome_of_eq_some hx)
    rcases hcollects.mem_or_le hforks hsound htraced hfix hpast with hin | ⟨e, n, -, hnum, hle⟩
    · obtain ⟨e, he⟩ := Option.isSome_iff_exists.mp (ExtTreeMap.isSome_getElem?_iff_mem.mpr hin)
      obtain ⟨record', hx', rfl, -⟩ := hcollects.sound he
      rw [hx] at hx'
      exact Option.some.inj hx' ▸ he
    · have := hnum.pos
      rw [hzero] at hle
      omega

theorem frontierOf_eq_zero {known : List (NodeId × ℕ)} (hzero : ∀ p ∈ known, p.2 = 0) (c : NodeId) :
    frontierOf known c = 0 := by
  have hfold (seqs : ExtTreeMap NodeId ℕ) (hseqs : seqs[c]?.getD 0 = 0) :
      (known.foldl (fun seqs (node, seq) => seqs.insert node seq) seqs)[c]?.getD 0 = 0 := by
    induction known generalizing seqs with
    | nil => exact hseqs
    | cons p known ih =>
      refine ih (fun q hq => hzero q (List.mem_cons_of_mem p hq)) _ ?_
      rw [ExtTreeMap.getElem?_insert, hzero p List.mem_cons_self]
      split
      · rfl
      · exact hseqs
  exact hfold ∅ rfl

/-- Two first events of one creator; an event of another creator builds on the second of them. -/
def forkedFirst : List Event :=
  [plainEvent 1 0 none none, plainEvent 2 0 none none, plainEvent 3 1 none (some 2)]

/-- One event of a delta has no parent at a receiver that stores nothing. -/
def blocksOne (delta : List (EventHash × Event)) : Bool :=
  match applyDelta stampHash (fun _ => inOrder) (delta.map (·.2)) (.new (plainRegistry 2)) with
  | .ok (_, blocked) _ => blocked == 1
  | .error _ _ => false

end Sync

end JKain
