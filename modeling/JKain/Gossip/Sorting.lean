import JKain.Gossip.EventIdentity
import JKain.Gossip.FrontierSpec
import JKain.Gossip.Reconnect

/-!
# Sorting transfers

Two transfers are sorted parents first before they are taken in: the delta of a sync, which is a map
from hashes to events, and the records of a reconnect, which are a list in which an event may occur
more than once. The second sort works on positions, and a parent link leads to the last copy of the
parent. Either sort succeeds exactly if the parent links within the transfer have no cycle; the
records have to be such that their events can be hashed.
-/

namespace JKain

open Std JKain.Lib

variable {H : Hasher} {retained : List RetainedEvent}

/-! ## Records -/

/-- The events of a transfer. -/
def eventsOf (retained : List RetainedEvent) : Set Event :=
  {e | ∃ record ∈ retained, record.event = e}

/-- The first event is a parent of the second. -/
def IsParent (H : Hasher) (parent child : Event) : Prop :=
  ∃ hash, H parent = .ok hash ∧ hash ∈ child.parents

/-- The parent relation among the events of a transfer has no cycle. -/
def AcyclicRecords (H : Hasher) (retained : List RetainedEvent) : Prop :=
  ∀ e, ¬Relation.TransGen (fun parent child => parent ∈ eventsOf retained ∧
    child ∈ eventsOf retained ∧ IsParent H parent child) e e

/-- The index names a record of the hash for every hash there is. -/
structure Indexes (H : Hasher) (retained : List RetainedEvent) (index : ExtTreeMap EventHash ℕ) :
    Prop where
  sound : ∀ {hash : EventHash} {i : ℕ}, index[hash]? = some i →
    ∃ record, retained[i]? = some record ∧ H record.event = .ok hash
  complete : ∀ {record hash}, record ∈ retained → H record.event = .ok hash → hash ∈ index

theorem Indexes.push {index : ExtTreeMap EventHash ℕ} (h : Indexes H retained index)
    {record : RetainedEvent} {hash : EventHash} (hhash : H record.event = .ok hash) :
    Indexes H (retained ++ [record]) (index.insert hash retained.length) where
  sound {hash' i} hget := by
    rw [ExtTreeMap.getElem?_insert] at hget
    split at hget
    · rename_i heq
      obtain rfl := Std.compare_eq_iff_eq.mp heq
      obtain rfl := Option.some.inj hget
      exact ⟨record, List.getElem?_concat_length, hhash⟩
    · obtain ⟨record', hrecord', hhash'⟩ := h.sound hget
      have hi := (List.getElem?_eq_some_iff.mp hrecord').1
      exact ⟨record', List.getElem?_append_left hi ▸ hrecord', hhash'⟩
  complete {record' hash'} hmem hhash' := by
    rw [ExtTreeMap.mem_insert]
    rcases List.mem_append.mp hmem with hold | hnew
    · exact .inr (h.complete hold hhash')
    · obtain rfl := List.mem_singleton.mp hnew
      rw [hhash, Except.ok.injEq] at hhash'
      exact .inl (Std.compare_eq_iff_eq.mpr hhash')

/-- The loop over the records that are left. -/
theorem indexes_foldlM {done rest : List RetainedEvent} {index : ExtTreeMap EventHash ℕ}
    (h : Indexes H done index) (hhash : ∀ record ∈ rest, ∃ hash, H record.event = .ok hash) :
    ∃ index', (rest.zipIdx done.length).foldlM (fun index (record, i) =>
        match H record.event with
        | .error _ => none
        | .ok hash => some (index.insert hash i)) index = some index' ∧
      Indexes H (done ++ rest) index' := by
  induction rest generalizing done index with
  | nil => exact ⟨index, rfl, by rwa [List.append_nil]⟩
  | cons record rest ih =>
    obtain ⟨⟨hash, hrecord⟩, hrest⟩ := List.forall_mem_cons.mp hhash
    obtain ⟨index', hloop, hindex'⟩ := ih (h.push hrecord) hrest
    rw [List.length_append, List.length_singleton] at hloop
    refine ⟨index', ?_, by rwa [List.append_assoc] at hindex'⟩
    rw [List.zipIdx_cons, List.foldlM_cons]
    simp only [hrecord]
    exact hloop

theorem exists_indexByHash (hhash : ∀ record ∈ retained, ∃ hash, H record.event = .ok hash) :
    ∃ index, indexByHash H retained = some index ∧ Indexes H retained index := by
  have hempty : Indexes H [] ∅ :=
    ⟨fun hget => by simp at hget, fun hmem => absurd hmem List.not_mem_nil⟩
  exact indexes_foldlM hempty hhash

/-- The positions of the parents of a record. -/
def parentIndices (retained : List RetainedEvent) (index : ExtTreeMap EventHash ℕ) (i : ℕ) :
    List ℕ :=
  (retained[i]?).elim [] fun record => record.event.parents.filterMap (index[·]?)

theorem mem_parentIndices {index : ExtTreeMap EventHash ℕ} {i j : ℕ} :
    j ∈ parentIndices retained index i ↔
      ∃ record, retained[i]? = some record ∧ ∃ p ∈ record.event.parents, index[p]? = some j := by
  rw [parentIndices]
  cases retained[i]? with
  | none => simp
  | some record => simp [List.mem_filterMap]

/-- The index leads to the last copy of an event. -/
theorem Indexes.exists_copy {index : ExtTreeMap EventHash ℕ} (h : Indexes H retained index)
    (hfree : H.CollisionFree (eventsOf retained)) {e : Event} (he : e ∈ eventsOf retained)
    {hash : EventHash} (hhash : H e = .ok hash) :
    ∃ (i : ℕ) (record : RetainedEvent), index[hash]? = some i ∧ retained[i]? = some record ∧
      record.event = e := by
  have hmem := he
  obtain ⟨record, hrecord, rfl⟩ := he
  obtain ⟨i, hi⟩ := Option.isSome_iff_exists.mp
    (ExtTreeMap.isSome_getElem?_iff_mem.mpr (h.complete hrecord hhash))
  obtain ⟨copy, hcopy, hsame⟩ := h.sound hi
  have hcopied : copy.event ∈ eventsOf retained := ⟨copy, List.mem_of_getElem? hcopy, rfl⟩
  exact ⟨i, copy, hi, hcopy, hfree _ hcopied _ hmem hash hsame hhash⟩

theorem mem_range_of_getElem? {record : RetainedEvent} {i : ℕ} (h : retained[i]? = some record) :
    i ∈ List.range retained.length :=
  List.mem_range.mpr (List.getElem?_eq_some_iff.mp h).1

/-- The positions have a cycle exactly if the events have one: every position on a cycle is that of
the last copy of its event. -/
theorem acyclic_parentIndices_iff {index : ExtTreeMap EventHash ℕ} (h : Indexes H retained index)
    (hhash : ∀ record ∈ retained, ∃ hash, H record.event = .ok hash)
    (hfree : H.CollisionFree (eventsOf retained)) :
    Acyclic (parentIndices retained index) (List.range retained.length) ↔
      AcyclicRecords H retained := by
  constructor
  · intro hacyclic e hcycle
    let last (e : Event) : ℕ := (H e).toOption.elim 0 fun hash => index[hash]?.getD 0
    have hlast : ∀ e ∈ eventsOf retained, ∃ record, retained[last e]? = some record ∧
        record.event = e ∧ ∀ hash, H e = .ok hash → index[hash]? = some (last e) := by
      intro e he
      obtain ⟨hash, heq⟩ : ∃ hash, H e = .ok hash := by
        obtain ⟨record, hrecord, rfl⟩ := he
        exact hhash record hrecord
      obtain ⟨i, record, hi, hrecord, hevent⟩ := h.exists_copy hfree he heq
      have hi' : last e = i := by simp [last, heq, hi, Except.toOption]
      rw [hi']
      refine ⟨record, hrecord, hevent, fun hash' heq' => ?_⟩
      rw [heq, Except.ok.injEq] at heq'
      exact heq' ▸ hi
    refine hacyclic (last e) (hcycle.lift last fun parent child hlink => ?_)
    obtain ⟨hparent, hchild, hash, heq, hmem⟩ := hlink
    obtain ⟨record, hrecord, -, hindex⟩ := hlast parent hparent
    obtain ⟨record', hrecord', rfl, -⟩ := hlast child hchild
    exact ⟨mem_range_of_getElem? hrecord, mem_range_of_getElem? hrecord',
      mem_parentIndices.mpr ⟨record', hrecord', hash, hmem, hindex hash heq⟩⟩
  · intro hacyclic i hcycle
    obtain ⟨j, ⟨hi, -⟩, -⟩ := Relation.TransGen.head'_iff.mp hcycle
    let first := retained.get ⟨i, List.mem_range.mp hi⟩
    let eventAt (j : ℕ) : Event := (retained[j]?).elim first.event (·.event)
    -- a link between positions is one between the events there
    refine hacyclic (eventAt i) (hcycle.lift eventAt fun p c hlink => ?_)
    obtain ⟨-, -, hmem⟩ := hlink
    obtain ⟨record, hrecord, hash, hparent, hindex⟩ := mem_parentIndices.mp hmem
    obtain ⟨parent, hget, heq⟩ := h.sound hindex
    have hp : eventAt p = parent.event := by simp only [eventAt, hget, Option.elim_some]
    have hc : eventAt c = record.event := by simp only [eventAt, hrecord, Option.elim_some]
    rw [Function.onFun, hp, hc]
    exact ⟨⟨parent, List.mem_of_getElem? hget, rfl⟩, ⟨record, List.mem_of_getElem? hrecord, rfl⟩,
      hash, heq, hparent⟩

/-- `topo_sort_retained` on records whose events can be hashed. -/
theorem topoSortRetained_spec
    (hhash : ∀ record ∈ retained, ∃ hash, H record.event = .ok hash)
    (hfree : H.CollisionFree (eventsOf retained)) :
    ((∃ order, topoSortRetained H retained = some order) ↔ AcyclicRecords H retained) ∧
      ∀ order, topoSortRetained H retained = some order →
        order.Perm (List.range retained.length) ∧
        ∀ before i after, order = before ++ i :: after → ∀ record, retained[i]? = some record →
          ∀ p ∈ record.event.parents, (∃ e ∈ eventsOf retained, H e = .ok p) →
            ∃ j ∈ before, ∃ copy, retained[j]? = some copy ∧ H copy.event = .ok p := by
  obtain ⟨index, hindex, hindexes⟩ := exists_indexByHash hhash
  obtain ⟨l, hl, hfirst, hlen, hperm⟩ := kahn_length_iff (parentIndices retained index)
    List.nodup_range (.refl (List.range retained.length))
  rw [List.length_range] at hlen hperm
  have hsort : topoSortRetained H retained =
      if l.length = retained.length then some l else none := by
    rw [topoSortRetained, hindex, Option.bind_eq_bind, Option.bind_some]
    show (kahn (parentIndices retained index) _ _ >>= _) = _
    rw [hl, Option.bind_eq_bind, Option.bind_some]
  rw [hsort, ← acyclic_parentIndices_iff hindexes hhash hfree, ← hlen]
  by_cases hall : l.length = retained.length
  · rw [if_pos hall]
    refine ⟨iff_of_true ⟨l, rfl⟩ hall, fun order horder => ?_⟩
    obtain rfl := Option.some.inj horder
    refine ⟨hperm hall, fun before i after heq record hrecord p hp hpresent => ?_⟩
    obtain ⟨e, he, hep⟩ := hpresent
    obtain ⟨j, copy, hj, hcopy, rfl⟩ := hindexes.exists_copy hfree he hep
    have hlink : j ∈ parentIndices retained index i :=
      mem_parentIndices.mpr ⟨record, hrecord, p, hp, hj⟩
    have hbefore := (hfirst.before heq hlink (mem_range_of_getElem? hcopy)).resolve_left
      List.not_mem_nil
    exact ⟨j, hbefore, copy, hcopy, hep⟩
  · rw [if_neg hall]
    refine ⟨iff_of_false nofun hall, nofun⟩

/-! ## Deltas -/

theorem map_fst_filterMap {events : ExtTreeMap EventHash Event} {l : List EventHash}
    (h : ∀ x ∈ l, x ∈ events) :
    (l.filterMap fun x => (events[x]?).map (x, ·)).map (·.1) = l := by
  induction l with
  | nil => rfl
  | cons x l ih =>
    obtain ⟨hx, hl⟩ := List.forall_mem_cons.mp h
    obtain ⟨e, he⟩ := Option.isSome_iff_exists.mp (ExtTreeMap.isSome_getElem?_iff_mem.mpr hx)
    rw [List.filterMap_cons_some (by rw [he, Option.map_some]), List.map_cons, ih hl]

/-- `topo_sort`. -/
theorem topoSort_spec (order : DeltaOrder) (events : ExtTreeMap EventHash Event) :
    ((∃ delta, topoSort order events = .ok delta) ↔ AcyclicDelta events) ∧
      ∀ delta, topoSort order events = .ok delta →
        (delta.map (·.1)).Nodup ∧ (∀ x e, (x, e) ∈ delta ↔ events[x]? = some e) ∧
        ∀ before x e after, delta = before ++ (x, e) :: after → ∀ p ∈ e.parents, p ∈ events →
          p ∈ before.map (·.1) := by
  obtain ⟨l, hfirst, ⟨hacyclic, hperm, hsorted⟩ | ⟨hcycle, hsorted⟩⟩ := topoSort_eq order events
  · rw [hsorted]
    refine ⟨iff_of_true ⟨_, rfl⟩ hacyclic, fun delta hdelta => ?_⟩
    obtain rfl := Except.ok.inj hdelta
    have hkeys := map_fst_filterMap fun x hx => ExtTreeMap.mem_keys.mp (hperm.mem_iff.mp hx)
    refine ⟨by rw [hkeys]; exact hfirst.nodup, mem_filterMap_of_perm hperm, ?_⟩
    intro before x e after heq p hp hmem
    have hsplit : l = before.map (·.1) ++ x :: after.map (·.1) := by
      rw [← hkeys, heq, List.map_append, List.map_cons]
    have he : events[x]? = some e :=
      (mem_filterMap_of_perm hperm x e).mp (heq ▸ List.mem_append_right _ List.mem_cons_self)
    have hlink : p ∈ (events[x]?).elim [] Event.parents := by rwa [he]
    exact (hfirst.before hsplit hlink (ExtTreeMap.mem_keys.mpr hmem)).resolve_left List.not_mem_nil
  · rw [hsorted]
    exact ⟨iff_of_false nofun hcycle, nofun⟩

/-! ## Both sorts -/

/-- On records whose events can be hashed `topo_sort_retained` returns an order exactly if the
parent relation has no cycle. The order is then one of all positions, and for each record a copy of
every parent in the list stands before it. `topo_sort` returns the events of a delta exactly if its
parent relation has no cycle, each of them once and after its parents in the delta. -/
theorem transfers_sorted_parents_first (H : Hasher) :
    (∀ retained : List RetainedEvent, H.CollisionFree (eventsOf retained) →
      (∀ record ∈ retained, ∃ hash, H record.event = .ok hash) →
      ((∃ order, topoSortRetained H retained = some order) ↔ AcyclicRecords H retained) ∧
        ∀ order, topoSortRetained H retained = some order →
          order.Perm (List.range retained.length) ∧
          ∀ before i after, order = before ++ i :: after → ∀ record, retained[i]? = some record →
            ∀ p ∈ record.event.parents, (∃ e ∈ eventsOf retained, H e = .ok p) →
              ∃ j ∈ before, ∃ copy, retained[j]? = some copy ∧ H copy.event = .ok p) ∧
    ∀ (order : DeltaOrder) (events : ExtTreeMap EventHash Event),
      ((∃ delta, topoSort order events = .ok delta) ↔ AcyclicDelta events) ∧
        ∀ delta, topoSort order events = .ok delta →
          (delta.map (·.1)).Nodup ∧ (∀ x e, (x, e) ∈ delta ↔ events[x]? = some e) ∧
          ∀ (before : List (EventHash × Event)) (x : EventHash) (e : Event)
            (after : List (EventHash × Event)), delta = before ++ (x, e) :: after →
            ∀ p ∈ e.parents, p ∈ events → p ∈ before.map (·.1) :=
  ⟨fun _ hfree hhash => topoSortRetained_spec hhash hfree, topoSort_spec⟩

open Hashgraph (plainEvent stampHash inOrder collisionFree_stampHash)

/-- A record of an event, without ordering. -/
def plainRetained (event : Event) : RetainedEvent := ⟨event, 1, 1, [], none, none⟩

/-- An event and a child of it, both twice and the child first. -/
def repeatedTransfer : List RetainedEvent :=
  [plainRetained (plainEvent 2 0 (some 1) none), plainRetained (plainEvent 1 0 none none),
    plainRetained (plainEvent 2 0 (some 1) none), plainRetained (plainEvent 1 0 none none)]

theorem transfers_sorted_parents_first_repeated :
    topoSortRetained stampHash repeatedTransfer = some [1, 3, 0, 2] ∧
      AcyclicRecords stampHash repeatedTransfer := by
  have hsorted : topoSortRetained stampHash repeatedTransfer = some [1, 3, 0, 2] := by
    decide +kernel
  have hevents : eventsOf repeatedTransfer ⊆
      {e | e ∈ [plainEvent 1 0 none none, plainEvent 2 0 (some 1) none]} := by
    rintro e ⟨record, hrecord, rfl⟩
    simp only [repeatedTransfer, List.mem_cons, List.not_mem_nil, or_false] at hrecord
    rcases hrecord with rfl | rfl | rfl | rfl <;> simp [plainRetained]
  have hfree : stampHash.CollisionFree (eventsOf repeatedTransfer) :=
    Hasher.CollisionFree.mono (collisionFree_stampHash (by decide)) hevents
  refine ⟨hsorted, ((transfers_sorted_parents_first stampHash).1 repeatedTransfer hfree
    fun record _ => ⟨_, rfl⟩).1.mp ⟨_, hsorted⟩⟩

/-- An event with one transaction of the given length. -/
def longEvent (len : ℕ) : Event :=
  { plainEvent 1 0 none none with payload := [⟨List.replicate len 0⟩] }

/-- `Event::hash` with the text of its error. -/
def Event.hasher (sha : Sha256) : Hasher := fun event =>
  (event.hash sha).mapError fun error =>
    "primitives error: " ++ error.field ++ " is out of range: " ++ error.got

/-- The length of a transaction is written in four bytes. -/
theorem hasher_longEvent_ne_ok {len : ℕ} (hlen : 2 ^ 32 ≤ len) (sha : Sha256) (hash : EventHash) :
    Event.hasher sha (longEvent len) ≠ .ok hash := by
  intro hhash
  obtain ⟨bytes, hbytes, -⟩ := bind_eq_ok_iff.mp (mapError_eq_ok_iff.mp hhash)
  obtain ⟨payload, hpayload, -⟩ := Event.canonicalBytes_eq_ok_iff.mp hbytes
  obtain ⟨parts, hparts, -⟩ := transactionsBytes_eq_ok_iff.mp hpayload
  cases hparts with
  | cons htx _ =>
    have hshort := (Transaction.canonicalBytes_eq_ok_iff.mp htx).1
    rw [List.length_replicate] at hshort
    exact absurd hshort (Nat.not_lt.mpr hlen)

theorem topoSortRetained_of_unhashable {event : Event} (hfails : ∀ hash, H event ≠ .ok hash) :
    topoSortRetained H [plainRetained event] = none := by
  cases hhash : H event with
  | ok hash => exact absurd hhash (hfails hash)
  | error error =>
    have hindex : indexByHash H [plainRetained event] = none := by
      rw [indexByHash, List.zipIdx_cons, List.foldlM_cons]
      simp only [plainRetained, hhash]
      rfl
    rw [topoSortRetained, hindex]
    rfl

/-- An event that cannot be hashed is the parent of no event. -/
theorem acyclicRecords_of_unhashable {event : Event} (hfails : ∀ hash, H event ≠ .ok hash) :
    AcyclicRecords H [plainRetained event] := by
  intro e hcycle
  obtain ⟨child, ⟨⟨record, hrecord, rfl⟩, -, hash, hhash, -⟩, -⟩ :=
    Relation.TransGen.head'_iff.mp hcycle
  rw [List.mem_singleton.mp hrecord] at hhash
  exact hfails hash hhash

/-- A single event without parents is not sorted if it has too long a transaction to be hashed. -/
theorem unhashable_not_sorted :
    ∃ event : Event, event.parents = [] ∧
      AcyclicRecords (Event.hasher fun _ => 0) [plainRetained event] ∧
      topoSortRetained (Event.hasher fun _ => 0) [plainRetained event] = none := by
  have hfails := hasher_longEvent_ne_ok (Nat.le_refl (2 ^ 32)) fun _ => 0
  exact ⟨longEvent (2 ^ 32), rfl, acyclicRecords_of_unhashable hfails,
    topoSortRetained_of_unhashable hfails⟩

end JKain
