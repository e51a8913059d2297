import JKain.Executor.ExecutorSpec
import JKain.Executor.CodecSpec

/-!
# The records of identities in the state

The reserved keys of the state hold three kinds of records: documents, root actors and sub-actors.
An `Entry` is such a record with the key it belongs under. In a `Canonical` state every reserved key
holds the encoding of a valid entry in its place, and reading the state is looking entries up.
`Change` lists what an accepted operation on identities writes, as entries: it is all that can
happen to the reserved keys.
-/

namespace JKain

open Std Lib

/-! ## Reading and writing keys -/

namespace State

variable {sha : Sha256} {state : State}

theorem get_apply_put (key value key' : List UInt8) :
    (state.apply sha (.put key value)).get key' =
      if key = key' then some value else state.get key' := by
  simp only [get, apply, ExtTreeMap.getElem?_insert, Std.compare_eq_iff_eq]

theorem get_apply_of_ne {op : Op} {key : List UInt8} (h : op.key ≠ key) :
    (state.apply sha op).get key = state.get key := by
  cases op with
  | put key' value =>
    rw [get_apply_put]
    exact if_neg h
  | delete key' =>
    simp only [get, apply, ExtTreeMap.getElem?_erase, Std.compare_eq_iff_eq]
    exact if_neg h

end State

/-! ## Entries -/

/-- Where a record is stored: the document of an identity, or the record of an actor. -/
inductive Slot
  | document (id : DidId)
  | actor (id : ActorId)

namespace Slot

/-- The key of a slot. -/
def key : Slot → List UInt8
  | document id => didStateKey id
  | actor id => actorStateKey id

/-- The slots whose identifiers can be decoded. -/
def Valid : Slot → Prop
  | document id => id.Valid
  | actor id => id.Valid

theorem reserved (slot : Slot) : Reserved slot.key := by
  cases slot with
  | document id => exact .inl rfl
  | actor id => exact .inr rfl

/-- Different slots have different keys. -/
theorem key_inj {slot slot' : Slot} (h : slot.Valid) (h' : slot'.Valid)
    (hkey : slot.key = slot'.key) : slot = slot' := by
  cases slot with
  | document id =>
    cases slot' with
    | document id' => exact congrArg document (didStateKey_inj h h' hkey)
    | actor id' => exact absurd (List.cons.inj hkey).1 (by decide)
  | actor id =>
    cases slot' with
    | document id' => exact absurd (List.cons.inj hkey).1 (by decide)
    | actor id' => exact congrArg actor (actorStateKey_inj h h' hkey)

end Slot

/-- A record. -/
inductive Entry
  | document (id : DidId) (doc : DidDocument)
  | root (actor : RootActor)
  | sub (actor : SubActor)

namespace Entry

/-- Where the record is stored. -/
def slot : Entry → Slot
  | document id _ => .document id
  | root actor => .actor (.root actor.didId)
  | sub actor => .actor actor.actorId

/-- What is stored for it. -/
def value : Entry → List UInt8
  | document _ doc => doc.encode
  | root actor => actor.encode
  | sub actor => actor.encode

/-- The records that can be decoded. -/
def Valid (c : Crypto) : Entry → Prop
  | document id doc => id.Valid ∧ doc.Valid c
  | root actor => actor.Valid c
  | sub actor => actor.Valid c

/-- The write that stores a record. -/
def write (entry : Entry) : Write := (entry.slot.key, entry.value)

variable {c : Crypto} {e e' : Entry}

theorem Valid.slot (h : e.Valid c) : e.slot.Valid := by
  cases e with
  | document id doc => exact h.1
  | root actor => exact RootActor.Valid.didId h
  | sub actor => exact SubActor.Valid.actorId h

/-- The record of a sub-actor is in no root actor's slot. -/
theorem Valid.slot_ne_root {actor : SubActor} (h : (sub actor).Valid c) (id : DidId) :
    (sub actor).slot ≠ .actor (.root id) := by
  obtain ⟨rootDid, tag, index, hsub⟩ := SubActor.Valid.isSub h
  intro hslot
  rw [Entry.slot, hsub] at hslot
  cases hslot

/-- A record is determined by its slot and its bytes. -/
theorem eq_of_value_eq (h : e.Valid c) (h' : e'.Valid c) (hslot : e.slot = e'.slot)
    (hvalue : e.value = e'.value) : e = e' := by
  cases e with
  | document id doc =>
    cases e' with
    | document id' doc' =>
      obtain rfl := Slot.document.inj hslot
      have hreads : Reads (DidDocument.decode c) doc.encode doc' :=
        (show doc.encode = doc'.encode from hvalue) ▸ DidDocument.decode_reads h'.2
      rw [(DidDocument.decode_reads h.2).eq_of_eq hreads]
    | root actor => cases hslot
    | sub actor => cases hslot
  | root actor =>
    cases e' with
    | document id doc => cases hslot
    | root actor' =>
      have hreads : Reads (RootActor.decode c) actor.encode actor' :=
        (show actor.encode = actor'.encode from hvalue) ▸ RootActor.decode_reads h'
      rw [(RootActor.decode_reads h).eq_of_eq hreads]
    | sub actor' => exact absurd hslot.symm (Valid.slot_ne_root h' _)
  | sub actor =>
    cases e' with
    | document id doc => cases hslot
    | root actor' => exact absurd hslot (Valid.slot_ne_root h _)
    | sub actor' =>
      have hreads : Reads (SubActor.decode c) actor.encode actor' :=
        (show actor.encode = actor'.encode from hvalue) ▸ SubActor.decode_reads h'
      rw [(SubActor.decode_reads h).eq_of_eq hreads]

end Entry

/-! ## Entries of a state -/

section Has

variable {c : Crypto} {state : State}

/-- The record is valid and stored in its slot. -/
structure State.Has (c : Crypto) (state : State) (entry : Entry) : Prop where
  valid : entry.Valid c
  get : state.get entry.slot.key = some entry.value

/-- A slot holds one record. -/
theorem State.Has.eq {e e' : Entry} (h : state.Has c e) (h' : state.Has c e')
    (hslot : e.slot = e'.slot) : e = e' := by
  refine Entry.eq_of_value_eq h.valid h'.valid hslot (Option.some.inj ?_)
  rw [← h.get, hslot, h'.get]

/-- The state after a record is stored. -/
def State.store (c : Crypto) (state : State) (entry : Entry) : State :=
  state.apply c.sha (.put entry.slot.key entry.value)

theorem State.has_store_iff {e e' : Entry} (he : e.Valid c) :
    (state.store c e).Has c e' ↔ e' = e ∨ (e'.slot ≠ e.slot ∧ state.Has c e') := by
  constructor
  · intro h
    have hget := h.get
    rw [State.store, State.get_apply_put] at hget
    split at hget
    · rename_i hkey
      have hslot := Slot.key_inj h.valid.slot he.slot hkey.symm
      exact .inl (Entry.eq_of_value_eq h.valid he hslot (Option.some.inj hget).symm)
    · rename_i hkey
      exact .inr ⟨fun hslot => hkey (by rw [hslot]), h.valid, hget⟩
  · rintro (rfl | ⟨hslot, h⟩)
    · exact ⟨he, by rw [State.store, State.get_apply_put, if_pos rfl]⟩
    · refine ⟨h.valid, ?_⟩
      rw [State.store, State.get_apply_put, if_neg, h.get]
      exact fun hkey => hslot (Slot.key_inj h.valid.slot he.slot hkey.symm)

section Kinds

variable {id id' : DidId} {doc doc' : DidDocument} {root root' : RootActor} {actor actor' : SubActor}

theorem State.has_document_store_document (he : (Entry.document id doc).Valid c) :
    (state.store c (.document id doc)).Has c (.document id' doc') ↔
      (id' = id ∧ doc' = doc) ∨ (id' ≠ id ∧ state.Has c (.document id' doc')) := by
  simp only [State.has_store_iff he, Entry.document.injEq, Entry.slot, ne_eq, Slot.document.injEq]

theorem State.has_document_store_root (he : (Entry.root root).Valid c) :
    (state.store c (.root root)).Has c (.document id' doc') ↔
      state.Has c (.document id' doc') := by
  simp only [State.has_store_iff he, reduceCtorEq, Entry.slot, ne_eq, not_false_eq_true, true_and,
    false_or]

theorem State.has_document_store_sub (he : (Entry.sub actor).Valid c) :
    (state.store c (.sub actor)).Has c (.document id' doc') ↔
      state.Has c (.document id' doc') := by
  simp only [State.has_store_iff he, reduceCtorEq, Entry.slot, ne_eq, not_false_eq_true, true_and,
    false_or]

theorem State.has_root_store_document (he : (Entry.document id doc).Valid c) :
    (state.store c (.document id doc)).Has c (.root root') ↔ state.Has c (.root root') := by
  simp only [State.has_store_iff he, reduceCtorEq, Entry.slot, ne_eq, not_false_eq_true, true_and,
    false_or]

theorem State.has_root_store_root (he : (Entry.root root).Valid c) :
    (state.store c (.root root)).Has c (.root root') ↔
      root' = root ∨ (root'.didId ≠ root.didId ∧ state.Has c (.root root')) := by
  simp only [State.has_store_iff he, Entry.root.injEq, Entry.slot, ne_eq, Slot.actor.injEq,
    ActorId.root.injEq]

theorem State.has_root_store_sub (he : (Entry.sub actor).Valid c) :
    (state.store c (.sub actor)).Has c (.root root') ↔ state.Has c (.root root') := by
  have hslot : (Entry.root root').slot ≠ (Entry.sub actor).slot :=
    (Entry.Valid.slot_ne_root he root'.didId).symm
  simp only [State.has_store_iff he, reduceCtorEq, hslot, ne_eq, not_false_eq_true, true_and,
    false_or]

theorem State.has_sub_store_document (he : (Entry.document id doc).Valid c) :
    (state.store c (.document id doc)).Has c (.sub actor') ↔ state.Has c (.sub actor') := by
  simp only [State.has_store_iff he, reduceCtorEq, Entry.slot, ne_eq, not_false_eq_true, true_and,
    false_or]

theorem State.has_sub_store_root (he : (Entry.root root).Valid c) :
    (state.store c (.root root)).Has c (.sub actor') ↔ state.Has c (.sub actor') := by
  simp only [State.has_store_iff he, reduceCtorEq, false_or]
  exact and_iff_right_of_imp fun h => Entry.Valid.slot_ne_root h.valid root.didId

theorem State.has_sub_store_sub (he : (Entry.sub actor).Valid c) :
    (state.store c (.sub actor)).Has c (.sub actor') ↔
      actor' = actor ∨ (actor'.actorId ≠ actor.actorId ∧ state.Has c (.sub actor')) := by
  simp only [State.has_store_iff he, Entry.sub.injEq, Entry.slot, ne_eq, Slot.actor.injEq]

end Kinds

/-- Every reserved key holds the encoding of a valid record in its slot. -/
def State.Canonical (c : Crypto) (state : State) : Prop :=
  ∀ key value, Reserved key → state.get key = some value →
    ∃ entry, state.Has c entry ∧ entry.slot.key = key ∧ entry.value = value

theorem State.Canonical.store (h : state.Canonical c) {entry : Entry} (he : entry.Valid c) :
    (state.store c entry).Canonical c := by
  intro key value hreserved hget
  rw [State.store, State.get_apply_put] at hget
  split at hget
  · rename_i hkey
    exact ⟨entry, (State.has_store_iff he).mpr (.inl rfl), hkey, Option.some.inj hget⟩
  · rename_i hkey
    obtain ⟨e, hhas, heq, hvalue⟩ := h key value hreserved hget
    refine ⟨e, (State.has_store_iff he).mpr (.inr ⟨fun hslot => hkey ?_, hhas⟩), heq, hvalue⟩
    rw [← hslot, heq]

/-- In a canonical state a slot that is not empty holds a record. -/
theorem State.Canonical.exists_has (h : state.Canonical c) (slot : Slot) (hslot : slot.Valid)
    {value : List UInt8} (hget : state.get slot.key = some value) :
    ∃ entry, state.Has c entry ∧ entry.slot = slot ∧ entry.value = value := by
  obtain ⟨entry, hhas, hkey, hvalue⟩ := h slot.key value slot.reserved hget
  exact ⟨entry, hhas, Slot.key_inj hhas.valid.slot hslot hkey, hvalue⟩

/-- The record of a sub-actor, if it can be read. -/
def storedSub (c : Crypto) (state : State) (id : ActorId) : Option SubActor :=
  (state.get (actorStateKey id)).bind (decodeAll (SubActor.decode c))

theorem storedDocument_eq_some_iff (h : state.Canonical c) {id : DidId} (hid : id.Valid)
    {doc : DidDocument} :
    storedDocument c state id = some doc ↔ state.Has c (.document id doc) := by
  constructor
  · intro hstored
    obtain ⟨value, hget, hdecode⟩ := Option.bind_eq_some_iff.mp hstored
    obtain ⟨entry, hhas, hslot, rfl⟩ := h.exists_has (.document id) hid hget
    cases entry with
    | document id' doc' =>
      obtain rfl := Slot.document.inj hslot
      rw [Entry.value, decodeAll_of_reads (DidDocument.decode_reads hhas.valid.2)] at hdecode
      exact Option.some.inj hdecode ▸ hhas
    | root actor => cases hslot
    | sub actor => cases hslot
  · intro hhas
    exact Option.bind_eq_some_iff.mpr
      ⟨_, hhas.get, decodeAll_of_reads (DidDocument.decode_reads hhas.valid.2)⟩

theorem storedRoot_eq_some_iff (h : state.Canonical c) {id : DidId} (hid : id.Valid)
    {root : RootActor} :
    storedRoot c state id = some root ↔ root.didId = id ∧ state.Has c (.root root) := by
  constructor
  · intro hstored
    obtain ⟨value, hget, hdecode⟩ := Option.bind_eq_some_iff.mp hstored
    obtain ⟨entry, hhas, hslot, rfl⟩ := h.exists_has (.actor (.root id)) hid hget
    cases entry with
    | document id' doc => cases hslot
    | root actor =>
      rw [Entry.value, decodeAll_of_reads (RootActor.decode_reads hhas.valid)] at hdecode
      obtain rfl := Option.some.inj hdecode
      exact ⟨ActorId.root.inj (Slot.actor.inj hslot), hhas⟩
    | sub actor => exact absurd hslot (Entry.Valid.slot_ne_root hhas.valid id)
  · rintro ⟨rfl, hhas⟩
    exact Option.bind_eq_some_iff.mpr
      ⟨_, hhas.get, decodeAll_of_reads (RootActor.decode_reads hhas.valid)⟩

theorem storedSub_eq_some_iff (h : state.Canonical c) {rootDid : DidId} {tag : Tag} {index : ℕ}
    (hid : (ActorId.sub rootDid tag index).Valid) {actor : SubActor} :
    storedSub c state (.sub rootDid tag index) = some actor ↔
      actor.actorId = .sub rootDid tag index ∧ state.Has c (.sub actor) := by
  constructor
  · intro hstored
    obtain ⟨value, hget, hdecode⟩ := Option.bind_eq_some_iff.mp hstored
    obtain ⟨entry, hhas, hslot, rfl⟩ :=
      h.exists_has (.actor (.sub rootDid tag index)) hid hget
    cases entry with
    | document id' doc => cases hslot
    | root actor' => cases hslot
    | sub actor' =>
      rw [Entry.value, decodeAll_of_reads (SubActor.decode_reads hhas.valid)] at hdecode
      obtain rfl := Option.some.inj hdecode
      exact ⟨Slot.actor.inj hslot, hhas⟩
  · rintro ⟨hactor, hhas⟩
    have hget := hhas.get
    rw [Entry.slot, hactor] at hget
    exact Option.bind_eq_some_iff.mpr
      ⟨_, hget, decodeAll_of_reads (SubActor.decode_reads hhas.valid)⟩

end Has

/-! ## What an operation changes -/

/-- The records an accepted operation on identities stores, one after the other, with what its
checks have found in the state, signatures aside. -/
inductive Change (c : Crypto) (state : State) : DecodedOp → List Entry → Prop
  | create {op : DidOp} (hop : op.Valid c) (hcreation : op.isCreation = true)
      (hnew : state.get (didStateKey op.id) = none) (hactive : op.document.deactivated = false) :
      Change c state (.did op) [.document op.id op.document,
        .root ⟨op.id, emptyRoot, 0, op.document.controlKey⟩]
  | update {op : DidOp} {prior : DidDocument} {root : RootActor} (hop : op.Valid c)
      (hcreation : op.isCreation = false) (hprior : storedDocument c state op.id = some prior)
      (hpriorActive : prior.deactivated = false) (hactive : op.document.deactivated = false)
      (hroot : root = (storedRoot c state op.id).getD ⟨op.id, emptyRoot, 0, []⟩) :
      Change c state (.did op) [.document op.id op.document,
        .root ⟨op.id, root.merkleRoot, root.leafCount, op.document.controlKey⟩]
  | deactivate {op : DidOp} {prior : DidDocument} (hop : op.Valid c)
      (hcreation : op.isCreation = false) (hprior : storedDocument c state op.id = some prior)
      (hpriorActive : prior.deactivated = false) (hinactive : op.document.deactivated = true) :
      Change c state (.did op) [.document op.id op.document]
  | mint {op : SubActorOp} {doc : DidDocument} {root : RootActor} (hop : op.Valid c)
      (hnew : state.get (actorStateKey op.actorId) = none)
      (hdoc : storedDocument c state op.rootDid = some doc)
      (hroot : storedRoot c state op.rootDid = some root)
      (hproofs : checkSubActorProofs c op root = .ok ()) :
      Change c state (.subActor op) [.sub ⟨op.actorId, op.controlKey, op.operatingKey⟩,
        .root ⟨op.rootDid, op.newRoot, root.leafCount + 1, root.controlKey⟩]
  | rebind {op : RebindOp} {rootDid : DidId} {tag : Tag} {index : ℕ} {actor : SubActor}
      (hop : op.Valid c) (hid : op.actorId = .sub rootDid tag index)
      (hactor : storedSub c state op.actorId = some actor) :
      Change c state (.rebind op) [.sub ⟨op.actorId, actor.controlKey, op.newOperatingKey⟩]

section Change

variable {c : Crypto} {state : State}

theorem State.applyWrites_map_write (entries : List Entry) :
    state.applyWrites c (entries.map Entry.write) = entries.foldl (State.store c) state := by
  rw [State.applyWrites, List.foldl_map]
  rfl

/-- An accepted operation stores valid records. -/
theorem Change.valid {op : DecodedOp} {entries : List Entry} (h : Change c state op entries) :
    ∀ entry ∈ entries, entry.Valid c := by
  cases h with
  | create hop hcreation hnew hactive =>
    rw [List.forall_mem_cons, List.forall_mem_singleton]
    exact ⟨⟨hop.id, hop.document⟩, hop.id, emptyRoot_lt, (by decide : 0 < 256 ^ 8),
      hop.document.controlKey⟩
  | update hop hcreation hprior hpriorActive hactive hroot =>
    rename_i op prior root
    have hbounds : root.merkleRoot < 256 ^ 32 ∧ root.leafCount < 256 ^ 8 := by
      cases hstored : storedRoot c state op.id with
      | none =>
        rw [hroot, hstored]
        exact ⟨emptyRoot_lt, (by decide : 0 < 256 ^ 8)⟩
      | some root' =>
        obtain ⟨value, -, hdecode⟩ := Option.bind_eq_some_iff.mp hstored
        have hvalid := decodeAll_ensures RootActor.decode_ensures hdecode
        rw [hroot, hstored]
        exact ⟨hvalid.merkleRoot, hvalid.leafCount⟩
    rw [List.forall_mem_cons, List.forall_mem_singleton]
    exact ⟨⟨hop.id, hop.document⟩, hop.id, hbounds.1, hbounds.2, hop.document.controlKey⟩
  | deactivate hop hcreation hprior hpriorActive hinactive =>
    rw [List.forall_mem_singleton]
    exact ⟨hop.id, hop.document⟩
  | mint hop hnew hdoc hroot hproofs =>
    rename_i op doc root
    obtain ⟨value, -, hdecode⟩ := Option.bind_eq_some_iff.mp hroot
    have hvalid := decodeAll_ensures RootActor.decode_ensures hdecode
    -- The new number of leaves is the one in the inclusion proof, which fits its field.
    have hcount : root.leafCount + 1 < 256 ^ 8 := by
      have hleaf := hop.leafCount
      simp only [checkSubActorProofs] at hproofs
      split_ifs at hproofs with hinclusion hconsistency
      simp only [Bool.or_eq_true, decide_eq_true_eq, not_or, not_not] at hinclusion
      omega
    rw [List.forall_mem_cons, List.forall_mem_singleton]
    exact ⟨⟨⟨hop.rootDid, hop.index⟩, ⟨_, _, _, rfl⟩, hop.controlKey, hop.operatingKey⟩,
      hop.rootDid, hop.newRoot, hcount, hvalid.controlKey⟩
  | rebind hop hid hactor =>
    obtain ⟨value, -, hdecode⟩ := Option.bind_eq_some_iff.mp hactor
    have hvalid := decodeAll_ensures SubActor.decode_ensures hdecode
    rw [List.forall_mem_singleton]
    exact ⟨hop.actorId, ⟨_, _, _, hid⟩, hvalid.controlKey, hop.newOperatingKey⟩

/-- The mint of a decoded operation. -/
def DecodedOp.mint? : DecodedOp → Option SubActorOp
  | subActor op => some op
  | _ => none

/-- The mint a transaction makes, if it is accepted. -/
def minted (c : Crypto) (state : State) (tx : Transaction) : Option SubActorOp :=
  match DecodedOp.decode c tx.payload with
  | .ok (.subActor op) =>
    match subActorWrites c state op with
    | .ok _ => some op
    | .error _ => none
  | _ => none

theorem didWrites_change {op : DidOp} (hop : op.Valid c) {writes : List Write}
    (h : didWrites c state op = .ok writes) :
    ∃ entries, writes = entries.map Entry.write ∧ Change c state (.did op) entries := by
  rw [didWrites] at h
  cases hcheck : checkDidOp c state op with
  | error error => rw [hcheck] at h; cases h
  | ok u =>
    rw [hcheck] at h
    obtain rfl := Except.ok.inj h
    rw [checkDidOp] at hcheck
    split at hcheck
    · cases hcheck
    · cases hcheck
    · rename_i hcreation hnew
      split at hcheck
      · cases hcheck
      · rename_i hactive
        rw [Bool.not_eq_true] at hactive
        refine ⟨_, ?_, .create hop hcreation hnew hactive⟩
        simp only [didRootWrite, hactive, hcreation, Bool.false_eq_true, if_true, if_false]
        rfl
    · rename_i encoded hcreation hget
      split at hcheck
      · cases hcheck
      · rename_i prior hdecode
        split at hcheck
        · cases hcheck
        · rename_i hpriorActive
          rw [Bool.not_eq_true] at hpriorActive
          have hprior : storedDocument c state op.id = some prior :=
            Option.bind_eq_some_iff.mpr ⟨encoded, hget, hdecode⟩
          cases hactive : op.document.deactivated with
          | true =>
            refine ⟨_, ?_, .deactivate hop hcreation hprior hpriorActive hactive⟩
            simp only [didRootWrite, hactive, if_true]
            rfl
          | false =>
            refine ⟨_, ?_, .update hop hcreation hprior hpriorActive hactive rfl⟩
            simp only [didRootWrite, hactive, hcreation, Bool.false_eq_true, if_false]
            cases storedRoot c state op.id with
            | none => rfl
            | some root => rfl

theorem subActorWrites_change {op : SubActorOp} (hop : op.Valid c) {writes : List Write}
    (h : subActorWrites c state op = .ok writes) :
    ∃ entries, writes = entries.map Entry.write ∧ Change c state (.subActor op) entries := by
  rw [subActorWrites] at h
  split at h
  · cases h
  · rename_i hcontains
    rw [State.contains, Bool.not_eq_true, Option.isSome_eq_false_iff, Option.isNone_iff_eq_none]
      at hcontains
    split at h
    · cases h
    · rename_i doc hdoc
      split at h
      · cases h
      · split at h
        · cases h
        · rename_i root hroot
          split at h
          · cases h
          · split at h
            · cases h
            · split at h
              · cases h
              · rename_i hproofs
                obtain rfl := Except.ok.inj h
                exact ⟨_, rfl, .mint hop hcontains hdoc hroot hproofs⟩

theorem rebindWrites_change {op : RebindOp} (hop : op.Valid c) {writes : List Write}
    (h : rebindWrites c state op = .ok writes) :
    ∃ entries, writes = entries.map Entry.write ∧ Change c state (.rebind op) entries := by
  rw [rebindWrites] at h
  split at h
  · cases h
  · rename_i rootDid tag index hid
    split at h
    · cases h
    · rename_i actor hactor
      split at h
      · cases h
      · split at h
        · cases h
        · split at h
          · cases h
          · dsimp only at h
            split_ifs at h
            obtain rfl := Except.ok.inj h
            exact ⟨_, rfl, .rebind hop hid hactor⟩

/-- What a transaction does to the records: it stores those of an accepted operation, or it touches
none of them. -/
theorem State.applyTransaction_cases (c : Crypto) (state : State) (tx : Transaction) :
    (∃ op entries, DecodedOp.decode c tx.payload = .ok op ∧ Change c state op entries ∧
        state.applyTransaction c tx = entries.foldl (State.store c) state ∧
        minted c state tx = op.mint?) ∨
      ((∀ key, Reserved key → (state.applyTransaction c tx).get key = state.get key) ∧
        minted c state tx = none) := by
  rw [State.applyTransaction, minted]
  cases hdecode : DecodedOp.decode c tx.payload with
  | error error => exact .inr ⟨fun _ _ => rfl, rfl⟩
  | ok op =>
    have hvalid := DecodedOp.decode_valid hdecode
    cases op with
    | kv op =>
      refine .inr ⟨fun key hkey => State.get_apply_of_ne fun heq => ?_, rfl⟩
      exact hvalid (heq ▸ hkey)
    | membership op => exact .inr ⟨fun _ _ => rfl, rfl⟩
    | did op =>
      dsimp only
      cases hwrites : didWrites c state op with
      | error error => exact .inr ⟨fun _ _ => rfl, rfl⟩
      | ok writes =>
        obtain ⟨entries, rfl, hchange⟩ := didWrites_change hvalid hwrites
        exact .inl ⟨_, entries, rfl, hchange, State.applyWrites_map_write entries, rfl⟩
    | subActor op =>
      dsimp only
      cases hwrites : subActorWrites c state op with
      | error error => exact .inr ⟨fun _ _ => rfl, rfl⟩
      | ok writes =>
        obtain ⟨entries, rfl, hchange⟩ := subActorWrites_change hvalid hwrites
        exact .inl ⟨_, entries, rfl, hchange, State.applyWrites_map_write entries, rfl⟩
    | rebind op =>
      dsimp only
      cases hwrites : rebindWrites c state op with
      | error error => exact .inr ⟨fun _ _ => rfl, rfl⟩
      | ok writes =>
        obtain ⟨entries, rfl, hchange⟩ := rebindWrites_change hvalid hwrites
        exact .inl ⟨_, entries, rfl, hchange, State.applyWrites_map_write entries, rfl⟩

end Change

end JKain
