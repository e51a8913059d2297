import JKain.Gossip.WireSpec

/-!
# The identity of an event

An event is known by the digest of its canonical bytes. Two decoders read these bytes back: the one
of the gossip frames, with a check of the declared number of transactions and texts for its errors,
and the one of retained events in the log, which returns nothing on any failure. They accept the same
strings, the canonical bytes of events, and return the event that has them, so an event is the same
one on whichever way it arrives.
-/

namespace JKain

open Std JKain.Lib JKain.Wire

/-- `Hashable::hash` of an event. -/
def Event.hash (sha : Sha256) (event : Event) : Except OutOfRange EventHash := do
  let bytes ← event.canonicalBytes
  return sha bytes

/-- `take_optional_hash` of the retained events. -/
def takeOptionalHash : Reader PUnit (Option EventHash) := do
  let tag ← takeByte ⟨⟩
  if tag = 0x00 then return none
  else if tag = 0x01 then do
    let hash ← takeNat ⟨⟩ 32
    return some hash
  else throw ⟨⟩

/-- The transactions of a retained event, a count and as many fields. -/
def takeTransactions : Reader PUnit (List (List UInt8)) := do
  let count ← takeNat ⟨⟩ 4
  takeMany (takeBytes ⟨⟩) count

/-- The fields of a retained event, up to the check of the end. -/
def takeEvent : Reader PUnit Event := do
  let creator ← takeNat ⟨⟩ 8
  let selfParent ← takeOptionalHash
  let otherParent ← takeOptionalHash
  let timestamp ← takeNat ⟨⟩ 8
  let payload ← takeTransactions
  let signature ← takeExact ⟨⟩ 64
  return ⟨creator, selfParent, otherParent, timestamp, payload.map Transaction.mk,
    .ofBytes signature⟩

/-- `decode_event_bytes`. -/
def decodeEventBytes (bytes : List UInt8) : Option Event := decodeAll takeEvent bytes

section Decoders

variable {event : Event} {bytes : List UInt8}

theorem takeTransactions_format :
    Format takeTransactions fun payloads taken =>
      transactionsBytes (payloads.map Transaction.mk) = .ok taken := by
  refine ((takeNat_format PUnit.unit 4).bind fun count =>
    takeMany_format (takeBytes_format PUnit.unit) count).congr fun payloads taken => ?_
  rw [transactionsBytes_eq_ok_iff]
  simp only [List.forall₂_map_left_iff, Transaction.canonicalBytes_eq_ok_iff, List.length_map]
  constructor
  · rintro ⟨parts, hparts, hlen, rfl⟩
    exact ⟨_, _, _, ⟨hlen, rfl⟩, ⟨parts, hparts, rfl, rfl⟩, rfl⟩
  · rintro ⟨count, _, _, ⟨hlen, rfl⟩, ⟨parts, hparts, rfl, rfl⟩, rfl⟩
    exact ⟨parts, hparts, hlen, rfl⟩

theorem takeEvent_format :
    Format takeEvent fun event taken => event.Fits ∧ event.canonicalBytes = .ok taken := by
  have hparent := (tagged_format (takeNat_format PUnit.unit 32) PUnit.unit fun _ => PUnit.unit).congr
    fun _ _ => tagged_hash_iff.symm
  exact event_format (takeNat_format _ 8) hparent (takeNat_format _ 8) takeTransactions_format
    (takeExact_format _ 64)

theorem decodeEventBytes_eq_some_iff :
    decodeEventBytes bytes = some event ↔ event.Fits ∧ event.canonicalBytes = .ok bytes :=
  decodeAll_eq_some_iff takeEvent_format

/-- The two decoders accept the same strings and return the same events. -/
theorem decodeEventBytes_eq (bytes : List UInt8) :
    decodeEventBytes bytes = (decodeEventField bytes).toOption := by
  ext event
  rw [decodeEventBytes_eq_some_iff, ← decodeEventField_eq_ok_iff]
  cases decodeEventField bytes <;> simp [Except.toOption]

/-- Events with the same canonical bytes are equal. -/
theorem Event.eq_of_canonicalBytes_eq {event' : Event} (hfits : event.Fits) (hfits' : event'.Fits)
    (h : event.canonicalBytes = .ok bytes) (h' : event'.canonicalBytes = .ok bytes) :
    event = event' :=
  (takeEvent_format.reads ⟨hfits, h⟩).eq_of_eq (takeEvent_format.reads ⟨hfits', h'⟩)

/-- Only an overlong transaction or list of transactions has no canonical bytes. -/
theorem Event.exists_canonicalBytes (hcount : event.payload.length < 2 ^ 32)
    (hsizes : ∀ tx ∈ event.payload, tx.payload.length < 2 ^ 32) :
    ∃ bytes, event.canonicalBytes = .ok bytes := by
  have hparts : List.Forall₂ (fun tx part => tx.canonicalBytes = .ok part) event.payload
      (event.payload.map fun tx => beBytes 4 tx.payload.length ++ tx.payload) := by
    refine List.forall₂_map_right_iff.mpr (List.forall₂_same.mpr fun tx htx => ?_)
    exact Transaction.canonicalBytes_eq_ok_iff.mpr ⟨hsizes tx htx, rfl⟩
  exact ⟨_, canonicalBytes_eq_ok_iff.mpr
    ⟨_, transactionsBytes_eq_ok_iff.mpr ⟨_, hparts, hcount, rfl⟩, rfl⟩⟩

end Decoders

/-- The canonical bytes identify an event. Events with the same bytes are equal, and so are events
with the same hash unless their bytes are a collision of the hash; each of the two decoders accepts
exactly the canonical bytes and returns the event that has them, so that they agree on every string;
and only events with an overlong transaction or list of transactions have none. -/
theorem event_identity_is_canonical (sha : Sha256) :
    (∀ e e' bytes, e.Fits → e'.Fits → Event.canonicalBytes e = .ok bytes →
      Event.canonicalBytes e' = .ok bytes → e = e') ∧
    (∀ e e' bytes bytes' hash, e.Fits → e'.Fits → Event.canonicalBytes e = .ok bytes →
      Event.canonicalBytes e' = .ok bytes' → (sha bytes = sha bytes' → bytes = bytes') →
        e.hash sha = .ok hash → e'.hash sha = .ok hash → e = e') ∧
    (∀ bytes e, decodeEventField bytes = .ok e ↔ e.Fits ∧ e.canonicalBytes = .ok bytes) ∧
    (∀ bytes e, decodeEventBytes bytes = some e ↔ e.Fits ∧ e.canonicalBytes = .ok bytes) ∧
    (∀ bytes, decodeEventBytes bytes = (decodeEventField bytes).toOption) ∧
    ∀ e : Event, e.payload.length < 2 ^ 32 → (∀ tx ∈ e.payload, tx.payload.length < 2 ^ 32) →
      ∃ bytes, e.canonicalBytes = .ok bytes := by
  refine ⟨?_, ?_, fun _ _ => decodeEventField_eq_ok_iff, fun _ _ => decodeEventBytes_eq_some_iff,
    decodeEventBytes_eq, fun _ => Event.exists_canonicalBytes⟩
  · intro e e' bytes hfits hfits' h h'
    exact Event.eq_of_canonicalBytes_eq hfits hfits' h h'
  · intro e e' bytes bytes' hash hfits hfits' h h' hcollision hhash hhash'
    simp only [Event.hash, h, h', bind, Except.bind, pure, Except.pure, Except.ok.injEq]
      at hhash hhash'
    obtain rfl := hcollision (hhash.trans hhash'.symm)
    exact Event.eq_of_canonicalBytes_eq hfits hfits' h h'

/-- A first event of member 1 with one transaction is read back by both decoders. -/
theorem event_identity_is_canonical_first :
    ∃ bytes, Event.canonicalBytes ⟨1, none, none, 7, [⟨[5]⟩], .ofBytes []⟩ = .ok bytes ∧
      decodeEventField bytes = .ok ⟨1, none, none, 7, [⟨[5]⟩], .ofBytes []⟩ ∧
      decodeEventBytes bytes = some ⟨1, none, none, 7, [⟨[5]⟩], .ofBytes []⟩ := by
  obtain ⟨-, -, hfield, hbytes, -, hencodes⟩ := event_identity_is_canonical fromBe
  obtain ⟨bytes, h⟩ := hencodes ⟨1, none, none, 7, [⟨[5]⟩], .ofBytes []⟩ (by decide) (by decide)
  have hfits : Event.Fits ⟨1, none, none, 7, [⟨[5]⟩], .ofBytes []⟩ :=
    ⟨by decide, by simp, by simp, by decide⟩
  exact ⟨bytes, h, (hfield bytes _).mpr ⟨hfits, h⟩, (hbytes bytes _).mpr ⟨hfits, h⟩⟩

end JKain
