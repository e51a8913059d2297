import JKain.Gossip.Wire
import JKain.Lib.Checks
import JKain.Executor.Formats

/-!
# The format of events on the wire

Each reader of a field is matched with its encoder: it takes exactly the bytes the encoder writes.
Counted lists and events are put together from such fields.
-/

namespace JKain

open Std Lib

-- The substitutions below would otherwise evaluate the encodings of numbers.
attribute [local irreducible] beBytes

namespace Wire

/-! ## Fields -/

theorem read_format (len : ℕ) :
    Format (read len) fun bytes taken => bytes.length = len ∧ taken = bytes :=
  takeExact_format _ len

theorem readNat_format (width : ℕ) :
    Format (readNat width) fun n taken => n < 256 ^ width ∧ taken = beBytes width n :=
  takeNat_format _ width

theorem readField_format :
    Format readField fun bytes taken =>
      bytes.length < 2 ^ 32 ∧ taken = beBytes 4 bytes.length ++ bytes :=
  takeBytes_format _

section Optional

variable {α : Type} {R : α → List UInt8 → Prop}

theorem readOptional_format {value : Reader FramingError α} (h : Format value R) (text : String) :
    Format (readOptional value text) (Tagged R) :=
  tagged_format h _ fun tag => text ++ hexByte tag

end Optional

/-! ## Lists -/

section Counted

variable {α : Type} {R : α → List UInt8 → Prop}

theorem checkCount_eq {count size : ℕ} {cursor : List UInt8} (hsize : 0 < size)
    (h : count * size ≤ cursor.length) : checkCount count size cursor = .ok (⟨⟩, cursor) := by
  have hle : count ≤ cursor.length / size := (Nat.le_div_iff_mul_le hsize).mpr h
  simp [checkCount, require, Bind.bind, StateT.bind, hle, get, getThe, MonadStateOf.get, StateT.get,
    Pure.pure, Except.pure, Except.bind]
  rfl

theorem checkCount_parses (count size : ℕ) :
    Parses (checkCount count size) fun _ taken => taken = [] := by
  intro input a rest hrun
  have hrest : rest = input := by
    simp only [checkCount, require, Bind.bind, StateT.bind, get, getThe, MonadStateOf.get,
      StateT.get, Pure.pure, Except.pure, Except.bind] at hrun
    split at hrun
    · exact (Prod.mk.inj (Except.ok.inj hrun)).2.symm
    · cases hrun
  exact ⟨[], by rw [hrest]; rfl, rfl⟩

/-- A counted list of entries whose encodings are long enough for the check of the count. -/
theorem readCounted_format {entry : Reader FramingError α} (h : Format entry R) {size : ℕ}
    (hpos : 0 < size) (hsize : ∀ a bytes, R a bytes → size ≤ bytes.length) :
    Format (readCounted entry size) fun l taken =>
      ∃ parts, List.Forall₂ R l parts ∧ l.length < 2 ^ 32 ∧
        taken = beBytes 4 l.length ++ parts.flatten where
  reads := by
    rintro l _ ⟨parts, hparts, hlen, rfl⟩
    refine ((readNat_format 4).reads ⟨hlen, rfl⟩).bind fun rest => ?_
    have hcheck : checkCount l.length size (parts.flatten ++ rest) =
        .ok (⟨⟩, parts.flatten ++ rest) := by
      refine checkCount_eq hpos ?_
      have hle := mul_le_length_flatten hsize hparts
      rw [List.length_append]
      omega
    simp only [Bind.bind, StateT.bind, hcheck, Except.bind]
    exact (takeMany_format h l.length).reads ⟨parts, hparts, rfl, rfl⟩ rest
  parses input l rest hrun := by
    simp only [readCounted, Bind.bind, StateT.bind, Except.bind] at hrun
    cases hcount : readNat 4 input with
    | error e => rw [hcount] at hrun; cases hrun
    | ok p =>
      obtain ⟨first, hinput, hlt, rfl⟩ := (readNat_format 4).parses input p.1 p.2 hcount
      rw [hcount] at hrun
      dsimp only at hrun
      cases hcheck : checkCount p.1 size p.2 with
      | error e => rw [hcheck] at hrun; cases hrun
      | ok q =>
        obtain ⟨none, hq, rfl⟩ := checkCount_parses p.1 size p.2 q.1 q.2 hcheck
        rw [hcheck] at hrun
        obtain ⟨taken, hq', parts, hparts, hlen, rfl⟩ :=
          (takeMany_format h p.1).parses q.2 l rest hrun
        refine ⟨_, ?_, parts, hparts, hlen ▸ hlt, rfl⟩
        rw [hinput, hq, hq', hlen, List.nil_append, List.append_assoc]

end Counted

end Wire

/-! ## Events -/

theorem tryU32_eq_ok_iff {field : String} {n m : ℕ} :
    tryU32 field n = .ok m ↔ n < 2 ^ 32 ∧ m = n := by
  rw [tryU32]
  split
  · rename_i h
    exact ⟨fun heq => ⟨h, (Except.ok.inj heq).symm⟩, fun heq => congrArg Except.ok heq.2.symm⟩
  · rename_i h
    constructor
    · intro heq
      cases heq
    · intro heq
      exact absurd heq.1 h

theorem Transaction.canonicalBytes_eq_ok_iff {tx : Transaction} {bytes : List UInt8} :
    tx.canonicalBytes = .ok bytes ↔
      tx.payload.length < 2 ^ 32 ∧ bytes = beBytes 4 tx.payload.length ++ tx.payload := by
  simp only [canonicalBytes, bind_eq_ok_iff, tryU32_eq_ok_iff]
  constructor
  · rintro ⟨len, ⟨hlen, rfl⟩, heq⟩
    exact ⟨hlen, (Except.ok.inj heq).symm⟩
  · rintro ⟨hlen, rfl⟩
    exact ⟨_, ⟨hlen, rfl⟩, rfl⟩

theorem transactionsBytes_eq_ok_iff {txs : List Transaction} {bytes : List UInt8} :
    transactionsBytes txs = .ok bytes ↔
      ∃ parts, List.Forall₂ (fun tx part => tx.canonicalBytes = .ok part) txs parts ∧
        txs.length < 2 ^ 32 ∧ bytes = beBytes 4 txs.length ++ parts.flatten := by
  simp only [transactionsBytes, bind_eq_ok_iff, tryU32_eq_ok_iff, mapM_eq_ok_iff]
  constructor
  · rintro ⟨len, ⟨hlen, rfl⟩, parts, hparts, heq⟩
    exact ⟨parts, hparts, hlen, (Except.ok.inj heq).symm⟩
  · rintro ⟨parts, hparts, hlen, rfl⟩
    exact ⟨_, ⟨hlen, rfl⟩, parts, hparts, rfl⟩

/-- The fields of an event are within their types. -/
structure Event.Fits (event : Event) : Prop where
  creator : event.creator < 256 ^ 8
  selfParent : ∀ hash ∈ event.selfParent, hash < 256 ^ 32
  otherParent : ∀ hash ∈ event.otherParent, hash < 256 ^ 32
  timestamp : event.timestamp < 256 ^ 8

/-- The bytes of an event that has them. -/
theorem Event.canonicalBytes_eq_ok_iff {event : Event} {bytes : List UInt8} :
    event.canonicalBytes = .ok bytes ↔
      ∃ payload, transactionsBytes event.payload = .ok payload ∧
        bytes = beBytes 8 event.creator ++ optionalHashBytes event.selfParent ++
          optionalHashBytes event.otherParent ++ beBytes 8 event.timestamp ++ payload ++
          event.signature.asBytes := by
  simp only [canonicalBytes, bind_eq_ok_iff]
  refine exists_congr fun payload => and_congr_right fun _ => ?_
  exact ⟨fun heq => (Except.ok.inj heq).symm, fun heq => congrArg Except.ok heq.symm⟩

namespace Wire

theorem tagged_hash_iff {hash : Option EventHash} {taken : List UInt8} :
    Tagged (fun n bytes => n < 256 ^ 32 ∧ bytes = beBytes 32 n) hash taken ↔
      (∀ n ∈ hash, n < 256 ^ 32) ∧ taken = optionalHashBytes hash := by
  cases hash with
  | none => simp [Tagged, optionalHashBytes]
  | some hash =>
    constructor
    · rintro ⟨_, ⟨hlt, rfl⟩, rfl⟩
      refine ⟨fun n hn => ?_, rfl⟩
      rwa [← Option.mem_some_iff.mp hn]
    · rintro ⟨hlt, rfl⟩
      exact ⟨_, ⟨hlt hash rfl, rfl⟩, rfl⟩

theorem readTransactions_format :
    Format (readCounted readField 4) fun payloads taken =>
      transactionsBytes (payloads.map Transaction.mk) = .ok taken := by
  have hsize : ∀ bytes taken : List UInt8,
      bytes.length < 2 ^ 32 ∧ taken = beBytes 4 bytes.length ++ bytes → 4 ≤ taken.length := by
    rintro bytes _ ⟨-, rfl⟩
    rw [List.length_append, length_beBytes]
    omega
  refine (readCounted_format readField_format (by decide) hsize).congr fun payloads taken => ?_
  rw [transactionsBytes_eq_ok_iff]
  simp only [List.forall₂_map_left_iff, Transaction.canonicalBytes_eq_ok_iff, List.length_map]

/-- Readers of the six fields of an event, in order, read exactly the canonical bytes of events. -/
theorem event_format {ε : Type} {readId readTime : Reader ε ℕ}
    {readParent : Reader ε (Option EventHash)} {readPayload : Reader ε (List (List UInt8))}
    {readSignature : Reader ε (List UInt8)}
    (hid : Format readId fun n taken => n < 256 ^ 8 ∧ taken = beBytes 8 n)
    (hparent : Format readParent fun hash taken =>
      (∀ n ∈ hash, n < 256 ^ 32) ∧ taken = optionalHashBytes hash)
    (htime : Format readTime fun n taken => n < 256 ^ 8 ∧ taken = beBytes 8 n)
    (hpayload : Format readPayload fun payloads taken =>
      transactionsBytes (payloads.map Transaction.mk) = .ok taken)
    (hsignature : Format readSignature fun bytes taken => bytes.length = 64 ∧ taken = bytes) :
    Format (do
      let creator ← readId
      let selfParent ← readParent
      let otherParent ← readParent
      let timestamp ← readTime
      let payload ← readPayload
      let signature ← readSignature
      return (⟨creator, selfParent, otherParent, timestamp, payload.map Transaction.mk,
        .ofBytes signature⟩ : Event))
      fun event taken => event.Fits ∧ event.canonicalBytes = .ok taken := by
  have hchain := hid.bind fun creator => hparent.bind fun selfParent =>
    hparent.bind fun otherParent => htime.bind fun timestamp =>
      hpayload.bind fun payload => hsignature.bind fun signature =>
        Format.pure (Event.mk creator selfParent otherParent timestamp
          (payload.map Transaction.mk) (.ofBytes signature))
  refine hchain.congr fun event taken => ?_
  constructor
  · rintro ⟨hfits, hbytes⟩
    obtain ⟨payload, hpayload, rfl⟩ := Event.canonicalBytes_eq_ok_iff.mp hbytes
    have hmap : (event.payload.map Transaction.payload).map Transaction.mk = event.payload :=
      List.map_map.trans (List.map_id event.payload)
    refine ⟨_, _, _, ⟨hfits.creator, rfl⟩, ⟨_, _, _, ⟨hfits.selfParent, rfl⟩, ⟨_, _, _,
      ⟨hfits.otherParent, rfl⟩, ⟨_, _, _, ⟨hfits.timestamp, rfl⟩,
        ⟨event.payload.map Transaction.payload, payload, _, by rw [hmap]; exact hpayload,
          ⟨_, _, [], ⟨event.signature.length_asBytes, rfl⟩, ⟨?_, rfl⟩, rfl⟩, rfl⟩, rfl⟩, rfl⟩,
      rfl⟩, ?_⟩
    · rw [hmap, Signature.ofBytes_asBytes]
    · simp only [List.append_assoc, List.append_nil]
  · rintro ⟨creator, _, _, ⟨hcreator, rfl⟩, ⟨selfParent, _, _, ⟨hself, rfl⟩, ⟨otherParent, _, _,
      ⟨hother, rfl⟩, ⟨timestamp, _, _, ⟨htimestamp, rfl⟩, ⟨payload, bytes, _, hpayload,
        ⟨signature, _, _, ⟨hsignature, rfl⟩, ⟨rfl, rfl⟩, rfl⟩, rfl⟩, rfl⟩, rfl⟩, rfl⟩, rfl⟩
    refine ⟨⟨hcreator, hself, hother, htimestamp⟩, Event.canonicalBytes_eq_ok_iff.mpr
      ⟨bytes, hpayload, ?_⟩⟩
    simp only [Signature.asBytes_ofBytes hsignature, List.append_assoc, List.append_nil]

/-- `decode_event` reads exactly the canonical bytes of events. -/
theorem decodeEvent_format :
    Format decodeEvent fun event taken => event.Fits ∧ event.canonicalBytes = .ok taken := by
  have hparent := (readOptional_format (readNat_format 32) "invalid optional-hash tag ").congr
    fun _ _ => tagged_hash_iff.symm
  exact event_format (readNat_format 8) hparent (readNat_format 8) readTransactions_format
    (read_format 64)

end Wire

end JKain
