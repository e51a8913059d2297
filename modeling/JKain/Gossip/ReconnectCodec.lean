import JKain.Consensus.Accumulator
import JKain.Consensus.RosterSelection
import JKain.Gossip.EventIdentity
import JKain.Gossip.Reconnect

/-!
# What reconnect encodes is read back

Retained events, signed checkpoints and roster histories are read back from their bytes. The other
way round the decoders are lenient: a registry is filled member by member and a roster history entry
by entry, in whichever order they come and with the last of a repeated one counting. The order is
never checked, not by the roster hash either, since that one is computed from the registry and not
from the bytes. So the decoded value has the bytes it came from exactly if these list the members of
every roster, and the activations, in increasing order.
-/

namespace JKain

open Std JKain.Lib

-- The substitutions below would otherwise evaluate the encodings of numbers.
attribute [local irreducible] beBytes

/-! ## Retained events -/

/-- `encode_retained_event`. -/
def RetainedEvent.encode (record : RetainedEvent) : Except OutOfRange (List UInt8) := do
  let ancestorLen ← tryU32 "RetainedEvent ancestor_seqs length" record.ancestorSeqs.length
  let eventBytes ← record.event.canonicalBytes
  let eventLen ← tryU32 "RetainedEvent event length" eventBytes.length
  return beBytes 8 record.seq ++ beBytes 8 record.round ++ taggedBytes record.roundReceived ++
    beBytes 4 ancestorLen ++ record.ancestorSeqs.flatMap (beBytes 8) ++ beBytes 4 eventLen ++
    eventBytes ++ taggedBytes record.consensusTimestamp

/-- An optional number behind its tag. -/
def takeOptionalNat : Reader PUnit (Option ℕ) := do
  let tag ← takeByte ⟨⟩
  if tag = 0x00 then return none
  else if tag = 0x01 then do
    let n ← takeNat ⟨⟩ 8
    return some n
  else throw ⟨⟩

/-- The fields of `decode_retained_event`. Records from before the consensus timestamps end with the
event. -/
def takeRetained : Reader PUnit RetainedEvent := do
  let seq ← takeNat ⟨⟩ 8
  let round ← takeNat ⟨⟩ 8
  let roundReceived ← takeOptionalNat
  let ancestorCount ← takeNat ⟨⟩ 4
  let ancestorSeqs ← takeMany (takeNat ⟨⟩ 8) ancestorCount
  let eventBytes ← takeBytes ⟨⟩
  match decodeEventBytes eventBytes with
  | none => throw ⟨⟩
  | some event => do
    let cursor ← get
    let consensusTimestamp ← if cursor.isEmpty then pure none else takeOptionalNat
    return ⟨event, seq, round, ancestorSeqs, roundReceived, consensusTimestamp⟩

/-- `decode_retained_event`. -/
def decodeRetainedEvent (bytes : List UInt8) : Option RetainedEvent := decodeAll takeRetained bytes

theorem takeOptionalNat_reads {n : Option ℕ} (h : ∀ k ∈ n, k < 256 ^ 8) :
    Reads takeOptionalNat (taggedBytes n) n :=
  (tagged_format (takeNat_format PUnit.unit 8) PUnit.unit fun _ => PUnit.unit).reads
    (Wire.tagged_taggedBytes h)

theorem length_taggedBytes_pos (n : Option ℕ) : 0 < (taggedBytes n).length := by
  cases n with
  | none => exact Nat.one_pos
  | some k => exact Nat.succ_pos _

theorem RetainedEvent.encode_eq_ok_iff {record : RetainedEvent} {bytes : List UInt8} :
    record.encode = .ok bytes ↔ record.ancestorSeqs.length < 2 ^ 32 ∧
      ∃ eventBytes, record.event.canonicalBytes = .ok eventBytes ∧ eventBytes.length < 2 ^ 32 ∧
        bytes = beBytes 8 record.seq ++ beBytes 8 record.round ++
          taggedBytes record.roundReceived ++ beBytes 4 record.ancestorSeqs.length ++
          record.ancestorSeqs.flatMap (beBytes 8) ++ writeBytes eventBytes ++
          taggedBytes record.consensusTimestamp := by
  simp only [encode, bind_eq_ok_iff, tryU32_eq_ok_iff]
  constructor
  · rintro ⟨_, ⟨hcount, rfl⟩, eventBytes, hevent, _, ⟨hlen, rfl⟩, heq⟩
    refine ⟨hcount, eventBytes, hevent, hlen, (Except.ok.inj heq).symm.trans ?_⟩
    simp only [writeBytes, List.append_assoc]
  · rintro ⟨hcount, eventBytes, hevent, hlen, rfl⟩
    refine ⟨_, ⟨hcount, rfl⟩, eventBytes, hevent, _, ⟨hlen, rfl⟩, congrArg Except.ok ?_⟩
    simp only [writeBytes, List.append_assoc]

/-- A retained event is read back from its bytes. -/
theorem RetainedEvent.decode_of_encode {record : RetainedEvent} (h : record.Fits)
    {bytes : List UInt8} (hbytes : record.encode = .ok bytes) :
    decodeRetainedEvent bytes = some record := by
  obtain ⟨hcount, eventBytes, hevent, hlen, rfl⟩ := encode_eq_ok_iff.mp hbytes
  refine decodeAll_of_reads ?_
  simp only [List.append_assoc]
  refine (takeNat_reads h.seq).bind ((takeNat_reads h.round).bind
    ((takeOptionalNat_reads h.roundReceived).bind ((takeNat_reads hcount).bind
      ((takeMany_reads fun seq hseq => takeNat_reads (h.ancestorSeqs seq hseq)).bind
        ((takeBytes_reads hlen).bind ?_)))))
  rw [decodeEventBytes_eq_some_iff.mpr ⟨h.event, hevent⟩]
  -- the timestamp takes at least its tag, so the cursor is not empty
  refine .get_bind fun rest => ?_
  have hne : (taggedBytes record.consensusTimestamp ++ rest).isEmpty = false := by
    have := length_taggedBytes_pos record.consensusTimestamp
    rw [List.isEmpty_eq_false_iff, ← List.length_pos_iff, List.length_append]
    omega
  rw [hne, if_neg Bool.false_ne_true]
  exact (takeOptionalNat_reads h.consensusTimestamp).bind_last (.pure record) rest

/-! ## Rosters -/

/-- The bytes list members of a roster, in increasing order of their ids. -/
def ListsInOrder (c : Crypto) (bytes : List UInt8) : Prop :=
  ∃ l : List (NodeId × MemberKeys),
    (∀ p ∈ l, p.1 < 256 ^ 8 ∧ IsKey c p.2.key ∧ p.2.blsKey.length = 48) ∧
      l.Pairwise (fun p q => p.1 < q.1) ∧ bytes = l.flatMap MembershipRegistry.memberBytes

section Rosters

variable {c : Crypto} {registry : MembershipRegistry} {bytes : List UInt8}

theorem MembershipRegistry.Fits.listsInOrder (h : registry.Fits c) :
    ListsInOrder c registry.toBytes :=
  ⟨registry.keys.toList, h, sortedEntries_iff_pairwise_lt.mp (sortedEntries_toList _), rfl⟩

theorem ListsInOrder.exists_registry (h : ListsInOrder c bytes) :
    ∃ registry : MembershipRegistry, registry.Fits c ∧ registry.toBytes = bytes := by
  obtain ⟨l, hl, hsorted, rfl⟩ := h
  have hlist : (insertAll (∅ : ExtTreeMap NodeId MemberKeys) l).toList = l :=
    toList_insertAll (sortedEntries_iff_pairwise_lt.mpr hsorted)
  refine ⟨⟨insertAll ∅ l⟩, ?_, ?_⟩
  · rw [MembershipRegistry.Fits, hlist]
    exact hl
  · show (insertAll ∅ l).toList.flatMap MembershipRegistry.memberBytes = _
    rw [hlist]

/-- The registry read from some bytes has these bytes exactly if they list its members in order. -/
theorem toBytes_eq_iff_listsInOrder (h : MembershipRegistry.fromBytes c bytes = some registry) :
    registry.toBytes = bytes ↔ ListsInOrder c bytes := by
  constructor
  · rintro rfl
    exact (MembershipRegistry.fromBytes_fits h).listsInOrder
  · intro horder
    obtain ⟨registry', hfits, rfl⟩ := horder.exists_registry
    rw [MembershipRegistry.fromBytes_toBytes hfits] at h
    exact congrArg MembershipRegistry.toBytes (Option.some.inj h).symm

end Rosters

/-! ## Signed checkpoints -/

namespace SignedCheckpoint

variable {bls : Bls} {c : Crypto} {sc : SignedCheckpoint} {bytes : List UInt8}

theorem takeSigners_parses (bls : Bls) (payload : CheckpointPayload) :
    Parses (do
        let signerCount ← takeNat () 4
        let cursor ← get
        require (signerCount ≤ (cursor.length - 96) / 8) ()
        let signers ← takeMany (takeNat () 8) signerCount
        let aggregateSig ← takeExact () 96
        require (bls.validSignature aggregateSig) ()
        return SignedCheckpoint.mk payload aggregateSig signers : Reader Unit SignedCheckpoint)
      fun sc taken => sc.payload = payload ∧ sc.signers.length < 2 ^ 32 ∧
        taken = beBytes 4 sc.signers.length ++ sc.signers.flatMap (beBytes 8) ++
          sc.aggregateSig := by
  refine ((takeNat_format () 4).parses.bind fun count => Parses.get.bind fun _ =>
    (require_format _ ()).parses.bind fun _ =>
    (takeMany_format (takeNat_format () 8) count).parses.bind fun _ =>
    (takeExact_format () 96).parses.bind fun _ => (require_format _ ()).parses.bind fun _ =>
    .pure _).mono ?_
  rintro _ _ ⟨count, _, _, ⟨hcount, rfl⟩, ⟨_, _, _, rfl, ⟨_, _, _, ⟨-, rfl⟩, ⟨signers, _, _,
    ⟨parts, hparts, rfl, rfl⟩, ⟨sig, _, _, ⟨-, rfl⟩, ⟨_, _, _, ⟨-, rfl⟩, ⟨rfl, rfl⟩, rfl⟩, rfl⟩,
    rfl⟩, rfl⟩, rfl⟩, rfl⟩
  obtain ⟨-, rfl⟩ := forall₂_and_eq_iff.mp hparts
  refine ⟨rfl, hcount, ?_⟩
  simp only [List.nil_append, List.append_nil, List.append_assoc, List.flatMap_def]

/-- What stands in front of the roster of a signed checkpoint. -/
def headBytes (p : CheckpointPayload) : List UInt8 :=
  beBytes 8 p.round ++ digestBytes p.recordsRoot ++ digestBytes p.stateHash ++
    digestBytes p.rosterHash ++ digestBytes p.prevCheckpointHash ++ digestBytes p.windowRoot ++
    digestBytes p.rosterHistoryRoot

/-- What stands behind it. -/
def tailBytes (sc : SignedCheckpoint) : List UInt8 :=
  beBytes 4 sc.signers.length ++ sc.signers.flatMap (beBytes 8) ++ sc.aggregateSig

theorem encode_eq_ok_iff_parts :
    sc.encode = .ok bytes ↔
      sc.payload.rosterSnapshot.toBytes.length < 2 ^ 32 ∧ sc.signers.length < 2 ^ 32 ∧
        bytes = headBytes sc.payload ++ writeBytes sc.payload.rosterSnapshot.toBytes ++
          sc.tailBytes := by
  rw [encode_eq_ok_iff]
  simp only [headBytes, tailBytes, List.append_assoc]

/-- What `take` does once the bytes of the roster are read. -/
def takeRest (bls : Bls) (c : Crypto) (round records state hash prev window history : ℕ)
    (rosterBytes : List UInt8) : Reader Unit SignedCheckpoint :=
  match MembershipRegistry.fromBytes c rosterBytes with
  | none => throw ()
  | some rosterSnapshot => do
    require (rosterSnapshot.hash c.sha = hash) ()
    let signerCount ← takeNat () 4
    let cursor ← get
    require (signerCount ≤ (cursor.length - 96) / 8) ()
    let signers ← takeMany (takeNat () 8) signerCount
    let aggregateSig ← takeExact () 96
    require (bls.validSignature aggregateSig) ()
    return ⟨⟨round, records, state, hash, prev, window, history, rosterSnapshot⟩, aggregateSig,
      signers⟩

theorem take_parses (bls : Bls) (c : Crypto) :
    Parses (take bls c) fun sc taken => sc.signers.length < 2 ^ 32 ∧
      ∃ rosterBytes, rosterBytes.length < 2 ^ 32 ∧
        MembershipRegistry.fromBytes c rosterBytes = some sc.payload.rosterSnapshot ∧
        taken = headBytes sc.payload ++ writeBytes rosterBytes ++ sc.tailBytes := by
  have hroster (round records state hash prev window history : ℕ) (rosterBytes : List UInt8) :
      Parses (takeRest bls c round records state hash prev window history rosterBytes)
        fun sc taken => ∃ snapshot, MembershipRegistry.fromBytes c rosterBytes = some snapshot ∧
          sc.payload = ⟨round, records, state, hash, prev, window, history, snapshot⟩ ∧
          sc.signers.length < 2 ^ 32 ∧ taken = sc.tailBytes := by
    unfold takeRest
    cases MembershipRegistry.fromBytes c rosterBytes with
    | none => exact (Parses.throw ()).mono fun _ _ h => h.elim
    | some snapshot =>
      refine ((require_format _ ()).parses.bind fun _ => takeSigners_parses bls _).mono ?_
      rintro sc _ ⟨_, _, _, ⟨-, rfl⟩, ⟨hpayload, hcount, rfl⟩, rfl⟩
      exact ⟨snapshot, rfl, hpayload, hcount, rfl⟩
  refine ((takeNat_format () 8).parses.bind fun _ => (takeNat_format () 32).parses.bind fun _ =>
    (takeNat_format () 32).parses.bind fun _ => (takeNat_format () 32).parses.bind fun _ =>
    (takeNat_format () 32).parses.bind fun _ => (takeNat_format () 32).parses.bind fun _ =>
    (takeNat_format () 32).parses.bind fun _ => (takeBytes_format ()).parses.bind fun _ =>
    hroster _ _ _ _ _ _ _ _).mono ?_
  rintro sc _ ⟨round, _, _, ⟨-, rfl⟩, ⟨records, _, _, ⟨-, rfl⟩, ⟨state, _, _, ⟨-, rfl⟩,
    ⟨hash, _, _, ⟨-, rfl⟩, ⟨prev, _, _, ⟨-, rfl⟩, ⟨window, _, _, ⟨-, rfl⟩, ⟨history, _, _,
    ⟨-, rfl⟩, ⟨rosterBytes, _, _, ⟨hlen, rfl⟩, ⟨snapshot, hsnapshot, hpayload, hcount, rfl⟩, rfl⟩,
    rfl⟩, rfl⟩, rfl⟩, rfl⟩, rfl⟩, rfl⟩, rfl⟩
  refine ⟨hcount, rosterBytes, hlen, hpayload ▸ hsnapshot, ?_⟩
  simp only [hpayload, headBytes, digestBytes, writeBytes, List.append_assoc]

/-- The roster in the bytes of a signed checkpoint: a field behind the round and six digests. -/
def rosterField (bytes : List UInt8) : List UInt8 :=
  ((bytes.drop 200).drop 4).take (fromBe ((bytes.drop 200).take 4))

theorem rosterField_eq (p : CheckpointPayload) {rosterBytes : List UInt8}
    (hlen : rosterBytes.length < 2 ^ 32) (rest : List UInt8) :
    rosterField (headBytes p ++ writeBytes rosterBytes ++ rest) = rosterBytes := by
  have hhead : (headBytes p).length = 200 := by
    simp only [headBytes, digestBytes, List.length_append, length_beBytes]
  rw [rosterField, List.append_assoc, List.drop_left' hhead, writeBytes, List.append_assoc,
    List.drop_left' (length_beBytes 4 _), List.take_left' (length_beBytes 4 _),
    fromBe_beBytes hlen, List.take_left]

/-- A decoded checkpoint has the bytes it came from exactly if they list its roster in order. -/
theorem encode_eq_ok_iff_listsInOrder (h : decode bls c bytes = some sc) :
    sc.encode = .ok bytes ↔ ListsInOrder c (rosterField bytes) := by
  obtain ⟨hcount, rosterBytes, hlen, hread, rfl⟩ := (take_parses bls c).of_decodeAll h
  rw [rosterField_eq _ hlen, ← toBytes_eq_iff_listsInOrder hread, encode_eq_ok_iff_parts]
  constructor
  · rintro ⟨hlen', -, heq⟩
    have hfields := congrArg rosterField heq
    rw [rosterField_eq _ hlen, rosterField_eq _ hlen'] at hfields
    exact hfields.symm
  · intro heq
    rw [heq]
    exact ⟨hlen, hcount, rfl⟩

end SignedCheckpoint

/-! ## Roster histories -/

/-- The rounds and rosters of a history are within their types. A history has at least one
roster. -/
structure RosterHistory.Fits (c : Crypto) (rh : RosterHistory) : Prop where
  nonempty : rh.snapshots.toList ≠ []
  round : ∀ p ∈ rh.snapshots.toList, p.1 < 256 ^ 8
  registry : ∀ p ∈ rh.snapshots.toList, p.2.Fits c

/-- The bytes of one entry. -/
def entryOf (entry : ℕ × List UInt8) : List UInt8 := beBytes 8 entry.1 ++ writeBytes entry.2

/-- The bytes list rosters in increasing order of their activation rounds, and each roster lists its
members in order. -/
def HistoryInOrder (c : Crypto) (bytes : List UInt8) : Prop :=
  ∃ entries : List (ℕ × List UInt8), entries.length < 2 ^ 32 ∧
    (∀ entry ∈ entries, entry.1 < 256 ^ 8 ∧ entry.2.length < 2 ^ 32 ∧ ListsInOrder c entry.2) ∧
    entries.Pairwise (fun e e' => e.1 < e'.1) ∧
    bytes = beBytes 4 entries.length ++ entries.flatMap entryOf

section Histories

variable {c : Crypto} {rh : RosterHistory} {bytes : List UInt8}

theorem encodeSnapshot_eq_ok_iff {round : ℕ} {registry : MembershipRegistry} :
    encodeSnapshot round registry = .ok bytes ↔
      registry.toBytes.length < 2 ^ 32 ∧ bytes = entryOf (round, registry.toBytes) := by
  simp only [encodeSnapshot, bind_eq_ok_iff, tryU32_eq_ok_iff]
  constructor
  · rintro ⟨_, ⟨hlen, rfl⟩, heq⟩
    refine ⟨hlen, (Except.ok.inj heq).symm.trans ?_⟩
    rw [entryOf, writeBytes, List.append_assoc]
  · rintro ⟨hlen, rfl⟩
    refine ⟨_, ⟨hlen, rfl⟩, congrArg Except.ok ?_⟩
    rw [entryOf, writeBytes, List.append_assoc]

theorem encodeRosterHistory_eq_ok_iff :
    encodeRosterHistory rh = .ok bytes ↔ rh.snapshots.toList.length < 2 ^ 32 ∧
      (∀ p ∈ rh.snapshots.toList, p.2.toBytes.length < 2 ^ 32) ∧
      bytes = beBytes 4 rh.snapshots.toList.length ++
        rh.snapshots.toList.flatMap fun p => entryOf (p.1, p.2.toBytes) := by
  simp only [encodeRosterHistory, bind_eq_ok_iff, tryU32_eq_ok_iff, mapM_eq_ok_iff,
    encodeSnapshot_eq_ok_iff]
  constructor
  · rintro ⟨_, ⟨hcount, rfl⟩, parts, hparts, heq⟩
    obtain ⟨hlen, rfl⟩ := forall₂_and_eq_iff.mp hparts
    exact ⟨hcount, hlen, (Except.ok.inj heq).symm⟩
  · rintro ⟨hcount, hlen, rfl⟩
    exact ⟨_, ⟨hcount, rfl⟩, _, forall₂_and_eq_iff.mpr ⟨hlen, rfl⟩, rfl⟩

theorem takeSnapshot_reads {p : ℕ × MembershipRegistry} (hround : p.1 < 256 ^ 8)
    (hfits : p.2.Fits c) (hlen : p.2.toBytes.length < 2 ^ 32) :
    Reads (takeSnapshot c) (entryOf (p.1, p.2.toBytes)) p := by
  refine (takeNat_reads hround).bind ((takeBytes_reads hlen).bind_last ?_)
  rw [MembershipRegistry.fromBytes_toBytes hfits]
  exact .pure p

theorem length_flatMap_entryOf (l : List (ℕ × MembershipRegistry)) :
    12 * l.length ≤ (l.flatMap fun p => entryOf (p.1, p.2.toBytes)).length := by
  induction l with
  | nil => exact le_rfl
  | cons p l ih =>
    simp only [List.flatMap_cons, List.length_append, List.length_cons, entryOf, writeBytes,
      length_beBytes] at ih ⊢
    omega

/-- The entries of `decode_roster_history`. -/
def takeHistory (c : Crypto) : Reader Unit (List (ℕ × MembershipRegistry)) := do
  let entryCount ← takeNat () 4
  let cursor ← get
  require (entryCount ≤ cursor.length / 12) ()
  takeMany (takeSnapshot c) entryCount

theorem decodeRosterHistory_eq_some_iff :
    decodeRosterHistory c bytes = some rh ↔ ∃ snapshots, decodeAll (takeHistory c) bytes =
      some snapshots ∧ snapshots ≠ [] ∧ rh = ⟨ExtTreeMap.ofList snapshots⟩ := by
  rw [decodeRosterHistory, Option.bind_eq_bind, Option.bind_eq_some_iff]
  refine exists_congr fun snapshots => and_congr_right fun _ => ?_
  cases snapshots with
  | nil => exact iff_of_false nofun fun h => h.1 rfl
  | cons p l =>
    constructor
    · intro h
      exact ⟨List.cons_ne_nil p l, (Option.some.inj h).symm⟩
    · rintro ⟨-, rfl⟩
      rfl

theorem takeHistory_reads {snapshots : List (ℕ × MembershipRegistry)}
    (hcount : snapshots.length < 2 ^ 32)
    (h : ∀ p ∈ snapshots, p.1 < 256 ^ 8 ∧ p.2.Fits c ∧ p.2.toBytes.length < 2 ^ 32) :
    Reads (takeHistory c) (beBytes 4 snapshots.length ++
      snapshots.flatMap fun p => entryOf (p.1, p.2.toBytes)) snapshots := by
  refine (takeNat_reads hcount).bind (.get_bind fun rest => ?_)
  have hentries := takeMany_reads fun p hp =>
    takeSnapshot_reads (h p hp).1 (h p hp).2.1 (h p hp).2.2
  have hsize := length_flatMap_entryOf snapshots
  refine (require_reads (decide_eq_true ?_)).bind_nil hentries rest
  rw [List.length_append]
  omega

theorem takeHistory_ensures (c : Crypto) :
    Ensures (takeHistory c) fun snapshots => ∀ p ∈ snapshots, p.1 < 256 ^ 8 ∧ p.2.Fits c := by
  have hsnapshot : Ensures (takeSnapshot c) fun p => p.1 < 256 ^ 8 ∧ p.2.Fits c := by
    refine (takeNat_ensures 8).bind fun round hround => Ensures.true.bind fun registryBytes _ => ?_
    cases hread : MembershipRegistry.fromBytes c registryBytes with
    | none => exact .throw
    | some registry => exact .pure ⟨hround, MembershipRegistry.fromBytes_fits hread⟩
  refine Ensures.true.bind fun count _ => Ensures.true.bind fun _ _ => Ensures.true.bind
    fun _ _ => ?_
  intro input snapshots rest hrun
  exact (takeMany_ensures hsnapshot count input snapshots rest hrun).2

/-- A roster history is read back from its bytes. -/
theorem decodeRosterHistory_of_encode (h : rh.Fits c)
    (hbytes : encodeRosterHistory rh = .ok bytes) : decodeRosterHistory c bytes = some rh := by
  obtain ⟨hcount, hlen, rfl⟩ := encodeRosterHistory_eq_ok_iff.mp hbytes
  have hread := takeHistory_reads hcount fun p hp => ⟨h.round p hp, h.registry p hp, hlen p hp⟩
  refine decodeRosterHistory_eq_some_iff.mpr ⟨_, decodeAll_of_reads hread, h.nonempty, ?_⟩
  rw [ofList_eq_insertAll, insertAll_toList]

theorem fits_of_decodeRosterHistory (h : decodeRosterHistory c bytes = some rh) :
    ∀ p ∈ rh.snapshots.toList, p.1 < 256 ^ 8 ∧ p.2.Fits c := by
  obtain ⟨snapshots, hread, -, rfl⟩ := decodeRosterHistory_eq_some_iff.mp h
  intro p hp
  rw [ofList_eq_insertAll, ExtTreeMap.mem_toList_iff_getElem?_eq_some] at hp
  rcases mem_of_getElem?_insertAll hp with hmem | hnone
  · exact decodeAll_ensures (takeHistory_ensures c) hread p hmem
  · rw [ExtTreeMap.getElem?_empty] at hnone
    cases hnone

/-- Bytes that list rosters in order are those of registries. -/
theorem exists_registries {entries : List (ℕ × List UInt8)}
    (h : ∀ entry ∈ entries, ListsInOrder c entry.2) :
    ∃ snapshots : List (ℕ × MembershipRegistry), (∀ p ∈ snapshots, p.2.Fits c) ∧
      entries = snapshots.map fun p => (p.1, p.2.toBytes) := by
  induction entries with
  | nil => exact ⟨[], fun p hp => absurd hp List.not_mem_nil, rfl⟩
  | cons entry entries ih =>
    obtain ⟨hentry, hrest⟩ := List.forall_mem_cons.mp h
    obtain ⟨registry, hfits, hbytes⟩ := hentry.exists_registry
    obtain ⟨snapshots, hsnapshots, rfl⟩ := ih hrest
    refine ⟨(entry.1, registry) :: snapshots, List.forall_mem_cons.mpr ⟨hfits, hsnapshots⟩, ?_⟩
    rw [List.map_cons, hbytes]

/-- A decoded history has the bytes it came from exactly if they list it in order. -/
theorem encodeRosterHistory_eq_ok_iff_inOrder (h : decodeRosterHistory c bytes = some rh) :
    encodeRosterHistory rh = .ok bytes ↔ HistoryInOrder c bytes := by
  constructor
  · intro hencode
    obtain ⟨hcount, hlen, rfl⟩ := encodeRosterHistory_eq_ok_iff.mp hencode
    have hfits := fits_of_decodeRosterHistory h
    refine ⟨rh.snapshots.toList.map fun p => (p.1, p.2.toBytes), ?_, ?_, ?_, ?_⟩
    · rwa [List.length_map]
    · intro entry hentry
      obtain ⟨p, hp, rfl⟩ := List.mem_map.mp hentry
      exact ⟨(hfits p hp).1, hlen p hp, (hfits p hp).2.listsInOrder⟩
    · rw [List.pairwise_map]
      exact RosterHistory.sorted_toList rh.snapshots
    · rw [List.length_map, List.flatMap_map]
  · rintro ⟨entries, hcount, hentries, hsorted, rfl⟩
    obtain ⟨snapshots, hfits, rfl⟩ :=
      exists_registries fun entry hentry => (hentries entry hentry).2.2
    rw [List.length_map] at hcount
    rw [List.pairwise_map] at hsorted
    have hbounds (p : ℕ × MembershipRegistry) (hp : p ∈ snapshots) :
        p.1 < 256 ^ 8 ∧ p.2.Fits c ∧ p.2.toBytes.length < 2 ^ 32 := by
      obtain ⟨hround, hlen, -⟩ := hentries _ (List.mem_map_of_mem hp)
      exact ⟨hround, hfits p hp, hlen⟩
    rw [List.length_map, List.flatMap_map] at h ⊢
    -- what is decoded are these registries
    obtain ⟨snapshots', hread, -, rfl⟩ := decodeRosterHistory_eq_some_iff.mp h
    rw [decodeAll_of_reads (takeHistory_reads hcount hbounds)] at hread
    obtain rfl := Option.some.inj hread
    rw [encodeRosterHistory_eq_ok_iff, RosterHistory.toList_ofList_of_sorted hsorted]
    exact ⟨hcount, fun p hp => (hbounds p hp).2.2, rfl⟩

end Histories

/-! ## All three -/

/-- Retained events, signed checkpoints whose roster hash is that of their snapshot, and roster
histories are read back from their bytes. What `decode_signed_checkpoint` and
`decode_roster_history` return has the bytes it was read from exactly if these list rosters and
activations in increasing order. -/
theorem reconnect_codecs_faithful (bls : Bls) (c : Crypto) :
    (∀ (record : RetainedEvent) bytes, record.Fits → record.encode = .ok bytes →
      decodeRetainedEvent bytes = some record) ∧
    (∀ (sc : SignedCheckpoint) bytes, sc.Fits bls c → sc.Anchored c → sc.encode = .ok bytes →
      SignedCheckpoint.decode bls c bytes = some sc) ∧
    (∀ (rh : RosterHistory) bytes, rh.Fits c → encodeRosterHistory rh = .ok bytes →
      decodeRosterHistory c bytes = some rh) ∧
    (∀ bytes sc, SignedCheckpoint.decode bls c bytes = some sc →
      (sc.encode = .ok bytes ↔ ListsInOrder c (SignedCheckpoint.rosterField bytes))) ∧
    ∀ bytes rh, decodeRosterHistory c bytes = some rh →
      (encodeRosterHistory rh = .ok bytes ↔ HistoryInOrder c bytes) :=
  ⟨fun _ _ hfits hbytes => RetainedEvent.decode_of_encode hfits hbytes,
    fun _ _ hfits hanchored hbytes => SignedCheckpoint.decode_of_encode hfits hanchored hbytes,
    fun _ _ hfits hbytes => decodeRosterHistory_of_encode hfits hbytes,
    fun _ _ h => SignedCheckpoint.encode_eq_ok_iff_listsInOrder h,
    fun _ _ h => encodeRosterHistory_eq_ok_iff_inOrder h⟩

/-- Every key is valid, and a digest is the number of the first eight bytes. -/
def headCrypto : Crypto :=
  ⟨fun bytes => fromBe (bytes.take 8), fun _ => true, fun _ _ _ => true, fun _ _ => true⟩

/-- A member with keys of zeros. -/
def zeroMember (node : NodeId) : NodeId × MemberKeys :=
  (node, ⟨List.replicate 32 0, List.replicate 48 0⟩)

/-- A roster with the given members, in the given order. -/
def rosterBytesOf (nodes : List NodeId) : List UInt8 :=
  nodes.flatMap fun node => MembershipRegistry.memberBytes (zeroMember node)

/-- A checkpoint without signers whose roster has the hash 1. -/
def checkpointBytesOf (nodes : List NodeId) : List UInt8 :=
  beBytes 8 1 ++ digestBytes 0 ++ digestBytes 0 ++ digestBytes 1 ++ digestBytes 0 ++
    digestBytes 0 ++ digestBytes 0 ++ writeBytes (rosterBytesOf nodes) ++ beBytes 4 0 ++
    List.replicate 96 0

/-- A history whose rosters have one member each. -/
def historyBytesOf (rounds : List ℕ) : List UInt8 :=
  beBytes 4 rounds.length ++ rounds.flatMap fun round => entryOf (round, rosterBytesOf [1])

theorem rosterBytesOf_inOrder {nodes : List NodeId} (hsorted : nodes.Pairwise (· < ·))
    (hfits : ∀ node ∈ nodes, node < 256 ^ 8) : ListsInOrder headCrypto (rosterBytesOf nodes) := by
  refine ⟨nodes.map zeroMember, fun p hp => ?_, List.pairwise_map.mpr hsorted, ?_⟩
  · obtain ⟨node, hnode, rfl⟩ := List.mem_map.mp hp
    exact ⟨hfits node hnode, ⟨rfl, rfl⟩, rfl⟩
  · rw [rosterBytesOf, List.flatMap_map]

theorem reconnect_codecs_faithful_in_order :
    (∃ sc, SignedCheckpoint.decode Wire.laxBls headCrypto (checkpointBytesOf [1, 2]) = some sc ∧
      sc.encode = .ok (checkpointBytesOf [1, 2])) ∧
    (∃ rh, decodeRosterHistory headCrypto (historyBytesOf [1, 2]) = some rh ∧
      encodeRosterHistory rh = .ok (historyBytesOf [1, 2])) ∧
    ∃ bytes, RetainedEvent.encode ⟨Hashgraph.plainEvent 1 0 none none, 1, 1, [1], none, some 2⟩ =
        .ok bytes ∧
      decodeRetainedEvent bytes =
        some ⟨Hashgraph.plainEvent 1 0 none none, 1, 1, [1], none, some 2⟩ := by
  obtain ⟨hretained, -, -, hcheckpoint, hhistory⟩ :=
    reconnect_codecs_faithful Wire.laxBls headCrypto
  refine ⟨?_, ?_, ?_⟩
  · obtain ⟨sc, hsc⟩ := Option.isSome_iff_exists.mp (show (SignedCheckpoint.decode Wire.laxBls
      headCrypto (checkpointBytesOf [1, 2])).isSome = true by decide +kernel)
    refine ⟨sc, hsc, (hcheckpoint _ sc hsc).mpr ?_⟩
    rw [show SignedCheckpoint.rosterField (checkpointBytesOf [1, 2]) = rosterBytesOf [1, 2] by
      decide +kernel]
    exact rosterBytesOf_inOrder (by decide) (by decide)
  · obtain ⟨rh, hrh⟩ := Option.isSome_iff_exists.mp (show (decodeRosterHistory headCrypto
      (historyBytesOf [1, 2])).isSome = true by decide +kernel)
    refine ⟨rh, hrh, (hhistory _ rh hrh).mpr ⟨[1, 2].map fun n => (n, rosterBytesOf [1]), by decide,
      fun entry hentry => ?_, by decide, rfl⟩⟩
    obtain ⟨n, hn, rfl⟩ := List.mem_map.mp hentry
    have hlen : (rosterBytesOf [1]).length < 2 ^ 32 := by decide +kernel
    refine ⟨?_, hlen, rosterBytesOf_inOrder (by decide) (by decide)⟩
    rcases List.mem_pair.mp hn with rfl | rfl <;> decide
  · obtain ⟨bytes, hbytes⟩ := Option.isSome_iff_exists.mp (show (RetainedEvent.encode
      ⟨Hashgraph.plainEvent 1 0 none none, 1, 1, [1], none, some 2⟩).toOption.isSome = true by
        decide +kernel)
    have hbytes := toOption_eq_some_iff.mp hbytes
    refine ⟨bytes, hbytes, hretained _ bytes ⟨⟨?_, ?_, ?_, ?_⟩, ?_, ?_, ?_, ?_, ?_⟩ hbytes⟩ <;>
      simp [Hashgraph.plainEvent]

/-- Whether the checkpoint read from the bytes has other bytes. -/
def checkpointChanges (bytes : List UInt8) : Bool :=
  (SignedCheckpoint.decode Wire.laxBls headCrypto bytes).any fun sc =>
    sc.encode.toOption.any (· ≠ bytes)

/-- Whether the history read from the bytes has other bytes. -/
def historyChanges (bytes : List UInt8) : Bool :=
  (decodeRosterHistory headCrypto bytes).any fun rh =>
    (encodeRosterHistory rh).toOption.any (· ≠ bytes)

/-- Members in decreasing order, a repeated member, activations in decreasing order and a repeated
activation are all accepted, and the values have other bytes. -/
theorem reconnect_codecs_accept_disorder :
    (∀ bytes ∈ [checkpointBytesOf [2, 1], checkpointBytesOf [1, 1]],
      ∃ sc bytes', SignedCheckpoint.decode Wire.laxBls headCrypto bytes = some sc ∧
        sc.encode = .ok bytes' ∧ bytes' ≠ bytes ∧
        SignedCheckpoint.decode Wire.laxBls headCrypto bytes' = some sc) ∧
    ∀ bytes ∈ [historyBytesOf [2, 1], historyBytesOf [1, 1]],
      ∃ rh bytes', decodeRosterHistory headCrypto bytes = some rh ∧
        encodeRosterHistory rh = .ok bytes' ∧ bytes' ≠ bytes := by
  constructor
  · intro bytes hbytes
    have hall : ∀ bytes ∈ [checkpointBytesOf [2, 1], checkpointBytesOf [1, 1]],
        checkpointChanges bytes = true := by decide +kernel
    obtain ⟨sc, hdecode, hchanges⟩ := (Option.any_eq_true _ _).mp (hall bytes hbytes)
    obtain ⟨bytes', hencode, hne⟩ := (Option.any_eq_true _ _).mp hchanges
    have hencode := toOption_eq_some_iff.mp hencode
    obtain ⟨hfits, hanchored⟩ := SignedCheckpoint.fits_of_decode hdecode
    exact ⟨sc, bytes', hdecode, hencode, of_decide_eq_true hne,
      SignedCheckpoint.decode_of_encode hfits hanchored hencode⟩
  · intro bytes hbytes
    have hall : ∀ bytes ∈ [historyBytesOf [2, 1], historyBytesOf [1, 1]],
        historyChanges bytes = true := by decide +kernel
    obtain ⟨rh, hdecode, hchanges⟩ := (Option.any_eq_true _ _).mp (hall bytes hbytes)
    obtain ⟨bytes', hencode, hne⟩ := (Option.any_eq_true _ _).mp hchanges
    exact ⟨rh, bytes', hdecode, toOption_eq_some_iff.mp hencode, of_decide_eq_true hne⟩

end JKain
