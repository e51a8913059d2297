import JKain.Gossip.WireFormat

/-!
# What is read back

An event has one encoding; registries and signed checkpoints are read back from their bytes.
-/

namespace JKain

open Std Lib

-- The substitutions below would otherwise evaluate the encodings of numbers.
attribute [local irreducible] beBytes

namespace Wire

/-! ## Whole payloads -/

/-- An event field is read as a whole. -/
theorem decodeEventField_eq_ok_iff {event : Event} {bytes : List UInt8} :
    decodeEventField bytes = .ok event ↔ event.Fits ∧ event.canonicalBytes = .ok bytes := by
  rw [decodeEventField]
  constructor
  · intro h
    cases hrun : decodeEvent bytes with
    | error e => rw [hrun] at h; cases h
    | ok p =>
      obtain ⟨event', rest⟩ := p
      rw [hrun] at h
      cases rest with
      | nil =>
        obtain rfl := Except.ok.inj h
        obtain ⟨taken, rfl, hevent⟩ := decodeEvent_format.parses bytes event' [] hrun
        rwa [List.append_nil]
      | cons byte rest => cases h
  · intro h
    have hrun := decodeEvent_format.reads h []
    rw [List.append_nil] at hrun
    rw [hrun]
    rfl

end Wire

/-! ## Registries and signed checkpoints -/

namespace MembershipRegistry

/-- The ids and keys of a registry are within their types. -/
def Fits (c : Crypto) (registry : MembershipRegistry) : Prop :=
  ∀ p ∈ registry.keys.toList,
    p.1 < 256 ^ 8 ∧ IsKey c p.2.key ∧ p.2.blsKey.length = 48

/-- One member in the bytes of a registry. -/
def memberBytes (p : NodeId × MemberKeys) : List UInt8 := beBytes 8 p.1 ++ p.2.key ++ p.2.blsKey

variable {c : Crypto}

theorem takeMember_reads {p : NodeId × MemberKeys}
    (h : p.1 < 256 ^ 8 ∧ IsKey c p.2.key ∧ p.2.blsKey.length = 48) :
    Reads (takeMember c) (memberBytes p) p := by
  rw [memberBytes, List.append_assoc]
  exact (takeNat_reads h.1).bind ((takeKey_reads h.2.1).bind
    ((takeExact_reads h.2.2).bind_last (.pure p)))

theorem takeMembers_flatMap {l : List (NodeId × MemberKeys)}
    (h : ∀ p ∈ l, p.1 < 256 ^ 8 ∧ IsKey c p.2.key ∧ p.2.blsKey.length = 48) {fuel : ℕ}
    (hfuel : l.length ≤ fuel) (registry : MembershipRegistry) :
    takeMembers c fuel (l.flatMap memberBytes) registry =
      some (l.foldl (fun registry p => registry.register p.1 p.2.key p.2.blsKey) registry) := by
  induction l generalizing fuel registry with
  | nil => cases fuel <;> rfl
  | cons p l ih =>
    rw [List.forall_mem_cons] at h
    cases fuel with
    | zero => cases hfuel
    | succ fuel =>
      have hne : ((p :: l).flatMap memberBytes).isEmpty = false := by
        rw [List.isEmpty_eq_false_iff, ← List.length_pos_iff, List.flatMap_cons, memberBytes]
        simp only [List.length_append, length_beBytes]
        omega
      rw [takeMembers, hne, if_neg Bool.false_ne_true, List.flatMap_cons,
        takeMember_reads h.1 (l.flatMap memberBytes)]
      exact ih h.2 (Nat.le_of_succ_le_succ hfuel) _

theorem getElem?_foldl_register (l : List (NodeId × MemberKeys)) (registry : MembershipRegistry)
    (node : NodeId) :
    (l.foldl (fun registry p => registry.register p.1 p.2.key p.2.blsKey) registry).keys[node]? =
      ((l.reverse.find? (·.1 == node)).map Prod.snd).or registry.keys[node]? := by
  induction l using List.reverseRecOn with
  | nil => rfl
  | append_singleton l p ih =>
    rw [List.foldl_append, List.reverse_append, List.foldl_cons, List.foldl_nil, register,
      ExtTreeMap.getElem?_insert, ih, List.reverse_singleton, List.singleton_append,
      List.find?_cons]
    by_cases hp : p.1 = node
    · simp [hp]
    · simp [hp, beq_eq_false_iff_ne.mpr hp]

/-- Registering the members of a registry one after the other gives the registry. -/
theorem foldl_register_toList (registry : MembershipRegistry) :
    registry.keys.toList.foldl (fun registry p => registry.register p.1 p.2.key p.2.blsKey) .new =
      registry := by
  obtain ⟨keys⟩ := registry
  refine congrArg mk (ExtTreeMap.ext_getElem? fun {node} => ?_)
  have hget := getElem?_foldl_register keys.toList .new node
  rw [hget]
  cases hfind : keys.toList.reverse.find? (·.1 == node) with
  | some p =>
    have hmem := List.mem_reverse.mp (List.mem_of_find?_eq_some hfind)
    have hnode : p.1 = node := by simpa using List.find?_some hfind
    rw [← hnode, ExtTreeMap.mem_toList_iff_getElem?_eq_some.mp hmem]
    rfl
  | none =>
    cases hkeys : keys[node]? with
    | none => rfl
    | some value =>
      have hmem := ExtTreeMap.mem_toList_iff_getElem?_eq_some.mpr hkeys
      have hnone := List.find?_eq_none.mp hfind _ (List.mem_reverse.mpr hmem)
      simp at hnone

/-- A registry is read back from its bytes. -/
theorem fromBytes_toBytes {registry : MembershipRegistry} (h : registry.Fits c) :
    fromBytes c registry.toBytes = some registry := by
  have hbytes : registry.toBytes = registry.keys.toList.flatMap memberBytes := rfl
  have hfuel : registry.keys.toList.length ≤ registry.toBytes.length := by
    rw [hbytes]
    induction registry.keys.toList with
    | nil => exact le_rfl
    | cons p l ih =>
      simp only [List.length_cons, List.flatMap_cons, List.length_append, memberBytes,
        length_beBytes] at ih ⊢
      omega
  rw [fromBytes, hbytes, takeMembers_flatMap h (hbytes ▸ hfuel), foldl_register_toList]

end MembershipRegistry

/-- The fields of a signed checkpoint are within their types. -/
structure SignedCheckpoint.Fits (bls : Bls) (c : Crypto) (sc : SignedCheckpoint) : Prop where
  round : sc.payload.round < 256 ^ 8
  recordsRoot : sc.payload.recordsRoot < 256 ^ 32
  stateHash : sc.payload.stateHash < 256 ^ 32
  rosterHash : sc.payload.rosterHash < 256 ^ 32
  prevCheckpointHash : sc.payload.prevCheckpointHash < 256 ^ 32
  windowRoot : sc.payload.windowRoot < 256 ^ 32
  rosterHistoryRoot : sc.payload.rosterHistoryRoot < 256 ^ 32
  rosterSnapshot : sc.payload.rosterSnapshot.Fits c
  signers : ∀ signer ∈ sc.signers, signer < 256 ^ 8
  aggregateSig : sc.aggregateSig.length = 96
  validSignature : bls.validSignature sc.aggregateSig = true

/-- The roster hash of a checkpoint is that of its snapshot. -/
def SignedCheckpoint.Anchored (c : Crypto) (sc : SignedCheckpoint) : Prop :=
  sc.payload.rosterSnapshot.hash c.sha = sc.payload.rosterHash

theorem SignedCheckpoint.encode_eq_ok_iff {sc : SignedCheckpoint} {bytes : List UInt8} :
    sc.encode = .ok bytes ↔
      sc.payload.rosterSnapshot.toBytes.length < 2 ^ 32 ∧ sc.signers.length < 2 ^ 32 ∧
      bytes = beBytes 8 sc.payload.round ++ digestBytes sc.payload.recordsRoot ++
        digestBytes sc.payload.stateHash ++ digestBytes sc.payload.rosterHash ++
        digestBytes sc.payload.prevCheckpointHash ++ digestBytes sc.payload.windowRoot ++
        digestBytes sc.payload.rosterHistoryRoot ++
        writeBytes sc.payload.rosterSnapshot.toBytes ++
        beBytes 4 sc.signers.length ++ sc.signers.flatMap (beBytes 8) ++ sc.aggregateSig := by
  simp only [encode, bind_eq_ok_iff, tryU32_eq_ok_iff]
  constructor
  · rintro ⟨len, ⟨hlen, rfl⟩, count, ⟨hcount, rfl⟩, heq⟩
    refine ⟨hlen, hcount, (Except.ok.inj heq).symm.trans ?_⟩
    simp only [writeBytes, List.append_assoc]
  · rintro ⟨hlen, hcount, rfl⟩
    refine ⟨_, ⟨hlen, rfl⟩, _, ⟨hcount, rfl⟩, congrArg Except.ok ?_⟩
    simp only [writeBytes, List.append_assoc]

section SignedCheckpoint

variable {bls : Bls} {c : Crypto} {sc : SignedCheckpoint}

/-- The part behind the snapshot is read back. -/
theorem SignedCheckpoint.takeSigners_reads (h : sc.Fits bls c) (hcount : sc.signers.length < 2 ^ 32) :
    Reads (do
        let signerCount ← takeNat () 4
        let cursor ← get
        require (signerCount ≤ (cursor.length - 96) / 8) ()
        let signers ← takeMany (takeNat () 8) signerCount
        let aggregateSig ← takeExact () 96
        require (bls.validSignature aggregateSig) ()
        return SignedCheckpoint.mk sc.payload aggregateSig signers : Reader Unit SignedCheckpoint)
      (beBytes 4 sc.signers.length ++ sc.signers.flatMap (beBytes 8) ++ sc.aggregateSig) sc := by
  rw [List.append_assoc]
  refine (takeNat_reads hcount).bind (.get_bind fun rest => ?_)
  have hlen : (sc.signers.flatMap (beBytes 8)).length = sc.signers.length * 8 := by
    rw [List.length_flatMap]
    simp
  have htail : Reads (do
      let signers ← takeMany (takeNat () 8) sc.signers.length
      let aggregateSig ← takeExact () 96
      require (bls.validSignature aggregateSig) ()
      return SignedCheckpoint.mk sc.payload aggregateSig signers : Reader Unit SignedCheckpoint)
      (sc.signers.flatMap (beBytes 8) ++ sc.aggregateSig) sc :=
    (takeMany_reads fun signer hsigner => takeNat_reads (h.signers signer hsigner)).bind
      ((takeExact_reads h.aggregateSig).bind_last
        ((require_reads h.validSignature).bind_nil (.pure sc)))
  refine (require_reads (decide_eq_true ?_)).bind_nil htail rest
  rw [List.length_append, List.length_append, hlen, h.aggregateSig]
  omega

/-- A signed checkpoint is read back from its bytes. -/
theorem SignedCheckpoint.decode_of_encode (h : sc.Fits bls c) (hanchored : sc.Anchored c)
    {bytes : List UInt8} (hbytes : sc.encode = .ok bytes) : decode bls c bytes = some sc := by
  obtain ⟨hlen, hcount, rfl⟩ := encode_eq_ok_iff.mp hbytes
  refine decodeAll_of_reads ?_
  rw [take]
  simp only [List.append_assoc]
  refine (takeNat_reads h.round).bind ((takeNat_reads h.recordsRoot).bind
    ((takeNat_reads h.stateHash).bind ((takeNat_reads h.rosterHash).bind
      ((takeNat_reads h.prevCheckpointHash).bind ((takeNat_reads h.windowRoot).bind
        ((takeNat_reads h.rosterHistoryRoot).bind ((takeBytes_reads hlen).bind ?_)))))))
  rw [MembershipRegistry.fromBytes_toBytes h.rosterSnapshot]
  dsimp only
  have hhash : decide (sc.payload.rosterSnapshot.hash c.sha = sc.payload.rosterHash) = true :=
    decide_eq_true hanchored
  refine (require_reads hhash).bind_nil ?_
  have htail := takeSigners_reads h hcount
  rwa [List.append_assoc] at htail

end SignedCheckpoint

/-! ## Reconnect responses -/

/-- The numbers of a retained event are within their types. -/
structure RetainedEvent.Fits (record : RetainedEvent) : Prop where
  event : record.event.Fits
  seq : record.seq < 256 ^ 8
  round : record.round < 256 ^ 8
  ancestorSeqs : ∀ seq ∈ record.ancestorSeqs, seq < 256 ^ 8
  roundReceived : ∀ n ∈ record.roundReceived, n < 256 ^ 8
  consensusTimestamp : ∀ n ∈ record.consensusTimestamp, n < 256 ^ 8

namespace Wire

theorem tagged_taggedBytes {n : Option ℕ} (h : ∀ k ∈ n, k < 256 ^ 8) :
    Tagged (fun k bytes => k < 256 ^ 8 ∧ bytes = beBytes 8 k) n (taggedBytes n) := by
  cases n with
  | none => rfl
  | some k => exact ⟨_, ⟨h k rfl, rfl⟩, rfl⟩

/-- Primitives that accept everything. -/
def laxCrypto : Crypto := ⟨fun _ => 0, fun _ => true, fun _ _ _ => true, fun _ _ => true⟩

@[inherit_doc laxCrypto]
def laxBls : Bls := ⟨fun _ => true, fun _ => true, fun _ _ _ => true⟩

end Wire

end JKain
