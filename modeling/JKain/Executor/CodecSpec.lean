import JKain.Executor.Op
import JKain.Lib.Reader

/-!
# The formats of the executor

Which identifiers, documents, records and operations the decoders return, and that the encodings of
the stored records are read back: a record that came out of a decoder, or was put together from
such parts, is found again when it is decoded from the state. No encoding of an identifier is the
beginning of another, so the keys of different identities and actors differ.
-/

namespace JKain

open Lib

/-! ## Numbers and fields -/

theorem fromBe_append_singleton (bytes : List UInt8) (byte : UInt8) :
    fromBe (bytes ++ [byte]) = fromBe bytes * 256 + byte.toNat := by
  rw [fromBe, List.foldl_append]
  rfl

theorem fromBe_lt (bytes : List UInt8) : fromBe bytes < 256 ^ bytes.length := by
  induction bytes using List.reverseRecOn with
  | nil => decide
  | append_singleton bytes byte ih =>
    rw [fromBe_append_singleton, List.length_append, List.length_singleton, pow_succ]
    have hbyte : byte.toNat < 256 := byte.toNat_lt
    omega

theorem fromBe_beBytes {width n : ℕ} (h : n < 256 ^ width) : fromBe (beBytes width n) = n := by
  induction width generalizing n with
  | zero =>
    rw [pow_zero, Nat.lt_one_iff] at h
    rw [h]
    rfl
  | succ width ih =>
    have hdiv : n / 256 < 256 ^ width := by
      rw [Nat.div_lt_iff_lt_mul (by decide), ← pow_succ]
      exact h
    rw [beBytes, fromBe_append_singleton, ih hdiv,
      UInt8.toNat_ofNat_of_lt' (Nat.mod_lt _ (by decide))]
    exact Nat.div_add_mod' n 256

theorem beBytes_fromBe (bytes : List UInt8) : beBytes bytes.length (fromBe bytes) = bytes := by
  induction bytes using List.reverseRecOn with
  | nil => rfl
  | append_singleton bytes byte ih =>
    have hbyte : byte.toNat < 256 := byte.toNat_lt
    have hdiv : (fromBe bytes * 256 + byte.toNat) / 256 = fromBe bytes := by omega
    have hmod : (fromBe bytes * 256 + byte.toNat) % 256 = byte.toNat := by omega
    rw [List.length_append, List.length_singleton, beBytes, fromBe_append_singleton, hdiv, hmod,
      ih, UInt8.ofNat_toNat]

theorem beBytes_injOn {width n n' : ℕ} (h : n < 256 ^ width) (h' : n' < 256 ^ width)
    (heq : beBytes width n = beBytes width n') : n = n' := by
  rw [← fromBe_beBytes h, heq, fromBe_beBytes h']

section Fields

variable {ε α : Type} {error : ε}

theorem takeExact_reads {bytes : List UInt8} {len : ℕ} (h : bytes.length = len) :
    Reads (takeExact error len) bytes bytes := by
  intro rest
  have hle : len ≤ (bytes ++ rest).length := by rw [List.length_append]; omega
  rw [takeExact, if_pos hle, ← h, List.take_left, List.drop_left]

theorem takeExact_ensures (len : ℕ) : Ensures (takeExact error len) (·.length = len) := by
  intro cursor bytes rest h
  rw [takeExact] at h
  split at h
  · rename_i hle
    obtain ⟨rfl, -⟩ := Prod.mk.inj (Except.ok.inj h)
    exact List.length_take_of_le hle
  · cases h

theorem takeByte_reads (byte : UInt8) : Reads (takeByte error) [byte] byte := fun _ => rfl

theorem require_reads {condition : Bool} (h : condition = true) :
    Reads (require condition error) [] ⟨⟩ := by
  intro rest
  rw [require, if_pos h]
  rfl

theorem require_ensures (condition : Bool) :
    Ensures (require condition error) fun _ => condition = true := by
  intro cursor u rest h
  rw [require] at h
  split at h
  · assumption
  · cases h

theorem takeNat_reads {width n : ℕ} (h : n < 256 ^ width) :
    Reads (takeNat error width) (beBytes width n) n := by
  have hlast : Reads (pure (fromBe (beBytes width n)) : Reader ε ℕ) [] n := by
    rw [fromBe_beBytes h]
    exact .pure n
  exact (takeExact_reads (length_beBytes width n)).bind_last hlast

theorem takeNat_ensures (width : ℕ) : Ensures (takeNat error width) (· < 256 ^ width) := by
  refine (takeExact_ensures width).bind fun bytes hlen => .pure ?_
  rw [← hlen]
  exact fromBe_lt bytes

theorem takeBytes_reads {bytes : List UInt8} (h : bytes.length < 2 ^ 32) :
    Reads (takeBytes error) (writeBytes bytes) bytes :=
  (takeNat_reads h).bind (takeExact_reads rfl)

theorem takeBytes_ensures : Ensures (takeBytes error) (·.length < 2 ^ 32) := by
  refine (takeNat_ensures 4).bind fun len hlen input bytes rest hrun => ?_
  rw [takeExact_ensures len input bytes rest hrun]
  exact hlen

/-- The 32 bytes of an Ed25519 key. -/
structure IsKey (c : Crypto) (key : List UInt8) : Prop where
  length : key.length = 32
  valid : c.validKey key = true

theorem takeKey_reads {c : Crypto} {key : List UInt8} (h : IsKey c key) :
    Reads (takeKey c error) key key :=
  (takeExact_reads h.length).bind_last ((require_reads h.valid).bind_nil (.pure key))

theorem takeKey_ensures (c : Crypto) : Ensures (takeKey c error) (IsKey c) :=
  (takeExact_ensures 32).bind fun _ hlen =>
    (require_ensures _).bind fun _ hvalid => .pure ⟨hlen, hvalid⟩

theorem takeMany_reads {m : Reader ε α} {encode : α → List UInt8} {l : List α}
    (h : ∀ a ∈ l, Reads m (encode a) a) : Reads (takeMany m l.length) (l.flatMap encode) l := by
  induction l with
  | nil => exact .pure []
  | cons a l ih =>
    have hrest := ih fun b hb => h b (List.mem_cons_of_mem a hb)
    exact (h a List.mem_cons_self).bind (hrest.bind_last (.pure (a :: l)))

theorem takeMany_ensures {m : Reader ε α} {P : α → Prop} (h : Ensures m P) (count : ℕ) :
    Ensures (takeMany m count) fun l => l.length = count ∧ ∀ a ∈ l, P a := by
  induction count with
  | zero => exact .pure ⟨rfl, fun a ha => absurd ha List.not_mem_nil⟩
  | succ count ih =>
    refine h.bind fun a ha => ih.bind fun l hl => .pure ⟨congrArg (· + 1) hl.1, ?_⟩
    intro b hb
    rcases List.mem_cons.mp hb with rfl | hb
    · exact ha
    · exact hl.2 b hb

/-- A record that a reader takes off its encoding is decoded from a stored value. -/
theorem decodeAll_of_reads {m : Reader ε α} {bytes : List UInt8} {a : α} (h : Reads m bytes a) :
    decodeAll m bytes = some a := by
  have hrun := h []
  rw [List.append_nil] at hrun
  rw [decodeAll, hrun]

theorem decodeAll_ensures {m : Reader ε α} {P : α → Prop} {bytes : List UInt8} {a : α}
    (h : Ensures m P) (hdecode : decodeAll m bytes = some a) : P a := by
  rw [decodeAll] at hdecode
  split at hdecode
  · rename_i b hrun
    rw [Option.some.injEq] at hdecode
    exact hdecode ▸ h bytes b [] hrun
  · cases hdecode

end Fields

/-! ## Identifiers -/

namespace DidId

/-- The identifiers that can be decoded. -/
structure Valid (id : DidId) : Prop where
  network_lt : id.network.length < 2 ^ 32
  aliasName_lt : id.aliasName.length < 2 ^ 32
  uuid : id.uuid.length = 16
  segments : (isSegment id.network && isSegment id.aliasName) = true

theorem decode_reads {id : DidId} (h : id.Valid) : Reads decode id.encode id := by
  rw [encode, List.append_assoc]
  refine (takeBytes_reads h.network_lt).bind ((takeBytes_reads h.aliasName_lt).bind ?_)
  exact (takeExact_reads h.uuid).bind_last ((require_reads h.segments).bind_nil (.pure id))

theorem decode_ensures : Ensures decode Valid :=
  takeBytes_ensures.bind fun _ hnetwork =>
    takeBytes_ensures.bind fun _ halias =>
      (takeExact_ensures 16).bind fun _ huuid =>
        (require_ensures _).bind fun _ hsegments =>
          .pure ⟨hnetwork, halias, huuid, hsegments⟩

/-- Where an identifier ends is determined by its bytes. -/
theorem encode_append_inj {id id' : DidId} (h : id.Valid) (h' : id'.Valid)
    {rest rest' : List UInt8} (heq : id.encode ++ rest = id'.encode ++ rest') :
    id = id' ∧ rest = rest' :=
  (decode_reads h).unique (decode_reads h') heq

theorem encode_inj {id id' : DidId} (h : id.Valid) (h' : id'.Valid)
    (heq : id.encode = id'.encode) : id = id' :=
  (decode_reads h).eq_of_eq (heq ▸ decode_reads h')

end DidId

theorem didStateKey_inj {id id' : DidId} (h : id.Valid) (h' : id'.Valid)
    (heq : didStateKey id = didStateKey id') : id = id' :=
  DidId.encode_inj h h' (List.cons.inj heq).2

namespace Tag

theorem fromCode_code (tag : Tag) : fromCode tag.code = some tag := by
  cases tag <;> rfl

theorem decode_reads (tag : Tag) : Reads decode [tag.code] tag := by
  refine (takeByte_reads tag.code).bind_last ?_
  rw [fromCode_code]
  exact .pure tag

end Tag

theorem takeActorIndex_reads {index : ℕ} (h : index < 0x80000000) :
    Reads takeActorIndex (beBytes 4 index) index := by
  have hlt : index < 256 ^ 4 := h.trans (by decide)
  exact (takeNat_reads hlt).bind_last
    ((require_reads (decide_eq_true h)).bind_nil (.pure index))

theorem takeActorIndex_ensures : Ensures takeActorIndex (· < 0x80000000) :=
  (takeNat_ensures 4).bind fun _ _ =>
    (require_ensures _).bind fun _ hlt => .pure (of_decide_eq_true hlt)

namespace ActorId

/-- The identifiers of actors that can be decoded. -/
def Valid : ActorId → Prop
  | root did => did.Valid
  | sub rootDid _ index => rootDid.Valid ∧ index < 0x80000000

theorem decode_reads {id : ActorId} (h : id.Valid) : Reads decode id.encode id := by
  cases id with
  | root did =>
    exact (takeByte_reads 0x00).bind ((DidId.decode_reads h).bind_last (.pure (root did)))
  | sub rootDid tag index =>
    rw [encode, List.cons_append, List.cons_append, List.append_assoc]
    refine (takeByte_reads 0x01).bind ((DidId.decode_reads h.1).bind ?_)
    exact (Tag.decode_reads tag).bind
      ((takeActorIndex_reads h.2).bind_last (.pure (sub rootDid tag index)))

theorem decode_ensures : Ensures decode Valid :=
  Ensures.true.bind fun _ _ => .ite
    (fun _ => DidId.decode_ensures.bind fun _ hdid => .pure hdid)
    fun _ => .ite
      (fun _ => DidId.decode_ensures.bind fun _ hdid =>
        Ensures.true.bind fun _ _ =>
          takeActorIndex_ensures.bind fun _ hindex => .pure ⟨hdid, hindex⟩)
      fun _ => .throw

/-- The identifiers of actors that there are. The decoder takes only half of the indices. -/
def Typed : ActorId → Prop
  | root did => did.Valid
  | sub rootDid _ index => rootDid.Valid ∧ index < 256 ^ 4

theorem Valid.typed {id : ActorId} (h : id.Valid) : id.Typed := by
  cases id with
  | root did => exact h
  | sub rootDid tag index => exact ⟨h.1, h.2.trans (by decide)⟩

/-- Where an identifier ends is determined by its bytes, also for those that are not decoded. -/
theorem encode_append_inj {id id' : ActorId} (h : id.Typed) (h' : id'.Typed)
    {rest rest' : List UInt8} (heq : id.encode ++ rest = id'.encode ++ rest') :
    id = id' ∧ rest = rest' := by
  cases id with
  | root did =>
    cases id' with
    | root did' =>
      obtain ⟨rfl, hrest⟩ := DidId.encode_append_inj h h' (List.cons.inj heq).2
      exact ⟨rfl, hrest⟩
    | sub rootDid' tag' index' => exact absurd (List.cons.inj heq).1 (by decide)
  | sub rootDid tag index =>
    cases id' with
    | root did' => exact absurd (List.cons.inj heq).1 (by decide)
    | sub rootDid' tag' index' =>
      simp only [encode, List.cons_append, List.nil_append, List.append_assoc] at heq
      obtain ⟨rfl, htail⟩ := DidId.encode_append_inj h.1 h'.1 (List.cons.inj heq).2
      obtain ⟨htag, hbytes⟩ := List.cons.inj htail
      obtain ⟨hindex, hrest⟩ := List.append_inj hbytes (by simp)
      obtain rfl : tag = tag' := by
        rw [← Option.some_inj, ← Tag.fromCode_code tag, htag, Tag.fromCode_code]
      rw [beBytes_injOn h.2 h'.2 hindex]
      exact ⟨rfl, hrest⟩

end ActorId

theorem actorStateKey_inj {id id' : ActorId} (h : id.Valid) (h' : id'.Valid)
    (heq : actorStateKey id = actorStateKey id') : id = id' :=
  (ActorId.decode_reads h).eq_of_eq ((List.cons.inj heq).2 ▸ ActorId.decode_reads h')

/-! ## Records -/

section Records

variable {c : Crypto}

/-- The verification methods that can be decoded. -/
def VerificationMethod.Valid (c : Crypto) : VerificationMethod → Prop
  | signing key => IsKey c key
  | agreement key => key.length = 32

theorem VerificationMethod.decode_reads {method : VerificationMethod} (h : method.Valid c) :
    Reads (decode c) method.encode method := by
  cases method with
  | signing key =>
    refine (takeByte_reads 0x01).bind ((takeExact_reads (IsKey.length h)).bind_last ?_)
    rw [if_pos rfl]
    exact (require_reads (IsKey.valid h)).bind_nil (.pure (signing key))
  | agreement key =>
    refine (takeByte_reads 0x02).bind ((takeExact_reads h).bind_last ?_)
    exact .pure (agreement key)

theorem VerificationMethod.decode_ensures : Ensures (decode c) (Valid c) :=
  Ensures.true.bind fun _ _ =>
    (takeExact_ensures 32).bind fun _ hlen => .ite
      (fun _ => (require_ensures _).bind fun _ hvalid => .pure ⟨hlen, hvalid⟩)
      fun _ => .ite (fun _ => .pure hlen) fun _ => .throw

/-- The documents that can be decoded. -/
structure DidDocument.Valid (c : Crypto) (document : DidDocument) : Prop where
  controlKey : IsKey c document.controlKey
  some_method : document.methods.length ≠ 0
  few_methods : document.methods.length ≤ 5
  methods : ∀ method ∈ document.methods, method.Valid c
  signing : document.methods.any (·.signingKey?.isSome) = true

/-- The byte that is written for a flag. -/
def flagByte (flag : Bool) : UInt8 := if flag then 1 else 0

theorem flagByte_ne_zero (flag : Bool) : (flagByte flag != 0) = flag := by
  cases flag <;> rfl

/-- The bytes of a document with some byte for its flag. -/
def DidDocument.bytesWith (document : DidDocument) (flag : UInt8) : List UInt8 :=
  0x02 :: document.controlKey ++ [UInt8.ofNat document.methods.length] ++
    document.methods.flatMap VerificationMethod.encode ++ [flag]

/-- Every byte but zero stands for a flag that is set. -/
theorem DidDocument.decode_reads_bytesWith {document : DidDocument} (h : document.Valid c)
    {flag : UInt8} (hflag : (flag != 0) = document.deactivated) :
    Reads (decode c) (document.bytesWith flag) document := by
  have hcount : (UInt8.ofNat document.methods.length).toNat = document.methods.length :=
    UInt8.toNat_ofNat_of_lt' (Nat.lt_of_le_of_lt h.few_methods (by decide))
  have hbounds : (UInt8.ofNat document.methods.length != 0 &&
      decide (UInt8.ofNat document.methods.length ≤ 5)) = true := by
    rw [Bool.and_eq_true, bne_iff_ne, decide_eq_true_eq, UInt8.le_iff_toNat_le, hcount, ne_eq,
      ← UInt8.toNat_inj, hcount]
    exact ⟨h.some_method, h.few_methods⟩
  have hmethods : Reads (takeMany (VerificationMethod.decode c)
      (UInt8.ofNat document.methods.length).toNat)
      (document.methods.flatMap VerificationMethod.encode) document.methods := by
    rw [hcount]
    exact takeMany_reads fun method hmethod =>
      VerificationMethod.decode_reads (h.methods method hmethod)
  simp only [bytesWith, List.cons_append, List.append_assoc]
  refine (takeByte_reads 0x02).bind ((require_reads rfl).bind_nil ?_)
  refine (takeKey_reads h.controlKey).bind ((takeByte_reads _).bind ?_)
  refine (require_reads hbounds).bind_nil (hmethods.bind ((takeByte_reads _).bind_last ?_))
  refine (require_reads h.signing).bind_nil ?_
  rw [hflag]
  exact .pure document

theorem DidDocument.decode_reads {document : DidDocument} (h : document.Valid c) :
    Reads (decode c) document.encode document :=
  decode_reads_bytesWith h (flagByte_ne_zero document.deactivated)

theorem DidDocument.decode_ensures : Ensures (decode c) (Valid c) := by
  refine Ensures.true.bind fun _ _ => (require_ensures _).bind fun _ _ => ?_
  refine (takeKey_ensures c).bind fun controlKey hkey => Ensures.true.bind fun numMethods _ => ?_
  refine (require_ensures _).bind fun _ hbounds => ?_
  refine (takeMany_ensures VerificationMethod.decode_ensures _).bind fun methods hmethods => ?_
  refine Ensures.true.bind fun _ _ => (require_ensures _).bind fun _ hsigning => .pure ?_
  rw [Bool.and_eq_true, bne_iff_ne, decide_eq_true_eq, UInt8.le_iff_toNat_le, ne_eq,
    ← UInt8.toNat_inj] at hbounds
  exact ⟨hkey, hmethods.1 ▸ hbounds.1, hmethods.1 ▸ hbounds.2, hmethods.2, hsigning⟩

/-- The root actors that can be decoded. -/
structure RootActor.Valid (c : Crypto) (actor : RootActor) : Prop where
  didId : actor.didId.Valid
  merkleRoot : actor.merkleRoot < 256 ^ 32
  leafCount : actor.leafCount < 256 ^ 8
  controlKey : IsKey c actor.controlKey

theorem emptyRoot_lt : emptyRoot < 256 ^ 32 := by decide

theorem RootActor.decode_reads {actor : RootActor} (h : actor.Valid c) :
    Reads (decode c) actor.encode actor := by
  simp only [encode, List.append_assoc]
  refine (DidId.decode_reads h.didId).bind ((takeNat_reads h.merkleRoot).bind ?_)
  exact (takeNat_reads h.leafCount).bind ((takeKey_reads h.controlKey).bind_last (.pure actor))

theorem RootActor.decode_ensures : Ensures (decode c) (Valid c) :=
  DidId.decode_ensures.bind fun _ hid =>
    (takeNat_ensures 32).bind fun _ hroot =>
      (takeNat_ensures 8).bind fun _ hcount =>
        (takeKey_ensures c).bind fun _ hkey => .pure ⟨hid, hroot, hcount, hkey⟩

/-- The sub-actors that can be decoded. -/
structure SubActor.Valid (c : Crypto) (actor : SubActor) : Prop where
  actorId : actor.actorId.Valid
  isSub : ∃ rootDid tag index, actor.actorId = .sub rootDid tag index
  controlKey : IsKey c actor.controlKey
  operatingKey : IsKey c actor.operatingKey

theorem SubActor.decode_reads {actor : SubActor} (h : actor.Valid c) :
    Reads (decode c) actor.encode actor := by
  obtain ⟨actorId, controlKey, operatingKey⟩ := actor
  obtain ⟨rootDid, tag, index, rfl⟩ := h.isSub
  simp only [encode, List.append_assoc]
  refine (ActorId.decode_reads h.actorId).bind ((takeKey_reads h.controlKey).bind ?_)
  exact (takeKey_reads h.operatingKey).bind_last (.pure _)

theorem SubActor.decode_ensures : Ensures (decode c) (Valid c) := by
  refine ActorId.decode_ensures.bind fun actorId hid => ?_
  cases actorId with
  | root did => exact .throw
  | sub rootDid tag index =>
    exact (takeKey_ensures c).bind fun _ hcontrol =>
      (takeKey_ensures c).bind fun _ hoperating =>
        .pure ⟨hid, ⟨rootDid, tag, index, rfl⟩, hcontrol, hoperating⟩

end Records

/-! ## Operations -/

section Operations

variable {c : Crypto}

/-- What decoding an operation on an identity ensures. -/
structure DidOp.Valid (c : Crypto) (op : DidOp) : Prop where
  id : op.id.Valid
  document : op.document.Valid c

theorem DidOp.decode_ensures : Ensures (decode c) (Valid c) :=
  DidId.decode_ensures.bind fun _ hid =>
    DidDocument.decode_ensures.bind fun _ hdocument =>
      Ensures.true.bind fun _ _ => Ensures.true.bind fun _ _ => Ensures.true.bind fun _ _ =>
        Ensures.true.bind fun _ _ => .pure ⟨hid, hdocument⟩

theorem takeHashes_ensures : Ensures takeHashes fun nodes => ∀ node ∈ nodes, node < 256 ^ 32 :=
  Ensures.true.bind fun count _ => fun input nodes rest hrun =>
    (takeMany_ensures (takeNat_ensures 32) count input nodes rest hrun).2

/-- What decoding the mint of a sub-actor ensures. -/
structure SubActorOp.Valid (c : Crypto) (op : SubActorOp) : Prop where
  rootDid : op.rootDid.Valid
  index : op.index < 0x80000000
  controlKey : IsKey c op.controlKey
  operatingKey : IsKey c op.operatingKey
  newRoot : op.newRoot < 256 ^ 32
  consistencyNodes : ∀ node ∈ op.consistencyProof.nodes, node < 256 ^ 32
  inclusionNodes : ∀ node ∈ op.inclusionProof.nodes, node < 256 ^ 32
  leafCount : op.inclusionProof.leafCount < 256 ^ 8

theorem SubActorOp.decode_ensures : Ensures (decode c) (Valid c) := by
  refine DidId.decode_ensures.bind fun _ hid => Ensures.true.bind fun _ _ => ?_
  refine takeActorIndex_ensures.bind fun _ hindex => (takeKey_ensures c).bind fun _ hcontrol => ?_
  refine (takeKey_ensures c).bind fun _ hoperating => (takeNat_ensures 32).bind fun _ hroot => ?_
  have hconsistency : Ensures ConsistencyProof.decode
      fun consistency => ∀ node ∈ consistency.nodes, node < 256 ^ 32 :=
    Ensures.true.bind fun _ _ => Ensures.true.bind fun _ _ =>
      takeHashes_ensures.bind fun _ hnodes => .pure hnodes
  have hinclusion : Ensures InclusionProof.decode fun inclusion =>
      (∀ node ∈ inclusion.nodes, node < 256 ^ 32) ∧ inclusion.leafCount < 256 ^ 8 :=
    Ensures.true.bind fun _ _ => (takeNat_ensures 8).bind fun _ hcount =>
      takeHashes_ensures.bind fun _ hnodes => .pure ⟨hnodes, hcount⟩
  refine hconsistency.bind fun _ hold => hinclusion.bind fun _ hnew => ?_
  exact Ensures.true.bind fun _ _ => Ensures.true.bind fun _ _ => Ensures.true.bind fun _ _ =>
    .pure ⟨hid, hindex, hcontrol, hoperating, hroot, hold, hnew.1, hnew.2⟩

/-- What decoding a rebind ensures. -/
structure RebindOp.Valid (c : Crypto) (op : RebindOp) : Prop where
  actorId : op.actorId.Valid
  newOperatingKey : IsKey c op.newOperatingKey

theorem RebindOp.decode_ensures : Ensures (decode c) (Valid c) :=
  ActorId.decode_ensures.bind fun _ hid =>
    (takeKey_ensures c).bind fun _ hkey =>
      Ensures.true.bind fun _ _ => Ensures.true.bind fun _ _ => Ensures.true.bind fun _ _ =>
        .pure ⟨hid, hkey⟩

/-- The keys under which identities and actors are stored. -/
def Reserved (key : List UInt8) : Prop := key.head? = some 0xD1 ∨ key.head? = some 0xA1

/-- The key an operation on the key-value state writes. -/
def Op.key : Op → List UInt8
  | put key _ => key
  | delete key => key

/-- What decoding a payload ensures. -/
def DecodedOp.Valid (c : Crypto) : DecodedOp → Prop
  | kv op => ¬Reserved op.key
  | membership _ => True
  | did op => op.Valid c
  | subActor op => op.Valid c
  | rebind op => op.Valid c

theorem rejectReservedPrefix_ensures (key : List UInt8) :
    Ensures (rejectReservedPrefix key) fun _ => ¬Reserved key := by
  intro cursor u rest hrun hreserved
  rcases hreserved with hkey | hkey
  · rw [rejectReservedPrefix, hkey] at hrun
    cases hrun
  · rw [rejectReservedPrefix, hkey] at hrun
    cases hrun

theorem nested_eq_ok_iff {ε α : Type} {wrap : α → DecodedOp} {error : ExecutorError}
    {result : Except ε (α × List UInt8)} {op : DecodedOp} :
    DecodedOp.nested wrap error result = .ok op ↔
      ∃ a rest, op = wrap a ∧ result = .ok (a, rest) := by
  cases result with
  | error e => exact ⟨nofun, nofun⟩
  | ok p =>
    constructor
    · intro h
      exact ⟨p.1, p.2, (Except.ok.inj h).symm, rfl⟩
    · rintro ⟨a, rest, rfl, h⟩
      obtain rfl := Except.ok.inj h
      rfl

theorem map_fst_eq_ok_iff {ε α β : Type} {result : Except ε (α × β)} {a : α} :
    result.map Prod.fst = .ok a ↔ ∃ b, result = .ok (a, b) := by
  cases result with
  | error e => exact ⟨nofun, nofun⟩
  | ok p =>
    constructor
    · intro h
      exact ⟨p.2, congrArg Except.ok (Prod.ext (Except.ok.inj h) rfl)⟩
    · rintro ⟨b, h⟩
      obtain rfl := Except.ok.inj h
      rfl

/-- An operation is read by the decoder of the kind that the first byte of its payload says. -/
theorem DecodedOp.decode_cases {payload : List UInt8} {op : DecodedOp}
    (h : decode c payload = .ok op) :
    (∃ body rest, payload = 0x00 :: body ∧ decodePut body = .ok (op, rest)) ∨
    (∃ body rest, payload = 0x01 :: body ∧ decodeDelete body = .ok (op, rest)) ∨
    (∃ body op' rest, payload = 0x02 :: body ∧ op = membership op' ∧
      MembershipOp.decode c body = .ok (op', rest)) ∨
    (∃ body op' rest, payload = 0x03 :: body ∧ op = did op' ∧
      DidOp.decode c body = .ok (op', rest)) ∨
    (∃ body op' rest, payload = 0x04 :: body ∧ op = subActor op' ∧
      SubActorOp.decode c body = .ok (op', rest)) ∨
    ∃ body op' rest, payload = 0x05 :: body ∧ op = rebind op' ∧
      RebindOp.decode c body = .ok (op', rest) := by
  cases payload with
  | nil => cases h
  | cons opcode body =>
    simp only [decode] at h
    split_ifs at h with h0 h1 h2 h3 h4 h5
    · subst h0
      obtain ⟨rest, hrun⟩ := map_fst_eq_ok_iff.mp h
      exact .inl ⟨body, rest, rfl, hrun⟩
    · subst h1
      obtain ⟨rest, hrun⟩ := map_fst_eq_ok_iff.mp h
      exact .inr (.inl ⟨body, rest, rfl, hrun⟩)
    · subst h2
      obtain ⟨op', rest, hrun⟩ := nested_eq_ok_iff.mp h
      exact .inr (.inr (.inl ⟨body, op', rest, rfl, hrun⟩))
    · subst h3
      obtain ⟨op', rest, hrun⟩ := nested_eq_ok_iff.mp h
      exact .inr (.inr (.inr (.inl ⟨body, op', rest, rfl, hrun⟩)))
    · subst h4
      obtain ⟨op', rest, hrun⟩ := nested_eq_ok_iff.mp h
      exact .inr (.inr (.inr (.inr (.inl ⟨body, op', rest, rfl, hrun⟩))))
    · subst h5
      obtain ⟨op', rest, hrun⟩ := nested_eq_ok_iff.mp h
      exact .inr (.inr (.inr (.inr (.inr ⟨body, op', rest, rfl, hrun⟩))))

/-- Whatever a payload decodes into is well formed, and writes no reserved key directly. -/
theorem DecodedOp.decode_valid {payload : List UInt8} {op : DecodedOp}
    (h : decode c payload = .ok op) : op.Valid c := by
  have hput : Ensures decodePut (DecodedOp.Valid c) :=
    Ensures.true.bind fun key _ => (rejectReservedPrefix_ensures key).bind fun _ hkey =>
      Ensures.true.bind fun _ _ => Ensures.true.bind fun _ _ => .pure hkey
  have hdelete : Ensures decodeDelete (DecodedOp.Valid c) :=
    Ensures.true.bind fun key _ => (rejectReservedPrefix_ensures key).bind fun _ hkey =>
      Ensures.true.bind fun _ _ => .pure hkey
  rcases decode_cases h with ⟨_, _, -, hrun⟩ | ⟨_, _, -, hrun⟩ | ⟨_, _, _, -, rfl, -⟩ |
    ⟨_, _, _, -, rfl, hrun⟩ | ⟨_, _, _, -, rfl, hrun⟩ | ⟨_, _, _, -, rfl, hrun⟩
  · exact hput _ _ _ hrun
  · exact hdelete _ _ _ hrun
  · exact trivial
  · exact DidOp.decode_ensures _ _ _ hrun
  · exact SubActorOp.decode_ensures _ _ _ hrun
  · exact RebindOp.decode_ensures _ _ _ hrun

end Operations

end JKain
