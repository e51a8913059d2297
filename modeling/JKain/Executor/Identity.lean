import JKain.Executor.Codec

/-!
# Identities and actors

The records an identity keeps in the state, its document, its root actor and its sub-actors, and the
operations that change them, with their encodings. Keys are their 32 bytes; names are the bytes of
their UTF-8 form.
-/

namespace JKain

open Std

/-! ## Documents -/

/-- `DidId`. -/
structure DidId where
  network : List UInt8
  aliasName : List UInt8
  uuid : List UInt8
  deriving DecidableEq

namespace DidId

/-- `DidId::encode`. -/
def encode (id : DidId) : List UInt8 := writeBytes id.network ++ writeBytes id.aliasName ++ id.uuid

/-- A name without a colon in valid UTF-8. -/
def isSegment (name : List UInt8) : Bool :=
  (ByteArray.mk name.toArray).validateUTF8 && !name.contains 0x3A

/-- `DidId::decode`. -/
def decode : Reader ExecutorError DidId := do
  let network ← takeBytes .truncated
  let aliasName ← takeBytes .truncated
  let uuid ← takeExact .truncated 16
  require (isSegment network && isSegment aliasName) .invalidDid
  return ⟨network, aliasName, uuid⟩

end DidId

/-- `did_state_key`. -/
def didStateKey (id : DidId) : List UInt8 := 0xD1 :: id.encode

/-- `VerificationMethod`. -/
inductive VerificationMethod
  | signing (key : List UInt8)
  | agreement (key : List UInt8)
  deriving DecidableEq

namespace VerificationMethod

/-- The key, if it is for signing. -/
def signingKey? : VerificationMethod → Option (List UInt8)
  | signing key => some key
  | agreement _ => none

/-- The type tag and the key. -/
def encode : VerificationMethod → List UInt8
  | signing key => 0x01 :: key
  | agreement key => 0x02 :: key

/-- One method of `DidDocument::decode`. -/
def decode (c : Crypto) : Reader ExecutorError VerificationMethod := do
  let methodType ← takeByte .truncated
  let key ← takeExact .truncated 32
  if methodType = 0x01 then do
    require (c.validKey key) .truncated
    return signing key
  else if methodType = 0x02 then return agreement key
  else throw (.unknownVerificationMethodType methodType)

end VerificationMethod

/-- `DidDocument`. -/
structure DidDocument where
  controlKey : List UInt8
  methods : List VerificationMethod
  deactivated : Bool
  deriving DecidableEq

namespace DidDocument

/-- `DidDocument::signing_key`. -/
def signingKey (document : DidDocument) (index : ℕ) : Option (List UInt8) :=
  (document.methods.filterMap VerificationMethod.signingKey?)[index]?

/-- `DidDocument::encode`. -/
def encode (document : DidDocument) : List UInt8 :=
  0x02 :: document.controlKey ++ [UInt8.ofNat document.methods.length] ++
    document.methods.flatMap VerificationMethod.encode ++ [if document.deactivated then 1 else 0]

/-- `DidDocument::decode`. -/
def decode (c : Crypto) : Reader ExecutorError DidDocument := do
  let version ← takeByte .truncated
  require (version == 0x02) (.unsupportedDidDocumentVersion version)
  let controlKey ← takeKey c .truncated
  let numMethods ← takeByte .truncated
  require (numMethods != 0 && decide (numMethods ≤ 5)) .truncated
  let methods ← takeMany (VerificationMethod.decode c) numMethods.toNat
  let deactivated ← takeByte .truncated
  require (methods.any (·.signingKey?.isSome)) .noSigningMethod
  return ⟨controlKey, methods, deactivated != 0⟩

end DidDocument

/-- `DidOp`. -/
structure DidOp where
  id : DidId
  document : DidDocument
  signature : Signature
  signedBy : UInt8
  isCreation : Bool
  deriving DecidableEq

namespace DidOp

/-- `DidOp::decode`. -/
def decode (c : Crypto) : Reader ExecutorError DidOp := do
  let id ← DidId.decode
  let document ← DidDocument.decode c
  let signature ← takeExact .truncated 64
  let signedBy ← takeByte .truncated
  let isCreation ← takeByte .truncated
  rejectTrailing .trailingBytes
  return ⟨id, document, .ofBytes signature, signedBy, isCreation != 0⟩

/-- `DidOp::encode`. -/
def encode (op : DidOp) : List UInt8 :=
  op.id.encode ++ op.document.encode ++ op.signature.asBytes ++
    [op.signedBy, if op.isCreation then 1 else 0]

/-- `DidOp::signed_payload`. -/
def signedPayload (op : DidOp) : List UInt8 :=
  "jkain:did:v1".toUTF8.toList ++ op.id.encode ++ op.document.encode

end DidOp

/-! ## Actors -/

/-- `Tag`. -/
inductive Tag
  | defi
  | messenger
  | game
  | generic
  deriving DecidableEq

namespace Tag

/-- `Tag::code`. -/
def code : Tag → UInt8
  | defi => 0
  | messenger => 1
  | game => 2
  | generic => 3

/-- `Tag::from_code`. -/
def fromCode (code : UInt8) : Option Tag :=
  if code = 0 then some defi
  else if code = 1 then some messenger
  else if code = 2 then some game
  else if code = 3 then some generic
  else none

/-- The tag of a sub-actor. -/
def decode : Reader ExecutorError Tag := do
  let code ← takeByte .truncated
  match fromCode code with
  | some tag => return tag
  | none => throw (.unknownActorTag code)

end Tag

/-- The index of a sub-actor: 31 bits. -/
def takeActorIndex : Reader ExecutorError ℕ := do
  let index ← takeNat .truncated 4
  require (index < 0x80000000) (.actorIndexOutOfRange index)
  return index

/-- `ActorId`. -/
inductive ActorId
  | root (did : DidId)
  | sub (rootDid : DidId) (tag : Tag) (index : ℕ)
  deriving DecidableEq

namespace ActorId

/-- `ActorId::encode`. -/
def encode : ActorId → List UInt8
  | root did => 0x00 :: did.encode
  | sub rootDid tag index => 0x01 :: rootDid.encode ++ [tag.code] ++ beBytes 4 index

/-- `ActorId::decode`. -/
def decode : Reader ExecutorError ActorId := do
  let variant ← takeByte .truncated
  if variant = 0x00 then do
    let did ← DidId.decode
    return root did
  else if variant = 0x01 then do
    let rootDid ← DidId.decode
    let tag ← Tag.decode
    let index ← takeActorIndex
    return sub rootDid tag index
  else throw (.unknownActorIdVariant variant)

end ActorId

/-- `actor_state_key`. -/
def actorStateKey (id : ActorId) : List UInt8 := 0xA1 :: id.encode

/-- `RootActor`. -/
structure RootActor where
  didId : DidId
  merkleRoot : Digest
  leafCount : ℕ
  controlKey : List UInt8
  deriving DecidableEq

namespace RootActor

/-- `RootActor::encode`. -/
def encode (actor : RootActor) : List UInt8 :=
  actor.didId.encode ++ digestBytes actor.merkleRoot ++ beBytes 8 actor.leafCount ++
    actor.controlKey

/-- `RootActor::decode`. -/
def decode (c : Crypto) : Reader ExecutorError RootActor := do
  let didId ← DidId.decode
  let merkleRoot ← takeNat .truncated 32
  let leafCount ← takeNat .truncated 8
  let controlKey ← takeKey c .truncated
  return ⟨didId, merkleRoot, leafCount, controlKey⟩

end RootActor

/-- `SubActor`, built from a sub-actor's id only. -/
structure SubActor where
  actorId : ActorId
  controlKey : List UInt8
  operatingKey : List UInt8
  deriving DecidableEq

namespace SubActor

/-- `SubActor::encode`. -/
def encode (actor : SubActor) : List UInt8 :=
  actor.actorId.encode ++ actor.controlKey ++ actor.operatingKey

/-- `SubActor::decode`. -/
def decode (c : Crypto) : Reader ExecutorError SubActor := do
  let actorId ← ActorId.decode
  match actorId with
  | .root _ => throw .expectedSubActor
  | .sub _ _ _ => do
    let controlKey ← takeKey c .truncated
    let operatingKey ← takeKey c .truncated
    return ⟨actorId, controlKey, operatingKey⟩

end SubActor

/-! ## Proofs about the log of an identity's actors -/

/-- `ConsistencyProof`. -/
structure ConsistencyProof where
  oldLeafCount : ℕ
  newLeafCount : ℕ
  nodes : List Digest
  deriving DecidableEq

/-- `InclusionProof`. -/
structure InclusionProof where
  leafIndex : ℕ
  leafCount : ℕ
  nodes : List Digest
  deriving DecidableEq

/-- `read_hashes_from`. -/
def takeHashes : Reader ExecutorError (List Digest) := do
  let count ← takeNat .truncated 4
  takeMany (takeNat .truncated 32) count

/-- `ConsistencyProof::decode_from`. -/
def ConsistencyProof.decode : Reader ExecutorError ConsistencyProof := do
  let oldLeafCount ← takeNat .truncated 8
  let newLeafCount ← takeNat .truncated 8
  let nodes ← takeHashes
  return ⟨oldLeafCount, newLeafCount, nodes⟩

/-- `InclusionProof::decode_from`. -/
def InclusionProof.decode : Reader ExecutorError InclusionProof := do
  let leafIndex ← takeNat .truncated 8
  let leafCount ← takeNat .truncated 8
  let nodes ← takeHashes
  return ⟨leafIndex, leafCount, nodes⟩

/-- The hashes of a proof with their number in front. -/
def writeHashes (nodes : List Digest) : List UInt8 :=
  beBytes 4 nodes.length ++ nodes.flatMap digestBytes

/-- `ConsistencyProof::encode`. -/
def ConsistencyProof.encode (consistency : ConsistencyProof) : List UInt8 :=
  beBytes 8 consistency.oldLeafCount ++ beBytes 8 consistency.newLeafCount ++
    writeHashes consistency.nodes

/-- `InclusionProof::encode`. -/
def InclusionProof.encode (inclusion : InclusionProof) : List UInt8 :=
  beBytes 8 inclusion.leafIndex ++ beBytes 8 inclusion.leafCount ++ writeHashes inclusion.nodes

/-- `EMPTY_ROOT`. -/
def emptyRoot : Digest := 0xe3b0c44298fc1c149afbf4c8996fb92427ae41e4649b934ca495991b7852b855

section Log

variable (sha : Sha256)

/-- `merkle_log::leaf_hash`. -/
def logLeafHash (data : List UInt8) : Digest := sha (0x00 :: data)

/-- `node_hash`. -/
def nodeHash (left right : Digest) : Digest :=
  sha (0x01 :: (digestBytes left ++ digestBytes right))

/-- `largest_pow2_below`. -/
def largestPow2Below (n : ℕ) : ℕ :=
  if 2 ^ Nat.log2 n = n then 2 ^ Nat.log2 n / 2 else 2 ^ Nat.log2 n

/-- `inclusion_rec`. Both parts of a tree of at most `2 ^ j` leaves have at most `2 ^ (j - 1)`, so
the fuel `verify_inclusion` starts with is enough. -/
def inclusionRec (leaf : Digest) : ℕ → ℕ → ℕ → List Digest → Option (Digest × List Digest)
  | 0, _, _, _ => none
  | fuel + 1, m, n, nodes =>
    if n = 1 then (if m = 0 then some (leaf, nodes) else none)
    else if m ≥ n then none
    else
      let k := largestPow2Below n
      if m < k then
        match inclusionRec leaf fuel m k nodes with
        | some (left, sibling :: rest) => some (nodeHash sha left sibling, rest)
        | _ => none
      else
        match inclusionRec leaf fuel (m - k) (n - k) nodes with
        | some (right, sibling :: rest) => some (nodeHash sha sibling right, rest)
        | _ => none

/-- `verify_inclusion`. -/
def verifyInclusion (leaf : Digest) (inclusion : InclusionProof) (root : Digest) : Bool :=
  if inclusion.leafCount = 0 || inclusion.leafIndex ≥ inclusion.leafCount then false
  else
    match inclusionRec sha leaf (Nat.log2 inclusion.leafCount + 2) inclusion.leafIndex
        inclusion.leafCount inclusion.nodes with
    | some (folded, []) => folded == root
    | _ => false

/-- `consistency_rec`. -/
def consistencyRec (knownOld : Digest) :
    ℕ → ℕ → ℕ → Bool → List Digest → Option ((Digest × Digest) × List Digest)
  | 0, _, _, _, _ => none
  | fuel + 1, m, n, b, nodes =>
    if m = n then
      if b then some ((knownOld, knownOld), nodes)
      else
        match nodes with
        | head :: rest => some ((head, head), rest)
        | [] => none
    else if m > n then none
    else
      let k := largestPow2Below n
      if m ≤ k then
        match consistencyRec knownOld fuel m k b nodes with
        | some ((oldSide, leftNew), sibling :: rest) =>
          some ((oldSide, nodeHash sha leftNew sibling), rest)
        | _ => none
      else
        match consistencyRec knownOld fuel (m - k) (n - k) false nodes with
        | some ((oldSide, rightNew), sibling :: rest) =>
          some ((nodeHash sha sibling oldSide, nodeHash sha sibling rightNew), rest)
        | _ => none

/-- `verify_consistency`. -/
def verifyConsistency (oldRoot : Digest) (consistency : ConsistencyProof) (newRoot : Digest) :
    Bool :=
  let m := consistency.oldLeafCount
  let n := consistency.newLeafCount
  if m > n then false
  else if m = 0 then consistency.nodes.isEmpty && oldRoot == emptyRoot
  else if m = n then consistency.nodes.isEmpty && oldRoot == newRoot
  else
    match consistencyRec sha oldRoot (Nat.log2 n + 2) m n true consistency.nodes with
    | some ((calcOld, calcNew), []) => calcOld == oldRoot && calcNew == newRoot
    | _ => false

end Log

/-- `subactor_leaf_data`. -/
def subactorLeafData (actorId : ActorId) (controlKey : List UInt8) : List UInt8 :=
  "jkain:subactor-leaf:v1".toUTF8.toList ++ writeBytes actorId.encode ++ controlKey

/-- `subactor_leaf_hash`. -/
def subactorLeafHash (sha : Sha256) (actorId : ActorId) (controlKey : List UInt8) : Digest :=
  logLeafHash sha (subactorLeafData actorId controlKey)

/-! ## Operations on actors -/

/-- `SubActorOp`. -/
structure SubActorOp where
  rootDid : DidId
  tag : Tag
  index : ℕ
  controlKey : List UInt8
  operatingKey : List UInt8
  newRoot : Digest
  consistencyProof : ConsistencyProof
  inclusionProof : InclusionProof
  signature : Signature
  signedBy : UInt8
  deriving DecidableEq

namespace SubActorOp

/-- `SubActorOp::actor_id`. -/
def actorId (op : SubActorOp) : ActorId := .sub op.rootDid op.tag op.index

/-- `SubActorOp::decode`. -/
def decode (c : Crypto) : Reader ExecutorError SubActorOp := do
  let rootDid ← DidId.decode
  let tag ← Tag.decode
  let index ← takeActorIndex
  let controlKey ← takeKey c .truncated
  let operatingKey ← takeKey c .truncated
  let newRoot ← takeNat .truncated 32
  let consistencyProof ← ConsistencyProof.decode
  let inclusionProof ← InclusionProof.decode
  let signature ← takeExact .truncated 64
  let signedBy ← takeByte .truncated
  rejectTrailing .trailingBytes
  return ⟨rootDid, tag, index, controlKey, operatingKey, newRoot, consistencyProof, inclusionProof,
    .ofBytes signature, signedBy⟩

/-- `SubActorOp::encode`. -/
def encode (op : SubActorOp) : List UInt8 :=
  op.rootDid.encode ++ [op.tag.code] ++ beBytes 4 op.index ++ op.controlKey ++ op.operatingKey ++
    digestBytes op.newRoot ++ op.consistencyProof.encode ++ op.inclusionProof.encode ++
    op.signature.asBytes ++ [op.signedBy]

/-- `SubActorOp::signed_payload`. -/
def signedPayload (op : SubActorOp) : List UInt8 :=
  "jkain:subactor:v1".toUTF8.toList ++ writeBytes op.actorId.encode ++ op.controlKey ++
    op.operatingKey

end SubActorOp

/-- `RebindOp`. -/
structure RebindOp where
  actorId : ActorId
  newOperatingKey : List UInt8
  proofOfPossession : Signature
  authorizingSignature : Signature
  deriving DecidableEq

namespace RebindOp

/-- `RebindOp::decode`. -/
def decode (c : Crypto) : Reader ExecutorError RebindOp := do
  let actorId ← ActorId.decode
  let newOperatingKey ← takeKey c .truncated
  let proofOfPossession ← takeExact .truncated 64
  let authorizingSignature ← takeExact .truncated 64
  rejectTrailing .trailingBytes
  return ⟨actorId, newOperatingKey, .ofBytes proofOfPossession, .ofBytes authorizingSignature⟩

/-- `RebindOp::signed_payload`. -/
def signedPayload (op : RebindOp) (oldOperatingKey : List UInt8) : List UInt8 :=
  "jkain:rebind:v1".toUTF8.toList ++ writeBytes op.actorId.encode ++ oldOperatingKey ++
    op.newOperatingKey

end RebindOp

end JKain
