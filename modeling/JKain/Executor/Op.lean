import JKain.Executor.Identity

/-!
# Transaction payloads

A payload decodes into one operation: a write to the key-value state, a change of the membership,
or an operation on identities and actors. The first byte is the kind of operation. The errors of
the three nested decoders are not told apart.
-/

namespace JKain

/-! ## Membership operations -/

/-- The two variants of `CryptoError` that decoding a membership operation returns. -/
inductive MembershipOpError
  | malformedOp
  | unknownMembershipOpcode (opcode : UInt8)
  deriving DecidableEq

/-- `SocketAddr`, with the bytes of the IP address. -/
inductive SocketAddr
  | v4 (octets : List UInt8) (port : ℕ)
  | v6 (octets : List UInt8) (port flowInfo scopeId : ℕ)
  deriving DecidableEq

/-- The body of an address field: a tag, the bytes of the address and the port. -/
def takeSocketAddr : Reader MembershipOpError SocketAddr := do
  let tag ← takeByte .malformedOp
  if tag = 0x04 then do
    let octets ← takeExact .malformedOp 4
    let port ← takeNat .malformedOp 2
    rejectTrailing .malformedOp
    return .v4 octets port
  else if tag = 0x06 then do
    let octets ← takeExact .malformedOp 16
    let port ← takeNat .malformedOp 2
    rejectTrailing .malformedOp
    return .v6 octets port 0 0
  else throw .malformedOp

/-- `take_addr`: the field is cut out first and has to be used up. -/
def takeAddr : Reader MembershipOpError SocketAddr := do
  let encoded ← takeBytes .malformedOp
  match takeSocketAddr encoded with
  | .ok (addr, _) => return addr
  | .error error => throw error

/-- `take_optional_addr`. -/
def takeOptionalAddr : Reader MembershipOpError (Option SocketAddr) := do
  let flag ← takeByte .malformedOp
  if flag = 0x00 then return none
  else if flag = 0x01 then do
    let addr ← takeAddr
    return some addr
  else throw .malformedOp

/-- `MembershipOp`. -/
inductive MembershipOp
  | add (node : NodeId) (key blsKey pop : List UInt8) (addr : SocketAddr)
      (reconnectAddr : Option SocketAddr)
  | remove (node : NodeId)
  deriving DecidableEq

namespace MembershipOp

/-- `MembershipOp::decode`. -/
def decode (c : Crypto) : Reader MembershipOpError MembershipOp := do
  let opcode ← takeByte .malformedOp
  if opcode = 0x00 then do
    let node ← takeNat .malformedOp 8
    let key ← takeKey c .malformedOp
    let blsKey ← takeExact .malformedOp 48
    let pop ← takeExact .malformedOp 96
    let addr ← takeAddr
    let reconnectAddr ← takeOptionalAddr
    rejectTrailing .malformedOp
    return add node key blsKey pop addr reconnectAddr
  else if opcode = 0x01 then do
    let node ← takeNat .malformedOp 8
    rejectTrailing .malformedOp
    return remove node
  else throw (.unknownMembershipOpcode opcode)

end MembershipOp

/-! ## Operations on the state -/

/-- `Op`. -/
inductive Op
  | put (key value : List UInt8)
  | delete (key : List UInt8)
  deriving DecidableEq

/-- `reject_reserved_prefix`: the records of identities and actors are not written directly. -/
def rejectReservedPrefix (key : List UInt8) : Reader ExecutorError PUnit :=
  match key.head? with
  | some 0xD1 => throw (.reservedKeyPrefix 0xD1)
  | some 0xA1 => throw (.reservedKeyPrefix 0xA1)
  | _ => pure ⟨⟩

/-- `DecodedOp`. -/
inductive DecodedOp
  | kv (op : Op)
  | membership (op : MembershipOp)
  | did (op : DidOp)
  | subActor (op : SubActorOp)
  | rebind (op : RebindOp)
  deriving DecidableEq

namespace DecodedOp

/-- The fields of a `Put`. -/
def decodePut : Reader ExecutorError DecodedOp := do
  let key ← takeBytes .truncated
  rejectReservedPrefix key
  let value ← takeBytes .truncated
  rejectTrailing .trailingBytes
  return kv (.put key value)

/-- The field of a `Delete`. -/
def decodeDelete : Reader ExecutorError DecodedOp := do
  let key ← takeBytes .truncated
  rejectReservedPrefix key
  rejectTrailing .trailingBytes
  return kv (.delete key)

/-- `.map(wrap).map_err(|_| error)` on the result of a decoder. -/
def nested {ε α : Type} (wrap : α → DecodedOp) (error : ExecutorError)
    (result : Except ε (α × List UInt8)) : Except ExecutorError DecodedOp :=
  match result with
  | .ok (op, _) => .ok (wrap op)
  | .error _ => .error error

/-- `DecodedOp::decode`. -/
def decode (c : Crypto) (payload : List UInt8) : Except ExecutorError DecodedOp :=
  match payload with
  | [] => .error .emptyPayload
  | opcode :: body =>
    if opcode = 0x00 then (decodePut body).map Prod.fst
    else if opcode = 0x01 then (decodeDelete body).map Prod.fst
    else if opcode = 0x02 then
      nested membership .malformedMembershipOp (MembershipOp.decode c body)
    else if opcode = 0x03 then nested did .malformedDidOp (DidOp.decode c body)
    else if opcode = 0x04 then nested subActor .malformedSubActorOp (SubActorOp.decode c body)
    else if opcode = 0x05 then nested rebind .malformedRebindOp (RebindOp.decode c body)
    else .error (.unknownOpcode opcode)

end DecodedOp

end JKain
