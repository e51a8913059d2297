import JKain.Crypto.Digest

/-!
# Reading byte strings

The decoders of the executor advance a cursor over the payload. A reader is a program on the bytes
that are left; it stops with the first error.
-/

namespace JKain

open Std

/-- The primitives that are taken as given: the hash function, which byte strings are Ed25519 keys,
which signatures they verify, and which proofs of possession go with a BLS key. -/
structure Crypto where
  sha : Sha256
  validKey : List UInt8 → Bool
  verify : List UInt8 → List UInt8 → Signature → Bool
  verifyPop : List UInt8 → List UInt8 → Bool

/-- `ExecutorError`. -/
inductive ExecutorError
  | emptyPayload
  | truncated
  | unknownOpcode (opcode : UInt8)
  | trailingBytes
  | malformedMembershipOp
  | malformedDidOp
  | malformedSubActorOp
  | malformedRebindOp
  | invalidDid
  | reservedKeyPrefix (pre : UInt8)
  | unsupportedDidDocumentVersion (version : UInt8)
  | unknownVerificationMethodType (methodType : UInt8)
  | noSigningMethod
  | unknownActorIdVariant (variant : UInt8)
  | unknownActorTag (code : UInt8)
  | actorIndexOutOfRange (index : ℕ)
  | expectedSubActor
  deriving DecidableEq

/-- Programs on the bytes left to read. -/
abbrev Reader (ε : Type) := StateT (List UInt8) (Except ε)

section Reader

variable {ε α : Type}

/-- Stops with the error unless the condition holds. -/
def require (condition : Bool) (error : ε) : Reader ε PUnit :=
  if condition then pure ⟨⟩ else throw error

/-- `take_exact`. -/
def takeExact (error : ε) (len : ℕ) : Reader ε (List UInt8) := fun cursor =>
  if len ≤ cursor.length then .ok (cursor.take len, cursor.drop len) else .error error

/-- `take_exact(cursor, 1)?[0]`. -/
def takeByte (error : ε) : Reader ε UInt8 := fun cursor =>
  match cursor with
  | byte :: rest => .ok (byte, rest)
  | [] => .error error

/-- `from_be_bytes`. -/
def fromBe (bytes : List UInt8) : ℕ := bytes.foldl (fun acc byte => acc * 256 + byte.toNat) 0

/-- A big-endian number of `width` bytes. -/
def takeNat (error : ε) (width : ℕ) : Reader ε ℕ := do
  let bytes ← takeExact error width
  return fromBe bytes

/-- `take_bytes`: a field with its length in front. -/
def takeBytes (error : ε) : Reader ε (List UInt8) := do
  let len ← takeNat error 4
  takeExact error len

/-- `reject_trailing`. -/
def rejectTrailing (error : ε) : Reader ε PUnit := do
  let cursor ← get
  require cursor.isEmpty error

/-- A 32-byte Ed25519 key. -/
def takeKey (c : Crypto) (error : ε) : Reader ε (List UInt8) := do
  let key ← takeExact error 32
  require (c.validKey key) error
  return key

/-- Reads `count` values. -/
def takeMany (m : Reader ε α) : ℕ → Reader ε (List α)
  | 0 => pure []
  | count + 1 => do
    let a ← m
    let rest ← takeMany m count
    return a :: rest

/-- A stored record is read only if it takes up all the bytes, whatever the error otherwise. -/
def decodeAll (m : Reader ε α) (bytes : List UInt8) : Option α :=
  match m bytes with
  | .ok (a, []) => some a
  | _ => none

end Reader

/-- `Signature::new` on 64 bytes. -/
def Signature.ofBytes (bytes : List UInt8) : Signature := ⟨fun i => bytes[i.val]?.getD 0⟩

/-- `Signature::as_bytes`. -/
def Signature.asBytes (signature : Signature) : List UInt8 := List.ofFn signature.bytes

/-- `write_bytes`: a field with its length in front. The program stops on a field of `2 ^ 32` bytes
or more; the length wraps here. -/
def writeBytes (bytes : List UInt8) : List UInt8 := beBytes 4 bytes.length ++ bytes

end JKain
