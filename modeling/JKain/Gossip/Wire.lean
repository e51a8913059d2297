import JKain.Consensus.Signed

/-!
# Events on the wire

Events are written field by field with big-endian numbers, and lists with their length in front. The
readers check a declared count against the bytes that are left before they start on the list.
-/

namespace JKain

open Std

/-! ## Canonical bytes of events -/

/-- `encode_canonical` of an optional hash. -/
def optionalHashBytes : Option EventHash → List UInt8
  | none => [0x00]
  | some hash => 0x01 :: digestBytes hash

/-- `encode_canonical` of a transaction. -/
def Transaction.canonicalBytes (tx : Transaction) : Except OutOfRange (List UInt8) := do
  let len ← tryU32 "Transaction payload length" tx.payload.length
  return beBytes 4 len ++ tx.payload

/-- `encode_canonical` of a list of transactions. -/
def transactionsBytes (txs : List Transaction) : Except OutOfRange (List UInt8) := do
  let count ← tryU32 "Vec<Transaction> length" txs.length
  let bytes ← txs.mapM Transaction.canonicalBytes
  return beBytes 4 count ++ bytes.flatten

/-- `canonical_bytes` of an event. -/
def Event.canonicalBytes (event : Event) : Except OutOfRange (List UInt8) := do
  let payload ← transactionsBytes event.payload
  return beBytes 8 event.creator ++ optionalHashBytes event.selfParent ++
    optionalHashBytes event.otherParent ++ beBytes 8 event.timestamp ++ payload ++
    event.signature.asBytes

namespace Wire

/-- The text of `GossipError::Framing`. -/
abbrev FramingError := String

/-- A byte as `#04x` formats it. -/
def hexByte (byte : UInt8) : String :=
  String.ofList ['0', 'x', Nat.digitChar (byte.toNat / 16), Nat.digitChar (byte.toNat % 16)]

/-! ## Reading -/

/-- `Cursor::read`. -/
def read (len : ℕ) : Reader FramingError (List UInt8) := takeExact "truncated frame payload" len

/-- `Cursor::read_u32` and `Cursor::read_u64`. -/
def readNat (width : ℕ) : Reader FramingError ℕ := takeNat "truncated frame payload" width

/-- `Cursor::finish`. -/
def finish : Reader FramingError PUnit := do
  let cursor ← get
  require cursor.isEmpty s!"{cursor.length} trailing bytes after payload"

/-- A declared count of entries of at least `size` bytes each. -/
def checkCount (count size : ℕ) : Reader FramingError PUnit := do
  let cursor ← get
  require (count ≤ cursor.length / size) "declared count exceeds remaining buffer"

/-- A count and as many entries of at least `size` bytes each. -/
def readCounted {α : Type} (entry : Reader FramingError α) (size : ℕ) :
    Reader FramingError (List α) := do
  let count ← readNat 4
  checkCount count size
  takeMany entry count

/-- A field with its length in front. -/
def readField : Reader FramingError (List UInt8) := do
  let len ← readNat 4
  read len

/-- An optional value behind a tag. -/
def readOptional {α : Type} (value : Reader FramingError α) (text : String) :
    Reader FramingError (Option α) := do
  let tag ← takeByte "truncated frame payload"
  if tag = 0x00 then return none
  else if tag = 0x01 then do
    let a ← value
    return some a
  else throw (text ++ hexByte tag)

/-- `decode_event`. -/
def decodeEvent : Reader FramingError Event := do
  let creator ← readNat 8
  let selfParent ← readOptional (readNat 32) "invalid optional-hash tag "
  let otherParent ← readOptional (readNat 32) "invalid optional-hash tag "
  let timestamp ← readNat 8
  let payload ← readCounted readField 4
  let signature ← read 64
  return ⟨creator, selfParent, otherParent, timestamp, payload.map Transaction.mk,
    .ofBytes signature⟩

/-- An event that takes up all of its field. -/
def decodeEventField (bytes : List UInt8) : Except FramingError Event :=
  match decodeEvent bytes with
  | .error e => .error e
  | .ok (event, rest) => (finish rest).map fun _ => event

end Wire

end JKain
