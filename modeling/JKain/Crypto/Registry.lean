import JKain.Executor.Codec

/-!
# Registries as bytes, and aggregate signatures

A registry is written as its members in increasing order, 88 bytes each. BLS signatures and public
keys are their compressed bytes; which byte strings are points, and which aggregates verify, is taken
as given.
-/

namespace JKain

open Std

/-- A BLS signature, as its 96 compressed bytes. -/
abbrev BlsSignature := List UInt8

/-- The primitives of `blst::min_pk`: which byte strings `Signature::from_bytes` and
`PublicKey::from_bytes` take, and `fast_aggregate_verify` of a message under a list of keys. -/
structure Bls where
  validSignature : List UInt8 → Bool
  validPublicKey : List UInt8 → Bool
  verifyAggregate : BlsSignature → List UInt8 → List (List UInt8) → Bool

namespace MembershipRegistry

/-- `MembershipRegistry::contains`. -/
def contains (registry : MembershipRegistry) (node : NodeId) : Bool := registry.keys.contains node

/-- `MembershipRegistry::bls_key_for`. -/
def blsKeyFor (registry : MembershipRegistry) (node : NodeId) : Option (List UInt8) :=
  registry.keys[node]?.map MemberKeys.blsKey

/-- One member of `MembershipRegistry::from_bytes`. -/
def takeMember (c : Crypto) : Reader Unit (NodeId × MemberKeys) := do
  let node ← takeNat () 8
  let key ← takeKey c ()
  let blsKey ← takeExact () 48
  return (node, ⟨key, blsKey⟩)

/-- `while !bytes.is_empty()`, with the number of bytes as fuel. A later member with the same id
replaces an earlier one. -/
def takeMembers (c : Crypto) : ℕ → List UInt8 → MembershipRegistry → Option MembershipRegistry
  | 0, _, registry => some registry
  | fuel + 1, bytes, registry =>
    if bytes.isEmpty then some registry
    else
      match takeMember c bytes with
      | .ok ((node, keys), rest) =>
        takeMembers c fuel rest (registry.register node keys.key keys.blsKey)
      | .error _ => none

/-- `MembershipRegistry::from_bytes`. -/
def fromBytes (c : Crypto) (bytes : List UInt8) : Option MembershipRegistry :=
  takeMembers c bytes.length bytes .new

end MembershipRegistry

end JKain
