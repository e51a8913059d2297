import Mathlib.Data.Finset.Card
import Mathlib.Data.Fintype.Pi

/-!
# The value types of the protocol

Events, their creators and hashes, and the maps keyed by them. The byte strings that serve as
identities are read as the numbers they spell: the derived orders of `NodeId` and `EventHash` are
the numeric ones. Hash maps and ordered maps are both finite maps here; where the program iterates
over a hash map in an order that matters, the order is an argument of the operation.
-/

namespace JKain

open Std

/-- `NodeId(u64)`. -/
abbrev NodeId := ℕ

/-- `EventHash([u8; 32])`, read as a big-endian number. -/
abbrev EventHash := ℕ

/-- `Timestamp(u64)`, in nanoseconds. -/
abbrev Timestamp := ℕ

/-- The 64 bytes of an Ed25519 signature. -/
structure Signature where
  bytes : Fin 64 → UInt8
  deriving DecidableEq

/-- An opaque transaction payload. -/
structure Transaction where
  payload : List UInt8
  deriving DecidableEq

/-- A signed event: two optional parents, a declared creation time and a payload. -/
structure Event where
  creator : NodeId
  selfParent : Option EventHash
  otherParent : Option EventHash
  timestamp : Timestamp
  payload : List Transaction
  signature : Signature
  deriving DecidableEq

/-- `[self_parent, other_parent].into_iter().flatten()`. -/
def Event.parents (e : Event) : List EventHash := e.selfParent.toList ++ e.otherParent.toList

theorem Event.mem_parents {e : Event} {p : EventHash} :
    p ∈ e.parents ↔ e.selfParent = some p ∨ e.otherParent = some p := by
  simp [Event.parents]

/-- `Event::hash`: SHA-256 over the canonical encoding, or the text of the encoding error. -/
abbrev Hasher := Event → Except String EventHash

/-- Pairs of keys are ordered lexicographically. -/
instance : Ord (NodeId × ℕ) := lexOrd

/-- Pairs of keys are ordered lexicographically. -/
instance : Ord (NodeId × Option EventHash) := lexOrd

-- Named here, so that the definitions of all modules refer to these two proofs and not each to one
-- of its own.
instance transOrdBranch : TransOrd (NodeId × Option EventHash) := instTransOrdProd

instance lawfulBEqBytes : LawfulBEq (List UInt8) := List.instLawfulBEq

end JKain
