import JKain.Crypto.Roster
import Mathlib.Data.List.Induction

/-!
# Digests and byte encodings

SHA-256 is a parameter of everything that hashes. A digest is read as the number its 32 bytes spell,
as an event hash is; `digestBytes` gives the bytes back where they are hashed again.
-/

namespace JKain

open Std

/-- `value.to_be_bytes()` on `width` bytes. -/
def beBytes : ℕ → ℕ → List UInt8
  | 0, _ => []
  | width + 1, n => beBytes width (n / 256) ++ [UInt8.ofNat (n % 256)]

@[simp]
theorem length_beBytes (width n : ℕ) : (beBytes width n).length = width := by
  induction width generalizing n with
  | zero => rfl
  | succ width ih => simp [beBytes, ih]

/-- A 32-byte digest. -/
abbrev Digest := ℕ

/-- The bytes of a digest. -/
def digestBytes (d : Digest) : List UInt8 := beBytes 32 d

@[simp]
theorem length_digestBytes (d : Digest) : (digestBytes d).length = 32 := length_beBytes 32 d

/-- The hash function. -/
abbrev Sha256 := List UInt8 → Digest

/-- A hash function for small examples. -/
def rollingHash : Sha256 := fun bytes =>
  bytes.foldl (fun hash byte => (hash * 257 + byte.toNat) % 1000003) 7

theorem rollingHash_lt (bytes : List UInt8) : rollingHash bytes < 256 ^ 32 := by
  have hsmall : rollingHash bytes < 1000003 := by
    induction bytes using List.reverseRecOn with
    | nil => decide
    | append_singleton bytes byte _ =>
      rw [rollingHash, List.foldl_append]
      exact Nat.mod_lt _ (by decide)
  exact hsmall.trans (by decide)

/-- `primitives::Error::OutOfRange`: a length does not fit its prefix. -/
structure OutOfRange where
  field : String
  got : String
  deriving DecidableEq

/-- `u32::try_from`. -/
def tryU32 (field : String) (n : ℕ) : Except OutOfRange ℕ :=
  if n < 2 ^ 32 then .ok n else .error ⟨field, toString n⟩

/-- `MembershipRegistry::to_bytes`: the members in increasing order, each with its two keys. -/
def MembershipRegistry.toBytes (registry : MembershipRegistry) : List UInt8 :=
  registry.keys.toList.flatMap fun (node, keys) => beBytes 8 node ++ keys.key ++ keys.blsKey

/-- `MembershipRegistry::hash`. -/
def MembershipRegistry.hash (sha : Sha256) (registry : MembershipRegistry) : Digest :=
  sha registry.toBytes

end JKain
