import JKain.Crypto.Digest

/-!
# Record stream files

A node writes one file for each decided round: the transactions of the round in consensus order, the
signed checkpoint of the round, and the keys of the state that changed. The files are protobuf
messages; they are described here as the messages they decode to, with byte strings of any length
where the schema says `bytes`. Each file continues a running hash over the encoded items.
-/

namespace JKain

/-! ## Messages -/

namespace Pb

/-- `HashObject`. -/
structure HashObject where
  algorithm : UInt32
  length : UInt32
  hash : List UInt8
  deriving DecidableEq

/-- `RecordItem`. -/
structure RecordItem where
  eventHash : List UInt8
  txIndex : UInt32
  txPayload : List UInt8
  deriving DecidableEq

/-- `StateDiff`; a key without a value was removed. -/
structure StateDiff where
  key : List UInt8
  value : Option (List UInt8)
  deriving DecidableEq

/-- `CheckpointRosterMember`. -/
structure CheckpointRosterMember where
  nodeId : UInt64
  key : List UInt8
  blsKey : List UInt8
  pop : List UInt8
  deriving DecidableEq

/-- `SignedCheckpoint`. -/
structure SignedCheckpoint where
  round : UInt64
  stateHash : List UInt8
  rosterHash : List UInt8
  rosterSnapshot : List CheckpointRosterMember
  recordsRoot : List UInt8
  aggregateSig : List UInt8
  signers : List UInt64
  prevCheckpointHash : List UInt8
  windowRoot : List UInt8
  rosterHistoryRoot : List UInt8
  deriving DecidableEq

/-- `RecordStreamFile`. -/
structure RecordStreamFile where
  version : UInt32
  round : UInt64
  startRunningHash : Option HashObject
  items : List RecordItem
  endRunningHash : Option HashObject
  checkpoint : Option SignedCheckpoint
  stateDiffs : List StateDiff
  deriving DecidableEq

/-- `ProofStep`. -/
structure ProofStep where
  siblingHash : List UInt8
  siblingIsRight : Bool
  deriving DecidableEq

/-- `ProofEntry`. -/
structure ProofEntry where
  itemIndex : UInt32
  proofSteps : List ProofStep
  deriving DecidableEq

/-- `RecordsProofFile`, the sidecar of a record file. -/
structure RecordsProofFile where
  version : UInt32
  round : UInt64
  proofs : List ProofEntry
  deriving DecidableEq

/-- A base 128 number, low groups first; ten groups are enough for 64 bits. -/
def varint : ℕ → ℕ → List UInt8
  | 0, _ => []
  | fuel + 1, n =>
    if n < 128 then [UInt8.ofNat n] else UInt8.ofNat (n % 128 + 128) :: varint fuel (n / 128)

/-- A `bytes` field; an empty one is left out. -/
def bytesField (tag : UInt8) (bytes : List UInt8) : List UInt8 :=
  if bytes.isEmpty then [] else tag :: (varint 10 bytes.length ++ bytes)

/-- A `uint32` field; zero is left out. -/
def uintField (tag : UInt8) (n : ℕ) : List UInt8 := if n = 0 then [] else tag :: varint 10 n

/-- `encode_to_vec`, and the deterministic marshalling of the mirror: the fields in the order of
their numbers. -/
def RecordItem.encode (item : RecordItem) : List UInt8 :=
  bytesField 0x0a item.eventHash ++ uintField 0x10 item.txIndex.toNat ++
    bytesField 0x1a item.txPayload

end Pb

namespace Stream

/-- `STREAM_VERSION`. -/
def streamVersion : UInt32 := 4

/-! ## The running hash -/

/-- `DOMAIN`. -/
def domain : List UInt8 := [0x6a, 0x6b, 0x2d, 0x6b]

/-- `CHAIN_SEED`. -/
def chainSeed : Digest := 0

section RunningHash

variable (sha : Sha256)

/-- `item_hash`. -/
def itemHash (serialized : List UInt8) : Digest := sha (domain ++ "item".toUTF8.toList ++ serialized)

/-- `chain_hash`. -/
def chainHash (running item : Digest) : Digest :=
  sha (domain ++ "chain".toUTF8.toList ++ digestBytes running ++ digestBytes item)

/-- `chain_items`: the running hash behind the items. -/
def chainItems (start : Digest) (items : List Pb.RecordItem) : Digest :=
  items.foldl (fun current item => chainHash sha current (itemHash sha item.encode)) start

end RunningHash

/-! ## File names -/

/-- `RECORD_FILE_PREFIX`. -/
def recordFilePrefix : List Char := "round-".toList

/-- `RECORD_FILE_SUFFIX`. -/
def recordFileSuffix : List Char := ".rsf".toList

/-- `RECORD_PROOF_SUFFIX`. -/
def recordProofSuffix : List Char := ".rsf_proofs".toList

/-- The number a string of decimal digits spells, if it fits 64 bits. -/
def parseDigits (digits : List Char) : Option ℕ :=
  if digits.isEmpty || !digits.all Char.isDigit then none
  else (some (Nat.ofDigitChars 10 digits 0)).filter (· < 2 ^ 64)

/-- The name without the given beginning and end. -/
def strip (head tail name : List Char) : Option (List Char) :=
  (head.isPrefixOf? name).bind tail.isSuffixOf?

/-- `record_file_name`. -/
def recordFileName (round : ℕ) : List Char :=
  recordFilePrefix ++ Nat.toDigits 10 round ++ recordFileSuffix

/-- `record_proof_file_name`. -/
def recordProofFileName (round : ℕ) : List Char :=
  recordFilePrefix ++ Nat.toDigits 10 round ++ recordProofSuffix

end Stream

end JKain
