import JKain.Executor.State
import JKain.Lib.Checks

/-!
# Chained checkpoint payloads

What a node signs for a round is rebuilt from decided history: the ordered events of the round, the
state hash recorded at or before it, and the hash of the payload of the round before. That hash is
read from a stored checkpoint where there is one, and rebuilt otherwise.
-/

namespace JKain

open Std

/-- The last entry at or below `round`: `range(..=round).next_back()`. -/
def lastAtOrBelow {α : Type} (map : ExtTreeMap ℕ α) (round : ℕ) : Option α :=
  (map.toList.filter (·.1 ≤ round)).getLast?.map (·.2)

/-- If there is an entry at or below `round`, the last one is found. -/
theorem exists_lastAtOrBelow {α : Type} {map : ExtTreeMap ℕ α} {round r : ℕ} (hr : r ∈ map)
    (hle : r ≤ round) :
    ∃ last value, last ≤ round ∧ map[last]? = some value ∧
      (∀ r' ∈ map, r' ≤ round → r' ≤ last) ∧ lastAtOrBelow map round = some value := by
  have hmem : ∀ {r' : ℕ}, r' ∈ map → r' ≤ round →
      ∃ value, (r', value) ∈ map.toList.filter (·.1 ≤ round) := by
    intro r' hr' hle'
    obtain ⟨value, hvalue⟩ := Option.isSome_iff_exists.mp
      (ExtTreeMap.isSome_getElem?_iff_mem.mpr hr')
    exact ⟨value, List.mem_filter.mpr
      ⟨ExtTreeMap.mem_toList_iff_getElem?_eq_some.mpr hvalue, by simpa using hle'⟩⟩
  obtain ⟨first, hfirst⟩ := hmem hr hle
  have hne : map.toList.filter (·.1 ≤ round) ≠ [] := List.ne_nil_of_mem hfirst
  obtain ⟨hlast, hbelow⟩ := List.mem_filter.mp (List.getLast_mem hne)
  have hsorted : (map.toList.filter (·.1 ≤ round)).Pairwise fun a b => compare a.1 b.1 = .lt :=
    map.ordered_keys_toList.filter _
  refine ⟨(List.getLast _ hne).1, (List.getLast _ hne).2, by simpa using hbelow,
    ExtTreeMap.mem_toList_iff_getElem?_eq_some.mp hlast, ?_, ?_⟩
  · -- the list is sorted, so that no entry comes after its last one
    intro r' hr' hle'
    obtain ⟨value, hvalue⟩ := hmem hr' hle'
    rw [← List.dropLast_append_getLast hne] at hvalue hsorted
    rcases List.mem_append.mp hvalue with h | h
    · exact (compare_lt_iff_lt.mp
        ((List.pairwise_append.mp hsorted).2.2 _ h _ (by simp))).le
    · rw [← List.mem_singleton.mp h]
  · rw [lastAtOrBelow, List.getLast?_eq_some_getLast hne, Option.map_some]

namespace Hashgraph

/-- The items of an ordered event, one for each transaction. -/
def recordsRootItems (hash : EventHash) (event : Event) : Except Fault (List RecordsRootItem) :=
  if event.payload.length ≤ 2 ^ 32 then
    .ok (event.payload.zipIdx.map fun (tx, idx) => ⟨hash, idx, tx.payload⟩)
  else .error (.panic .txIndexOverflow)

/-- The items of an event of the order; one that is not stored has none. -/
def eventItems (g : Hashgraph) (hash : EventHash) : Except Fault (List RecordsRootItem) :=
  match g.get? hash with
  | some record => recordsRootItems hash record.event
  | none => .ok []

/-- The items of a round in consensus order. -/
def roundItems (g : Hashgraph) (round : ℕ) : Except Fault (List RecordsRootItem) := do
  let items ← (g.consensusOrder round).mapM g.eventItems
  return items.flatten

/-- `compute_records_root`. -/
def computeRecordsRoot (sha : Sha256) (items : List RecordsRootItem) : Except Fault Digest :=
  match tryComputeRecordsRoot sha items with
  | .ok root => .ok root
  | .error _ => .error (.panic .recordsRootOverflow)

/-- `canonical_checkpoint_payload`. -/
def canonicalCheckpointPayload (sha : Sha256) (g : Hashgraph) (stateHashes : ExtTreeMap ℕ Digest)
    (round : ℕ) : Except Fault (Option CheckpointPayload) :=
  match lastAtOrBelow stateHashes round with
  | none => .ok none
  | some stateHash => do
    let items ← g.roundItems round
    let recordsRoot ← computeRecordsRoot sha items
    g.checkpointPayload sha round recordsRoot stateHash

/-- The stored payload of a round: `signed.iter().find(..)`. -/
def storedPayload (signed : List CheckpointPayload) (round : ℕ) : Option CheckpointPayload :=
  signed.find? (·.round == round)

@[simp]
theorem storedPayload_nil (round : ℕ) : storedPayload [] round = none := rfl

/-- The hash of a payload, zeros if there is none. -/
def payloadHash (sha : Sha256) : Option CheckpointPayload → Digest
  | some payload => payload.signingBytesHash sha
  | none => 0

/-- The payload with the hash of the one before, if there is a payload. -/
def chainPayload (prev : Except Fault Digest) :
    Option CheckpointPayload → Except Fault (Option CheckpointPayload)
  | none => .ok none
  | some base => do
    let hash ← prev
    return some (base.withPrevCheckpointHash hash)

/-- `prev_checkpoint_hash_for` above round 0, given what the chain rebuilds for the round before. -/
def storedOrRebuilt (sha : Sha256) (signed : List CheckpointPayload) (prevRound : ℕ)
    (rebuilt : Except Fault (Option CheckpointPayload)) : Except Fault Digest :=
  match storedPayload signed prevRound with
  | some payload => .ok (payload.signingBytesHash sha)
  | none => rebuilt.map (payloadHash sha)

/-- `canonical_checkpoint_payload_chained`. The program calls `prev_checkpoint_hash_for`, which calls
back for the round before; the two are one recursion on the round here. -/
def canonicalCheckpointPayloadChained (sha : Sha256) (g : Hashgraph)
    (stateHashes : ExtTreeMap ℕ Digest) (signed : List CheckpointPayload) :
    ℕ → Except Fault (Option CheckpointPayload)
  | 0 => do
    let base ← g.canonicalCheckpointPayload sha stateHashes 0
    chainPayload (.ok 0) base
  | prevRound + 1 => do
    let base ← g.canonicalCheckpointPayload sha stateHashes (prevRound + 1)
    chainPayload (storedOrRebuilt sha signed prevRound
      (canonicalCheckpointPayloadChained sha g stateHashes signed prevRound)) base

section Chained

variable {sha : Sha256} {g : Hashgraph} {stateHashes : ExtTreeMap ℕ Digest}
  {signed : List CheckpointPayload} {round : ℕ} {payload : CheckpointPayload}

/-- The stored payloads are the ones the chain rebuilds without any of them. -/
def Canonical (sha : Sha256) (g : Hashgraph) (stateHashes : ExtTreeMap ℕ Digest)
    (signed : List CheckpointPayload) : Prop :=
  ∀ payload ∈ signed,
    g.canonicalCheckpointPayloadChained sha stateHashes [] payload.round = .ok (some payload)

/-- Where a payload is stored its hash is the one that is rebuilt without it, and where none is the
rebuilt payload decides. -/
theorem Canonical.storedOrRebuilt_eq (h : Canonical sha g stateHashes signed) {prevRound : ℕ}
    {rebuilt : Except Fault (Option CheckpointPayload)}
    (hrebuilt : storedPayload signed prevRound = none →
      rebuilt = g.canonicalCheckpointPayloadChained sha stateHashes [] prevRound) :
    storedOrRebuilt sha signed prevRound rebuilt =
      storedOrRebuilt sha [] prevRound
        (g.canonicalCheckpointPayloadChained sha stateHashes [] prevRound) := by
  cases hfind : storedPayload signed prevRound with
  | none => simp only [storedOrRebuilt, hfind, storedPayload_nil, hrebuilt hfind]
  | some payload =>
    have hround : payload.round = prevRound := by simpa using List.find?_some hfind
    have hpayload := h payload (List.mem_of_find?_eq_some hfind)
    rw [hround] at hpayload
    simp only [storedOrRebuilt, hfind, storedPayload_nil, hpayload, Except.map, payloadHash]

/-- Canonical stored payloads do not change what is rebuilt. -/
theorem Canonical.chained_eq (h : Canonical sha g stateHashes signed) (round : ℕ) :
    g.canonicalCheckpointPayloadChained sha stateHashes signed round =
      g.canonicalCheckpointPayloadChained sha stateHashes [] round := by
  induction round with
  | zero => rfl
  | succ prevRound ih =>
    simp only [canonicalCheckpointPayloadChained, h.storedOrRebuilt_eq fun _ => ih]

end Chained

end Hashgraph

end JKain
