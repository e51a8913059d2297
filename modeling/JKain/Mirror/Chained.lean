import JKain.Mirror.IngestSpec
import JKain.Gossip.Payload

/-!
# The stored records form one chain

The mirror does not compare rounds when it stores a record: it follows the running hash and the hash
of the previous checkpoint. As long as quorums of the trusted roster only sign the payloads of one
chain, one for each round, this is enough for the stored records to be consecutive rounds, whatever
files are put in front of the mirror.
-/

namespace JKain.Mirror

open Std Lib JKain.Stream

/-! ## Quorums that follow one chain of payloads -/

/-- Quorums of the trusted roster are honest: what they sign is the payload of a round in a chain of
payloads, each of which holds the hash of the one before, or zeros where there is none. -/
structure HonestQuorums (sha : Sha256) (bls : Bls) (trusted : List UInt8)
    (canonical : ℕ → Option CheckpointPayload) : Prop where
  round_eq : ∀ {r p}, canonical r = some p → p.round = r
  prev_zero : ∀ {p}, canonical 0 = some p → p.prevCheckpointHash = 0
  prev_succ : ∀ {r p}, canonical (r + 1) = some p →
    p.prevCheckpointHash = Hashgraph.payloadHash sha (canonical r)
  signed : ∀ {cp}, verifyCheckpointQuorum sha bls cp trusted = .ok () →
    ∃ p, canonical cp.round.toNat = some p ∧ checkpointSigningBytes cp = p.signingBytes

/-- No two payloads of the chain have the same hash, and none has the hash of zeros. -/
structure NoCollision (sha : Sha256) (canonical : ℕ → Option CheckpointPayload) : Prop where
  inj : ∀ {r r' p p'}, canonical r = some p → canonical r' = some p' →
    p.signingBytesHash sha = p'.signingBytesHash sha → r = r'
  ne_zero : ∀ {r p}, canonical r = some p → p.signingBytesHash sha ≠ 0

/-- The fields of a checkpoint that was signed are those of the payload. -/
theorem prev_eq_of_signingBytes_eq {cp : Pb.SignedCheckpoint} {p : CheckpointPayload}
    (hlen : cp.prevCheckpointHash.length = 32) (hp : p.prevCheckpointHash < 256 ^ 32)
    (h : checkpointSigningBytes cp = p.signingBytes) :
    fromBe cp.prevCheckpointHash = p.prevCheckpointHash := by
  have hfield := congrArg (·[4]?) (fields_eq_of_signingBytes_eq h)
  have hbytes : cp.prevCheckpointHash = digestBytes p.prevCheckpointHash := by
    simpa [copy32_of_length hlen] using hfield
  rw [hbytes]
  exact fromBe_beBytes hp

/-! ## Chains of records -/

/-- The records form a chain, with the running hash and the checkpoint hash behind the last of them:
the first record starts at the seed and with a checkpoint hash of zeros, each next one starts where
the one before ends and commits to the hash of its signing bytes. -/
inductive Chain (sha : Sha256) :
    List Pb.RecordStreamFile → Option Digest → Option Digest → Prop
  | seed : Chain sha [] none none
  | next {records : List Pb.RecordStreamFile} {lastEnd prev : Option Digest}
      {f : Pb.RecordStreamFile} {finish : Digest} {cp : Pb.SignedCheckpoint}
      (h : Chain sha records lastEnd prev)
      (hstart : hashFromPb f.startRunningHash = .ok (lastEnd.getD chainSeed))
      (hfinish : hashFromPb f.endRunningHash = .ok finish) (hcp : f.checkpoint = some cp)
      (hprev : cp.prevCheckpointHash = digestBytes (prev.getD 0)) :
      Chain sha (records ++ [f]) (some finish) (some (checkpointSigningBytesHash sha cp))

/-- The records form one chain in the order of their rounds, each of them verifies, and the ingester
expects what follows the last of them. -/
structure OneChain (sha : Sha256) (bls : Bls) (trusted : List UInt8) {σ : Type} (ing : Ingester σ)
    (records : List Pb.RecordStreamFile) : Prop where
  sorted : records.Pairwise fun f f' => f.round < f'.round
  chain : Chain sha records ing.lastRecordEnd ing.expectedPrev
  verified : ∀ f ∈ records, verifyRecordFile sha bls f trusted = .ok ()

/-- The records of the store in the order of their rounds. -/
def MemStore.sortedRecords (m : MemStore) : List Pb.RecordStreamFile :=
  m.records.insertionSort (·.round ≤ ·.round)

section Chained

variable {sha : Sha256} {bls : Bls} {trusted : List UInt8}
  {canonical : ℕ → Option CheckpointPayload} {f : Pb.RecordStreamFile} {cp : Pb.SignedCheckpoint}

/-- The checkpoint of a file that verifies is the payload of its round. -/
theorem HonestQuorums.payload_of_verified (hq : HonestQuorums sha bls trusted canonical)
    (h : verifyRecordFile sha bls f trusted = .ok ()) (hcp : f.checkpoint = some cp) :
    ∃ p, canonical f.round.toNat = some p ∧ checkpointSigningBytes cp = p.signingBytes := by
  obtain ⟨-, -, -, -, cp', -, -, -, hcp', hround, -, hbinding⟩ := verifyRecordFile_eq_ok_iff.mp h
  obtain rfl := Option.some.inj (hcp'.symm.trans hcp)
  rw [← hround]
  exact hq.signed (verifyCheckpointBinding_eq_ok_iff.mp hbinding).2.2.2.2.2

/-- The hash a payload holds is zeros, or that of the payload of the round before. -/
theorem HonestQuorums.prev_cases (hq : HonestQuorums sha bls trusted canonical) {r : ℕ}
    {p : CheckpointPayload} (h : canonical r = some p) :
    p.prevCheckpointHash = 0 ∨ ∃ r' q, r = r' + 1 ∧ canonical r' = some q ∧
      p.prevCheckpointHash = q.signingBytesHash sha := by
  cases r with
  | zero => exact .inl (hq.prev_zero h)
  | succ r' =>
    rw [hq.prev_succ h]
    cases hq' : canonical r' with
    | none => exact .inl rfl
    | some q => exact .inr ⟨r', q, rfl, hq', rfl⟩

/-- A verified file that commits to another one is of the next round. -/
theorem HonestQuorums.round_eq_succ (hq : HonestQuorums sha bls trusted canonical)
    (hfree : NoCollision sha canonical) (hsha : ∀ bytes, sha bytes < 256 ^ 32)
    {g : Pb.RecordStreamFile} {cpg : Pb.SignedCheckpoint}
    (hf : verifyRecordFile sha bls f trusted = .ok ()) (hcp : f.checkpoint = some cp)
    (hg : verifyRecordFile sha bls g trusted = .ok ()) (hcpg : g.checkpoint = some cpg)
    (hlen : cp.prevCheckpointHash.length = 32)
    (hprev : fromBe cp.prevCheckpointHash = checkpointSigningBytesHash sha cpg) :
    f.round.toNat = g.round.toNat + 1 := by
  obtain ⟨p, hp, hsigned⟩ := hq.payload_of_verified hf hcp
  obtain ⟨q, hcanonical, hsignedg⟩ := hq.payload_of_verified hg hcpg
  rw [checkpointSigningBytesHash, hsignedg] at hprev
  rcases hq.prev_cases hp with hzero | ⟨r, q', hr, hq', heq⟩
  · rw [prev_eq_of_signingBytes_eq hlen (hzero ▸ Nat.pow_pos (by decide)) hsigned, hzero] at hprev
    exact absurd hprev.symm (hfree.ne_zero hcanonical)
  · have hlt : p.prevCheckpointHash < 256 ^ 32 := heq ▸ hsha _
    rw [prev_eq_of_signingBytes_eq hlen hlt hsigned, heq] at hprev
    rw [hr, hfree.inj hq' hcanonical hprev]

/-- The last record of a chain. -/
theorem Chain.last {records : List Pb.RecordStreamFile} {lastEnd prev : Option Digest}
    (h : Chain sha records lastEnd prev) :
    records = [] ∨ ∃ rest g cpg, records = rest ++ [g] ∧ g.checkpoint = some cpg ∧
      prev = some (checkpointSigningBytesHash sha cpg) := by
  cases h with
  | seed => exact .inl rfl
  | @next rest _ _ g _ cpg _ _ _ hcp _ => exact .inr ⟨rest, g, cpg, rfl, hcp, rfl⟩

/-- What the ingester and its store hold: the records in the order in which they were stored. -/
structure Stored (sha : Sha256) (bls : Bls) (trusted : List UInt8)
    (ing : Ingester MemStore) : Prop where
  oneChain : OneChain sha bls trusted ing ing.store.records
  seenRounds : ∀ r, r ∈ ing.store.seenRounds ↔ r ∈ ing.seenRecords

variable {ing : Ingester MemStore}

/-- A file that is taken is of a later round than every stored one. -/
theorem OneChain.round_lt {σ : Type} [Store σ] {ing : Ingester σ} {finish : Digest} {store : σ}
    {records : List Pb.RecordStreamFile} (h : OneChain sha bls trusted ing records)
    (hq : HonestQuorums sha bls trusted canonical) (hfree : NoCollision sha canonical)
    (hsha : ∀ bytes, sha bytes < 256 ^ 32)
    (htakes : ing.Takes sha bls trusted f cp finish store) :
    ∀ g ∈ records, g.round < f.round := by
  rcases h.chain.last with hnil | ⟨rest, g, cpg, hrecords, hcpg, hprev⟩
  · rw [hnil]
    exact fun g hg => absurd hg List.not_mem_nil
  · have hg : g ∈ records := hrecords ▸ List.mem_append_right rest (List.mem_singleton_self g)
    have hcommit := htakes.prev
    rw [hprev, Option.getD_some] at hcommit
    have hround := hq.round_eq_succ hfree hsha htakes.verified htakes.checkpoint
      (h.verified g hg) hcpg htakes.prev_length hcommit
    have hlt : g.round < f.round := UInt64.lt_iff_toNat_lt.mpr (by omega)
    have hsorted := h.sorted
    rw [hrecords, List.pairwise_append] at hsorted
    intro g' hg'
    rw [hrecords, List.mem_append, List.mem_singleton] at hg'
    rcases hg' with hrest | rfl
    · exact UInt64.lt_trans (hsorted.2.2 g' hrest g (List.mem_singleton_self g)) hlt
    · exact hlt

/-- A file that is taken continues the chain. -/
theorem OneChain.snoc {σ : Type} [Store σ] {ing : Ingester σ} {finish : Digest} {store : σ}
    {records : List Pb.RecordStreamFile} (h : OneChain sha bls trusted ing records)
    (hq : HonestQuorums sha bls trusted canonical) (hfree : NoCollision sha canonical)
    (hsha : ∀ bytes, sha bytes < 256 ^ 32)
    (htakes : ing.Takes sha bls trusted f cp finish store) (index : ℕ) :
    OneChain sha bls trusted (ing.advanced sha index cp finish store) (records ++ [f]) where
  sorted := by
    refine List.pairwise_append.mpr ⟨h.sorted, List.pairwise_singleton _ _, fun g hg f' hf' => ?_⟩
    rw [List.mem_singleton.mp hf']
    exact h.round_lt hq hfree hsha htakes g hg
  chain := by
    refine h.chain.next htakes.start htakes.finish htakes.checkpoint ?_
    have hbytes := beBytes_fromBe cp.prevCheckpointHash
    rw [htakes.prev_length, htakes.prev] at hbytes
    exact hbytes.symm
  verified g hg := by
    rcases List.mem_append.mp hg with hg | hg
    · exact h.verified g hg
    · rw [List.mem_singleton.mp hg]
      exact htakes.verified

theorem Stored.advanced (h : Stored sha bls trusted ing)
    (hq : HonestQuorums sha bls trusted canonical) (hfree : NoCollision sha canonical)
    (hsha : ∀ bytes, sha bytes < 256 ^ 32) {finish : Digest} {store : MemStore}
    (hnew : f.round.toNat ∉ ing.seenRecords)
    (htakes : ing.Takes sha bls trusted f cp finish store) :
    Stored sha bls trusted (ing.advanced sha f.round.toNat cp finish store) := by
  have hput : store = ⟨ing.store.records ++ [f], ing.store.seenRounds.insert f.round.toNat⟩ := by
    have hstored : ing.store.putRecord f = store := Except.ok.inj htakes.stored
    rw [← hstored, MemStore.putRecord, if_neg fun hmem => hnew ((h.seenRounds _).mp hmem)]
  subst hput
  refine ⟨h.oneChain.snoc hq hfree hsha htakes _, fun r => ?_⟩
  change r ∈ ing.store.seenRounds.insert f.round.toNat ↔ r ∈ ing.seenRecords.insert f.round.toNat
  rw [ExtTreeSet.mem_insert, ExtTreeSet.mem_insert, h.seenRounds r]

/-- Whatever polls find in the directory, the stored records in the order of their rounds form one
chain from the seed, each of them verifies, and the ingester expects what follows the last one. -/
theorem stored_records_chain (hq : HonestQuorums sha bls trusted canonical)
    (hfree : NoCollision sha canonical) (hsha : ∀ bytes, sha bytes < 256 ^ 32)
    (h : Ingester.Polled sha bls trusted (.new sha MemStore.new) ing) :
    OneChain sha bls trusted ing ing.store.sortedRecords := by
  have hempty : Stored sha bls trusted (.new sha MemStore.new) :=
    ⟨⟨List.Pairwise.nil, .seed, fun f hf => absurd hf List.not_mem_nil⟩, fun r => Iff.rfl⟩
  have hstored := (h.reached.rule (fun _ _ hlisted => hlisted) rfl hempty
    fun _ _ _ _ _ _ hI _ _ _ hseen htakes => hI.advanced hq hfree hsha hseen htakes).1
  have hsorted : ing.store.sortedRecords = ing.store.records := by
    exact (hstored.oneChain.sorted.imp fun hlt => UInt64.le_of_lt hlt).insertionSort_eq
  rw [hsorted]
  exact hstored.oneChain

end Chained

/-! ## Two rounds -/

/-- The only item of a round. -/
def oneItem (byte : UInt8) : List Pb.RecordItem := [⟨List.replicate 32 byte, 0, [byte]⟩]

/-- The payload of the first round. -/
def firstPayload : CheckpointPayload := soloPayload 1 (oneItem 7) 0 9

/-- The payload of the second round. -/
def secondPayload : CheckpointPayload :=
  soloPayload 2 (oneItem 8) (firstPayload.signingBytesHash rollingHash) 9

/-- The chain of the two payloads. -/
def twoPayloads (round : ℕ) : Option CheckpointPayload :=
  if round = 1 then some firstPayload else if round = 2 then some secondPayload else none

/-- The two payloads are all that is signed. -/
def twoSigned : Bls := signsOnly [firstPayload.signingBytes, secondPayload.signingBytes]

theorem twoPayloads_cases {r : ℕ} {p : CheckpointPayload} (h : twoPayloads r = some p) :
    r = 1 ∧ p = firstPayload ∨ r = 2 ∧ p = secondPayload := by
  rw [twoPayloads] at h
  split at h
  · exact .inl ⟨by assumption, (Option.some.inj h).symm⟩
  · split at h
    · exact .inr ⟨by assumption, (Option.some.inj h).symm⟩
    · cases h

theorem honestQuorums_two : HonestQuorums rollingHash twoSigned soloTrusted twoPayloads where
  round_eq h := by
    rcases twoPayloads_cases h with ⟨rfl, rfl⟩ | ⟨rfl, rfl⟩ <;> rfl
  prev_zero h := by
    rcases twoPayloads_cases h with ⟨hr, -⟩ | ⟨hr, -⟩ <;> cases hr
  prev_succ h := by
    rcases twoPayloads_cases h with ⟨hr, rfl⟩ | ⟨hr, rfl⟩
    · obtain rfl := Nat.succ.inj hr
      rfl
    · obtain rfl := Nat.succ.inj hr
      rfl
  signed {cp} h := by
    obtain ⟨-, -, -, -, -, -, -, -, -, -, -, -, -, pks, -, hverify⟩ :=
      verifyCheckpointQuorum_eq_ok_iff.mp h
    have hmem : checkpointSigningBytes cp ∈
        [firstPayload.signingBytes, secondPayload.signingBytes] := by
      simpa [twoSigned, signsOnly] using hverify
    rcases List.mem_cons.mp hmem with heq | hmem
    · have hround := round_eq_of_signingBytes_eq (by decide +kernel) heq
      exact ⟨firstPayload, by rw [hround]; rfl, heq⟩
    · have heq := List.mem_singleton.mp hmem
      have hround := round_eq_of_signingBytes_eq (by decide +kernel) heq
      exact ⟨secondPayload, by rw [hround]; rfl, heq⟩

theorem noCollision_two : NoCollision rollingHash twoPayloads where
  inj h h' heq := by
    rcases twoPayloads_cases h with ⟨rfl, rfl⟩ | ⟨rfl, rfl⟩ <;>
      rcases twoPayloads_cases h' with ⟨rfl, rfl⟩ | ⟨rfl, rfl⟩
    · rfl
    · exact absurd heq (by decide +kernel)
    · exact absurd heq (by decide +kernel)
    · rfl
  ne_zero h := by
    rcases twoPayloads_cases h with ⟨rfl, rfl⟩ | ⟨rfl, rfl⟩ <;> decide +kernel

/-- The directory with the files of the two rounds, the second one listed first. -/
def twoRoundsDir : StreamsDir where
  entries :=
    [⟨recordFileName 2, false,
        .ok (soloFile secondPayload (chainItems rollingHash 0 (oneItem 7)) (oneItem 8))⟩,
      ⟨recordFileName 1, false, .ok (soloFile firstPayload 0 (oneItem 7))⟩]
  sidecar _ := .absent

/-- A poll of a directory with two rounds stores both. -/
theorem stored_records_chain_two_rounds :
    let ing := (Ingester.new rollingHash MemStore.new).runOnce rollingHash twoSigned soloTrusted
      twoRoundsDir 2
    ing.store.records.map (·.round) = [1, 2] ∧
      OneChain rollingHash twoSigned soloTrusted ing ing.store.sortedRecords := by
  refine ⟨by decide +kernel, ?_⟩
  exact stored_records_chain honestQuorums_two noCollision_two rollingHash_lt
    (.runOnce .start twoRoundsDir 2)

end JKain.Mirror
