import JKain.Gossip.Retention

/-!
# One payload for a round

The payload a node signs for a round does not depend on which checkpoints it has stored. After
acceptances have dropped old data this needs a stored checkpoint near the last accepted round: the
rounds before it cannot be rebuilt any more.
-/

namespace JKain

open Std JKain.Lib

namespace Hashgraph

/-! ## A chain of one member -/

/-- The insertions of the chain. -/
def soloRun (length : ℕ) : List Op := (soloChain length).map (.insert inOrder)

theorem reached_soloRun {length : ℕ} {g : Hashgraph}
    (h : replay stampHash (.new (plainRegistry 1)) (soloRun length) = some g) :
    Reached stampHash (fun _ op => op.From {e | e ∈ soloChain length} ∧ op.KeepsEvents)
      (plainRegistry 1) g := by
  refine Reached.new.replay (fun op hop t => ?_) h
  obtain ⟨event, hevent, rfl⟩ := List.mem_map.mp hop
  exact ⟨hevent, trivial⟩

/-- The lengths fit, as a test. -/
def encodes (g : Hashgraph) : Bool :=
  (g.events.toList.all fun (_, r) => decide (r.event.payload = [])) &&
    (g.rosterHistory.snapshots.toList.all fun (_, registry) =>
      decide (registry.len < 2 ^ 32 ∧ registry.toBytes.length < 2 ^ 32)) &&
    decide (g.rosterHistory.snapshots.toList.length < 2 ^ 32)

theorem encodable_of_encodes {g : Hashgraph} (h : g.encodes = true) : g.Encodable := by
  simp only [encodes, Bool.and_eq_true, List.all_eq_true, decide_eq_true_eq] at h
  obtain ⟨⟨hevents, hrosters⟩, hhistory⟩ := h
  refine ⟨fun {x r} hx => ?_, fun hmem => hrosters _ hmem, hhistory⟩
  have hempty : r.event.payload = [] :=
    hevents (x, r) (ExtTreeMap.mem_toList_iff_getElem?_eq_some.mpr hx)
  simp [hempty]

/-- A hash function small enough to evaluate. -/
def sumHash : Sha256 := fun bytes =>
  bytes.foldl (fun acc byte => (acc * 31 + byte.toNat + 7) % 65521) 1

/-- A state hash for each of the rounds `0..5`. -/
def soloHashes : ExtTreeMap ℕ Digest :=
  .ofList [(0, 100), (1, 101), (2, 102), (3, 103), (4, 104), (5, 105)]

/-! ## The payload of a round -/

section Chain

variable {H : Hasher} {S : Set Event} {P : Hashgraph → Op → Prop} {registry : MembershipRegistry}
  {g g' : Hashgraph} {sha : Sha256} {hashes kept : ExtTreeMap ℕ Digest}
  {signed : List CheckpointPayload} {rounds : List ℕ} {round top : ℕ}

/-- In a run round 0 is never decided, and without pruning every round from 1 on has a roster. -/
theorem Reached.rounds_from_one (hfree : H.CollisionFree S)
    (hP : ∀ g op, P g op → op.From S ∧ op.KeepsEvents) (h : Reached H P registry g) :
    g.isRoundDecided 0 = false ∧ g.HasRoster 1 := by
  refine h.invariant (I := fun g => g.isRoundDecided 0 = false ∧ g.HasRoster 1) hfree
    (fun g op hp => (hP g op hp).1) ⟨?_, RosterHistory.isSome_activeAt_new registry⟩ ?_
  · simp [isRoundDecided, Hashgraph.new]
  · rintro g g' op - ⟨hzero, hone⟩ hp heffect
    cases heffect with
    | none hsame => exact hsame ▸ ⟨hzero, hone⟩
    | @insert iter event hash i _ hc hinserted =>
      refine ⟨?_, by rwa [HasRoster, hinserted.rosterHistory_eq]⟩
      by_contra hdecided
      rw [Bool.not_eq_false] at hdecided
      rcases hinserted.advances.closed hdecided with hold | hclosable
      · rw [isRoundDecided, placed, fullyDecidedRounds_place, ← isRoundDecided, hzero] at hold
        cases hold
      · exact hclosable.1 rfl
    | addMember _ hsame =>
      subst hsame
      exact ⟨hzero, RosterHistory.isSome_activeAt_schedule _ _ hone⟩
    | prune => exact (hP _ _ hp).2.elim

/-- The chain yields a payload for every decided round. -/
theorem Encodable.exists_chained (henc : g.Encodable) (sha : Sha256) (hzero : g.isRoundDecided 0 = false)
    (hone : g.HasRoster 1) (hdecided : ∀ n, 1 ≤ n → n ≤ round → g.isRoundDecided n = true)
    (hcover : ∀ n, 1 ≤ n → n ≤ round → (hashes[n]?).isSome) (hpos : 1 ≤ round) :
    ∃ payload, g.canonicalCheckpointPayloadChained sha hashes [] round = .ok (some payload) := by
  have hbase {n : ℕ} (h1 : 1 ≤ n) (hn : n ≤ round) :
      ∃ base, g.canonicalCheckpointPayload sha hashes n = .ok (some base) := by
    obtain ⟨stateHash, hstate⟩ := Option.isSome_iff_exists.mp (hcover n h1 hn)
    exact henc.exists_payload (hdecided n h1 hn) (hone.mono h1) (lastAtOrBelow_of_getElem? hstate)
  -- Every round up to the given one has a result, which is a payload from round 1 on.
  have hall (n : ℕ) (hn : n ≤ round) : ∃ result,
      g.canonicalCheckpointPayloadChained sha hashes [] n = .ok result ∧
        (1 ≤ n → result.isSome) := by
    induction n with
    | zero =>
      refine ⟨none, ?_, fun h => by omega⟩
      rw [canonicalCheckpointPayloadChained, henc.payload_eq_none hzero]
      rfl
    | succ n ih =>
      obtain ⟨prev, hprev, -⟩ := ih (by omega)
      obtain ⟨base, hbase⟩ := hbase (n := n + 1) (by omega) hn
      refine ⟨some (base.withPrevCheckpointHash (payloadHash sha prev)), ?_, fun _ => rfl⟩
      rw [canonicalCheckpointPayloadChained, hbase, hprev]
      rfl
  obtain ⟨result, hresult, hsome⟩ := hall round le_rfl
  obtain ⟨payload, rfl⟩ := Option.isSome_iff_exists.mp (hsome hpos)
  exact ⟨payload, hresult⟩

/-- After acceptances up to `top` the chain from a stored checkpoint of round `top - 1` or later on
is the one of the complete history. -/
theorem Retired.chained_eq (h : Retired g hashes rounds g' kept) (hg : g.Consistent)
    (htop : ∀ r ∈ rounds, r ≤ top) (hsigned : Canonical sha g hashes signed) {last : ℕ}
    (hlast : (storedPayload signed last).isSome) (hnear : top ≤ last + 1)
    (hcover : ∀ n, last < n → n ≤ round → (hashes[n]?).isSome) (hlt : last < round) :
    g'.canonicalCheckpointPayloadChained sha kept signed round =
      g.canonicalCheckpointPayloadChained sha hashes [] round := by
  obtain ⟨-, hagrees, hkeeps⟩ := h.keeps hg htop
  have hbase {n : ℕ} (hn : last < n) (hle : n ≤ round) :
      g'.canonicalCheckpointPayload sha kept n = g.canonicalCheckpointPayload sha hashes n := by
    obtain ⟨stateHash, hstate⟩ := Option.isSome_iff_exists.mp (hcover n hn hle)
    have hkept : kept[n]? = some stateHash := by
      rw [hkeeps.same (by omega), hstate]
    refine hagrees.canonicalCheckpointPayload_eq (Nat.sub_le_sub_right (by omega) _) ?_
    rw [lastAtOrBelow_of_getElem? hkept, lastAtOrBelow_of_getElem? hstate]
  induction round with
  | zero => omega
  | succ prevRound ih =>
    have hprev : storedOrRebuilt sha signed prevRound
        (g'.canonicalCheckpointPayloadChained sha kept signed prevRound) =
          storedOrRebuilt sha [] prevRound
            (g.canonicalCheckpointPayloadChained sha hashes [] prevRound) := by
      refine hsigned.storedOrRebuilt_eq fun hnone => ?_
      -- The round before is not the stored one, so that it is above it.
      have hne : prevRound ≠ last := by
        rintro rfl
        rw [hnone] at hlast
        cases hlast
      exact ih (fun n hn hle => hcover n hn (by omega)) (by omega)
        fun hn hle => hbase hn (by omega)
    rw [canonicalCheckpointPayloadChained, canonicalCheckpointPayloadChained, hbase hlt le_rfl,
      hprev]

/-- In a run that keeps all events, with rounds `1..round` decided and a state hash for each of
them, the chain yields one payload for the round: with any stored checkpoints of the chain, and also
after acceptances have dropped old data, if a checkpoint of round `top - 1` or later is stored,
where `top` is the last accepted round. -/
theorem chained_payload_unique (sha : Sha256) (hfree : H.CollisionFree S)
    (hP : ∀ g op, P g op → op.From S ∧ op.KeepsEvents) (hrun : Reached H P registry g)
    (henc : g.Encodable) (hpos : 1 ≤ round)
    (hdecided : ∀ n, 1 ≤ n → n ≤ round → g.isRoundDecided n = true)
    (hcover : ∀ n, 1 ≤ n → n ≤ round → (hashes[n]?).isSome) :
    ∃ payload, payload.signingBytes.length = 200 ∧
      (∀ signed, Canonical sha g hashes signed →
        g.canonicalCheckpointPayloadChained sha hashes signed round = .ok (some payload)) ∧
      ∀ rounds g' kept signed top last, Retired g hashes rounds g' kept → (∀ r ∈ rounds, r ≤ top) →
        Canonical sha g hashes signed → (storedPayload signed last).isSome → top ≤ last + 1 →
        last < round →
        g'.canonicalCheckpointPayloadChained sha kept signed round = .ok (some payload) := by
  obtain ⟨hzero, hone⟩ := hrun.rounds_from_one hfree hP
  obtain ⟨payload, hpayload⟩ :=
    henc.exists_chained sha hzero hone hdecided hcover hpos
  refine ⟨payload, payload.length_signingBytes, fun signed hsigned => ?_, ?_⟩
  · rw [hsigned.chained_eq, hpayload]
  · intro rounds g' kept signed top last hretired htop hsigned hlast hnear hlt
    have hconsistent := (hrun.sound hfree fun g op hp => (hP g op hp).1).wf.toConsistent
    rw [hretired.chained_eq hconsistent htop hsigned hlast hnear
      (fun n hn hle => hcover n (by omega) hle) hlt, hpayload]

end Chain

/-- Round 1 has a payload. -/
def paysFirst (g : Hashgraph) : Bool :=
  match g.canonicalCheckpointPayloadChained sumHash soloHashes [] 1 with
  | .ok (some first) => first.round == 1
  | _ => false

/-- The acceptance of round 1 drops what it no longer needs. -/
def retiresFirst (g : Hashgraph) : Bool :=
  match retire 1 soloHashes g with
  | .ok _ _ => true
  | .error _ _ => false

/-- The theorem where round 1 is accepted and its checkpoint stored, at round 2. -/
theorem chained_payload_unique_two :
    ∃ g g' kept first payload, Retired g soloHashes [1] g' kept ∧ first.round = 1 ∧
      g.canonicalCheckpointPayloadChained sumHash soloHashes [] 2 = .ok (some payload) ∧
      g'.canonicalCheckpointPayloadChained sumHash kept [first] 2 = .ok (some payload) := by
  have hrun : ((replay stampHash (.new (plainRegistry 1)) (soloRun 4)).any fun g =>
      g.encodes && ([1, 2].all fun n => g.isRoundDecided n && (soloHashes[n]?).isSome) &&
        g.paysFirst && g.retiresFirst) = true := by decide +kernel
  rw [Option.any_eq_true] at hrun
  obtain ⟨g, hg, hcheck⟩ := hrun
  simp only [Bool.and_eq_true] at hcheck
  obtain ⟨⟨⟨hencodes, hrounds⟩, hfirst⟩, hretire⟩ := hcheck
  have hround (n : ℕ) (h1 : 1 ≤ n) (h2 : n ≤ 2) :
      g.isRoundDecided n = true ∧ (soloHashes[n]?).isSome = true := by
    have hn : n ∈ [1, 2] := by
      simp only [List.mem_cons, List.not_mem_nil, or_false]
      omega
    exact Bool.and_eq_true_iff.mp (List.all_eq_true.mp hrounds n hn)
  rw [paysFirst] at hfirst
  split at hfirst
  · rename_i first hchained
    have hone : first.round = 1 := by simpa using hfirst
    rw [retiresFirst] at hretire
    split at hretire
    · rename_i kept g' heq
      have hretired : Retired g soloHashes [1] g' kept := .accept .nil heq
      obtain ⟨payload, -, hstored, hdropped⟩ := chained_payload_unique sumHash
        (collisionFree_soloChain 4) (fun _ _ hp => hp) (reached_soloRun hg)
        (encodable_of_encodes hencodes) (by decide : 1 ≤ 2) (fun n h1 h2 => (hround n h1 h2).1)
        fun n h1 h2 => (hround n h1 h2).2
      refine ⟨g, g', kept, first, payload, hretired, hone, hstored [] (by simp [Canonical]),
        hdropped [1] g' kept [first] 1 1 hretired (by simp) ?_ ?_ (by decide) (by decide)⟩
      · intro stored hmem
        rw [List.mem_singleton.mp hmem, hone, hchained]
      · simp [storedPayload, hone]
    · cases hretire
  · cases hfirst

/-- The bytes that are signed for a round without stored checkpoints. -/
def rebuiltBytes (g : Hashgraph) (hashes : ExtTreeMap ℕ Digest) (round : ℕ) :
    Option (List UInt8) :=
  match g.canonicalCheckpointPayloadChained sumHash hashes [] round with
  | .ok (some payload) => some payload.signingBytes
  | _ => none

/-- Whether the acceptance of round 4 alone changes the bytes of round 5. -/
def skipsChangeBytes (g : Hashgraph) : Bool :=
  match retire 4 soloHashes g with
  | .ok kept g' => (g.rebuiltBytes soloHashes 5).isSome && (g'.rebuiltBytes kept 5).isSome &&
      decide (g.rebuiltBytes soloHashes 5 ≠ g'.rebuiltBytes kept 5)
  | .error _ _ => false

/-- The node accepted round 4 only, which drops the state hash of round 1. No round that lost data
was accepted, so that no checkpoint has to be stored; and without one the bytes of round 5 change. -/
theorem chained_payload_differs_after_skip :
    ∃ g g' kept, Reached stampHash
        (fun _ op => op.From {e | e ∈ soloChain 7} ∧ op.KeepsEvents) (plainRegistry 1) g ∧
      (∀ n, 1 ≤ n → n ≤ 5 → g.isRoundDecided n = true ∧ (soloHashes[n]?).isSome) ∧
      Retired g soloHashes [4] g' kept ∧ (∀ r ∈ [4], 4 - snapshotRetentionRounds ≤ r) ∧
      (g.rebuiltBytes soloHashes 5).isSome ∧ (g'.rebuiltBytes kept 5).isSome ∧
      g.rebuiltBytes soloHashes 5 ≠ g'.rebuiltBytes kept 5 := by
  have hrun : ((replay stampHash (.new (plainRegistry 1)) (soloRun 7)).any fun g =>
      ([1, 2, 3, 4, 5].all fun n => g.isRoundDecided n && (soloHashes[n]?).isSome) &&
        g.skipsChangeBytes) = true := by decide +kernel
  rw [Option.any_eq_true] at hrun
  obtain ⟨g, hg, hcheck⟩ := hrun
  obtain ⟨hrounds, hskip⟩ := Bool.and_eq_true_iff.mp hcheck
  unfold skipsChangeBytes at hskip
  split at hskip
  · rename_i kept g' hretire
    simp only [Bool.and_eq_true, decide_eq_true_eq] at hskip
    refine ⟨g, g', kept, reached_soloRun hg, fun n h1 h5 => ?_, .accept .nil hretire,
      by decide, hskip.1.1, hskip.1.2, hskip.2⟩
    have hn : n ∈ [1, 2, 3, 4, 5] := by
      simp only [List.mem_cons, List.not_mem_nil, or_false]
      omega
    exact Bool.and_eq_true_iff.mp (List.all_eq_true.mp hrounds n hn)
  · cases hskip

end Hashgraph

end JKain
