import JKain.Consensus.NoPanic
import JKain.Consensus.RosterSelection
import JKain.Gossip.Payload

/-!
# What pruning leaves of the payloads

Accepting a checkpoint drops old events, old roster snapshots and old state hashes. A payload reads
the ordered events of its window, the rosters of the window and one state hash, so that the payloads
of the rounds whose window is kept stay as they were.
-/

namespace JKain

open Std JKain.Lib

namespace Hashgraph

variable {g g' g'' : Hashgraph} {floor threshold : ℕ}

/-! ## Agreement from a round on -/

/-- The two graphs have the same order, records and rosters from round `floor` on. -/
structure AgreesFrom (floor : ℕ) (g g' : Hashgraph) : Prop where
  order : ∀ {n}, floor ≤ n → g'.consensusOrder n = g.consensusOrder n
  record : ∀ {n x}, floor ≤ n → x ∈ g.consensusOrder n → g'.get? x = g.get? x
  roster : ∀ {n}, floor ≤ n → g'.rosterForRound n = g.rosterForRound n
  history : ∀ {round}, floor ≤ round - signedWindowRounds →
    canonicalRosterHistory g'.rosterHistory round signedWindowRounds =
      canonicalRosterHistory g.rosterHistory round signedWindowRounds
  decided : g'.fullyDecidedRounds = g.fullyDecidedRounds

namespace AgreesFrom

theorem refl (floor : ℕ) (g : Hashgraph) : AgreesFrom floor g g :=
  ⟨fun _ => rfl, fun _ _ => rfl, fun _ => rfl, fun _ => rfl, rfl⟩

theorem trans (h : AgreesFrom floor g g') (h' : AgreesFrom floor g' g'') :
    AgreesFrom floor g g'' where
  order hn := (h'.order hn).trans (h.order hn)
  record hn hx := (h'.record hn (h.order hn ▸ hx)).trans (h.record hn hx)
  roster hn := (h'.roster hn).trans (h.roster hn)
  history hr := (h'.history hr).trans (h.history hr)
  decided := h'.decided.trans h.decided

section Payload

variable {sha : Sha256} {round : ℕ}

theorem roundItems_eq (h : AgreesFrom floor g g') (hr : floor ≤ round) :
    g'.roundItems round = g.roundItems round := by
  unfold roundItems
  rw [h.order hr, mapM_congr fun x hx => by rw [eventItems, h.record hr hx, ← eventItems]]

theorem windowEvents_eq (h : AgreesFrom floor g g') (hr : floor ≤ round - signedWindowRounds) :
    g'.windowEvents round signedWindowRounds = g.windowEvents round signedWindowRounds := by
  unfold windowEvents
  refine List.flatMap_congr fun n hn => h.order (hr.trans ?_)
  exact (List.mem_range'_1.mp hn).1

theorem tryComputeWindowRoot_eq (h : AgreesFrom floor g g')
    (hr : floor ≤ round - signedWindowRounds) :
    g'.tryComputeWindowRoot sha round signedWindowRounds =
      g.tryComputeWindowRoot sha round signedWindowRounds := by
  have hcount : g'.memberCountAtRound round = g.memberCountAtRound round := by
    rw [memberCountAtRound, h.roster (hr.trans (Nat.sub_le _ _)), memberCountAtRound]
  have hleaves (width : ℕ) :
      (g.windowEvents round signedWindowRounds).mapM (g'.windowLeaf sha width) =
        (g.windowEvents round signedWindowRounds).mapM (g.windowLeaf sha width) := by
    refine mapM_congr fun x hx => ?_
    obtain ⟨n, hn, hx⟩ := List.mem_flatMap.mp hx
    have hfloor : floor ≤ n := hr.trans (List.mem_range'_1.mp hn).1
    rw [windowLeaf, h.record hfloor hx, windowLeaf]
  unfold tryComputeWindowRoot
  simp only [h.windowEvents_eq hr, hcount, hleaves]

/-- The payload of a round whose window is kept, from the same state hash. -/
theorem canonicalCheckpointPayload_eq (h : AgreesFrom floor g g')
    (hr : floor ≤ round - signedWindowRounds) {hashes hashes' : ExtTreeMap ℕ Digest}
    (hstate : lastAtOrBelow hashes' round = lastAtOrBelow hashes round) :
    g'.canonicalCheckpointPayload sha hashes' round =
      g.canonicalCheckpointPayload sha hashes round := by
  have hround : floor ≤ round := hr.trans (Nat.sub_le _ _)
  have hdecided : g'.isRoundDecided round = g.isRoundDecided round := by
    rw [isRoundDecided, h.decided, isRoundDecided]
  have hpayload (recordsRoot stateHash : Digest) :
      g'.checkpointPayload sha round recordsRoot stateHash =
        g.checkpointPayload sha round recordsRoot stateHash := by
    unfold checkpointPayload computeRosterHistoryRoot
    simp only [hdecided, h.roster hround, h.tryComputeWindowRoot_eq hr, h.history hr]
  unfold canonicalCheckpointPayload
  simp only [hstate, h.roundItems_eq hround, hpayload]

end Payload

end AgreesFrom

/-! ## Pruning -/

section Prune

/-- An ordered event of a round from the threshold on is not pruned. -/
theorem not_mem_of_received {x : EventHash} {n : ℕ} (hn : threshold ≤ n)
    (hx : g.roundReceived x = some n) : x ∉ (g.prunedEvents threshold).toFinset := by
  intro hgone
  obtain ⟨⟨r, hr, hexpired⟩, -⟩ := mem_prunedEvents.mp (List.mem_toFinset.mp hgone)
  rw [roundReceived, hr, Option.bind_some] at hx
  simp only [expired, hx, Option.any_some, decide_eq_true_eq] at hexpired
  omega

theorem Pruned.consensusOrder_eq
    (h : Pruned g g' threshold (g.prunedEvents threshold).toFinset) {n : ℕ} (hn : threshold ≤ n) :
    g'.consensusOrder n = g.consensusOrder n := by
  have hkept {x : EventHash} (hx : g.roundReceived x = some n) : g'.get? x = g.get? x :=
    h.get?_eq (not_mem_of_received hn hx)
  refine consensusOrder_congr (fun x => ⟨fun hx => ?_, fun hx => ?_⟩) fun {x} hx => ?_
  · obtain ⟨r, hr, hrr⟩ := Option.bind_eq_some_iff.mp hx
    rw [roundReceived, (h.get?_iff.mp hr).1, Option.bind_some, hrr]
  · rwa [roundReceived, hkept hx]
  · simp only [orderKey, consensusTimestamp, hkept hx]

/-- Pruning keeps everything from its threshold on. -/
theorem Pruned.agreesFrom (h : Pruned g g' threshold (g.prunedEvents threshold).toFinset)
    (hle : threshold ≤ floor) : AgreesFrom floor g g' where
  order hn := h.consensusOrder_eq (hle.trans hn)
  record hn hx := h.get?_eq (not_mem_of_received (hle.trans hn) (mem_consensusOrder.mp hx))
  roster hn := by
    rw [rosterForRound, h.roster_eq, RosterHistory.activeAt_pruneBefore (hle.trans hn),
      rosterForRound]
  history hr := by rw [h.roster_eq, canonicalRosterHistory_pruneBefore (hle.trans hr)]
  decided := h.decided_eq

end Prune

/-! ## Accepting checkpoints -/

/-- `SNAPSHOT_RETENTION_ROUNDS`. -/
def snapshotRetentionRounds : ℕ := 2

/-- `cumulative.retain(..)` on the acceptance of a round. -/
def retainHashes (round : ℕ) (hashes : ExtTreeMap ℕ Digest) : ExtTreeMap ℕ Digest :=
  hashes.filter fun r _ => r == 0 || decide (round - snapshotRetentionRounds ≤ r)

/-- What `accept_checkpoint` does to the graph and to the state hashes on the acceptance of a
round. -/
def retire (round : ℕ) (hashes : ExtTreeMap ℕ Digest) : HashgraphM (ExtTreeMap ℕ Digest) := do
  let _ ← pruneBeforeRound (round - retentionRounds)
  return retainHashes round hashes

/-- The graph and the state hashes after the acceptance of rounds, one after the other. -/
inductive Retired (g : Hashgraph) (hashes : ExtTreeMap ℕ Digest) :
    List ℕ → Hashgraph → ExtTreeMap ℕ Digest → Prop
  | nil : Retired g hashes [] g hashes
  | accept {rounds : List ℕ} {t t' : Hashgraph} {kept kept' : ExtTreeMap ℕ Digest} {round : ℕ} :
      Retired g hashes rounds t kept → retire round kept t = .ok kept' t' →
      Retired g hashes (round :: rounds) t' kept'

section Retired

variable {hashes kept kept' : ExtTreeMap ℕ Digest} {round top : ℕ} {rounds : List ℕ}

/-- The state hashes of the rounds from `floor` on are still there, and nothing was added. -/
structure KeepsHashes (floor : ℕ) (hashes kept : ExtTreeMap ℕ Digest) : Prop where
  same : ∀ {r : ℕ}, floor ≤ r → kept[r]? = hashes[r]?

theorem KeepsHashes.retain (h : KeepsHashes (top - snapshotRetentionRounds) hashes kept)
    (hle : round ≤ top) :
    KeepsHashes (top - snapshotRetentionRounds) hashes (retainHashes round kept) where
  same {r} hr := by
    have hkeep : round - snapshotRetentionRounds ≤ r := (Nat.sub_le_sub_right hle _).trans hr
    rw [retainHashes, ExtTreeMap.getElem?_filter', ← h.same hr]
    cases kept[r]? with
    | none => rfl
    | some hash => simp [hkeep, Option.filter]

/-- The hash of a round that is recorded is the last one at or below it. -/
theorem lastAtOrBelow_of_getElem? {map : ExtTreeMap ℕ Digest} {hash : Digest}
    (h : map[round]? = some hash) : lastAtOrBelow map round = some hash := by
  have hmem : round ∈ map := ExtTreeMap.isSome_getElem?_iff_mem.mp (Option.isSome_of_eq_some h)
  obtain ⟨last, value, hle, hget, hmax, hfound⟩ := exists_lastAtOrBelow hmem le_rfl
  rw [hle.antisymm (hmax round hmem le_rfl), h] at hget
  rw [hfound, ← hget]

/-- An acceptance that returned pruned an ordered round. -/
theorem retire_ok {t t' : Hashgraph} (h : retire round kept t = .ok kept' t') :
    round - retentionRounds < t.nextRoundToOrder ∧ kept' = retainHashes round kept ∧
      ∃ pruned, pruneBeforeRound (round - retentionRounds) t = .ok pruned t' := by
  have hprune : ∃ pruned, pruneBeforeRound (round - retentionRounds) t = .ok pruned t' ∧
      kept' = retainHashes round kept := by
    unfold retire at h
    simp only [bind, EStateM.bind] at h
    split at h
    · rename_i pruned t₁ heq
      cases h
      exact ⟨pruned, heq, rfl⟩
    · cases h
  obtain ⟨pruned, hpruned, hkept⟩ := hprune
  refine ⟨?_, hkept, pruned, hpruned⟩
  -- The assertion of the program fails otherwise.
  by_contra hnot
  have hpanic : pruneBeforeRound (round - retentionRounds) t = .error (.panic .pruneUnordered) t := by
    show (if _ then _ else _ : HashgraphM _) t = _
    rw [if_neg hnot]
    rfl
  rw [hpanic] at hpruned
  cases hpruned

/-- What is left after the acceptance of rounds up to `top`. -/
theorem Retired.keeps (h : Retired g hashes rounds g' kept) (hg : g.Consistent)
    (htop : ∀ r ∈ rounds, r ≤ top) :
    g'.Consistent ∧ AgreesFrom (top - retentionRounds) g g' ∧
      KeepsHashes (top - snapshotRetentionRounds) hashes kept := by
  induction h with
  | nil => exact ⟨hg, .refl _ _, ⟨fun _ => rfl⟩⟩
  | @accept rounds t t' kept kept' round _ hretire ih =>
    obtain ⟨hwf, hagrees, hkeeps⟩ := ih fun r hr => htop r (by simp [hr])
    have hround : round ≤ top := htop round (by simp)
    obtain ⟨hordered, rfl, pruned, hpruned⟩ := retire_ok hretire
    refine ⟨?_, ?_, hkeeps.retain hround⟩
    all_goals
      have hspec := (pruneBeforeRound_spec (E := fun _ => False) hwf hordered).of_ok hpruned
      rcases hspec with ⟨-, -, rfl⟩ | ⟨-, h⟩
    · exact hwf
    · exact h.consistent hwf
    · exact hagrees
    · exact hagrees.trans (h.agreesFrom (Nat.sub_le_sub_right hround _))

end Retired

/-! ## Payloads that can be encoded -/

/-- Every length that gets a prefix of four bytes fits it. -/
structure Encodable (g : Hashgraph) : Prop where
  transactions : ∀ {x r}, g.get? x = some r → r.event.payload.length ≤ 2 ^ 32 ∧
    ∀ tx ∈ r.event.payload, tx.payload.length < 2 ^ 32
  rosters : ∀ {n registry}, (n, registry) ∈ g.rosterHistory.snapshots.toList →
    registry.len < 2 ^ 32 ∧ registry.toBytes.length < 2 ^ 32
  history : g.rosterHistory.snapshots.toList.length < 2 ^ 32

namespace Encodable

variable {sha : Sha256} {hashes : ExtTreeMap ℕ Digest} {round : ℕ}

theorem tryU32_eq {field : String} {n : ℕ} (h : n < 2 ^ 32) : tryU32 field n = .ok n := if_pos h

/-- The items of the ordered events, each with a payload that fits. -/
theorem exists_roundItems (h : g.Encodable) (round : ℕ) :
    ∃ items, g.roundItems round = .ok items ∧ ∀ item ∈ items, item.txPayload.length < 2 ^ 32 := by
  let itemsOf (x : EventHash) : List RecordsRootItem :=
    (g.get? x).elim [] fun r => r.event.payload.zipIdx.map fun p => ⟨x, p.2, p.1.payload⟩
  have hmap : (g.consensusOrder round).mapM g.eventItems =
      .ok ((g.consensusOrder round).map itemsOf) := by
    refine (mapM_returns (E := fun _ => False) fun x _ => .of_eq ?_).eq_ok
    simp only [eventItems, itemsOf]
    cases hx : g.get? x with
    | none => rfl
    | some r => exact if_pos (h.transactions hx).1
  refine ⟨((g.consensusOrder round).map itemsOf).flatten, ?_, fun item hitem => ?_⟩
  · rw [roundItems, hmap]
    rfl
  · obtain ⟨items, hitems, hitem⟩ := List.mem_flatten.mp hitem
    obtain ⟨x, -, rfl⟩ := List.mem_map.mp hitems
    simp only [itemsOf] at hitem
    cases hx : g.get? x with
    | none => simp [hx] at hitem
    | some r =>
      rw [hx] at hitem
      obtain ⟨⟨tx, idx⟩, hmem, rfl⟩ := List.mem_map.mp hitem
      exact (h.transactions hx).2 tx (List.fst_mem_of_mem_zipIdx hmem)

theorem exists_recordsRoot (sha : Sha256) {items : List RecordsRootItem}
    (h : ∀ item ∈ items, item.txPayload.length < 2 ^ 32) :
    ∃ root, computeRecordsRoot sha items = .ok root := by
  have hleaves : ∃ leaves, items.mapM (tryLeafHash sha) = .ok leaves := by
    refine ⟨_, (mapM_returns (E := fun _ => False) (k := fun item => sha (0x00 ::
      (digestBytes item.eventHash ++ beBytes 4 item.txIndex ++
        beBytes 4 item.txPayload.length ++ item.txPayload))) fun item hitem => .of_eq ?_).eq_ok⟩
    rw [tryLeafHash, tryU32_eq (h item hitem)]
    rfl
  obtain ⟨leaves, hleaves⟩ := hleaves
  by_cases hempty : items.isEmpty
  · exact ⟨emptyHash sha, by simp [computeRecordsRoot, tryComputeRecordsRoot, hempty]⟩
  · refine ⟨paddedRoot sha leaves, ?_⟩
    simp only [computeRecordsRoot, tryComputeRecordsRoot, hempty, hleaves]
    rfl

/-- The events of a window are stored, and their leaves are computed with a width that fits. -/
theorem exists_windowRoot (h : g.Encodable) (sha : Sha256) (hroster : g.HasRoster round) :
    ∃ root, g.tryComputeWindowRoot sha round signedWindowRounds = .ok (.ok root) := by
  obtain ⟨⟨n, registry⟩, hactive⟩ := Option.isSome_iff_exists.mp hroster
  have hcount : g.memberCountAtRound round = .ok registry.len := by
    rw [memberCountAtRound, rosterForRound, hactive]
    rfl
  have hlen : registry.len < 2 ^ 32 := by
    have hmem := (List.mem_filter.mp (List.mem_of_getLast? hactive)).1
    exact (h.rosters hmem).1
  have hleaves : ∃ leaves, (g.windowEvents round signedWindowRounds).mapM
      (g.windowLeaf sha registry.len) = .ok leaves := by
    refine ⟨_, (mapM_returns (E := fun _ => False)
      (k := fun x => (g.windowLeaf sha registry.len x).toOption.getD 0) fun x hx =>
        .of_eq ?_).eq_ok⟩
    obtain ⟨m, -, hx⟩ := List.mem_flatMap.mp hx
    obtain ⟨r, hr, -⟩ := Option.bind_eq_some_iff.mp (mem_consensusOrder.mp hx)
    rw [windowLeaf, hr]
    rfl
  obtain ⟨leaves, hleaves⟩ := hleaves
  by_cases hempty : (g.windowEvents round signedWindowRounds).isEmpty
  · exact ⟨emptyHash sha, by simp only [tryComputeWindowRoot, hempty, if_true]⟩
  · refine ⟨paddedRoot sha leaves, ?_⟩
    simp only [tryComputeWindowRoot, hempty, hcount]
    show Except.ok (do
      let width ← tryU32 "window_root member count" registry.len
      let leaves ← (g.windowEvents round signedWindowRounds).mapM (g.windowLeaf sha width)
      return paddedRoot sha leaves) = _
    rw [tryU32_eq hlen]
    show Except.ok (do
      let leaves ← (g.windowEvents round signedWindowRounds).mapM (g.windowLeaf sha registry.len)
      return paddedRoot sha leaves) = _
    rw [hleaves]
    rfl

theorem exists_rosterHistoryRoot (h : g.Encodable) (sha : Sha256) (round windowRounds : ℕ) :
    ∃ root, computeRosterHistoryRoot sha g.rosterHistory round windowRounds = .ok root := by
  cases hsubset : canonicalRosterHistory g.rosterHistory round windowRounds with
  | none => exact ⟨sha rosterHistoryRootDst, by simp only [computeRosterHistoryRoot, hsubset]⟩
  | some subset =>
    obtain ⟨hmem, hlen⟩ := canonicalRosterHistory_sub hsubset
    have hentries : ∃ entries, (subset.snapshots.toList.mapM fun p =>
        encodeSnapshot p.1 p.2) = .ok entries := by
      refine ⟨_, (mapM_returns (E := fun _ => False) (k := fun p => beBytes 8 p.1 ++
        beBytes 4 p.2.toBytes.length ++ p.2.toBytes) fun p hp => .of_eq ?_).eq_ok⟩
      show encodeSnapshot p.1 p.2 = _
      rw [encodeSnapshot, tryU32_eq (h.rosters (hmem p hp)).2]
      rfl
    obtain ⟨entries, hentries⟩ := hentries
    have hencode : encodeRosterHistory subset =
        .ok (beBytes 4 subset.snapshots.toList.length ++ entries.flatten) := by
      rw [encodeRosterHistory, tryU32_eq (hlen.trans_lt h.history)]
      show (do
        let entries ← subset.snapshots.toList.mapM fun p : ℕ × MembershipRegistry =>
          encodeSnapshot p.1 p.2
        return beBytes 4 subset.snapshots.toList.length ++ entries.flatten) = _
      rw [hentries]
      rfl
    exact ⟨_, by simp only [computeRosterHistoryRoot, hsubset, hencode]; rfl⟩

/-- A decided round with a roster and a state hash has a payload. -/
theorem exists_payload (h : g.Encodable) (hdecided : g.isRoundDecided round = true)
    (hroster : g.HasRoster round) {stateHash : Digest}
    (hstate : lastAtOrBelow hashes round = some stateHash) :
    ∃ payload, g.canonicalCheckpointPayload sha hashes round = .ok (some payload) := by
  obtain ⟨items, hitems, hfit⟩ := h.exists_roundItems round
  obtain ⟨recordsRoot, hrecords⟩ := exists_recordsRoot sha hfit
  obtain ⟨windowRoot, hwindow⟩ := h.exists_windowRoot sha hroster
  obtain ⟨historyRoot, hhistory⟩ :=
    h.exists_rosterHistoryRoot sha round signedWindowRounds
  obtain ⟨⟨n, registry⟩, hactive⟩ := Option.isSome_iff_exists.mp hroster
  have hregistry : g.rosterForRound round = .ok registry := by rw [rosterForRound, hactive]
  refine ⟨.new sha round recordsRoot stateHash windowRoot historyRoot registry, ?_⟩
  simp only [canonicalCheckpointPayload, hstate, hitems, hrecords, checkpointPayload, hdecided,
    hregistry, hwindow, hhistory, bind, Except.bind]
  rfl

/-- An undecided round has none, and computing that does not panic. -/
theorem payload_eq_none (h : g.Encodable) (hdecided : g.isRoundDecided round = false) :
    g.canonicalCheckpointPayload sha hashes round = .ok none := by
  obtain ⟨items, hitems, hfit⟩ := h.exists_roundItems round
  obtain ⟨recordsRoot, hrecords⟩ := exists_recordsRoot sha hfit
  cases hstate : lastAtOrBelow hashes round with
  | none => simp only [canonicalCheckpointPayload, hstate]
  | some stateHash =>
    simp only [canonicalCheckpointPayload, hstate, hitems, hrecords, checkpointPayload, hdecided,
      bind, Except.bind]
    rfl

end Encodable

end Hashgraph

end JKain
