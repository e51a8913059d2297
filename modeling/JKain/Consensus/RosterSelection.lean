import JKain.Consensus.Checkpoint
import JKain.Consensus.Run
import JKain.Lib.SortedMap

/-!
# The rosters a checkpoint commits to

A checkpoint of a round commits to the rosters that are active in its window: to the snapshots of
the window and to the last one before it. Dropping snapshots before the window keeps the last of
them, and later snapshots are not selected, so the commitment does not depend on what a node has
dropped or scheduled since.
-/

namespace JKain

open Std JKain.Lib Hashgraph

namespace RosterHistory

/-! ## Sorted lists of snapshots -/

/-- Lists of snapshots in increasing order of their rounds are equal if they have the same members.
-/
theorem eq_of_sorted {l l' : List (ℕ × MembershipRegistry)}
    (h : l.Pairwise fun p q => p.1 < q.1) (h' : l'.Pairwise fun p q => p.1 < q.1)
    (hmem : ∀ p, p ∈ l ↔ p ∈ l') : l = l' :=
  (sortedEntries_iff_pairwise_lt.mpr h).eq_of_mem_iff (sortedEntries_iff_pairwise_lt.mpr h') hmem

theorem sorted_toList (snapshots : ExtTreeMap ℕ MembershipRegistry) :
    snapshots.toList.Pairwise fun p q => p.1 < q.1 :=
  sortedEntries_iff_pairwise_lt.mp (sortedEntries_toList snapshots)

theorem toList_ofList_of_sorted {l : List (ℕ × MembershipRegistry)}
    (h : l.Pairwise fun p q => p.1 < q.1) : (ExtTreeMap.ofList l).toList = l := by
  rw [ofList_eq_insertAll, toList_insertAll (sortedEntries_iff_pairwise_lt.mpr h)]

/-- A sorted list is cut in two at a round. -/
theorem filter_append_filter_of_sorted {l : List (ℕ × MembershipRegistry)}
    (h : l.Pairwise fun p q => p.1 < q.1) (bound : ℕ) :
    (l.filter (·.1 < bound) ++ l.filter fun p => !decide (p.1 < bound)) = l := by
  refine eq_of_sorted (List.pairwise_append.mpr ⟨h.filter _, h.filter _, fun p hp q hq => ?_⟩) h
    fun p => ?_
  · have hp := (List.mem_filter.mp hp).2
    have hq := (List.mem_filter.mp hq).2
    simp only [Bool.not_eq_true', decide_eq_false_iff_not, decide_eq_true_eq] at hp hq
    omega
  · rw [List.mem_append, List.mem_filter, List.mem_filter]
    by_cases hp : p.1 < bound <;> simp [hp]

/-- Scheduling a snapshot changes nothing among snapshots that it is not one of. -/
theorem filter_toList_schedule {rh : RosterHistory} {round : ℕ} {registry : MembershipRegistry}
    {p : ℕ × MembershipRegistry → Bool} (hp : ∀ registry, p (round, registry) = false) :
    (rh.schedule round registry).snapshots.toList.filter p = rh.snapshots.toList.filter p := by
  refine eq_of_sorted ((sorted_toList _).filter _) ((sorted_toList _).filter _) fun ⟨k, v⟩ => ?_
  rw [List.mem_filter, List.mem_filter, ExtTreeMap.mem_toList_iff_getElem?_eq_some,
    ExtTreeMap.mem_toList_iff_getElem?_eq_some]
  refine and_congr_left fun hk => ?_
  rw [schedule, ExtTreeMap.getElem?_insert, if_neg]
  rw [Std.compare_eq_iff_eq]
  rintro rfl
  rw [hp] at hk
  cases hk

end RosterHistory

/-! ## The selection -/

/-- The snapshots that `canonical_roster_history` collects. -/
def selectedSnapshots (rh : RosterHistory) (round windowRounds : ℕ) :
    List (ℕ × MembershipRegistry) :=
  (rh.snapshots.toList.filter (·.1 < round - windowRounds)).getLast?.toList ++
    rh.snapshots.toList.filter fun p =>
      !decide (p.1 < round - windowRounds) && decide (p.1 ≤ round)

variable {rh subset : RosterHistory} {round windowRounds : ℕ} {sha : Sha256}

theorem canonicalRosterHistory_eq :
    canonicalRosterHistory rh round windowRounds =
      if selectedSnapshots rh round windowRounds = [] then none
      else some ⟨ExtTreeMap.ofList (selectedSnapshots rh round windowRounds)⟩ := by
  unfold canonicalRosterHistory
  dsimp only
  by_cases hnil : selectedSnapshots rh round windowRounds = []
  · rw [if_pos hnil]
    split
    · rfl
    · rename_i hne
      exact absurd hnil hne
  · rw [if_neg hnil]
    split
    · rename_i heq
      exact absurd heq hnil
    · rfl

theorem mem_selectedSnapshots {p : ℕ × MembershipRegistry} :
    p ∈ selectedSnapshots rh round windowRounds ↔
      (rh.snapshots.toList.filter (·.1 < round - windowRounds)).getLast? = some p ∨
        p ∈ rh.snapshots.toList ∧ round - windowRounds ≤ p.1 ∧ p.1 ≤ round := by
  rw [selectedSnapshots, List.mem_append, Option.mem_toList, List.mem_filter]
  simp

/-- The snapshot before the window comes first, the others are in the order of the history. -/
theorem sorted_selectedSnapshots (rh : RosterHistory) (round windowRounds : ℕ) :
    (selectedSnapshots rh round windowRounds).Pairwise fun p q => p.1 < q.1 := by
  refine List.pairwise_append.mpr
    ⟨?_, (RosterHistory.sorted_toList _).filter _, fun p hp q hq => ?_⟩
  · cases (rh.snapshots.toList.filter (·.1 < round - windowRounds)).getLast? <;> simp
  · have hlow := (List.mem_filter.mp (List.mem_of_getLast? (Option.mem_toList.mp hp))).2
    have hhigh := (List.mem_filter.mp hq).2
    simp only [Bool.and_eq_true, Bool.not_eq_true', decide_eq_false_iff_not,
      decide_eq_true_eq] at hlow hhigh
    omega

/-- The selection holds the selected snapshots. -/
theorem toList_of_canonicalRosterHistory
    (h : canonicalRosterHistory rh round windowRounds = some subset) :
    subset.snapshots.toList = selectedSnapshots rh round windowRounds := by
  rw [canonicalRosterHistory_eq] at h
  split at h
  · cases h
  · obtain rfl := Option.some.inj h
    exact RosterHistory.toList_ofList_of_sorted (sorted_selectedSnapshots rh round windowRounds)

/-- The snapshots that a window commits to are snapshots of the history. -/
theorem canonicalRosterHistory_sub
    (h : canonicalRosterHistory rh round windowRounds = some subset) :
    (∀ p ∈ subset.snapshots.toList, p ∈ rh.snapshots.toList) ∧
      subset.snapshots.toList.length ≤ rh.snapshots.toList.length := by
  rw [toList_of_canonicalRosterHistory h]
  have hmem : ∀ p ∈ selectedSnapshots rh round windowRounds, p ∈ rh.snapshots.toList := by
    intro p hp
    rcases mem_selectedSnapshots.mp hp with hp | hp
    · exact (List.mem_filter.mp (List.mem_of_getLast? hp)).1
    · exact hp.1
  have hnodup : (selectedSnapshots rh round windowRounds).Nodup :=
    (sorted_selectedSnapshots rh round windowRounds).imp fun hlt heq => by
      rw [heq] at hlt
      exact Nat.lt_irrefl _ hlt
  exact ⟨hmem, (hnodup.subperm hmem).length_le⟩

/-- There is a selection if there is a snapshot at or below the round. -/
theorem exists_canonicalRosterHistory {k : ℕ} (hk : k ∈ rh.snapshots) (hle : k ≤ round) :
    ∃ subset, canonicalRosterHistory rh round windowRounds = some subset := by
  obtain ⟨registry, hregistry⟩ :=
    Option.isSome_iff_exists.mp (ExtTreeMap.isSome_getElem?_iff_mem.mpr hk)
  have hmem := ExtTreeMap.mem_toList_iff_getElem?_eq_some.mpr hregistry
  have hne : selectedSnapshots rh round windowRounds ≠ [] := by
    rcases Nat.lt_or_ge k (round - windowRounds) with hlt | hge
    · have hbefore : (k, registry) ∈ rh.snapshots.toList.filter (·.1 < round - windowRounds) :=
        List.mem_filter.mpr ⟨hmem, decide_eq_true hlt⟩
      obtain ⟨p, hp⟩ := Option.ne_none_iff_exists'.mp
        (mt List.getLast?_eq_none_iff.mp (List.ne_nil_of_mem hbefore))
      exact List.ne_nil_of_mem (mem_selectedSnapshots.mpr (.inl hp))
    · exact List.ne_nil_of_mem (mem_selectedSnapshots.mpr (.inr ⟨hmem, hge, hle⟩))
  exact ⟨_, by rw [canonicalRosterHistory_eq, if_neg hne]⟩

/-! ## What the selection does not depend on -/

/-- Snapshots dropped before the window are not selected, except the last, which is not dropped. -/
theorem selectedSnapshots_pruneBefore {keepFromRound : ℕ}
    (hle : keepFromRound ≤ round - windowRounds) :
    selectedSnapshots (rh.pruneBefore keepFromRound) round windowRounds =
      selectedSnapshots rh round windowRounds := by
  have hselected : ((rh.pruneBefore keepFromRound).snapshots.toList.filter fun p =>
        !decide (p.1 < round - windowRounds) && decide (p.1 ≤ round)) =
      rh.snapshots.toList.filter fun p =>
        !decide (p.1 < round - windowRounds) && decide (p.1 ≤ round) := by
    rw [RosterHistory.pruneBefore, ExtTreeMap.toList_filter, List.filter_filter]
    refine List.filter_congr fun p _ => ?_
    -- A snapshot of the window is not below the cut.
    by_cases hp : p.1 < round - windowRounds
    · simp [hp]
    · have hkept : keepFromRound ≤ p.1 := by omega
      simp [hkept]
  rw [selectedSnapshots, RosterHistory.getLast?_below_pruneBefore hle, hselected, selectedSnapshots]

theorem selectedSnapshots_schedule {activationRound : ℕ} {registry : MembershipRegistry}
    (hlt : round < activationRound) :
    selectedSnapshots (rh.schedule activationRound registry) round windowRounds =
      selectedSnapshots rh round windowRounds := by
  rw [selectedSnapshots, RosterHistory.filter_toList_schedule (by simp; omega),
    RosterHistory.filter_toList_schedule (by simp; omega), selectedSnapshots]

theorem canonicalRosterHistory_pruneBefore {keepFromRound : ℕ}
    (hle : keepFromRound ≤ round - windowRounds) :
    canonicalRosterHistory (rh.pruneBefore keepFromRound) round windowRounds =
      canonicalRosterHistory rh round windowRounds := by
  rw [canonicalRosterHistory_eq, selectedSnapshots_pruneBefore hle, canonicalRosterHistory_eq]

/-- Selecting from a selection gives all of it. -/
theorem selectedSnapshots_of_toList_eq
    (h : subset.snapshots.toList = selectedSnapshots rh round windowRounds) :
    selectedSnapshots subset round windowRounds = selectedSnapshots rh round windowRounds := by
  rw [selectedSnapshots, h, selectedSnapshots]
  set last := (rh.snapshots.toList.filter (·.1 < round - windowRounds)).getLast? with hlast
  set window := rh.snapshots.toList.filter fun p =>
    !decide (p.1 < round - windowRounds) && decide (p.1 ≤ round) with hwindow
  have hbefore : ∀ p ∈ last.toList, p.1 < round - windowRounds := by
    intro p hp
    have hp := (List.mem_filter.mp (List.mem_of_getLast? (Option.mem_toList.mp hp))).2
    exact of_decide_eq_true hp
  have hwithin : ∀ p ∈ window, ¬p.1 < round - windowRounds ∧ p.1 ≤ round := by
    intro p hp
    have hp := (List.mem_filter.mp hp).2
    simpa only [Bool.and_eq_true, Bool.not_eq_true', decide_eq_false_iff_not,
      decide_eq_true_eq] using hp
  have hfirst : (last.toList ++ window).filter (·.1 < round - windowRounds) = last.toList := by
    rw [List.filter_append, List.filter_eq_self.mpr fun p hp => decide_eq_true (hbefore p hp),
      List.filter_eq_nil_iff.mpr fun p hp => by simpa using (hwithin p hp).1, List.append_nil]
  have hrest : (last.toList ++ window).filter (fun p =>
      !decide (p.1 < round - windowRounds) && decide (p.1 ≤ round)) = window := by
    rw [List.filter_append, List.filter_eq_nil_iff.mpr fun p hp => by simp [hbefore p hp],
      List.filter_eq_self.mpr fun p hp => by simp [hwithin p hp], List.nil_append]
  rw [hfirst, hrest]
  cases last <;> rfl

theorem canonicalRosterHistory_idempotent
    (h : canonicalRosterHistory rh round windowRounds = some subset) :
    canonicalRosterHistory subset round windowRounds = some subset := by
  rw [← h, canonicalRosterHistory_eq, canonicalRosterHistory_eq,
    selectedSnapshots_of_toList_eq (toList_of_canonicalRosterHistory h)]

theorem computeRosterHistoryRoot_congr {rh rh' : RosterHistory}
    (h : selectedSnapshots rh' round windowRounds = selectedSnapshots rh round windowRounds) :
    computeRosterHistoryRoot sha rh' round windowRounds =
      computeRosterHistoryRoot sha rh round windowRounds := by
  rw [computeRosterHistoryRoot, canonicalRosterHistory_eq, h, ← canonicalRosterHistory_eq,
    computeRosterHistoryRoot]

/-- In the window the selection has the rosters of the history. -/
theorem activeAt_of_canonicalRosterHistory {n : ℕ}
    (h : canonicalRosterHistory rh round windowRounds = some subset)
    (hlow : round - windowRounds ≤ n) (hhigh : n ≤ round) : subset.activeAt n = rh.activeAt n := by
  rw [RosterHistory.activeAt, toList_of_canonicalRosterHistory h, RosterHistory.activeAt,
    ← RosterHistory.filter_append_filter_of_sorted (RosterHistory.sorted_toList rh.snapshots)
      (round - windowRounds), selectedSnapshots]
  simp only [List.filter_append, List.getLast?_append, List.filter_filter]
  have hwindow : ∀ p : ℕ × MembershipRegistry,
      (decide (p.1 ≤ n) && (!decide (p.1 < round - windowRounds) && decide (p.1 ≤ round))) =
        (decide (p.1 ≤ n) && !decide (p.1 < round - windowRounds)) := by
    intro p
    by_cases hp : p.1 ≤ n
    · simp [hp, hp.trans hhigh]
    · simp [hp]
  have hbefore : ∀ p : ℕ × MembershipRegistry,
      (decide (p.1 ≤ n) && decide (p.1 < round - windowRounds)) =
        decide (p.1 < round - windowRounds) := by
    intro p
    by_cases hp : p.1 < round - windowRounds
    · simp [hp, (hp.trans_le hlow).le]
    · simp [hp]
  have hlast : ((rh.snapshots.toList.filter (·.1 < round - windowRounds)).getLast?.toList.filter
      (·.1 ≤ n)).getLast? = (rh.snapshots.toList.filter (·.1 < round - windowRounds)).getLast? := by
    cases hlast : (rh.snapshots.toList.filter (·.1 < round - windowRounds)).getLast? with
    | none => rfl
    | some p =>
      have hp := of_decide_eq_true (List.mem_filter.mp (List.mem_of_getLast? hlast)).2
      simp [(hp.trans_le hlow).le]
  simp only [hwindow, hbefore, hlast]

/-! ## Changes of the history -/

/-- A call that changes a roster history. -/
inductive RosterChange
  | pruneBefore (keepFromRound : ℕ)
  | schedule (activationRound : ℕ) (registry : MembershipRegistry)

namespace RosterChange

/-- The history after the call. -/
def next (rh : RosterHistory) : RosterChange → RosterHistory
  | pruneBefore keepFromRound => rh.pruneBefore keepFromRound
  | schedule activationRound registry => rh.schedule activationRound registry

/-- The call drops only what is before the window, or schedules what is behind it. -/
def Outside (round windowRounds : ℕ) : RosterChange → Prop
  | pruneBefore keepFromRound => keepFromRound ≤ round - windowRounds
  | schedule activationRound _ => round < activationRound

theorem selectedSnapshots_next {change : RosterChange} (h : change.Outside round windowRounds) :
    selectedSnapshots (change.next rh) round windowRounds =
      selectedSnapshots rh round windowRounds := by
  cases change with
  | pruneBefore keepFromRound => exact selectedSnapshots_pruneBefore h
  | schedule activationRound registry => exact selectedSnapshots_schedule h

theorem selectedSnapshots_foldl {changes : List RosterChange}
    (h : ∀ change ∈ changes, change.Outside round windowRounds) :
    selectedSnapshots (changes.foldl next rh) round windowRounds =
      selectedSnapshots rh round windowRounds := by
  induction changes generalizing rh with
  | nil => rfl
  | cons change changes ih =>
    obtain ⟨hchange, hrest⟩ := List.forall_mem_cons.mp h
    rw [List.foldl_cons, ih hrest, selectedSnapshots_next hchange]

end RosterChange

/-- The commitment to the rosters of a window stays the same when snapshots are dropped before the
window or scheduled behind it. Selecting from a selection gives the same selection and the same
root, and in the window it has the rosters of the history. -/
theorem roster_commitment_independent (sha : Sha256) (rh : RosterHistory) (round windowRounds : ℕ) :
    (∀ {changes : List RosterChange},
      (∀ change ∈ changes, change.Outside round windowRounds) →
        computeRosterHistoryRoot sha (changes.foldl RosterChange.next rh) round windowRounds =
          computeRosterHistoryRoot sha rh round windowRounds) ∧
    (∀ {subset}, canonicalRosterHistory rh round windowRounds = some subset →
      canonicalRosterHistory subset round windowRounds = some subset ∧
        computeRosterHistoryRoot sha subset round windowRounds =
          computeRosterHistoryRoot sha rh round windowRounds) ∧
    (∀ {r k}, round - windowRounds ≤ r → r ≤ round → k ∈ rh.snapshots → k ≤ r →
      ∃ subset activation registry, canonicalRosterHistory rh round windowRounds = some subset ∧
        rh.activeAt r = some (activation, registry) ∧
        subset.activeAt r = some (activation, registry)) := by
  refine ⟨fun h => ?_, fun h => ?_, fun {r k} hlow hhigh hk hkr => ?_⟩
  · exact computeRosterHistoryRoot_congr (RosterChange.selectedSnapshots_foldl h)
  · exact ⟨canonicalRosterHistory_idempotent h, computeRosterHistoryRoot_congr
      (selectedSnapshots_of_toList_eq (toList_of_canonicalRosterHistory h))⟩
  · obtain ⟨⟨activation, registry⟩, hactive⟩ := Option.isSome_iff_exists.mp
      (RosterHistory.isSome_activeAt_iff.mpr ⟨k, hkr, hk⟩)
    obtain ⟨subset, hsubset⟩ := exists_canonicalRosterHistory hk (hkr.trans hhigh)
    refine ⟨subset, activation, registry, hsubset, hactive, ?_⟩
    rw [activeAt_of_canonicalRosterHistory hsubset hlow hhigh, hactive]

/-- Three snapshots, of which the second is the last one before the window of rounds `5..7`. -/
theorem roster_commitment_independent_three :
    let rh := ((RosterHistory.new (plainRegistry 1)).schedule 3 (plainRegistry 2)).schedule 6
      (plainRegistry 3)
    computeRosterHistoryRoot rollingHash ((rh.pruneBefore 5).schedule 8 (plainRegistry 4)) 7 2 =
        computeRosterHistoryRoot rollingHash rh 7 2 ∧
      ∃ subset activation registry, canonicalRosterHistory rh 7 2 = some subset ∧
        canonicalRosterHistory subset 7 2 = some subset ∧
        rh.activeAt 5 = some (activation, registry) ∧
        subset.activeAt 5 = some (activation, registry) := by
  intro rh
  obtain ⟨hroot, hselect, hroster⟩ := roster_commitment_independent rollingHash rh 7 2
  obtain ⟨subset, activation, registry, hsubset, hactive, hactive'⟩ :=
    @hroster 5 3 (by decide) (by decide) (by decide +kernel) (by decide)
  refine ⟨@hroot [.pruneBefore 5, .schedule 8 (plainRegistry 4)] ?_, subset, activation, registry,
    hsubset, (hselect hsubset).1, hactive, hactive'⟩
  intro change hchange
  simp only [List.mem_cons, List.not_mem_nil, or_false] at hchange
  rcases hchange with rfl | rfl
  · exact (by decide : 5 ≤ 7 - 2)
  · exact (by decide : 7 < 8)

end JKain
