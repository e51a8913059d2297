import JKain.Consensus.Fame
import JKain.Consensus.OrderSpec

/-!
# What voting and ordering can do

`Advances g g'` says what a phase of voting and ordering may change between `g` and `g'`: the
skeleton stays; votes, decided fame and decided rounds are only added to; a round is decided once
it has no undecided witness and its view is complete; and the rounds ordered in between are the
next ones, each decided, in increasing order. `Votes g g'` adds why a round was decided: one of its
elections ended in between. Every operation is related to these once; what holds along runs is
derived from them.
-/

namespace JKain

open Std JKain.Lib

namespace Hashgraph

/-- The vote of `y` on `w`, if it is recorded. -/
def recordedVote (g : Hashgraph) (y w : EventHash) : Option Bool :=
  (g.get? y).bind fun record => record.votes[w]?

/-- The undecided witnesses are tracked with their rounds. -/
def UndecidedExact (g : Hashgraph) : Prop :=
  ∀ (w : EventHash) (n : ℕ), g.undecidedWitnesses[w]? = some n ↔
    g.fameOf w = some .undecided ∧ ∃ r, g.get? w = some r ∧ r.round = n

/-- Every decided round has no undecided witness. -/
def DecidedSettled (g : Hashgraph) : Prop := ∀ n, g.isRoundDecided n = true → g.Settled n

/-- The changes a phase of voting and ordering can make. -/
structure Advances (g g' : Hashgraph) : Prop where
  skeleton_eq : g'.skeleton = g.skeleton
  vote_kept : ∀ {y w v}, g.recordedVote y w = some v → g'.recordedVote y w = some v
  fame_kept : ∀ {w status}, g.fameOf w = some status → status ≠ .undecided →
    g'.fameOf w = some status
  undecided_sub : ∀ {w : EventHash} {n : ℕ}, g'.undecidedWitnesses[w]? = some n →
    g.undecidedWitnesses[w]? = some n
  undecided_exact : g.UndecidedExact → g'.UndecidedExact
  decided_kept : ∀ {n}, g.isRoundDecided n = true → g'.isRoundDecided n = true
  closed : ∀ {n}, g'.isRoundDecided n = true → g.isRoundDecided n = true ∨ g'.Closable n
  next_le : g.nextRoundToOrder ≤ g'.nextRoundToOrder
  next_open : g.isRoundDecided g.nextRoundToOrder = false →
    g'.isRoundDecided g'.nextRoundToOrder = false
  ordered_decided : ∀ n, g.nextRoundToOrder ≤ n → n < g'.nextRoundToOrder →
    g'.isRoundDecided n = true
  log_eq : g'.orderLog = g.orderLog ++
    List.range' g.nextRoundToOrder (g'.nextRoundToOrder - g.nextRoundToOrder)
  order_eq : g.WellFormed → g.UndecidedExact → g.DecidedSettled → ∀ x, (g.get? x).isSome →
    g'.orderOf x = stamp (g.orderOf x) (g'.firstAssignment x g.nextRoundToOrder
      (g'.nextRoundToOrder - g.nextRoundToOrder))
  stamped : ∀ x, (g.get? x).isSome → Stamped g g' x
  seen : ∀ {x n}, g'.roundReceived x = some n → g.roundReceived x = some n ∨
    ∃ w ∈ g.witnessesOfRound n, g.sees w x = true

/-- The changes of a phase of voting: only rounds with an election that ended are decided, and
these are, if they can be. -/
structure Votes (g g' : Hashgraph) : Prop extends Advances g g' where
  cause : ∀ {n}, g'.isRoundDecided n = true → g.isRoundDecided n = true ∨
    ∃ w : EventHash, g.undecidedWitnesses[w]? = some n ∧ g'.undecidedWitnesses[w]? = none
  timely : ∀ {w : EventHash} {n : ℕ}, g.undecidedWitnesses[w]? = some n →
    g'.undecidedWitnesses[w]? = none → g'.Closable n → g'.isRoundDecided n = true

section Transport

variable {g g' : Hashgraph}

theorem roundViewComplete_of_skeleton_eq (h : g'.skeleton = g.skeleton) (n : ℕ) :
    g'.roundViewComplete n = g.roundViewComplete n := by
  have hskel (g : Hashgraph) : g.skeleton.roundViewComplete n = g.roundViewComplete n := by
    have hrecord (x : EventHash) : (g.skeleton.get? x).any (fun r => decide (r.round > n)) =
        (g.get? x).any fun r => decide (r.round > n) := by
      rw [get?_skeleton]
      cases g.get? x <;> rfl
    have hmember (member : NodeId) :
        ((g.skeleton.latestEventBy member).bind g.skeleton.get?).any
            (fun r => decide (r.round > n)) =
          ((g.latestEventBy member).bind g.get?).any fun r => decide (r.round > n) := by
      show ((g.latestEventBy member).bind g.skeleton.get?).any _ = _
      cases g.latestEventBy member with
      | none => rfl
      | some x => exact hrecord x
    unfold roundViewComplete
    simp only [hmember]
    rfl
  rw [← hskel g', h, hskel]

theorem viewComplete_of_skeleton_eq (h : g'.skeleton = g.skeleton) (n : ℕ) :
    g'.viewComplete n = g.viewComplete n := by
  rw [viewComplete, viewComplete, roundViewComplete_of_skeleton_eq h]

theorem famous_eq_of_fame_eq (h : g'.skeleton = g.skeleton) {n : ℕ}
    (hfame : ∀ w ∈ g.witnessesOfRound n, g'.fameOf w = g.fameOf w) :
    g'.famousWitnessesOfRound n = g.famousWitnessesOfRound n := by
  have hcanonical (g : Hashgraph) (w : EventHash) :
      g.skeleton.isCanonical w = g.isCanonical w := by
    unfold isCanonical
    rw [get?_skeleton]
    cases g.get? w <;> rfl
  have hwitnesses : g'.witnessesOfRound n = g.witnessesOfRound n := by
    rw [← witnessesOfRound_skeleton, h, witnessesOfRound_skeleton]
  unfold famousWitnessesOfRound
  rw [hwitnesses]
  refine List.filter_congr fun w hw => ?_
  rw [hfame w hw, ← hcanonical g', h, hcanonical]

theorem assignment_eq_of_famous_eq (h : g'.skeleton = g.skeleton) {n : ℕ}
    (hfamous : g'.famousWitnessesOfRound n = g.famousWitnessesOfRound n) (x : EventHash) :
    g'.assignment n x = g.assignment n x := by
  unfold assignment
  rw [hfamous, ← orderTimestamp_skeleton g', h, orderTimestamp_skeleton]

theorem firstAssignment_congr {x : EventHash} {n k : ℕ}
    (h : ∀ m, n ≤ m → m < n + k → g'.assignment m x = g.assignment m x) :
    g'.firstAssignment x n k = g.firstAssignment x n k := by
  induction k generalizing n with
  | zero => rfl
  | succ k ih =>
    rw [firstAssignment, firstAssignment, h n le_rfl (by omega),
      ih fun m hm hm' => h m (by omega) (by omega)]

/-- In a settled round every witness has its fame. -/
theorem Settled.exists_fame (hwf : g.WellFormed) (hexact : g.UndecidedExact) {n : ℕ}
    (hsettled : g.Settled n) {w : EventHash} (hw : w ∈ g.witnessesOfRound n) :
    ∃ status, g.fameOf w = some status ∧ status ≠ .undecided := by
  obtain ⟨r, hr, hround, hwit⟩ := hwf.witness_sound hw
  have hfame : g.fameOf w = some r.fameStatus := by
    simp [fameOf, hr, hwit]
  refine ⟨r.fameStatus, hfame, fun hundecided => hsettled w ?_⟩
  exact (hexact w n).mpr ⟨by rw [hfame, hundecided], r, hr, hround⟩

end Transport

/-! ## Phases compose -/

namespace Advances

variable {g g' g'' : Hashgraph}

theorem refl (g : Hashgraph) : Advances g g where
  skeleton_eq := rfl
  vote_kept := id
  fame_kept := fun h _ => h
  undecided_sub := id
  undecided_exact := id
  decided_kept := id
  closed := .inl
  next_le := le_rfl
  next_open := id
  ordered_decided := fun n h h' => absurd h' (by omega)
  log_eq := by simp
  order_eq := by simp [firstAssignment]
  stamped := fun _ _ => .inl rfl
  seen := .inl

theorem settled (h : Advances g g') {n : ℕ} (hn : g.Settled n) : g'.Settled n :=
  fun w hw => hn w (h.undecided_sub hw)

theorem closable (h : Advances g g') {n : ℕ} (hn : g.Closable n) : g'.Closable n :=
  ⟨hn.1, h.settled hn.2.1, by rw [viewComplete_of_skeleton_eq h.skeleton_eq]; exact hn.2.2⟩

theorem decidedSettled (h : Advances g g') (hg : g.DecidedSettled) : g'.DecidedSettled := by
  intro n hn
  rcases h.closed hn with hold | hnew
  · exact h.settled (hg n hold)
  · exact hnew.2.1

theorem wellFormed (h : Advances g g') (hg : g.WellFormed) : g'.WellFormed :=
  hg.of_skeleton_eq h.skeleton_eq

/-- What a settled round assigns does not change any more. -/
theorem assignment_eq (h : Advances g g') (hwf : g.WellFormed) (hexact : g.UndecidedExact) {n : ℕ}
    (hn : g.Settled n) (x : EventHash) : g'.assignment n x = g.assignment n x := by
  refine assignment_eq_of_famous_eq h.skeleton_eq
    (famous_eq_of_fame_eq h.skeleton_eq fun w hw => ?_) x
  obtain ⟨status, hfame, hdecided⟩ := hn.exists_fame hwf hexact hw
  rw [hfame, h.fame_kept hfame hdecided]

theorem trans (h : Advances g g') (h' : Advances g' g'') : Advances g g'' where
  skeleton_eq := h'.skeleton_eq.trans h.skeleton_eq
  vote_kept := fun hv => h'.vote_kept (h.vote_kept hv)
  fame_kept := fun hf hd => h'.fame_kept (h.fame_kept hf hd) hd
  undecided_sub := fun hw => h.undecided_sub (h'.undecided_sub hw)
  undecided_exact := fun hg => h'.undecided_exact (h.undecided_exact hg)
  decided_kept := fun hn => h'.decided_kept (h.decided_kept hn)
  closed := by
    intro n hn
    rcases h'.closed hn with hmid | hnew
    · exact (h.closed hmid).imp_right h'.closable
    · exact .inr hnew
  next_le := h.next_le.trans h'.next_le
  next_open := fun hg => h'.next_open (h.next_open hg)
  ordered_decided := by
    intro n hle hlt
    by_cases hmid : n < g'.nextRoundToOrder
    · exact h'.decided_kept (h.ordered_decided n hle hmid)
    · exact h'.ordered_decided n (by omega) hlt
  log_eq := by
    have hle := h.next_le
    have hle' := h'.next_le
    have hsplit : g''.nextRoundToOrder - g.nextRoundToOrder =
        (g'.nextRoundToOrder - g.nextRoundToOrder) +
          (g''.nextRoundToOrder - g'.nextRoundToOrder) := by omega
    have hstart : g.nextRoundToOrder + 1 * (g'.nextRoundToOrder - g.nextRoundToOrder) =
        g'.nextRoundToOrder := by omega
    rw [h'.log_eq, h.log_eq, List.append_assoc, hsplit, ← List.range'_append, hstart]
  order_eq := by
    intro hwf hexact hsettled x hx
    have hle := h.next_le
    have hle' := h'.next_le
    have hsplit : g''.nextRoundToOrder - g.nextRoundToOrder =
        (g'.nextRoundToOrder - g.nextRoundToOrder) +
          (g''.nextRoundToOrder - g'.nextRoundToOrder) := by omega
    have hstart : g.nextRoundToOrder + (g'.nextRoundToOrder - g.nextRoundToOrder) =
        g'.nextRoundToOrder := by omega
    have hx' : (g'.get? x).isSome := by
      rw [isSome_get?_of_skeleton_eq h.skeleton_eq]
      exact hx
    -- The rounds ordered first were settled then, so that they assign the same at the end.
    have hsame : g''.firstAssignment x g.nextRoundToOrder
          (g'.nextRoundToOrder - g.nextRoundToOrder) =
        g'.firstAssignment x g.nextRoundToOrder
          (g'.nextRoundToOrder - g.nextRoundToOrder) := by
      refine firstAssignment_congr fun n hn hn' => ?_
      exact h'.assignment_eq (h.wellFormed hwf) (h.undecided_exact hexact)
        (h.decidedSettled hsettled n (h.ordered_decided n hn (by omega))) x
    rw [h'.order_eq (h.wellFormed hwf) (h.undecided_exact hexact) (h.decidedSettled hsettled) x hx',
      h.order_eq hwf hexact hsettled x hx, stamp_stamp, hsplit, firstAssignment_add, hsame, hstart]
  stamped := by
    intro x hx
    have hx' : (g'.get? x).isSome := by
      rw [isSome_get?_of_skeleton_eq h.skeleton_eq]
      exact hx
    exact (h.stamped x hx).trans (h'.stamped x hx') h.next_le h'.next_le
  seen := by
    intro x n hx
    rcases h'.seen hx with hmid | ⟨w, hw, hsees⟩
    · exact h.seen hmid
    · refine .inr ⟨w, ?_, ?_⟩
      · rwa [← witnessesOfRound_skeleton g, ← h.skeleton_eq, witnessesOfRound_skeleton]
      · rwa [sees, ← see_skeleton g, ← h.skeleton_eq, see_skeleton]

end Advances

namespace Votes

variable {g g' g'' : Hashgraph}

theorem refl (g : Hashgraph) : Votes g g where
  toAdvances := .refl g
  cause := .inl
  timely := by
    intro w n hw hw'
    rw [hw] at hw'
    cases hw'

theorem trans (h : Votes g g') (h' : Votes g' g'') : Votes g g'' where
  toAdvances := h.toAdvances.trans h'.toAdvances
  cause := by
    intro n hn
    rcases h'.cause hn with hmid | ⟨w, hw, hw'⟩
    · rcases h.cause hmid with hold | ⟨w, hw, hw'⟩
      · exact .inl hold
      · refine .inr ⟨w, hw, ?_⟩
        cases hend : g''.undecidedWitnesses[w]? with
        | none => rfl
        | some m => rw [h'.undecided_sub hend] at hw'; cases hw'
    · exact .inr ⟨w, h.undecided_sub hw, hw'⟩
  timely := by
    intro w n hw hend hclosable
    cases hmid : g'.undecidedWitnesses[w]? with
    | some m =>
      obtain rfl : m = n := Option.some.inj ((h.undecided_sub hmid).symm.trans hw)
      exact h'.timely hmid hend hclosable
    | none =>
      by_cases hsettled : g'.Settled n
      · refine h'.decided_kept (h.timely hw hmid ⟨hclosable.1, hsettled, ?_⟩)
        rw [← viewComplete_of_skeleton_eq h'.skeleton_eq]
        exact hclosable.2.2
      · -- Another election of the round ended later.
        obtain ⟨u, hu⟩ := not_forall_not.mp hsettled
        refine h'.timely hu ?_ hclosable
        cases hend' : g''.undecidedWitnesses[u]? with
        | none => rfl
        | some m =>
          obtain rfl : m = n := Option.some.inj ((h'.undecided_sub hend').symm.trans hu)
          exact absurd hend' (hclosable.2.1 u)

end Votes

/-! ## The updates -/

theorem recordedVote_of_unordered_eq {g g' : Hashgraph} (h : g'.unordered = g.unordered)
    (y w : EventHash) : g'.recordedVote y w = g.recordedVote y w := by
  have hskip (g : Hashgraph) : g.unordered.recordedVote y w = g.recordedVote y w := by
    unfold recordedVote
    rw [get?_unordered]
    cases g.get? y <;> rfl
  rw [← hskip g', h, hskip]

/-- The undecided witnesses stay exact where the skeleton, the fame and the tracking stay. -/
theorem UndecidedExact.of_eq {g g' : Hashgraph} (hskel : g'.skeleton = g.skeleton)
    (hfame : ∀ u, g'.fameOf u = g.fameOf u)
    (hundecided : g'.undecidedWitnesses = g.undecidedWitnesses) (h : g.UndecidedExact) :
    g'.UndecidedExact := by
  intro u n
  rw [hundecided, hfame, h u n]
  refine and_congr_right fun _ => ⟨?_, ?_⟩
  · rintro ⟨r, hr, hround⟩
    obtain ⟨r', hr', hbare⟩ := get?_of_skeleton_eq hskel.symm hr
    exact ⟨r', hr', ((congrArg EventRecord.round hbare :) : r'.round = r.round).trans hround⟩
  · rintro ⟨r, hr, hround⟩
    obtain ⟨r', hr', hbare⟩ := get?_of_skeleton_eq hskel hr
    exact ⟨r', hr', ((congrArg EventRecord.round hbare :) : r'.round = r.round).trans hround⟩

/-- Closing a round and ordering from there. -/
theorem Advances.of_close {g g' : Hashgraph} {n : ℕ} (hn : g.Closable n)
    (h : Orders (g.close n) g') (hopen : g'.isRoundDecided g'.nextRoundToOrder = false) :
    Advances g g' := by
  have hunordered : g'.unordered = g.unordered := h.unordered_eq
  have hskel := skeleton_eq_of_unordered_eq hunordered
  have hundecided := undecidedWitnesses_eq_of_unordered_eq hunordered
  have hdecided (m : ℕ) : g'.isRoundDecided m = true ↔ m = n ∨ g.isRoundDecided m = true := by
    rw [isRoundDecided, h.decided_eq]
    exact isRoundDecided_close
  exact {
    skeleton_eq := hskel
    vote_kept := fun hv => by rw [recordedVote_of_unordered_eq hunordered]; exact hv
    fame_kept := fun hf _ => by rw [fameOf_eq_of_unordered_eq hunordered]; exact hf
    undecided_sub := fun hw => by rw [← hundecided]; exact hw
    undecided_exact := .of_eq hskel (fameOf_eq_of_unordered_eq hunordered) hundecided
    decided_kept := fun hm => (hdecided _).mpr (.inr hm)
    closed := by
      intro m hm
      rcases (hdecided m).mp hm with rfl | hold
      · refine .inr ⟨hn.1, fun w => ?_, ?_⟩
        · rw [hundecided]
          exact hn.2.1 w
        · rw [viewComplete_of_skeleton_eq hskel]
          exact hn.2.2
      · exact .inl hold
    next_le := h.next_le
    next_open := fun _ => hopen
    ordered_decided := fun m hm hm' =>
      (hdecided m).mpr (isRoundDecided_close.mp (h.ordered_decided m hm hm'))
    log_eq := h.log_eq
    order_eq := by
      intro _ _ _ x hx
      rw [firstAssignment_eq_of_unordered_eq h.unordered_eq]
      exact h.order_eq x hx
    stamped := fun x hx => (Stamped.of_stamp (h.order_eq x hx) :)
    seen := by
      intro x m hx
      have hstored : (g.get? x).isSome := by
        rw [← isSome_get?_of_skeleton_eq hskel]
        obtain ⟨r, hr, -⟩ := Option.bind_eq_some_iff.mp hx
        exact Option.isSome_of_eq_some hr
      have horder := congrArg Prod.fst (h.order_eq x hstored)
      rw [stamp] at horder
      split at horder
      · exact .inl (horder.symm.trans hx)
      · cases hfirst : (g.close n).firstAssignment x (g.close n).nextRoundToOrder
            (g'.nextRoundToOrder - (g.close n).nextRoundToOrder) with
        | none =>
          rw [hfirst] at horder
          exact .inl (horder.symm.trans hx)
        | some a =>
          rw [hfirst] at horder
          obtain rfl : a.1 = m := Option.some.inj (horder.symm.trans hx)
          obtain ⟨w, hw, hsees⟩ := exists_sees_of_assignment (assignment_of_firstAssignment hfirst)
          exact .inr ⟨w, hw, by rwa [sees, ← see_skeleton] at hsees ⊢⟩ }

section RecordVote

variable {g : Hashgraph} {y w : EventHash} {v : Bool}

theorem recordVote_eq (g : Hashgraph) (y w : EventHash) (v : Bool) :
    g.recordVote y w v =
      g.modifyRecord y fun record => { record with votes := record.votes.insert w v } := rfl

theorem recordedVote_recordVote (hy : (g.get? y).isSome) (y' w' : EventHash) :
    (g.recordVote y w v).recordedVote y' w' =
      if y' = y ∧ w' = w then some v else g.recordedVote y' w' := by
  unfold recordedVote
  rw [recordVote_eq, get?_modifyRecord]
  by_cases hyy : y = y'
  · subst hyy
    obtain ⟨r, hr⟩ := Option.isSome_iff_exists.mp hy
    by_cases hw : w = w'
    · simp [hr, hw]
    · simp [hr, hw, Ne.symm hw, ExtTreeMap.getElem?_insert]
  · simp [hyy, Ne.symm hyy]

theorem fameOf_recordVote (u : EventHash) : (g.recordVote y w v).fameOf u = g.fameOf u := by
  unfold fameOf
  rw [recordVote_eq, get?_modifyRecord]
  by_cases hu : y = u
  · cases g.get? u <;> simp [hu]
  · simp [hu]

theorem orderOf_recordVote (x : EventHash) : (g.recordVote y w v).orderOf x = g.orderOf x := by
  unfold orderOf roundReceived consensusTimestamp
  rw [recordVote_eq, get?_modifyRecord]
  by_cases hx : y = x
  · cases g.get? x <;> simp [hx]
  · simp [hx]

theorem skeleton_recordVote : (g.recordVote y w v).skeleton = g.skeleton :=
  skeleton_modifyRecord fun _ => rfl

/-- Recording a first vote. -/
theorem Votes.of_recordVote (hy : (g.get? y).isSome) (hnone : g.recordedVote y w = none) :
    Votes g (g.recordVote y w v) where
  skeleton_eq := skeleton_recordVote
  vote_kept := by
    intro y' w' v' hv
    rw [recordedVote_recordVote hy]
    by_cases hsame : y' = y ∧ w' = w
    · rw [hsame.1, hsame.2, hnone] at hv
      cases hv
    · rw [if_neg hsame, hv]
  fame_kept := fun hf _ => by rw [fameOf_recordVote]; exact hf
  undecided_sub := id
  undecided_exact := .of_eq skeleton_recordVote fameOf_recordVote rfl
  decided_kept := id
  closed := .inl
  next_le := le_rfl
  next_open := id
  ordered_decided := fun n h h' => absurd h' (by simp only [recordVote]; omega)
  log_eq := by simp [recordVote]
  order_eq := by
    intro _ _ _ x _
    rw [orderOf_recordVote]
    simp [recordVote, firstAssignment]
  stamped := fun x _ => .inl (orderOf_recordVote x)
  seen := fun {x n} hx => .inl (by
    rwa [show (g.recordVote y w v).roundReceived x = g.roundReceived x from
      congrArg Prod.fst (orderOf_recordVote x)] at hx)
  cause := .inl
  timely := by
    intro u n hu hu'
    rw [show (g.recordVote y w v).undecidedWitnesses = g.undecidedWitnesses from rfl, hu] at hu'
    cases hu'

end RecordVote

/-! ## Ending an election -/

/-- The writes of `decide_fame` before it looks at the round. -/
def declare (g : Hashgraph) (w : EventHash) (status : FameStatus) : Hashgraph :=
  { g with
    events := g.events.modify w fun record => { record with fameStatus := status }
    undecidedWitnesses := g.undecidedWitnesses.erase w }

section Declare

variable {g : Hashgraph} {w : EventHash} {status : FameStatus}

theorem get?_declare (x : EventHash) :
    (g.declare w status).get? x =
      if w = x then (g.get? x).map fun r => { r with fameStatus := status } else g.get? x :=
  get?_modifyRecord x

theorem skeleton_declare : (g.declare w status).skeleton = g.skeleton :=
  (skeleton_modifyRecord fun _ => rfl :
    (g.modifyRecord w fun r => { r with fameStatus := status }).skeleton = g.skeleton)

theorem recordedVote_declare (y u : EventHash) :
    (g.declare w status).recordedVote y u = g.recordedVote y u := by
  unfold recordedVote
  rw [get?_declare]
  by_cases hy : w = y
  · cases g.get? y <;> simp [hy]
  · simp [hy]

theorem orderOf_declare (x : EventHash) : (g.declare w status).orderOf x = g.orderOf x := by
  unfold orderOf roundReceived consensusTimestamp
  rw [get?_declare]
  by_cases hx : w = x
  · cases g.get? x <;> simp [hx]
  · simp [hx]

theorem fameOf_declare (hw : (g.fameOf w).isSome) (u : EventHash) :
    (g.declare w status).fameOf u = if u = w then some status else g.fameOf u := by
  unfold fameOf at hw ⊢
  rw [get?_declare]
  by_cases hu : w = u
  · subst hu
    cases hr : g.get? w with
    | none => simp [hr] at hw
    | some r =>
      have hwit : r.isWitness = true := by
        by_contra hwit
        simp [hr, hwit] at hw
      simp [hwit]
  · simp [hu, Ne.symm hu]

theorem undecidedWitnesses_declare (u : EventHash) :
    (g.declare w status).undecidedWitnesses[u]? =
      if u = w then none else g.undecidedWitnesses[u]? := by
  rw [declare, ExtTreeMap.getElem?_erase]
  by_cases hu : w = u
  · simp [hu]
  · simp [hu, Ne.symm hu]

theorem UndecidedExact.declare (hexact : g.UndecidedExact) (hw : g.fameOf w = some .undecided)
    (hstatus : status ≠ .undecided) : (g.declare w status).UndecidedExact := by
  intro u n
  rw [undecidedWitnesses_declare, fameOf_declare (by rw [hw]; rfl), get?_declare]
  by_cases hu : u = w
  · simp [hu, hstatus]
  · rw [if_neg hu, if_neg hu, if_neg (Ne.symm hu)]
    exact hexact u n

theorem Advances.of_declare (hw : g.fameOf w = some .undecided) (hstatus : status ≠ .undecided) :
    Advances g (g.declare w status) where
  skeleton_eq := skeleton_declare
  vote_kept := fun hv => by rw [recordedVote_declare]; exact hv
  fame_kept := by
    intro u status' hu hdecided
    rw [fameOf_declare (by rw [hw]; rfl)]
    by_cases huw : u = w
    · rw [huw, hw] at hu
      exact absurd (Option.some.inj hu).symm hdecided
    · rw [if_neg huw, hu]
  undecided_sub := by
    intro u n hu
    rw [undecidedWitnesses_declare] at hu
    by_cases huw : u = w
    · rw [if_pos huw] at hu
      cases hu
    · rwa [if_neg huw] at hu
  undecided_exact := fun hexact => hexact.declare hw hstatus
  decided_kept := id
  closed := .inl
  next_le := le_rfl
  next_open := id
  ordered_decided := fun n h h' => absurd h' (by simp only [Hashgraph.declare]; omega)
  log_eq := by simp [Hashgraph.declare]
  order_eq := by
    intro _ _ _ x _
    rw [orderOf_declare]
    simp [Hashgraph.declare, firstAssignment]
  stamped := fun x _ => .inl (orderOf_declare x)
  seen := fun {x n} hx => .inl (by
    rwa [show (g.declare w status).roundReceived x = g.roundReceived x from
      congrArg Prod.fst (orderOf_declare x)] at hx)

/-- Ending an election and closing its round, if that is possible now. -/
theorem Votes.of_declare {g' : Hashgraph} {r : EventRecord} (hexact : g.UndecidedExact)
    (hr : g.get? w = some r) (hw : g.fameOf w = some .undecided) (hstatus : status ≠ .undecided)
    (h : Noted (g.declare w status) r.round g') : Votes g g' := by
  have htracked : g.undecidedWitnesses[w]? = some r.round :=
    (hexact w r.round).mpr ⟨hw, r, hr, rfl⟩
  have hdeclare : Advances g (g.declare w status) := .of_declare hw hstatus
  have hends (u : EventHash) (n : ℕ) (hu : g.undecidedWitnesses[u]? = some n)
      (hu' : (g.declare w status).undecidedWitnesses[u]? = none) : n = r.round := by
    rw [undecidedWitnesses_declare] at hu'
    by_cases huw : u = w
    · rw [huw, htracked] at hu
      exact (Option.some.inj hu).symm
    · rw [if_neg huw, hu] at hu'
      cases hu'
  rcases h with ⟨hclosable, horders, hopen⟩ | ⟨hclosable, rfl⟩
  · have hundecided : g'.undecidedWitnesses = (g.declare w status).undecidedWitnesses :=
      undecidedWitnesses_eq_of_unordered_eq horders.unordered_eq
    have hdecided (m : ℕ) :
        g'.isRoundDecided m = true ↔ m = r.round ∨ g.isRoundDecided m = true := by
      rw [isRoundDecided, horders.decided_eq]
      exact isRoundDecided_close
    refine ⟨hdeclare.trans (.of_close hclosable horders hopen), ?_, ?_⟩
    · intro n hn
      rcases (hdecided n).mp hn with rfl | hold
      · refine .inr ⟨w, htracked, ?_⟩
        rw [hundecided, undecidedWitnesses_declare, if_pos rfl]
      · exact .inl hold
    · intro u n hu hu' _
      rw [hundecided] at hu'
      exact (hdecided n).mpr (.inl (hends u n hu hu'))
  · refine ⟨hdeclare, .inl, ?_⟩
    intro u n hu hu' hn
    rw [hends u n hu hu'] at hn
    exact absurd hn hclosable

end Declare

end Hashgraph

end JKain
