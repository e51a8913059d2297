import JKain.Consensus.Ballot

/-!
# What voting does

The operations of `fame.rs` act on the ballots by the functions of the last module, each operation
on one ballot. It follows that the order in which a hash map yields the candidates does not matter.
-/

namespace JKain

open Std JKain.Lib

namespace Hashgraph

/-! ## One vote -/

/-- Between `g` and `g'` the election of `w` moved to the ballot `b`, and no other did. -/
structure Polled (g g' : Hashgraph) (w : EventHash) (b : Ballot) : Prop where
  votes : Votes g g'
  ballot_eq : g'.ballot w = b
  other_eq : ∀ u, u ≠ w → g'.ballot u = g.ballot u

section Vote

variable {E : Fault → Prop} {g g' : Hashgraph} {y w : EventHash}

theorem Polled.refl (g : Hashgraph) (w : EventHash) : Polled g g w (g.ballot w) :=
  ⟨.refl g, rfl, fun _ _ => rfl⟩

theorem Polled.trans {g'' : Hashgraph} {b b' : Ballot} (h : Polled g g' w b)
    (h' : Polled g' g'' w b') : Polled g g'' w b' :=
  ⟨h.votes.trans h'.votes, h'.ballot_eq, fun u hu => (h'.other_eq u hu).trans (h.other_eq u hu)⟩

theorem ballot_of_unordered_eq (h : g'.unordered = g.unordered) (w : EventHash) :
    g'.ballot w = g.ballot w := by
  simp only [ballot, recordedVote_of_unordered_eq h, fameOf_eq_of_unordered_eq h]

theorem Polled.of_recordVote {v : Bool} (hy : (g.get? y).isSome)
    (hnone : g.recordedVote y w = none) :
    Polled g (g.recordVote y w v) w ((g.ballot w).after y (.cast v)) where
  votes := .of_recordVote hy hnone
  ballot_eq := by
    simp only [ballot, Ballot.after, fameOf_recordVote, recordedVote_recordVote hy, and_true]
    congr 1
    funext z
    by_cases hz : z = y <;> simp [hz]
  other_eq := by
    intro u hu
    simp only [ballot, fameOf_recordVote, recordedVote_recordVote hy, hu, and_false, if_false]

/-- `decide_fame` on an open election. -/
theorem decideFame_spec {r : EventRecord} {status : FameStatus} (hg : g.Serves E)
    (hexact : g.UndecidedExact) (hr : g.get? w = some r) (hw : g.fameOf w = some .undecided)
    (hstatus : status ≠ .undecided) (hcover : Covers E g r.round) :
    Holds E (decideFame w status) g fun _ g' =>
      Polled g g' w ((g.ballot w).after y (.decided status)) := by
  unfold decideFame
  rw [Holds.bind_iff, Holds.modify_iff, Holds.bind_iff, Holds.get_iff]
  have hround : ((g.declare w status).get? w).elim 0 (·.round) = r.round := by
    rw [get?_declare, if_pos rfl, hr]
    rfl
  have hserves : (g.declare w status).Serves E := hg.of_skeleton_eq skeleton_declare
  have hsome : (g.fameOf w).isSome := by
    rw [hw]
    rfl
  have hballot (u : EventHash) : (g.declare w status).ballot u =
      if u = w then (g.ballot w).after y (.decided status) else g.ballot u := by
    simp only [ballot, Ballot.after, recordedVote_declare, fameOf_declare hsome]
    by_cases hu : u = w <;> simp [hu]
  show Holds E (noteRoundDecidedIfComplete (((g.declare w status).get? w).elim 0 (·.round)))
    (g.declare w status) _
  rw [hround]
  refine (noteRoundDecidedIfComplete_spec hserves fun _ => hcover).mono fun _ g' h => ?_
  have hsame : g'.unordered = (g.declare w status).unordered := by
    rcases h with ⟨-, horders, -⟩ | ⟨-, rfl⟩
    · exact horders.unordered_eq
    · rfl
  refine ⟨.of_declare hexact hr hw hstatus h, ?_, fun u hu => ?_⟩
  · rw [ballot_of_unordered_eq hsame, hballot, if_pos rfl]
  · rw [ballot_of_unordered_eq hsame, hballot, if_neg hu]

theorem roundOf_eq {r : EventRecord} (hr : g.get? w = some r) : g.roundOf w = r.round := by
  rw [roundOf, hr]
  rfl

theorem memberCountAtRound_returns {n : ℕ} (h : Covers E g n) :
    Returns E (g.memberCountAtRound n) (g.totalAt n) := by
  have hsafe := Consistent.memberCountAtRound_safe h
  unfold totalAt
  cases hcount : g.memberCountAtRound n with
  | ok total => exact .of_eq rfl
  | error e => exact .of_error rfl (hsafe e hcount)

theorem unwrapOrFalse_returns {x : Except Fault Bool}
    (h : Safe (fun f => E f ∧ ∃ p, f = .panic p) x) : Returns E (unwrapOrFalse x) (truth x) := by
  cases x with
  | ok b => exact .of_eq rfl
  | error e =>
    obtain ⟨he, p, rfl⟩ := h e rfl
    exact he

/-- Asking for a roster only panics. -/
theorem Covers.panic {n : ℕ} (h : Covers E g n) :
    Covers (fun f => E f ∧ ∃ p, f = .panic p) g n := by
  intro e he
  refine ⟨h e he, .rosterForRound, ?_⟩
  unfold rosterForRound at he
  split at he
  · cases he
  · exact (Except.error.inj he).symm

theorem stronglySee_returns {ry r : EventRecord} (hwf : g.WellFormed) (hy : g.get? y = some ry)
    (hr : g.get? w = some r) (hcover : Covers E g r.round) :
    Returns E (unwrapOrFalse (g.stronglySee y w)) (g.stronglySees y w) := by
  refine unwrapOrFalse_returns ?_
  have hround : ((g.get? w).elim 1 (·.round)) = r.round := by
    rw [hr]
    rfl
  rw [stronglySee, hround]
  exact hwf.stronglySeeAt_safe hy hr hcover.panic

theorem heard_returns {ry : EventRecord} (hwf : g.WellFormed) (hy : g.get? y = some ry)
    (hcover : Covers E g (ry.round - 1)) :
    Returns E (keepM (fun s => unwrapOrFalse (g.stronglySee y s))
      (g.witnessesOfRound (ry.round - 1))) (g.heard y) := by
  rw [heard, roundOf_eq hy]
  refine keepM_returns fun s hs => ?_
  obtain ⟨rs, hrs, hround, -⟩ := hwf.witness_sound hs
  exact stronglySee_returns hwf hy hrs (hround ▸ hcover)

/-- A voter that has voted repeats its vote. -/
theorem voteOf_recorded {fuel : ℕ} {ry r : EventRecord} {v : Bool} (hy : g.get? y = some ry)
    (hr : g.get? w = some r) (hw : g.fameOf w = some .undecided)
    (hv : g.recordedVote y w = some v) : voteOf (fuel + 1) y w g = .ok (.cast v) g := by
  have hvote : ry.votes[w]? = some v := by
    simpa [recordedVote, hy] using hv
  rw [voteOf, get_bind]
  simp [getOrUnknown, hy, hr, hw, okOr, hvote, fromExcept, bind, EStateM.bind, pure, EStateM.pure]

/-- Voters that have all voted are counted. -/
theorem tallyVotes_recorded {fuel : ℕ} {r : EventRecord} (hr : g.get? w = some r)
    (hw : g.fameOf w = some .undecided) {l : List EventHash}
    (hl : ∀ s ∈ l, (g.get? s).isSome ∧ (g.recordedVote s w).isSome) (yes no : ℕ) :
    tallyVotes (fun s => voteOf (fuel + 1) s w) l yes no g =
      .ok (.counted (yes + l.countP (g.recordedVote · w == some true))
        (no + l.countP (g.recordedVote · w == some false))) g := by
  induction l generalizing yes no with
  | nil => rfl
  | cons s l ih =>
    obtain ⟨hs, hv⟩ := hl s (by simp)
    obtain ⟨rs, hrs⟩ := Option.isSome_iff_exists.mp hs
    obtain ⟨v, hv⟩ := Option.isSome_iff_exists.mp hv
    have hrest := fun s hs => hl s (List.mem_cons_of_mem _ hs)
    unfold tallyVotes
    simp only [bind, EStateM.bind, voteOf_recorded hrs hr hw hv]
    cases v with
    | true =>
      simp only [ih hrest, List.countP_cons, hv]
      simp
      omega
    | false =>
      simp only [ih hrest, List.countP_cons, hv]
      simp
      omega

theorem Holds.of_eq_ok {α : Type} {m : HashgraphM α} {a : α} {g' : Hashgraph}
    {Q : α → Hashgraph → Prop} (hm : m g = .ok a g') (hQ : Q a g') : Holds E m g Q := by
  rw [Holds, hm]
  exact hQ

theorem castVote_spec {v : Bool} (hy : (g.get? y).isSome) (hnone : g.recordedVote y w = none) :
    Holds E (castVote y w v) g fun outcome g' =>
      outcome = .cast v ∧ Polled g g' w ((g.ballot w).after y (.cast v)) := by
  unfold castVote
  rw [Holds.bind_iff, Holds.modify_iff, Holds.pure_iff]
  exact ⟨rfl, .of_recordVote hy hnone⟩

theorem concludeVote_spec {ry r : EventRecord} (hg : g.Serves E) (hexact : g.UndecidedExact)
    (hy : g.get? y = some ry) (hr : g.get? w = some r) (hw : g.fameOf w = some .undecided)
    (hnone : g.recordedVote y w = none) (hlt : r.round < ry.round)
    (hcover : ∀ n, r.round ≤ n → Covers E g n) (yes no : ℕ) :
    Holds E (concludeVote y w ry.round r.round yes no) g fun outcome g' =>
      outcome = g.conclusion y w yes no ∧
        Polled g g' w ((g.ballot w).after y (g.conclusion y w yes no)) := by
  have hsome : (g.get? y).isSome := by
    rw [hy]
    rfl
  have hcoin : g.coinRoundVote y = .ok (g.coinOf y) := by
    simp [coinOf, coinRoundVote, hy]
  unfold concludeVote
  rw [Holds.bind_iff, Holds.get_iff, Holds.bind_iff]
  refine Holds.of_returns (memberCountAtRound_returns (hcover ry.round hlt.le)) ?_
  have hstatus : (if decide (yes ≥ no) = true then FameStatus.famous else .notFamous) ≠
      .undecided := by
    split <;> simp
  simp only [conclusion, roundOf_eq hy, roundOf_eq hr]
  -- Both sides split on the same two tests.
  generalize decide ((if decide (yes ≥ no) = true then yes else no) * 3 >
    g.totalAt ry.round * 2) = hasSupermajority
  generalize decide ((ry.round - r.round) % coinRoundFrequency = 0) = isCoinRound
  cases hasSupermajority with
  | true =>
    simp only [Bool.not_true, Bool.and_false, Bool.false_eq_true, if_false, if_true]
    rw [Holds.bind_iff]
    exact (decideFame_spec (y := y) hg hexact hr hw hstatus (hcover _ le_rfl)).mono
      fun _ _ h => ⟨rfl, h⟩
  | false =>
    cases isCoinRound with
    | true =>
      simp only [Bool.not_false, Bool.and_self, if_true]
      rw [Holds.bind_iff, hcoin, Holds.fromExcept_ok]
      exact castVote_spec hsome hnone
    | false => exact castVote_spec hsome hnone

/-- What `vote_of` answers about an open election: the recorded vote, or what the voter makes of the
votes it hears. -/
def answer (g : Hashgraph) (y w : EventHash) : VoteOutcome :=
  (g.recordedVote y w).elim (g.outcome y w (g.recordedVote · w)) .cast

/-- `vote_of`, for a voter below which all votes on the candidate are cast. -/
theorem vote_spec {ry r : EventRecord} (hg : g.Serves E) (hexact : g.UndecidedExact)
    (hy : g.get? y = some ry) (hr : g.get? w = some r) (hwit : r.isWitness = true)
    (hlt : r.round < ry.round) (hcover : ∀ n, r.round ≤ n → Covers E g n)
    (hready : r.round + 1 < ry.round → g.fameOf w = some .undecided →
      ∀ s ∈ g.heard y, (g.recordedVote s w).isSome) :
    Holds E (vote y w) g fun outcome g' => Polled g g' w ((g.ballot w).ask g w y) ∧
      (g.fameOf w = some .undecided → outcome = g.answer y w) := by
  have hfame : g.fameOf w = some r.fameStatus := by
    simp [fameOf, hr, hwit]
  have hsome : (g.get? y).isSome := by
    rw [hy]
    rfl
  obtain ⟨fuel, hfuel⟩ : ∃ fuel, ry.round = fuel + 1 := ⟨ry.round - 1, by omega⟩
  unfold vote
  rw [Holds.bind_iff, Holds.get_iff, hy, Option.elim_some, hfuel]
  unfold voteOf
  rw [Holds.bind_iff, Holds.get_iff, Holds.bind_iff, Consistent.getOrUnknown_eq hy,
    Holds.fromExcept_ok, Holds.bind_iff, Consistent.getOrUnknown_eq hr, Holds.fromExcept_ok, hfame,
    Option.getD_some, Holds.ite_iff]
  refine ⟨fun hdecided => ?_, fun hundecided => ?_⟩
  · -- The election has ended.
    have hask : (g.ballot w).ask g w y = g.ballot w := by
      simp [Ballot.ask, ballot, hfame, hdecided]
    rw [Holds.pure_iff, hask]
    exact ⟨.refl g w, fun hopen => absurd (Option.some.inj hopen) hdecided⟩
  · rw [not_not.mp hundecided] at hfame
    have hvotes : g.recordedVote y w = ry.votes[w]? := by
      simp [recordedVote, hy]
    cases hvote : ry.votes[w]? with
    | some v =>
      -- The voter has voted.
      have hask : (g.ballot w).ask g w y = g.ballot w := by
        simp [Ballot.ask, ballot, hvotes, hvote]
      rw [hask]
      refine ⟨.refl g w, fun _ => ?_⟩
      rw [answer, hvotes, hvote]
      rfl
    | none =>
      rw [hvote] at hvotes
      have hanswer : g.answer y w = g.outcome y w (g.recordedVote · w) := by
        rw [answer, hvotes]
        rfl
      have hask : (g.ballot w).ask g w y =
          (g.ballot w).after y (g.outcome y w (g.recordedVote · w)) := by
        simp only [Ballot.ask, ballot, hfame, hvotes, and_self, if_true]
      rw [hask, hanswer, outcome, roundOf_eq hy, roundOf_eq hr]
      show Holds E (if ry.round = r.round + 1 then _ else _) g _
      rw [Holds.ite_iff]
      refine ⟨fun hnext => ?_, fun hnext => ?_⟩
      · rw [if_pos hnext, Holds.bind_iff, hg.wf.see_eq hy hr, Holds.fromExcept_ok]
        exact (castVote_spec hsome hvotes).mono fun _ _ h => ⟨h.2, fun _ => h.1⟩
      · rw [if_neg hnext, if_neg (show ¬ry.round ≤ r.round + 1 by omega), Holds.bind_iff]
        refine Holds.of_returns (heard_returns hg.wf hy (hcover _ (by omega))) ?_
        have hheard : ∀ s ∈ g.heard y, (g.get? s).isSome ∧ (g.recordedVote s w).isSome := by
          intro s hs
          obtain ⟨rs, hrs, -, -⟩ := hg.wf.witness_sound (List.mem_of_mem_filter hs)
          exact ⟨by rw [hrs]; rfl, hready (by omega) hfame s hs⟩
        rw [Holds.bind_iff]
        refine Holds.of_eq_ok (tallyVotes_recorded hr hfame hheard 0 0) ?_
        simp only [Nat.zero_add]
        exact (concludeVote_spec hg hexact hy hr hfame hvotes hlt hcover _ _).mono
          fun _ _ h => ⟨h.2, fun _ => h.1⟩

/-! ## The early decision -/

theorem eagerVerdict_returns {r : EventRecord} (hr : g.get? w = some r)
    (hcover : ∀ n, r.round ≤ n → Covers E g n) :
    Returns E (g.eagerVerdict w r.round) (g.eagerOutcome w (g.recordedVote · w)) := by
  have hcast : (g.witnessesOfRound (r.round + 1)).filterMap (g.recordedVote · w) =
      g.recordedVotes w (g.witnessesOfRound (r.round + 1)) := rfl
  simp only [eagerVerdict, eagerOutcome, roundOf_eq hr, hcast]
  by_cases hhigh : g.highestWitnessRound < r.round + 2
  · exact .of_eq (by simp [hhigh])
  by_cases hvoters : g.witnessesOfRound (r.round + 1) = []
  · exact .of_eq (by simp [hvoters])
  rw [if_neg hhigh, if_neg (by simpa using hvoters)]
  refine (memberCountAtRound_returns (hcover _ (by omega))).bind
    ((memberCountAtRound_returns (hcover _ (by omega))).bind (.of_eq ?_))
  simp only [hhigh, hvoters, false_or]
  split_ifs <;> first | rfl | omega

/-- `try_eager_decide`. -/
theorem tryEagerDecide_spec {r : EventRecord} (hg : g.Serves E) (hexact : g.UndecidedExact)
    (hr : g.get? w = some r) (hwit : r.isWitness = true)
    (hcover : ∀ n, r.round ≤ n → Covers E g n) :
    Holds E (tryEagerDecide w) g fun verdict g' => Polled g g' w ((g.ballot w).eager g w) ∧
      (g.fameOf w = some .undecided → verdict = g.eagerOutcome w (g.recordedVote · w)) := by
  have hfame : g.fameOf w = some r.fameStatus := by
    simp [fameOf, hr, hwit]
  unfold tryEagerDecide
  rw [Holds.bind_iff, Holds.get_iff, Holds.ite_iff]
  refine ⟨fun hdecided => ?_, fun hundecided => ?_⟩
  · have hne : r.fameStatus ≠ .undecided := by
      simpa [hasDecidedFame, hfame] using hdecided
    have heager : (g.ballot w).eager g w = g.ballot w := by
      simp [Ballot.eager, ballot, hfame, hne]
    rw [heager]
    exact ⟨.refl g w, fun hopen => absurd (Option.some.inj (hfame.symm.trans hopen)) hne⟩
  · have heq : r.fameStatus = .undecided := by
      simpa [hasDecidedFame, hfame] using hundecided
    rw [heq] at hfame
    rw [hr]
    dsimp only
    rw [Holds.bind_iff]
    refine Holds.of_returns (eagerVerdict_returns hr hcover) ?_
    have heager : (g.ballot w).eager g w = (g.eagerOutcome w (g.recordedVote · w)).elim
        (g.ballot w) fun status => { g.ballot w with fame := some status } := by
      simp only [Ballot.eager, ballot, hfame, if_true]
    rw [heager]
    cases hverdict : g.eagerOutcome w (g.recordedVote · w) with
    | none => exact ⟨.refl g w, fun _ => rfl⟩
    | some status =>
      have hstatus : status ≠ .undecided := by
        rintro rfl
        simp only [eagerOutcome] at hverdict
        split_ifs at hverdict
        all_goals cases hverdict
      simp only
      rw [Holds.bind_iff]
      exact (decideFame_spec (y := w) hg hexact hr hfame hstatus (hcover _ le_rfl)).mono
        fun _ _ hpolled => ⟨hpolled, fun _ => rfl⟩

end Vote

/-! ## The voting of a new witness -/

/-- A graph in which elections of rounds from `low` on can be held, up to the faults of `E`. -/
structure Booth (E : Fault → Prop) (low : ℕ) (g : Hashgraph) : Prop where
  serves : g.Serves E
  exact : g.UndecidedExact
  covers : ∀ n, low ≤ n → Covers E g n

section Loops

variable {E : Fault → Prop} {low : ℕ} {g g' : Hashgraph} {y w : EventHash}

theorem Covers.of_skeleton_eq {n : ℕ} (h : g'.skeleton = g.skeleton) (hn : Covers E g n) :
    Covers E g' n := by
  have hroster : g'.rosterForRound n = g.rosterForRound n := by
    have hhistory : g'.rosterHistory = g.rosterHistory := (congrArg rosterHistory h :)
    rw [rosterForRound, hhistory, rosterForRound]
  rw [Covers, hroster]
  exact hn

theorem Booth.advance (hb : Booth E low g) (h : Advances g g') : Booth E low g' where
  serves := hb.serves.of_skeleton_eq h.skeleton_eq
  exact := h.undecided_exact hb.exact
  covers := fun n hn => (hb.covers n hn).of_skeleton_eq h.skeleton_eq

/-- The voter can vote on the candidate: the rounds fit, and below the voter all votes are cast. -/
structure CanVote (low : ℕ) (g : Hashgraph) (y w : EventHash) : Prop where
  voter : (g.get? y).isSome
  candidate : ∃ r, g.get? w = some r ∧ r.isWitness = true
  low_le : low ≤ g.roundOf w
  round_lt : g.roundOf w < g.roundOf y
  ready : g.roundOf w + 1 < g.roundOf y → g.fameOf w = some .undecided →
    ∀ s ∈ g.heard y, (g.recordedVote s w).isSome

theorem CanVote.vote_answers (hb : Booth E low g) (h : CanVote low g y w) :
    Holds E (vote y w) g fun outcome g' => Polled g g' w ((g.ballot w).ask g w y) ∧
      (g.fameOf w = some .undecided → outcome = g.answer y w) := by
  obtain ⟨ry, hy⟩ := Option.isSome_iff_exists.mp h.voter
  obtain ⟨r, hr, hwit⟩ := h.candidate
  have hlow := h.low_le
  have hlt := h.round_lt
  have hready := h.ready
  rw [roundOf_eq hr] at hlow hlt hready
  rw [roundOf_eq hy] at hlt hready
  exact Hashgraph.vote_spec hb.serves hb.exact hy hr hwit hlt
    (fun n hn => hb.covers n (hlow.trans hn)) hready

theorem CanVote.vote_spec (hb : Booth E low g) (h : CanVote low g y w) :
    Holds E (vote y w) g fun _ g' => Polled g g' w ((g.ballot w).ask g w y) :=
  (h.vote_answers hb).mono fun _ _ h => h.1

/-- An early decision, in a later state of the elections. -/
theorem eager_answers (hb : Booth E low g) (hw : ∃ r, g.get? w = some r ∧ r.isWitness = true)
    (hlow : low ≤ g.roundOf w) :
    Holds E (tryEagerDecide w) g fun verdict g' => Polled g g' w ((g.ballot w).eager g w) ∧
      (g.fameOf w = some .undecided → verdict = g.eagerOutcome w (g.recordedVote · w)) := by
  obtain ⟨r, hr, hwit⟩ := hw
  rw [roundOf_eq hr] at hlow
  exact tryEagerDecide_spec hb.serves hb.exact hr hwit fun n hn => hb.covers n (hlow.trans hn)

theorem eager_spec (hb : Booth E low g) (hw : ∃ r, g.get? w = some r ∧ r.isWitness = true)
    (hlow : low ≤ g.roundOf w) :
    Holds E (tryEagerDecide w) g fun _ g' => Polled g g' w ((g.ballot w).eager g w) :=
  (eager_answers hb hw hlow).mono fun _ _ h => h.1

theorem isWitness_of_skeleton_eq (h : g'.skeleton = g.skeleton)
    (hw : ∃ r, g.get? w = some r ∧ r.isWitness = true) :
    ∃ r, g'.get? w = some r ∧ r.isWitness = true := by
  obtain ⟨r, hr, hwit⟩ := hw
  obtain ⟨r', hr', hbare⟩ := get?_of_skeleton_eq h.symm hr
  exact ⟨r', hr', ((congrArg EventRecord.isWitness hbare :) : r'.isWitness = r.isWitness).trans hwit⟩

theorem voteOnCandidate_spec (hb : Booth E low g) (h : CanVote low g y w) :
    Holds E (voteOnCandidate y w) g fun _ g' =>
      Polled g g' w (((g.ballot w).ask g w y).eager g w) := by
  unfold voteOnCandidate
  rw [Holds.bind_iff]
  refine (h.vote_spec hb).mono fun _ g₁ h₁ => ?_
  have hskel := h₁.votes.skeleton_eq
  have hlow : low ≤ g₁.roundOf w := by
    rw [roundOf_of_skeleton_eq hskel]
    exact h.low_le
  rw [Holds.bind_iff]
  refine (eager_spec (hb.advance h₁.votes.toAdvances)
    (isWitness_of_skeleton_eq hskel h.candidate) hlow).mono fun _ g₂ h₂ => ?_
  rw [h₁.ballot_eq, eager_of_skeleton_eq hskel] at h₂
  exact h₁.trans h₂

/-- The candidate loop, with the candidates of `rest` still to come. -/
structure Voting (g : Hashgraph) (y : EventHash) (l rest : List EventHash) (t : Hashgraph) :
    Prop where
  votes : Votes g t
  nodup : rest.Nodup
  subset : rest ⊆ l
  ballot_eq : ∀ w, t.ballot w =
    if w ∈ l ∧ w ∉ rest then ((g.ballot w).ask g w y).eager g w else g.ballot w

theorem CanVote.of_voting {l rest : List EventHash} {t : Hashgraph} (h : CanVote low g y w)
    (ht : Voting g y l rest t) (hw : w ∈ rest) : CanVote low t y w := by
  have hskel := ht.votes.skeleton_eq
  have hballot : t.ballot w = g.ballot w := by
    rw [ht.ballot_eq, if_neg (by simp [hw])]
  have hround := roundOf_of_skeleton_eq hskel
  refine ⟨?_, isWitness_of_skeleton_eq hskel h.candidate, ?_, ?_, ?_⟩
  · rw [isSome_get?_of_skeleton_eq hskel]
    exact h.voter
  · rw [hround]
    exact h.low_le
  · rw [hround, hround]
    exact h.round_lt
  · intro hlt hfame s hs
    rw [hround, hround] at hlt
    rw [heard_of_skeleton_eq hskel] at hs
    have hvote : t.recordedVote s w = g.recordedVote s w := congrFun (congrArg Ballot.votes hballot) s
    have hfame' : t.fameOf w = g.fameOf w := congrArg Ballot.fame hballot
    rw [hvote]
    exact h.ready hlt (hfame' ▸ hfame) s hs

theorem candidates_spec (hb : Booth E low g) {l : List EventHash} (hl : l.Nodup)
    (hvote : ∀ w ∈ l, CanVote low g y w) :
    Holds E (l.forM (voteOnCandidate y)) g fun _ g' => Voting g y l [] g' := by
  refine Holds.forM_list_rest (I := Voting g y l) (fun w rest t ht => ?_)
    ⟨.refl g, hl, List.Subset.refl l, fun w => by simp⟩
  have hskel := ht.votes.skeleton_eq
  have hw : w ∈ l := ht.subset (by simp)
  obtain ⟨hfresh, hnodup⟩ := List.nodup_cons.mp ht.nodup
  have hcan : CanVote low t y w := (hvote w hw).of_voting ht (by simp)
  refine (voteOnCandidate_spec (hb.advance ht.votes.toAdvances) hcan).mono fun _ t' h => ?_
  refine ⟨ht.votes.trans h.votes, hnodup, fun u hu => ht.subset (by simp [hu]), fun u => ?_⟩
  by_cases huw : u = w
  · subst huw
    rw [h.ballot_eq, ht.ballot_eq, ask_of_skeleton_eq hskel, eager_of_skeleton_eq hskel,
      if_neg (by simp), if_pos ⟨hw, hfresh⟩]
  · rw [h.other_eq u huw, ht.ballot_eq]
    simp [huw]

/-- While the election of `w` is open, all witnesses between its round and `n` have voted on it. -/
def VotedBelow (g : Hashgraph) (w : EventHash) (n : ℕ) : Prop :=
  g.fameOf w = some .undecided → ∀ m, g.roundOf w < m → m < n →
    ∀ s ∈ g.witnessesOfRound m, (g.recordedVote s w).isSome

theorem fameOf_undecided_of_advances (h : Advances g g')
    (hw : ∃ r, g.get? w = some r ∧ r.isWitness = true) (hfame : g'.fameOf w = some .undecided) :
    g.fameOf w = some .undecided := by
  obtain ⟨r, hr, hwit⟩ := hw
  have hold : g.fameOf w = some r.fameStatus := by
    simp [fameOf, hr, hwit]
  by_contra hne
  have hdecided : r.fameStatus ≠ .undecided := fun heq => hne (heq ▸ hold)
  rw [h.fame_kept hold hdecided] at hfame
  exact hdecided (Option.some.inj hfame)

theorem VotedBelow.advance {n : ℕ} (hvoted : g.VotedBelow w n) (h : Advances g g')
    (hw : ∃ r, g.get? w = some r ∧ r.isWitness = true) : g'.VotedBelow w n := by
  intro hfame m hm hmn s hs
  rw [roundOf_of_skeleton_eq h.skeleton_eq] at hm
  rw [witnessesOfRound_of_skeleton_eq h.skeleton_eq] at hs
  obtain ⟨v, hv⟩ := Option.isSome_iff_exists.mp
    (hvoted (fameOf_undecided_of_advances h hw hfame) m hm hmn s hs)
  rw [h.vote_kept hv]
  rfl

/-- The late voters of one round. -/
theorem backfillVoters_spec {n : ℕ} (hb : Booth E low g)
    (hw : ∃ r, g.get? w = some r ∧ r.isWitness = true) (hlow : low ≤ g.roundOf w)
    (hn : g.roundOf w < n) (hvoted : g.VotedBelow w n) {l : List EventHash}
    (hl : l ⊆ g.witnessesOfRound n) :
    Holds E (l.forM fun voter => do let _ ← vote voter w) g fun _ g' =>
      Polled g g' w (l.foldl (Ballot.ask g w) (g.ballot w)) := by
  induction l generalizing g with
  | nil => exact .refl g w
  | cons y l ih =>
    obtain ⟨ry, hy, hround, -⟩ := hb.serves.wf.witness_sound (hl List.mem_cons_self)
    have hcan : CanVote low g y w := by
      refine ⟨by rw [hy]; rfl, hw, hlow, by rw [roundOf_eq hy, hround]; exact hn, ?_⟩
      intro hlt hfame s hs
      rw [roundOf_eq hy, hround] at hlt
      have hs' := List.mem_of_mem_filter hs
      rw [roundOf_eq hy, hround] at hs'
      exact hvoted hfame (n - 1) (by omega) (by omega) s hs'
    rw [List.forM_eq_forM, List.forM_cons, Holds.bind_iff, Holds.bind_iff]
    refine (hcan.vote_spec hb).mono fun _ g₁ h₁ => ?_
    have hskel := h₁.votes.skeleton_eq
    refine (ih (hb.advance h₁.votes.toAdvances) (isWitness_of_skeleton_eq hskel hw) ?_ ?_
      (hvoted.advance h₁.votes.toAdvances hw) ?_).mono fun _ g₂ h₂ => ?_
    · rw [roundOf_of_skeleton_eq hskel]
      exact hlow
    · rw [roundOf_of_skeleton_eq hskel]
      exact hn
    · rw [witnessesOfRound_of_skeleton_eq hskel]
      exact fun u hu => hl (by simp [hu])
    · rw [h₁.ballot_eq, ask_of_skeleton_eq hskel] at h₂
      exact h₁.trans h₂

theorem votedBelow_succ {n : ℕ} {b : Ballot} (hvoted : g.VotedBelow w n) (h : Polled g g' w b)
    (hw : ∃ r, g.get? w = some r ∧ r.isWitness = true)
    (hround : b.fame = some .undecided → ∀ s ∈ g.witnessesOfRound n, (b.votes s).isSome) :
    g'.VotedBelow w (n + 1) := by
  intro hfame m hm hmn s hs
  have hb : b.fame = some .undecided := by
    rw [← h.ballot_eq]
    exact hfame
  by_cases hmn' : m = n
  · subst hmn'
    rw [witnessesOfRound_of_skeleton_eq h.votes.skeleton_eq] at hs
    have hvote := hround hb s hs
    rw [← h.ballot_eq] at hvote
    exact hvote
  · exact hvoted.advance h.votes.toAdvances hw hfame m hm (by omega) s hs

theorem hasDecidedFame_iff (hw : ∃ r, g.get? w = some r ∧ r.isWitness = true) :
    g.hasDecidedFame w = true ↔ g.fameOf w ≠ some .undecided := by
  obtain ⟨r, hr, hwit⟩ := hw
  simp [hasDecidedFame, fameOf, hr, hwit]

/-- The backfill loop. -/
theorem backfill_spec {n k : ℕ} (hb : Booth E low g)
    (hw : ∃ r, g.get? w = some r ∧ r.isWitness = true) (hlow : low ≤ g.roundOf w)
    (hn : g.roundOf w < n) (hvoted : g.VotedBelow w n) :
    Holds E (backfill w (List.range' n k)) g fun _ g' =>
      Polled g g' w ((List.range' n k).foldl (Ballot.backfillRound g w) (g.ballot w)) ∧
        g'.VotedBelow w (n + k) := by
  induction k generalizing g n with
  | zero => exact ⟨.refl g w, hvoted⟩
  | succ k ih =>
    rw [List.range'_succ]
    unfold backfill
    rw [Holds.bind_iff, Holds.get_iff, Holds.ite_iff]
    refine ⟨fun hdecided => ?_, fun hundecided => ?_⟩
    · have hne := (hasDecidedFame_iff hw).mp hdecided
      have hsame : ((n :: List.range' (n + 1) k).foldl (Ballot.backfillRound g w) (g.ballot w)) =
          g.ballot w := (Ballot.foldl_backfillRound_grows _ _).fame_kept hne
      rw [Holds.pure_iff, hsame]
      exact ⟨.refl g w, fun hfame => absurd hfame hne⟩
    · rw [Holds.bind_iff]
      refine (backfillVoters_spec hb hw hlow hn hvoted (List.Subset.refl _)).mono fun _ g₁ h₁ => ?_
      have hskel := h₁.votes.skeleton_eq
      have hw₁ := isWitness_of_skeleton_eq hskel hw
      have hb₁ := hb.advance h₁.votes.toAdvances
      have hlow₁ : low ≤ g₁.roundOf w := by
        rw [roundOf_of_skeleton_eq hskel]
        exact hlow
      -- What is left to do once the round has voted and the early decision was tried.
      have hrest (g₂ : Hashgraph) (h₂ : Polled g g₂ w ((g.ballot w).backfillRound g w n)) :
          Holds E (backfill w (List.range' (n + 1) k)) g₂ fun _ g' =>
            Polled g g' w ((n :: List.range' (n + 1) k).foldl (Ballot.backfillRound g w)
              (g.ballot w)) ∧ g'.VotedBelow w (n + (k + 1)) := by
        have hskel₂ := h₂.votes.skeleton_eq
        have hvoted₂ : g₂.VotedBelow w (n + 1) := votedBelow_succ hvoted h₂ hw
          fun hfame s hs => Ballot.votes_backfillRound_isSome hfame hs
        refine (ih (hb.advance h₂.votes.toAdvances) (isWitness_of_skeleton_eq hskel₂ hw) ?_ ?_
          hvoted₂).mono fun _ g₃ h₃ => ?_
        · rw [roundOf_of_skeleton_eq hskel₂]
          exact hlow
        · rw [roundOf_of_skeleton_eq hskel₂]
          omega
        · have hround : Ballot.backfillRound g₂ w = Ballot.backfillRound g w := by
            funext b m
            rw [Ballot.backfillRound, Ballot.backfillRound, ask_of_skeleton_eq hskel₂,
              eager_of_skeleton_eq hskel₂, witnessesOfRound_of_skeleton_eq hskel₂]
          rw [h₂.ballot_eq, hround] at h₃
          refine ⟨h₂.trans h₃.1, ?_⟩
          rw [show n + (k + 1) = n + 1 + k by omega]
          exact h₃.2
      rw [Holds.bind_iff, Holds.get_iff, Holds.ite_iff]
      refine ⟨fun hfame => ?_, fun hfame => ?_⟩
      · rw [Holds.bind_iff]
        refine (eager_spec hb₁ hw₁ hlow₁).mono fun _ g₂ h₂ => ?_
        rw [h₁.ballot_eq, eager_of_skeleton_eq hskel] at h₂
        have h₂' : Polled g g₂ w ((g.ballot w).backfillRound g w n) := h₁.trans h₂
        rw [Holds.bind_iff, Holds.get_iff, Holds.ite_iff]
        refine ⟨fun hdecided => ?_, fun _ => hrest g₂ h₂'⟩
        have hne := (hasDecidedFame_iff (isWitness_of_skeleton_eq h₂'.votes.skeleton_eq hw)).mp
          hdecided
        have hsame : ((n :: List.range' (n + 1) k).foldl (Ballot.backfillRound g w)
            (g.ballot w)) = (g.ballot w).backfillRound g w n := by
          rw [List.foldl_cons]
          refine (Ballot.foldl_backfillRound_grows _ _).fame_kept ?_
          rw [← h₂'.ballot_eq]
          exact hne
        rw [Holds.pure_iff, hsame]
        exact ⟨h₂', fun hfame => absurd hfame hne⟩
      · have hsame : (g.ballot w).backfillRound g w n =
            (g.witnessesOfRound n).foldl (Ballot.ask g w) (g.ballot w) := by
          refine (Ballot.eager_grows _ g w).fame_kept ?_
          rw [← h₁.ballot_eq]
          exact hfame
        exact hrest g₁ (hsame ▸ h₁)

/-- All witnesses above an undecided candidate have voted on it, `except` apart. -/
def VotesCast (g : Hashgraph) (except : EventHash → Prop) : Prop :=
  ∀ w s, g.fameOf w = some .undecided → s ∈ g.witnessesOfRound (g.roundOf s) →
    g.roundOf w < g.roundOf s → ¬except w → ¬except s → (g.recordedVote s w).isSome

theorem mem_candidates {iter : IterOrder} {n : ℕ} (hexact : g.UndecidedExact) :
    w ∈ g.candidates iter n ↔ g.fameOf w = some .undecided ∧ g.roundOf w < n := by
  unfold candidates
  rw [(iter.perm _).mem_iff]
  simp only [List.mem_map, List.mem_filter, Prod.exists, exists_and_right, exists_eq_right,
    ExtTreeMap.mem_toList_iff_getElem?_eq_some, decide_eq_true_eq]
  constructor
  · rintro ⟨m, hm, hlt⟩
    obtain ⟨hfame, r, hr, rfl⟩ := (hexact w m).mp hm
    exact ⟨hfame, by rw [roundOf_eq hr]; exact hlt⟩
  · rintro ⟨hfame, hlt⟩
    cases hr : g.get? w with
    | none => simp [fameOf, hr] at hfame
    | some r =>
      rw [roundOf_eq hr] at hlt
      exact ⟨r.round, (hexact w r.round).mpr ⟨hfame, r, hr, rfl⟩, hlt⟩

theorem nodup_candidates (g : Hashgraph) (iter : IterOrder) (n : ℕ) :
    (g.candidates iter n).Nodup := by
  have hkeys : (g.undecidedWitnesses.toList.map Prod.fst).Nodup := by
    rw [ExtTreeMap.map_fst_toList_eq_keys]
    exact ExtTreeMap.nodup_keys
  exact (iter.perm _).nodup_iff.mpr (hkeys.sublist (List.filter_sublist.map Prod.fst))

theorem exists_witness_of_fameOf {status : FameStatus} (h : g.fameOf w = some status) :
    ∃ r, g.get? w = some r ∧ r.isWitness = true := by
  unfold fameOf at h
  cases hr : g.get? w with
  | none => simp [hr] at h
  | some r =>
    refine ⟨r, rfl, ?_⟩
    by_contra hwit
    simp [hr, hwit] at h

/-- The new witness can vote on every candidate. -/
theorem canVote_candidate {iter : IterOrder} (hb : Booth E low g)
    (hlow : ∀ w, g.fameOf w = some .undecided → low ≤ g.roundOf w)
    (hy : g.fameOf y = some .undecided) (hcast : g.VotesCast (· = y))
    (hw : w ∈ g.candidates iter (g.roundOf y)) : CanVote low g y w := by
  obtain ⟨ry, hry, -⟩ := exists_witness_of_fameOf hy
  obtain ⟨hfame, hlt⟩ := (mem_candidates hb.exact).mp hw
  refine ⟨by rw [hry]; rfl, exists_witness_of_fameOf hfame, hlow w hfame, hlt,
    fun hlt' _ s hs => ?_⟩
  -- A heard witness is of the round below, so it is not the new one and has voted.
  obtain ⟨rs, hrs, hsround, -⟩ := hb.serves.wf.witness_sound (List.mem_of_mem_filter hs)
  have hsround' : g.roundOf s = g.roundOf y - 1 := by rw [roundOf_eq hrs, hsround]
  refine hcast w s hfame (hsround' ▸ List.mem_of_mem_filter hs) (by omega) ?_ ?_
  · rintro rfl
    omega
  · rintro rfl
    omega

/-- `vote_as_witness`: every ballot becomes what `polled` says, whatever the order of the
candidates. -/
theorem voteAsWitness_spec {iter : IterOrder} (hb : Booth E low g)
    (hlow : ∀ w, g.fameOf w = some .undecided → low ≤ g.roundOf w)
    (hy : g.fameOf y = some .undecided) (hcast : g.VotesCast (· = y)) :
    Holds E (voteAsWitness iter y) g fun _ g' =>
      Votes g g' ∧ ∀ w, g'.ballot w = g.polled y w := by
  obtain ⟨ry, hry, hwit⟩ := exists_witness_of_fameOf hy
  have hyround := roundOf_eq hry
  have hwit' : ∃ r, g.get? y = some r ∧ r.isWitness = true := ⟨ry, hry, hwit⟩
  have hcan : ∀ w ∈ g.candidates iter ry.round, CanVote low g y w := by
    intro w hw
    rw [← hyround] at hw
    exact canVote_candidate hb hlow hy hcast hw
  unfold voteAsWitness
  rw [Holds.bind_iff, Holds.get_iff, hry]
  show Holds E (do
    (g.candidates iter ry.round).forM (voteOnCandidate y)
    let g ← get
    Hashgraph.backfill y (List.range' (ry.round + 1) (g.highestWitnessRound - ry.round))
    let g ← get
    if g.fameOf y = some .undecided then do
      let _ ← tryEagerDecide y
    else return) g _
  rw [Holds.bind_iff]
  refine (candidates_spec hb (g.nodup_candidates iter _) hcan).mono fun _ g₁ h₁ => ?_
  have hskel₁ := h₁.votes.skeleton_eq
  have hround₁ : g₁.roundOf y = ry.round := by rw [roundOf_of_skeleton_eq hskel₁, hyround]
  have hballot₁ : g₁.ballot y = g.ballot y := by
    rw [h₁.ballot_eq, if_neg]
    rintro ⟨hmem, -⟩
    have := ((mem_candidates hb.exact).mp hmem).2
    omega
  rw [Holds.bind_iff, Holds.get_iff, Holds.bind_iff]
  refine (backfill_spec (hb.advance h₁.votes.toAdvances) (isWitness_of_skeleton_eq hskel₁ hwit')
    (by rw [roundOf_of_skeleton_eq hskel₁]; exact hlow y hy) (by omega)
    (fun _ m hm hm' => absurd hm' (by omega))).mono fun _ g₂ h₂ => ?_
  have hskel₂ := h₂.1.votes.skeleton_eq.trans hskel₁
  have hbackfill : g₂.ballot y = (List.range' (g.roundOf y + 1)
      (g.highestWitnessRound - g.roundOf y)).foldl (Ballot.backfillRound g y) (g.ballot y) := by
    have hround : Ballot.backfillRound g₁ y = Ballot.backfillRound g y := by
      funext b m
      rw [Ballot.backfillRound, Ballot.backfillRound, ask_of_skeleton_eq hskel₁,
        eager_of_skeleton_eq hskel₁, witnessesOfRound_of_skeleton_eq hskel₁]
    rw [h₂.1.ballot_eq, hround, hballot₁, highestWitnessRound_of_skeleton_eq hskel₁, hyround]
  -- The other ballots are those after the candidate loop.
  have hend (g₃ : Hashgraph) (h₃ : Polled g₂ g₃ y ((g₂.ballot y).eager g y)) :
      Votes g g₃ ∧ ∀ w, g₃.ballot w = g.polled y w := by
    refine ⟨(h₁.votes.trans h₂.1.votes).trans h₃.votes, fun w => ?_⟩
    unfold polled
    by_cases hwy : w = y
    · subst hwy
      rw [if_pos rfl, h₃.ballot_eq, hbackfill, Ballot.backfill]
    · rw [if_neg hwy, h₃.other_eq w hwy, h₂.1.other_eq w hwy, h₁.ballot_eq, hyround]
      simp only [mem_candidates hb.exact, List.not_mem_nil, not_false_eq_true, and_true]
  rw [Holds.bind_iff, Holds.get_iff, Holds.ite_iff]
  refine ⟨fun _ => ?_, fun hdecided => ?_⟩
  · rw [Holds.bind_iff]
    refine (eager_spec ((hb.advance h₁.votes.toAdvances).advance h₂.1.votes.toAdvances)
      (isWitness_of_skeleton_eq hskel₂ hwit')
      (by rw [roundOf_of_skeleton_eq hskel₂]; exact hlow y hy)).mono fun _ g₃ h₃ => ?_
    rw [eager_of_skeleton_eq hskel₂] at h₃
    exact hend g₃ h₃
  · have hsame : (g₂.ballot y).eager g y = g₂.ballot y :=
      (Ballot.eager_grows _ g y).fame_kept hdecided
    exact hend g₂ (hsame.symm ▸ Polled.refl g₂ y)

/-- After its insertion has voted, a new witness is as any other. -/
theorem votesCast_of_polled (hwf : g.WellFormed) (hskel : g'.skeleton = g.skeleton)
    (hballot : ∀ w, g'.ballot w = g.polled y w) (hy : g.fameOf y = some .undecided)
    (hcast : g.VotesCast (· = y)) : g'.VotesCast fun _ => False := by
  intro w s hfame hs hlt _ _
  rw [roundOf_of_skeleton_eq hskel, witnessesOfRound_of_skeleton_eq hskel] at hs
  rw [roundOf_of_skeleton_eq hskel, roundOf_of_skeleton_eq hskel] at hlt
  have hvotes : g'.recordedVote s w = (g.polled y w).votes s :=
    congrFun (congrArg Ballot.votes (hballot w)) s
  have hfame' : (g.polled y w).fame = some .undecided := by
    rw [← hballot w]
    exact hfame
  rw [hvotes]
  unfold polled at hfame' ⊢
  by_cases hwy : w = y
  · -- The new witness as a candidate: the backfill has asked `s`.
    subst hwy
    rw [if_pos rfl] at hfame' ⊢
    obtain ⟨rs, hrs, -, hwit⟩ := hwf.witness_sound hs
    have hhigh : g.roundOf s ≤ g.highestWitnessRound := by
      rw [roundOf_eq hrs]
      exact hwf.witness_le hrs hwit
    have hgrows := Ballot.eager_grows ((List.range' (g.roundOf w + 1)
      (g.highestWitnessRound - g.roundOf w)).foldl (Ballot.backfillRound g w) (g.ballot w)) g w
    obtain ⟨v, hv⟩ := Option.isSome_iff_exists.mp (Ballot.votes_foldl_backfillRound_isSome
      (hgrows.undecided hfame') (n := g.roundOf s) (by simp; omega) hs)
    rw [Ballot.backfill, hgrows.votes_kept hv]
    rfl
  · rw [if_neg hwy] at hfame' ⊢
    by_cases hcandidate : g.fameOf w = some .undecided ∧ g.roundOf w < g.roundOf y
    · rw [if_pos hcandidate] at hfame' ⊢
      have hgrows := Ballot.eager_grows ((g.ballot w).ask g w y) g w
      by_cases hsy : s = y
      · subst hsy
        obtain ⟨v, hv⟩ := Option.isSome_iff_exists.mp
          (Ballot.votes_ask_isSome (hgrows.undecided hfame'))
        rw [hgrows.votes_kept hv]
        rfl
      · obtain ⟨v, hv⟩ := Option.isSome_iff_exists.mp (hcast w s hcandidate.1 hs hlt hwy hsy)
        rw [hgrows.votes_kept ((Ballot.ask_grows (g.ballot w) g w y).votes_kept hv)]
        rfl
    · rw [if_neg hcandidate] at hfame' ⊢
      by_cases hsy : s = y
      · subst hsy
        exact absurd ⟨hfame', hlt⟩ hcandidate
      · exact hcast w s hfame' hs hlt hwy hsy

end Loops

end Hashgraph

end JKain
