import JKain.Consensus.Advances

/-!
# Ballots

The election of a candidate is a function of the skeleton and of the candidate's own ballot: the
votes cast on it and its fame. `Ballot.ask` lets one voter vote, `Ballot.eager` tries the tally of
the next round, and `polled` is what the ballots become when a witness is inserted.
-/

namespace JKain

open Std JKain.Lib

/-- The votes on a candidate and its fame. -/
structure Ballot where
  votes : EventHash → Option Bool
  fame : Option FameStatus

namespace Hashgraph

/-- The round of a stored event, 0 for an absent one. -/
def roundOf (g : Hashgraph) (x : EventHash) : ℕ := (g.get? x).elim 0 (·.round)

/-- `member_count_at_round`, without its faults. -/
def totalAt (g : Hashgraph) (n : ℕ) : ℕ := (g.memberCountAtRound n).toOption.getD 0

/-- `strongly_see`, without its faults. -/
def stronglySees (g : Hashgraph) (x y : EventHash) : Bool := truth (g.stronglySee x y)

/-- The witnesses of the round before `y`'s that `y` strongly sees. -/
def heard (g : Hashgraph) (y : EventHash) : List EventHash :=
  (g.witnessesOfRound (g.roundOf y - 1)).filter (g.stronglySees y)

/-- `coin_round_vote`, without its faults. -/
def coinOf (g : Hashgraph) (y : EventHash) : Bool := truth (g.coinRoundVote y)

/-- The ballot of a candidate. -/
def ballot (g : Hashgraph) (w : EventHash) : Ballot where
  votes := fun y => g.recordedVote y w
  fame := g.fameOf w

/-- What `y` makes of `yes` and `no` votes on `w`. -/
def conclusion (g : Hashgraph) (y w : EventHash) (yes no : ℕ) : VoteOutcome :=
  let v := decide (yes ≥ no)
  let stake := if v then yes else no
  let isCoinRound := decide ((g.roundOf y - g.roundOf w) % coinRoundFrequency = 0)
  let hasSupermajority := decide (stake * 3 > g.totalAt (g.roundOf y) * 2)
  if isCoinRound && !hasSupermajority then .cast (g.coinOf y)
  else if hasSupermajority then .decided (if v then .famous else .notFamous)
  else .cast v

/-- What `y` makes of the votes it hears on `w`. -/
def outcome (g : Hashgraph) (y w : EventHash) (votes : EventHash → Option Bool) : VoteOutcome :=
  if g.roundOf y = g.roundOf w + 1 then .cast (g.sees y w)
  else g.conclusion y w ((g.heard y).countP (votes · == some true))
    ((g.heard y).countP (votes · == some false))

/-- The verdict of the complete tally of the next round, if there is one. -/
def eagerOutcome (g : Hashgraph) (w : EventHash) (votes : EventHash → Option Bool) :
    Option FameStatus :=
  let voters := g.witnessesOfRound (g.roundOf w + 1)
  let total := g.totalAt (g.roundOf w + 2)
  let cast := voters.filterMap votes
  if g.highestWitnessRound < g.roundOf w + 2 ∨ voters = [] ∨
      g.totalAt (g.roundOf w + 1) ≠ total ∨ voters.length * 3 ≤ total * 2 ∨
      cast.length * 3 ≤ total * 2 ∨ cast.length ≠ voters.length then none
  else if cast.count true * 3 > total * 2 then some .famous
  else if cast.count false * 3 > total * 2 then some .notFamous
  else none

end Hashgraph

namespace Ballot

open Hashgraph

/-- The ballot after `y` has voted or ended the election. -/
def after (b : Ballot) (y : EventHash) : VoteOutcome → Ballot
  | .cast v => { b with votes := Function.update b.votes y (some v) }
  | .decided status => { b with fame := some status }

/-- The voter `y` is asked about `w`: it votes or ends the election, unless it has voted or the
election has ended. -/
def ask (g : Hashgraph) (w : EventHash) (b : Ballot) (y : EventHash) : Ballot :=
  if b.fame = some .undecided ∧ b.votes y = none then b.after y (g.outcome y w b.votes) else b

/-- The election is ended early, if it can be. -/
def eager (g : Hashgraph) (w : EventHash) (b : Ballot) : Ballot :=
  if b.fame = some .undecided then
    (g.eagerOutcome w b.votes).elim b fun status => { b with fame := some status }
  else b

/-- A round of late voters. -/
def backfillRound (g : Hashgraph) (w : EventHash) (b : Ballot) (n : ℕ) : Ballot :=
  ((g.witnessesOfRound n).foldl (ask g w) b).eager g w

/-- The witnesses above `w` vote on it, round by round. -/
def backfill (g : Hashgraph) (w : EventHash) (b : Ballot) : Ballot :=
  ((List.range' (g.roundOf w + 1) (g.highestWitnessRound - g.roundOf w)).foldl
    (backfillRound g w) b).eager g w

end Ballot

namespace Hashgraph

/-- The ballot of `w` after the witness `y` has voted on the candidates below it and the witnesses
above it on `y`. -/
def polled (g : Hashgraph) (y w : EventHash) : Ballot :=
  if w = y then (g.ballot y).backfill g y
  else if g.fameOf w = some .undecided ∧ g.roundOf w < g.roundOf y then
    ((g.ballot w).ask g w y).eager g w
  else g.ballot w

/-! ## The elections read the skeleton -/

section Skeleton

variable (g : Hashgraph)

@[simp] theorem roundOf_skeleton (x : EventHash) : g.skeleton.roundOf x = g.roundOf x := by
  unfold roundOf
  rw [get?_skeleton]
  cases g.get? x <;> rfl

@[simp] theorem totalAt_skeleton (n : ℕ) : g.skeleton.totalAt n = g.totalAt n := rfl

@[simp] theorem sees_skeleton (x y : EventHash) : g.skeleton.sees x y = g.sees x y := by
  rw [sees, see_skeleton, sees]

@[simp] theorem stronglySee_skeleton (x y : EventHash) :
    g.skeleton.stronglySee x y = g.stronglySee x y := by
  unfold stronglySee
  rw [stronglySeeAt_skeleton, get?_skeleton]
  cases g.get? y <;> rfl

@[simp] theorem heard_skeleton (y : EventHash) : g.skeleton.heard y = g.heard y := by
  have hsees : g.skeleton.stronglySees y = g.stronglySees y := by
    funext s
    rw [stronglySees, stronglySee_skeleton, stronglySees]
  rw [heard, heard, hsees, roundOf_skeleton, witnessesOfRound_skeleton]

@[simp] theorem coinOf_skeleton (y : EventHash) : g.skeleton.coinOf y = g.coinOf y := by
  unfold coinOf coinRoundVote
  rw [get?_skeleton]
  cases g.get? y <;> rfl

@[simp] theorem outcome_skeleton (y w : EventHash) (votes : EventHash → Option Bool) :
    g.skeleton.outcome y w votes = g.outcome y w votes := by
  simp only [outcome, conclusion, roundOf_skeleton, sees_skeleton, heard_skeleton, coinOf_skeleton,
    totalAt_skeleton]

@[simp] theorem eagerOutcome_skeleton (w : EventHash) (votes : EventHash → Option Bool) :
    g.skeleton.eagerOutcome w votes = g.eagerOutcome w votes := by
  simp only [eagerOutcome, roundOf_skeleton, witnessesOfRound_skeleton, totalAt_skeleton]
  rfl

variable {g} {g' : Hashgraph} (h : g'.skeleton = g.skeleton)
include h

theorem roundOf_of_skeleton_eq (x : EventHash) : g'.roundOf x = g.roundOf x := by
  rw [← roundOf_skeleton, h, roundOf_skeleton]

theorem heard_of_skeleton_eq (y : EventHash) : g'.heard y = g.heard y := by
  rw [← heard_skeleton, h, heard_skeleton]

theorem witnessesOfRound_of_skeleton_eq (n : ℕ) :
    g'.witnessesOfRound n = g.witnessesOfRound n := by
  rw [← witnessesOfRound_skeleton, h, witnessesOfRound_skeleton]

theorem highestWitnessRound_of_skeleton_eq : g'.highestWitnessRound = g.highestWitnessRound :=
  (congrArg highestWitnessRound h :)

theorem ask_of_skeleton_eq (w : EventHash) : Ballot.ask g' w = Ballot.ask g w := by
  funext b y
  simp only [Ballot.ask]
  rw [← outcome_skeleton g', h, outcome_skeleton]

theorem eager_of_skeleton_eq (w : EventHash) : Ballot.eager g' w = Ballot.eager g w := by
  funext b
  simp only [Ballot.eager]
  rw [← eagerOutcome_skeleton g', h, eagerOutcome_skeleton]

end Skeleton

end Hashgraph

/-! ## Ballots grow -/

namespace Ballot

open Hashgraph

/-- Votes are kept, and an ended election stays ended. -/
structure Grows (b b' : Ballot) : Prop where
  votes_kept : ∀ {y v}, b.votes y = some v → b'.votes y = some v
  fame_kept : b.fame ≠ some .undecided → b' = b

variable {b b' b'' : Ballot} {g : Hashgraph} {w y : EventHash}

theorem Grows.refl (b : Ballot) : Grows b b := ⟨id, fun _ => rfl⟩

theorem Grows.trans (h : Grows b b') (h' : Grows b' b'') : Grows b b'' where
  votes_kept := fun hv => h'.votes_kept (h.votes_kept hv)
  fame_kept := by
    intro hb
    have heq := h.fame_kept hb
    rw [h'.fame_kept (heq ▸ hb), heq]

theorem Grows.undecided (h : Grows b b') (hb : b'.fame = some .undecided) :
    b.fame = some .undecided := by
  by_contra hne
  rw [h.fame_kept hne] at hb
  exact hne hb

theorem outcome_decided_ne {votes : EventHash → Option Bool} {status : FameStatus}
    (h : g.outcome y w votes = .decided status) : status ≠ .undecided := by
  rintro rfl
  simp only [outcome, conclusion] at h
  split_ifs at h <;> simp_all

theorem ask_grows (b : Ballot) (g : Hashgraph) (w y : EventHash) : Grows b (b.ask g w y) := by
  unfold ask
  by_cases hopen : b.fame = some .undecided ∧ b.votes y = none
  · rw [if_pos hopen]
    refine ⟨fun {z v} hv => ?_, fun hne => absurd hopen.1 hne⟩
    cases g.outcome y w b.votes with
    | decided status => exact hv
    | cast v' =>
      have hz : z ≠ y := by
        rintro rfl
        rw [hopen.2] at hv
        cases hv
      simpa [after, hz] using hv
  · rw [if_neg hopen]
    exact .refl b

theorem eager_grows (b : Ballot) (g : Hashgraph) (w : EventHash) : Grows b (b.eager g w) := by
  unfold eager
  by_cases hopen : b.fame = some .undecided
  · rw [if_pos hopen]
    refine ⟨fun {z v} hv => ?_, fun hne => absurd hopen hne⟩
    cases g.eagerOutcome w b.votes <;> exact hv
  · rw [if_neg hopen]
    exact .refl b

/-- A voter that was asked has voted, if the election is still open. -/
theorem votes_ask_isSome (h : (b.ask g w y).fame = some .undecided) :
    ((b.ask g w y).votes y).isSome := by
  have hundecided := (ask_grows b g w y).undecided h
  unfold ask at h ⊢
  by_cases hnone : b.votes y = none
  · rw [if_pos ⟨hundecided, hnone⟩] at h ⊢
    cases hout : g.outcome y w b.votes with
    | cast v => simp [after]
    | decided status =>
      rw [hout] at h
      exact absurd (Option.some.inj h) (outcome_decided_ne hout)
  · rw [if_neg fun hopen => hnone hopen.2]
    exact Option.isSome_iff_ne_none.mpr hnone

theorem foldl_ask_grows (b : Ballot) (l : List EventHash) : Grows b (l.foldl (ask g w) b) := by
  induction l generalizing b with
  | nil => exact .refl b
  | cons y l ih => exact (ask_grows b g w y).trans (ih _)

theorem votes_foldl_ask_isSome {l : List EventHash}
    (h : (l.foldl (ask g w) b).fame = some .undecided) (hy : y ∈ l) :
    ((l.foldl (ask g w) b).votes y).isSome := by
  induction l generalizing b with
  | nil => cases hy
  | cons z l ih =>
    rcases List.mem_cons.mp hy with rfl | hy
    · have hgrows : Grows (b.ask g w y) (l.foldl (ask g w) (b.ask g w y)) := foldl_ask_grows _ l
      obtain ⟨v, hv⟩ := Option.isSome_iff_exists.mp (votes_ask_isSome (hgrows.undecided h))
      rw [List.foldl_cons, hgrows.votes_kept hv]
      rfl
    · exact ih h hy

theorem backfillRound_grows (b : Ballot) (n : ℕ) : Grows b (b.backfillRound g w n) :=
  (foldl_ask_grows b _).trans (eager_grows _ g w)

theorem votes_backfillRound_isSome {n : ℕ}
    (h : (b.backfillRound g w n).fame = some .undecided) (hy : y ∈ g.witnessesOfRound n) :
    ((b.backfillRound g w n).votes y).isSome := by
  have hgrows := eager_grows ((g.witnessesOfRound n).foldl (ask g w) b) g w
  obtain ⟨v, hv⟩ := Option.isSome_iff_exists.mp
    (votes_foldl_ask_isSome (hgrows.undecided h) hy)
  rw [backfillRound, hgrows.votes_kept hv]
  rfl

theorem foldl_backfillRound_grows (b : Ballot) (rounds : List ℕ) :
    Grows b (rounds.foldl (backfillRound g w) b) := by
  induction rounds generalizing b with
  | nil => exact .refl b
  | cons n rounds ih => exact (backfillRound_grows b n).trans (ih _)

theorem votes_foldl_backfillRound_isSome {rounds : List ℕ} {n : ℕ}
    (h : (rounds.foldl (backfillRound g w) b).fame = some .undecided) (hn : n ∈ rounds)
    (hy : y ∈ g.witnessesOfRound n) :
    ((rounds.foldl (backfillRound g w) b).votes y).isSome := by
  induction rounds generalizing b with
  | nil => cases hn
  | cons m rounds ih =>
    rcases List.mem_cons.mp hn with rfl | hn
    · have hgrows : Grows (b.backfillRound g w n)
          (rounds.foldl (backfillRound g w) (b.backfillRound g w n)) :=
        foldl_backfillRound_grows _ rounds
      obtain ⟨v, hv⟩ := Option.isSome_iff_exists.mp
        (votes_backfillRound_isSome (hgrows.undecided h) hy)
      rw [List.foldl_cons, hgrows.votes_kept hv]
      rfl
    · exact ih h hn

end Ballot

end JKain
