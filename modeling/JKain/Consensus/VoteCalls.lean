import JKain.Consensus.SpecVote

/-!
# The calls of the voting loops

`vote_as_witness` calls `vote_of` for the new witness on every open candidate, then for every later
witness on the new one, and `vote_of` calls itself for the witnesses a voter strongly sees. `Asked`
lists these calls with the states they are made in, `Tallied` those of `try_eager_decide`. In all of
them the votes that the call reads are those of the specification, so that its answer is.
-/

namespace JKain

open Std JKain.Lib

namespace Hashgraph

/-- The inner loop of the backfill: the witnesses of a round vote on `x`. -/
def askVoters (x : EventHash) (voters : List EventHash) : HashgraphM PUnit :=
  voters.forM fun voter => do let _ ← vote voter x

/-- The calls `vote_of(y, w)` in the run of `vote_as_witness(x)` from `t₀`: the fuel, the voter, the
candidate and the state of the call. -/
inductive Asked (iter : IterOrder) (x : EventHash) (t₀ : Hashgraph) :
    ℕ → EventHash → EventHash → Hashgraph → Prop
  | candidate {done rest : List EventHash} {w : EventHash} {t : Hashgraph} :
      t₀.candidates iter (t₀.roundOf x) = done ++ w :: rest →
      done.forM (voteOnCandidate x) t₀ = .ok ⟨⟩ t →
      Asked iter x t₀ (t.roundOf x + 1) x w t
  | backfill {k : ℕ} {done rest : List EventHash} {voter : EventHash} {t₁ t₂ t : Hashgraph} :
      (t₀.candidates iter (t₀.roundOf x)).forM (voteOnCandidate x) t₀ = .ok ⟨⟩ t₁ →
      k < t₁.highestWitnessRound - t₀.roundOf x →
      Hashgraph.backfill x (List.range' (t₀.roundOf x + 1) k) t₁ = .ok ⟨⟩ t₂ →
      t₂.hasDecidedFame x = false →
      t₂.witnessesOfRound (t₀.roundOf x + 1 + k) = done ++ voter :: rest →
      askVoters x done t₂ = .ok ⟨⟩ t →
      Asked iter x t₀ (t.roundOf voter + 1) voter x t
  | prerequisite {fuel yes no : ℕ} {done rest : List EventHash} {y w s : EventHash}
      {t t' : Hashgraph} :
      Asked iter x t₀ (fuel + 1) y w t →
      t.fameOf w = some .undecided → t.recordedVote y w = none → t.roundOf w + 1 < t.roundOf y →
      keepM (fun s => unwrapOrFalse (t.stronglySee y s)) (t.witnessesOfRound (t.roundOf y - 1)) =
        .ok (done ++ s :: rest) →
      tallyVotes (fun s => voteOf fuel s w) done 0 0 t = .ok (.counted yes no) t' →
      Asked iter x t₀ fuel s w t'

/-- The calls `try_eager_decide(w)` in the run of `vote_as_witness(x)` from `t₀`. -/
inductive Tallied (iter : IterOrder) (x : EventHash) (t₀ : Hashgraph) :
    EventHash → Hashgraph → Prop
  | candidate {done rest : List EventHash} {w : EventHash} {o : VoteOutcome} {t t' : Hashgraph} :
      t₀.candidates iter (t₀.roundOf x) = done ++ w :: rest →
      done.forM (voteOnCandidate x) t₀ = .ok ⟨⟩ t → vote x w t = .ok o t' →
      Tallied iter x t₀ w t'
  | backfill {k : ℕ} {t₁ t₂ t : Hashgraph} :
      (t₀.candidates iter (t₀.roundOf x)).forM (voteOnCandidate x) t₀ = .ok ⟨⟩ t₁ →
      k < t₁.highestWitnessRound - t₀.roundOf x →
      Hashgraph.backfill x (List.range' (t₀.roundOf x + 1) k) t₁ = .ok ⟨⟩ t₂ →
      t₂.hasDecidedFame x = false →
      askVoters x (t₂.witnessesOfRound (t₀.roundOf x + 1 + k)) t₂ = .ok ⟨⟩ t →
      Tallied iter x t₀ x t
  | last {t₁ t : Hashgraph} :
      (t₀.candidates iter (t₀.roundOf x)).forM (voteOnCandidate x) t₀ = .ok ⟨⟩ t₁ →
      Hashgraph.backfill x
        (List.range' (t₀.roundOf x + 1) (t₁.highestWitnessRound - t₀.roundOf x)) t₁ = .ok ⟨⟩ t →
      Tallied iter x t₀ x t

/-- What holds inside the voting loops for a candidate `w`: every vote on it is the one of the
specification. -/
structure Counting (E : Fault → Prop) (members : ℕ) (t₀ : Hashgraph) (w : EventHash)
    (t : Hashgraph) : Prop where
  skeleton_eq : t.skeleton = t₀.skeleton
  booth : Booth E 0 t
  candidate : ∃ r, t.get? w = some r ∧ r.isWitness = true
  follows : t.Follows members w (t.ballot w)

/-- What holds where a voter is asked: the witnesses between it and the candidate have voted. -/
structure Asking (E : Fault → Prop) (members : ℕ) (t₀ : Hashgraph) (y w : EventHash)
    (t : Hashgraph) : Prop extends Counting E members t₀ w t where
  voter : y ∈ t.witnessesOfRound (t.roundOf y)
  round_lt : t.roundOf w < t.roundOf y
  voted : t.VotedBelow w (t.roundOf y)

section Asking

variable {E : Fault → Prop} {members : ℕ} {t₀ t t' : Hashgraph} {y w s : EventHash}

theorem Asking.canVote (h : Asking E members t₀ y w t) : CanVote 0 t y w where
  voter := by
    obtain ⟨r, hr, -, -⟩ := h.booth.serves.wf.witness_sound h.voter
    exact Option.isSome_of_eq_some hr
  candidate := h.candidate
  low_le := Nat.zero_le _
  round_lt := h.round_lt
  ready := by
    intro hfar hopen s hs
    exact h.voted hopen (t.roundOf y - 1) (by omega) (by omega) s (List.mem_filter.mp hs).1

/-- A voter answers as the specification says. -/
theorem Asking.answers (h : Asking E members t₀ y w t)
    (htotal : ∀ n, 1 ≤ n → t.totalAt n = members) (hopen : t.fameOf w = some .undecided)
    {o : VoteOutcome} (hvote : vote y w t = .ok o t') : t.Answers members y w o := by
  obtain ⟨-, hanswer⟩ := (h.canVote.vote_answers h.booth).of_ok hvote
  rw [hanswer hopen, answer]
  cases hrecorded : t.recordedVote y w with
  | some v =>
    obtain ⟨-, -, d, hd, rfl⟩ := h.follows y v hrecorded
    exact ⟨d, hd, .inl rfl⟩
  | none =>
    exact h.follows.outcome h.booth.serves.wf htotal h.round_lt fun hfar =>
      h.canVote.ready hfar hopen

/-- A witness that the voter strongly sees is asked in the same state. -/
theorem Asking.prerequisite (h : Asking E members t₀ y w t) (hs : s ∈ t.heard y)
    (hfar : t.roundOf w + 1 < t.roundOf y) : Asking E members t₀ s w t := by
  have hmem := (List.mem_filter.mp hs).1
  have hround := h.booth.serves.wf.roundOf_witness hmem
  exact ⟨h.toCounting, by rwa [hround], by omega,
    fun hopen m hm hlt => h.voted hopen m hm (by omega)⟩

end Asking

/-- The state in which a new witness `x` starts to vote. -/
structure Opening (E : Fault → Prop) (members : ℕ) (x : EventHash) (t₀ : Hashgraph) : Prop where
  booth : Booth E 0 t₀
  fresh : t₀.fameOf x = some .undecided
  cast : t₀.VotesCast (· = x)
  follows : t₀.VotesFollow members
  total : ∀ n, 1 ≤ n → t₀.totalAt n = members

section Calls

variable {E : Fault → Prop} {members fuel k n : ℕ} {iter : IterOrder} {t₀ t t₁ t₂ : Hashgraph}
  {x y w : EventHash} {done rest : List EventHash}

theorem totalAt_of_skeleton_eq (h : t.skeleton = t₀.skeleton) (n : ℕ) :
    t.totalAt n = t₀.totalAt n := by
  rw [← totalAt_skeleton, h, totalAt_skeleton]

/-- The first candidates have been voted on: the ballots of the others are as before. -/
theorem Opening.voting (h : Opening E members x t₀)
    (hdone : t₀.candidates iter (t₀.roundOf x) = done ++ rest)
    (hrun : done.forM (voteOnCandidate x) t₀ = .ok ⟨⟩ t) : Voting t₀ x done [] t := by
  have hnodup : done.Nodup := by
    have hall := t₀.nodup_candidates iter (t₀.roundOf x)
    rw [hdone] at hall
    exact hall.of_append_left
  refine (candidates_spec h.booth hnodup fun w hw => ?_).of_ok hrun
  have hmem : w ∈ t₀.candidates iter (t₀.roundOf x) := hdone ▸ List.mem_append_left _ hw
  exact canVote_candidate h.booth (fun _ _ => Nat.zero_le _) h.fresh h.cast hmem

theorem Opening.mem_witnesses (h : Opening E members x t₀) :
    x ∈ t₀.witnessesOfRound (t₀.roundOf x) := by
  obtain ⟨r, hr, hwit⟩ := exists_witness_of_fameOf h.fresh
  rw [roundOf_eq hr]
  exact h.booth.serves.wf.witness_complete hr hwit

theorem Opening.asking_candidate (h : Opening E members x t₀)
    (hdone : t₀.candidates iter (t₀.roundOf x) = done ++ w :: rest)
    (hrun : done.forM (voteOnCandidate x) t₀ = .ok ⟨⟩ t) : Asking E members t₀ x w t := by
  have hvoting := h.voting hdone hrun
  have hskel := hvoting.votes.skeleton_eq
  have hmem : w ∈ t₀.candidates iter (t₀.roundOf x) := hdone ▸ by simp
  obtain ⟨hopen, hlt⟩ := (mem_candidates h.booth.exact).mp hmem
  have hnot : w ∉ done := by
    have hall := t₀.nodup_candidates iter (t₀.roundOf x)
    rw [hdone] at hall
    exact fun hin => (List.nodup_append.mp hall).2.2 w hin w List.mem_cons_self rfl
  have hballot : t.ballot w = t₀.ballot w := by
    rw [hvoting.ballot_eq, if_neg fun hin => hnot hin.1]
  refine ⟨⟨hskel, h.booth.advance hvoting.votes.toAdvances,
    isWitness_of_skeleton_eq hskel (exists_witness_of_fameOf hopen), ?_⟩, ?_, ?_, ?_⟩
  · rw [hballot]
    exact (h.follows w).of_skeleton_eq hskel
  · rw [roundOf_of_skeleton_eq hskel, witnessesOfRound_of_skeleton_eq hskel]
    exact h.mem_witnesses
  · rw [roundOf_of_skeleton_eq hskel, roundOf_of_skeleton_eq hskel]
    exact hlt
  · -- A witness below the new one is not the new one, so it had voted.
    intro _ m hm hmx s hs
    rw [roundOf_of_skeleton_eq hskel] at hm hmx
    rw [witnessesOfRound_of_skeleton_eq hskel] at hs
    have hround := h.booth.serves.wf.roundOf_witness hs
    have hvote : t.recordedVote s w = t₀.recordedVote s w :=
      congrFun (congrArg Ballot.votes hballot) s
    rw [hvote]
    refine h.cast w s hopen (by rwa [hround]) (by omega) ?_ ?_
    · rintro rfl
      omega
    · rintro rfl
      omega

/-- What holds after the backfill of `x` has gone through all rounds below `n`. -/
structure Backfilled (E : Fault → Prop) (members : ℕ) (x : EventHash) (t₀ : Hashgraph) (n : ℕ)
    (t : Hashgraph) : Prop extends Counting E members t₀ x t where
  voted : t.VotedBelow x n

theorem Opening.backfilled (h : Opening E members x t₀)
    (hcandidates : (t₀.candidates iter (t₀.roundOf x)).forM (voteOnCandidate x) t₀ = .ok ⟨⟩ t₁)
    (hrun : backfill x (List.range' (t₀.roundOf x + 1) k) t₁ = .ok ⟨⟩ t₂) :
    Backfilled E members x t₀ (t₀.roundOf x + 1 + k) t₂ := by
  have hvoting := h.voting (List.append_nil _).symm hcandidates
  have hskel := hvoting.votes.skeleton_eq
  have hround : t₁.roundOf x = t₀.roundOf x := roundOf_of_skeleton_eq hskel x
  have hwit := isWitness_of_skeleton_eq hskel (exists_witness_of_fameOf h.fresh)
  have hballot : t₁.ballot x = t₀.ballot x := by
    rw [hvoting.ballot_eq, if_neg]
    rintro ⟨hmem, -⟩
    exact absurd ((mem_candidates h.booth.exact).mp hmem).2 (Nat.lt_irrefl _)
  have hb₁ := h.booth.advance hvoting.votes.toAdvances
  obtain ⟨hpolled, hvoted⟩ := (backfill_spec hb₁ hwit (Nat.zero_le _)
    (n := t₀.roundOf x + 1) (k := k) (by omega) fun _ m hm hm' => absurd hm' (by omega)).of_ok hrun
  have hskel₂ := hpolled.votes.skeleton_eq
  have hfollows : t₁.Follows members x (t₂.ballot x) := by
    rw [hpolled.ballot_eq]
    refine Follows.foldl_backfillRound ?_ hb₁.serves.wf (fun n hn => ?_) ?_ (by omega)
      (fun hfar => absurd hfar (by omega)) k
    · rw [hballot]
      exact (h.follows x).of_skeleton_eq hskel
    · rw [totalAt_of_skeleton_eq hskel, h.total n hn]
    · obtain ⟨r, hr, -⟩ := hwit
      exact Option.isSome_of_eq_some hr
  exact ⟨⟨hskel₂.trans hskel, hb₁.advance hpolled.votes.toAdvances,
    isWitness_of_skeleton_eq hskel₂ hwit, hfollows.of_skeleton_eq hskel₂⟩, hvoted⟩

/-- It still holds while the witnesses of the next round are asked. -/
theorem Backfilled.askVoters (h : Backfilled E members x t₀ n t₂)
    (htotal : ∀ n, 1 ≤ n → t₀.totalAt n = members) (hn : t₀.roundOf x < n)
    (hdone : t₂.witnessesOfRound n = done ++ rest)
    (hrun : Hashgraph.askVoters x done t₂ = .ok ⟨⟩ t) : Backfilled E members x t₀ n t := by
  have hround : t₂.roundOf x = t₀.roundOf x := roundOf_of_skeleton_eq h.skeleton_eq x
  have hsub : done ⊆ t₂.witnessesOfRound n := fun s hs => hdone ▸ List.mem_append_left _ hs
  have hpolled := (backfillVoters_spec h.booth h.candidate (Nat.zero_le _) (by omega) h.voted
    hsub).of_ok hrun
  have hskel := hpolled.votes.skeleton_eq
  have hfollows : t₂.Follows members x (t.ballot x) := by
    rw [hpolled.ballot_eq]
    refine h.follows.foldl_ask h.booth.serves.wf (fun n hn => ?_) ?_ (by omega) hsub
      fun hfar hopen s hs => ?_
    · rw [totalAt_of_skeleton_eq h.skeleton_eq, htotal n hn]
    · obtain ⟨r, hr, -⟩ := h.candidate
      exact Option.isSome_of_eq_some hr
    · exact h.voted hopen (n - 1) (by omega) (by omega) s hs
  exact ⟨⟨hskel.trans h.skeleton_eq, h.booth.advance hpolled.votes.toAdvances,
    isWitness_of_skeleton_eq hskel h.candidate, hfollows.of_skeleton_eq hskel⟩,
    h.voted.advance hpolled.votes.toAdvances h.candidate⟩

/-- Every call of `vote_of` is made where the voter can answer. -/
theorem Asked.asking (h : Asked iter x t₀ fuel y w t) (hstart : Opening E members x t₀) :
    Asking E members t₀ y w t ∧ fuel = t.roundOf y + 1 := by
  induction h with
  | candidate hdone hrun => exact ⟨hstart.asking_candidate hdone hrun, rfl⟩
  | @backfill k done rest voter t₁ t₂ t hcandidates _ hbackfill _ hdone hrun =>
    have hfilled := hstart.backfilled hcandidates hbackfill
    have hnow := hfilled.askVoters hstart.total (by omega) hdone hrun
    have hskel : t.skeleton = t₂.skeleton := hnow.skeleton_eq.trans hfilled.skeleton_eq.symm
    have hmem : voter ∈ t.witnessesOfRound (t₀.roundOf x + 1 + k) := by
      rw [witnessesOfRound_of_skeleton_eq hskel, hdone]
      simp
    have hround := hnow.booth.serves.wf.roundOf_witness hmem
    have hxround : t.roundOf x = t₀.roundOf x := roundOf_of_skeleton_eq hnow.skeleton_eq x
    exact ⟨⟨hnow.toCounting, by rwa [hround], by omega, by rw [hround]; exact hnow.voted⟩, rfl⟩
  | @prerequisite fuel yes no done rest y w s t t' _ hopen _ hfar hheard htally ih =>
    obtain ⟨hasking, hfuel⟩ := ih
    obtain ⟨r, hr, hwit⟩ := hasking.candidate
    obtain ⟨ry, hry⟩ := Option.isSome_iff_exists.mp hasking.canVote.voter
    have hlist : done ++ s :: rest = t.heard y := by
      have hreturns := heard_returns hasking.booth.serves.wf hry
        (hasking.booth.covers _ (Nat.zero_le _))
      rw [← roundOf_eq hry, hheard] at hreturns
      exact hreturns
    -- The votes that are asked for first are recorded, so the state has not changed.
    obtain ⟨fuel, rfl⟩ : ∃ fuel', fuel = fuel' + 1 := ⟨fuel - 1, by omega⟩
    have hrecorded : ∀ s ∈ done, (t.get? s).isSome ∧ (t.recordedVote s w).isSome := by
      intro s hs
      have hmem : s ∈ t.heard y := hlist ▸ List.mem_append_left _ hs
      obtain ⟨rs, hrs, -, -⟩ := hasking.booth.serves.wf.witness_sound (List.mem_filter.mp hmem).1
      exact ⟨Option.isSome_of_eq_some hrs, hasking.canVote.ready hfar hopen s hmem⟩
    rw [tallyVotes_recorded hr hopen hrecorded] at htally
    cases htally
    have hmem : s ∈ t.heard y := hlist ▸ by simp
    have hround := hasking.booth.serves.wf.roundOf_witness (List.mem_filter.mp hmem).1
    exact ⟨hasking.prerequisite hmem hfar, by omega⟩

/-- So is every call of `try_eager_decide`. -/
theorem Tallied.counting (h : Tallied iter x t₀ w t) (hstart : Opening E members x t₀) :
    Counting E members t₀ w t := by
  cases h with
  | @candidate done rest _ o t _ hdone hrun hvote =>
    have hasking := hstart.asking_candidate hdone hrun
    obtain ⟨hpolled, -⟩ := (hasking.canVote.vote_answers hasking.booth).of_ok hvote
    have hskel := hpolled.votes.skeleton_eq
    refine ⟨hskel.trans hasking.skeleton_eq, hasking.booth.advance hpolled.votes.toAdvances,
      isWitness_of_skeleton_eq hskel hasking.candidate, Follows.of_skeleton_eq ?_ hskel⟩
    rw [hpolled.ballot_eq]
    refine hasking.follows.ask hasking.booth.serves.wf (fun n hn => ?_) ?_ hasking.voter
      hasking.round_lt hasking.canVote.ready
    · rw [totalAt_of_skeleton_eq hasking.skeleton_eq, hstart.total n hn]
    · obtain ⟨r, hr, -⟩ := hasking.candidate
      exact Option.isSome_of_eq_some hr
  | backfill hcandidates _ hbackfill _ hrun =>
    exact ((hstart.backfilled hcandidates hbackfill).askVoters hstart.total (by omega)
      (List.append_nil _).symm hrun).toCounting
  | last hcandidates hbackfill => exact (hstart.backfilled hcandidates hbackfill).toCounting

end Calls

end Hashgraph

end JKain
