import JKain.Consensus.Intake
import JKain.Consensus.JointElection
import JKain.Consensus.VoteCalls

/-!
# A decision binds the later votes

Over events without forks and a static registry, the votes on a candidate in two runs are those of
one election. If a voter finds a supermajority outside a coin round, all witnesses of its round vote
the same way, and so do all later ones, in both runs. An early decision on the votes of the next
round binds the round after it in the same way. With forks it does not: a member that forks is
counted once for every branch.
-/

namespace JKain

open Std JKain.Lib

namespace Hashgraph

/-- A run inserts the witness `x`, which starts to vote in the state `t₀`. -/
def StartsVoting (H : Hasher) (S : Set Event) (registry : MembershipRegistry) (x : EventHash)
    (t₀ : Hashgraph) : Prop :=
  ∃ g event i, Reached H (fun _ op => op.Inserts S) registry g ∧ event ∈ S ∧ H event = .ok x ∧
    g.Checked x event i ∧ g.entersAsWitness x event i = true ∧ t₀ = g.placed x event i

/-- In some run `vote_of(y, w)`, called in the state `t` while the election on `w` is open, answers
`o`. -/
def VoteCall (H : Hasher) (S : Set Event) (registry : MembershipRegistry) (y w : EventHash)
    (t : Hashgraph) (o : VoteOutcome) : Prop :=
  t.fameOf w = some .undecided ∧ ∃ iter x t₀ fuel t', StartsVoting H S registry x t₀ ∧
    Asked iter x t₀ fuel y w t ∧ voteOf fuel y w t = .ok o t'

/-- In some run `try_eager_decide(w)`, called in the state `t` while the election on `w` is open,
decides it. -/
def EagerCall (H : Hasher) (S : Set Event) (registry : MembershipRegistry) (w : EventHash)
    (t : Hashgraph) (status : FameStatus) : Prop :=
  t.fameOf w = some .undecided ∧ ∃ iter x t₀ t', StartsVoting H S registry x t₀ ∧
    Tallied iter x t₀ w t ∧ tryEagerDecide w t = .ok (some status) t'

section Calls

variable {H : Hasher} {S : Set Event} {registry : MembershipRegistry} {t t₀ : Hashgraph}
  {x y w : EventHash} {o : VoteOutcome}

theorem StartsVoting.opening (h : StartsVoting H S registry x t₀) (hfree : H.CollisionFree S) :
    Opening (fun f => ∃ p, f = .panic p) registry.len x t₀ := by
  obtain ⟨g, event, i, hg, hevent, hhash, hc, hwit, rfl⟩ := h
  have hs := hg.sound hfree fun _ _ h => h.from
  have hw := hg.whole hfree fun _ _ h => h.fromKeeps
  refine ⟨(hs.ready hfree hevent hhash hc).booth_placed, ?_, hs.cast.place _,
    (hg.votesFollow hfree).placed hs.wf hw hc (hs.fits hfree hevent hhash hc), fun n hn => ?_⟩
  · rw [placed, fameOf_place, if_pos rfl]
    exact if_pos hwit
  · rw [← (hg.fixedRegistry hfree).totalAt_of_pos hn]
    exact totalAt_of_memberCountAtRound_eq (memberCountAtRound_place n)

/-- The insertion returns, and what it voted on is the graph it leads to. -/
theorem StartsVoting.exists_reached (h : StartsVoting H S registry x t₀)
    (hfree : H.CollisionFree S) :
    ∃ g, Reached H (fun _ op => op.Inserts S) registry g ∧ g.skeleton = t₀.skeleton := by
  obtain ⟨g, event, i, hg, hevent, hhash, hc, -, rfl⟩ := h
  obtain ⟨g', hinsert, hinserted⟩ := hg.insert_ok hfree hevent hhash hc inOrder
  have hadm : (Op.insert inOrder event).Admissible g := trivial
  have hleads : (Op.insert inOrder event).Leads H g g' := .inl ⟨x, hinsert⟩
  exact ⟨g', hg.step hadm hevent hleads, hinserted.advances.skeleton_eq⟩

theorem Answers.of_skeleton_eq {g : Hashgraph} {members : ℕ} (h : t.Answers members y w o)
    (hskel : g.skeleton = t.skeleton) : g.Answers members y w o := by
  obtain ⟨d, hd, hanswer⟩ := h
  have hspec (k : ℕ) : g.specVote members w k = t.specVote members w k :=
    funext fun _ => specVote_of_skeleton_eq hskel
  refine ⟨d, ?_, ?_⟩
  · rw [roundOf_of_skeleton_eq hskel, roundOf_of_skeleton_eq hskel, hd]
  · simp only [hspec, heard_of_skeleton_eq hskel]
    exact hanswer

/-- A call of `vote_of` answers as the specification says in a graph of a run. -/
theorem VoteCall.exists_answers (h : VoteCall H S registry y w t o) (hfree : H.CollisionFree S) :
    ∃ g, Reached H (fun _ op => op.Inserts S) registry g ∧ g.skeleton = t.skeleton ∧
      y ∈ g.witnessesOfRound (g.roundOf y) ∧ (g.get? w).isSome ∧
      g.Answers registry.len y w o := by
  obtain ⟨hopen, iter, x, t₀, fuel, t', hstart, hasked, hvote⟩ := h
  obtain ⟨g, hg, hskel⟩ := hstart.exists_reached hfree
  have hopening := hstart.opening hfree
  obtain ⟨hasking, rfl⟩ := hasked.asking hopening
  have hskel' : g.skeleton = t.skeleton := hskel.trans hasking.skeleton_eq.symm
  have hanswers : t.Answers registry.len y w o := by
    refine hasking.answers (fun n hn => ?_) hopen hvote
    rw [totalAt_of_skeleton_eq hasking.skeleton_eq, hopening.total n hn]
  refine ⟨g, hg, hskel', ?_, ?_, hanswers.of_skeleton_eq hskel'⟩
  · rw [roundOf_of_skeleton_eq hskel', witnessesOfRound_of_skeleton_eq hskel']
    exact hasking.voter
  · obtain ⟨r, hr, -⟩ := isWitness_of_skeleton_eq hskel' hasking.candidate
    exact Option.isSome_of_eq_some hr

/-- A call of `try_eager_decide` that decides rests on the direct votes in a graph of a run. -/
theorem EagerCall.exists_super {status : FameStatus} (h : EagerCall H S registry w t status)
    (hfree : H.CollisionFree S) :
    ∃ g v, Reached H (fun _ op => op.Inserts S) registry g ∧ g.skeleton = t.skeleton ∧
      (g.get? w).isSome ∧ status = .ofVote v ∧
      2 * registry.len < 3 * votesFor (g.specVote registry.len w 0)
        (g.witnessesOfRound (g.roundOf w + 1)).toFinset v := by
  obtain ⟨hopen, iter, x, t₀, t', hstart, htallied, hrun⟩ := h
  obtain ⟨g, hg, hskel⟩ := hstart.exists_reached hfree
  have hopening := hstart.opening hfree
  have hcounting := htallied.counting hopening
  have hskel' : g.skeleton = t.skeleton := hskel.trans hcounting.skeleton_eq.symm
  obtain ⟨-, hverdict⟩ :=
    (eager_answers hcounting.booth hcounting.candidate (Nat.zero_le _)).of_ok hrun
  obtain ⟨v, hstatus, hsuper⟩ := hcounting.follows.super_of_eagerOutcome hcounting.booth.serves.wf
    (fun n hn => by rw [totalAt_of_skeleton_eq hcounting.skeleton_eq, hopening.total n hn])
    (hverdict hopen).symm
  have hspec : g.specVote registry.len w 0 = t.specVote registry.len w 0 :=
    funext fun _ => specVote_of_skeleton_eq hskel'
  refine ⟨g, v, hg, hskel', ?_, hstatus, ?_⟩
  · obtain ⟨r, hr, -⟩ := isWitness_of_skeleton_eq hskel' hcounting.candidate
    exact Option.isSome_of_eq_some hr
  · rw [hspec, roundOf_of_skeleton_eq hskel', witnessesOfRound_of_skeleton_eq hskel']
    exact hsuper

end Calls

/-! ## Unanimous layers -/

namespace Peers

variable {H : Hasher} {S : Set Event} {registry : MembershipRegistry} {g g' : Hashgraph}
  {y w : EventHash} {d k : ℕ} {v : Bool}

/-- The votes of the witnesses behind a unanimous layer. -/
theorem specVote_of_unanimous (h : Peers H S registry g g') (hw : Meets.Both g g' w)
    (hall : (h.election w (g.roundOf w)).Unanimous k v) (hk : k ≤ d)
    (hy : y ∈ g'.witnessesOfRound (g'.roundOf y)) (hround : g'.roundOf y = g'.roundOf w + (d + 1)) :
    g'.specVote registry.len w d y = v := by
  obtain ⟨r, hr, -, -⟩ := h.symm.sound.wf.witness_sound hy
  have hlayer : y ∈ (h.election w (g.roundOf w)).layer d := by
    refine mem_jointWitnesses (.inr ⟨rfl, rfl⟩) ?_
    rw [show g.roundOf w + 1 + d = g'.roundOf y by rw [hround, h.roundOf_eq hw]; omega]
    exact hy
  rw [← h.vote_eq (.inr ⟨rfl, rfl⟩) hw (Option.isSome_of_eq_some hr)]
  exact hall.of_le hk y hlayer

/-- A voter that finds a supermajority outside a coin round makes its own layer unanimous. -/
theorem unanimous_of_super (h : Peers H S registry g g') (hw : Meets.Both g g' w)
    (hy : y ∈ g.witnessesOfRound (g.roundOf y)) (hround : g.roundOf y = g.roundOf w + (d + 2))
    (hsuper : 2 * registry.len < 3 * votesFor (g.specVote registry.len w d) (g.heard y).toFinset
      (majority (g.specVote registry.len w d) (g.heard y).toFinset))
    (hcoin : (d + 2) % coinRoundFrequency ≠ 0) :
    (h.election w (g.roundOf w)).Unanimous (d + 1) (g.specVote registry.len w (d + 1) y) := by
  obtain ⟨r, hr, -, -⟩ := h.sound.wf.witness_sound hy
  have hstored := Option.isSome_of_eq_some hr
  have hbelow : (h.election w (g.roundOf w)).below y = (g.heard y).toFinset :=
    h.heard_union (.inl ⟨rfl, rfl⟩) hstored
  have hvotes : ∀ s ∈ (g.heard y).toFinset,
      (h.election w (g.roundOf w)).vote d s = g.specVote registry.len w d s := fun s hs =>
    h.vote_eq (.inl ⟨rfl, rfl⟩) hw (h.isSome_of_mem_heard (List.mem_toFinset.mp hs)).2
  have hdecides : (h.election w (g.roundOf w)).Decides d y
      (majority (g.specVote registry.len w d) (g.heard y).toFinset) := by
    refine ⟨mem_jointWitnesses (.inl ⟨rfl, rfl⟩) ?_, ?_⟩
    · rw [show g.roundOf w + 1 + (d + 1) = g.roundOf y by omega]
      exact hy
    · rw [hbelow, votesFor_congr hvotes]
      exact hsuper
  rw [← h.vote_eq (n := g.roundOf w) (.inl ⟨rfl, rfl⟩) hw hstored, hdecides.vote_eq]
  exact Election.unanimous_succ_of_super (decide_eq_false hcoin) hdecides.layer_super

/-- So does a supermajority of the direct votes that one graph holds for the layer above them. -/
theorem unanimous_of_direct (h : Peers H S registry g g') (hw : Meets.Both g g' w)
    (hsuper : 2 * registry.len < 3 * votesFor (g.specVote registry.len w 0)
      (g.witnessesOfRound (g.roundOf w + 1)).toFinset v) :
    (h.election w (g.roundOf w)).Unanimous 1 v := by
  refine Election.unanimous_succ_of_super
    (decide_eq_false (by decide : ¬(0 + 1 + 1) % coinRoundFrequency = 0)) ?_
  have hvotes : ∀ s ∈ (g.witnessesOfRound (g.roundOf w + 1)).toFinset,
      (h.election w (g.roundOf w)).vote 0 s = g.specVote registry.len w 0 s := by
    intro s hs
    obtain ⟨r, hr, -, -⟩ := h.sound.wf.witness_sound (List.mem_toFinset.mp hs)
    exact h.vote_eq (.inl ⟨rfl, rfl⟩) hw (Option.isSome_of_eq_some hr)
  have hsub : (g.witnessesOfRound (g.roundOf w + 1)).toFinset ⊆
      (h.election w (g.roundOf w)).layer 0 := fun s hs =>
    mem_jointWitnesses (.inl ⟨rfl, rfl⟩) (List.mem_toFinset.mp hs)
  rw [← votesFor_congr hvotes] at hsuper
  exact hsuper.trans_le (Nat.mul_le_mul_left 3 (votesFor_mono hsub))

/-- What a voter behind a unanimous layer answers. -/
theorem answer_eq (h : Peers H S registry g g') (hw : Meets.Both g g' w)
    (hall : (h.election w (g.roundOf w)).Unanimous k v)
    (hy : y ∈ g'.witnessesOfRound (g'.roundOf y)) (hk : g.roundOf w + (k + 1) ≤ g'.roundOf y)
    {o : VoteOutcome} (ho : g'.Answers registry.len y w o) :
    o = .cast v ∨ o = .decided (.ofVote v) := by
  obtain ⟨d, hd, hanswer⟩ := ho
  have hround := h.roundOf_eq hw
  rw [h.specVote_of_unanimous hw hall (by omega) hy hd] at hanswer
  rcases hanswer with hcast | ⟨-, -, hdecided, -⟩
  · exact .inl hcast
  · exact .inr hdecided

end Peers

/-! ## Calls in concrete runs -/

/-- The state in which the new witness `x` comes to the candidate `w`, after the candidates `done`,
if the insertion into `g` gets there. -/
def beforeCandidate (g : Hashgraph) (x : EventHash) (event : Event) (i : ℕ)
    (done rest : List EventHash) (w : EventHash) : Option Hashgraph :=
  let t₀ := g.placed x event i
  if g.Checked x event i ∧ g.entersAsWitness x event i = true ∧
      t₀.candidates inOrder (t₀.roundOf x) = done ++ w :: rest then
    (outcome? (done.forM (voteOnCandidate x) t₀)).map Prod.snd
  else none

/-- The answer of the new witness on the candidate `w`, while the election is open. -/
def answerOn (x w : EventHash) (t : Hashgraph) : Option VoteOutcome :=
  if t.fameOf w = some .undecided then (outcome? (voteOf (t.roundOf x + 1) x w t)).map Prod.fst
  else none

/-- The early decision on the candidate `w` after the vote of the new witness, if its vote left the
election open. -/
def eagerOn (x w : EventHash) (t : Hashgraph) : Option FameStatus :=
  (outcome? (vote x w t)).bind fun (_, t') =>
    if t'.fameOf w = some .undecided then (outcome? (tryEagerDecide w t')).bind Prod.fst else none

/-- After `events` the new witness `event` answers `o` on the candidate `w`, in a state as `q`
says. -/
def runAnswers (registry : MembershipRegistry) (events : List Event) (event : Event) (i : ℕ)
    (done rest : List EventHash) (w : EventHash) (o : VoteOutcome) (q : Hashgraph → Bool) : Bool :=
  (replay stampHash (.new registry) (events.map (.insert inOrder))).any fun g =>
    (g.beforeCandidate event.timestamp event i done rest w).any fun t =>
      decide (answerOn event.timestamp w t = some o) && q t

/-- After `events` the candidate `w` is decided early behind the vote of the new witness `event`. -/
def runDecides (registry : MembershipRegistry) (events : List Event) (event : Event) (i : ℕ)
    (done rest : List EventHash) (w : EventHash) (status : FameStatus) : Bool :=
  (replay stampHash (.new registry) (events.map (.insert inOrder))).any fun g =>
    (g.beforeCandidate event.timestamp event i done rest w).any fun t =>
      decide (eagerOn event.timestamp w t = some status)

section Runs

variable {H : Hasher} {S : Set Event} {registry : MembershipRegistry} {g t : Hashgraph}
  {x w : EventHash} {event : Event} {i : ℕ} {done rest : List EventHash}

theorem of_beforeCandidate (hg : Reached H (fun _ op => op.Inserts S) registry g)
    (hevent : event ∈ S) (hhash : H event = .ok x)
    (h : g.beforeCandidate x event i done rest w = some t) :
    StartsVoting H S registry x (g.placed x event i) ∧
      (g.placed x event i).candidates inOrder ((g.placed x event i).roundOf x) = done ++ w :: rest ∧
      done.forM (voteOnCandidate x) (g.placed x event i) = .ok ⟨⟩ t := by
  simp only [beforeCandidate] at h
  split at h
  case isTrue hready =>
    obtain ⟨hc, hwit, hcandidates⟩ := hready
    obtain ⟨p, hp, rfl⟩ := Option.map_eq_some_iff.mp h
    exact ⟨⟨g, event, i, hg, hevent, hhash, hc, hwit, rfl⟩, hcandidates, eq_ok_of_outcome? hp⟩
  case isFalse => cases h

theorem exists_voteCall {events : List Event} {o : VoteOutcome} {q : Hashgraph → Bool}
    (hevents : ∀ e ∈ events, e ∈ S) (hevent : event ∈ S)
    (h : runAnswers registry events event i done rest w o q = true) :
    ∃ t, VoteCall stampHash S registry event.timestamp w t o ∧ q t = true := by
  obtain ⟨g, hg, hvalues⟩ := exists_built (S := S) _ _ _ hevents h
  obtain ⟨t, hbefore, hvalues⟩ := (Option.any_eq_true _ _).mp hvalues
  rw [Bool.and_eq_true, decide_eq_true_eq] at hvalues
  obtain ⟨hstart, hcandidates, hrun⟩ := of_beforeCandidate hg hevent rfl hbefore
  obtain ⟨ho, hq⟩ := hvalues
  unfold answerOn at ho
  split at ho
  case isTrue hopen =>
    obtain ⟨p, hp, rfl⟩ := Option.map_eq_some_iff.mp ho
    exact ⟨t, ⟨hopen, inOrder, _, _, _, p.2, hstart, .candidate hcandidates hrun,
      eq_ok_of_outcome? hp⟩, hq⟩
  case isFalse => cases ho

theorem exists_eagerCall {events : List Event} {status : FameStatus}
    (hevents : ∀ e ∈ events, e ∈ S) (hevent : event ∈ S)
    (h : runDecides registry events event i done rest w status = true) :
    ∃ t, EagerCall stampHash S registry w t status := by
  obtain ⟨g, hg, hvalues⟩ := exists_built (S := S) _ _ _ hevents h
  obtain ⟨t, hbefore, hvalues⟩ := (Option.any_eq_true _ _).mp hvalues
  obtain ⟨hstart, hcandidates, hrun⟩ := of_beforeCandidate hg hevent rfl hbefore
  obtain ⟨⟨o, t'⟩, hvote, hs⟩ := Option.bind_eq_some_iff.mp (of_decide_eq_true hvalues)
  simp only at hs
  split at hs
  case isTrue hopen =>
    obtain ⟨⟨verdict, t''⟩, hp, hverdict⟩ := Option.bind_eq_some_iff.mp hs
    obtain rfl : verdict = some status := hverdict
    exact ⟨t', hopen, inOrder, _, _, t'', hstart,
      .candidate hcandidates hrun (eq_ok_of_outcome? hvote), eq_ok_of_outcome? hp⟩
  case isFalse => cases hs

end Runs

/-! ## What a decision binds -/

section Results

variable {H : Hasher} {S : Set Event} {registry : MembershipRegistry} {t : Hashgraph}
  {y w : EventHash} {status : FameStatus}

/-- Over events without forks: if `vote_of` decides an election outside a coin round, then in every
run the witnesses of the voter's round and of all later rounds vote for the same value or decide it,
and so are their votes recorded. -/
theorem decision_locks_votes (hfree : H.CollisionFree S) (hforks : ForkFree S)
    (hdecide : VoteCall H S registry y w t (.decided status))
    (hcoin : (t.roundOf y - t.roundOf w) % coinRoundFrequency ≠ 0) :
    ∃ v, status = .ofVote v ∧
      (∀ y' t' o, VoteCall H S registry y' w t' o → t.roundOf y ≤ t'.roundOf y' →
        o = .cast v ∨ o = .decided status) ∧
      ∀ g' y' v', Reached H (fun _ op => op.Inserts S) registry g' →
        g'.recordedVote y' w = some v' → t.roundOf y ≤ g'.roundOf y' → v' = v := by
  obtain ⟨g, hg, hskel, hy, hw, d, hd, hanswer⟩ := hdecide.exists_answers hfree
  rcases hanswer with hcast | ⟨d, rfl, hdecided, hsuper⟩
  · cases hcast
  rw [← roundOf_of_skeleton_eq hskel, ← roundOf_of_skeleton_eq hskel] at hcoin
  rw [← roundOf_of_skeleton_eq hskel]
  have hdistance : (d + 2) % coinRoundFrequency ≠ 0 := by
    rwa [show g.roundOf y - g.roundOf w = d + 2 by omega] at hcoin
  obtain rfl : status = .ofVote (g.specVote registry.len w (d + 1) y) := by
    injection hdecided
  have hall {g' : Hashgraph} (hpeers : Peers H S registry g g') (hw' : (g'.get? w).isSome) :=
    hpeers.unanimous_of_super ⟨hw, hw'⟩ hy hd hsuper hdistance
  refine ⟨_, rfl, fun y' t' o hcall hle => ?_, fun g' y' v' hg' hv' hle => ?_⟩
  · obtain ⟨g', hg', hskel', hy', hw', ho⟩ := hcall.exists_answers hfree
    rw [← roundOf_of_skeleton_eq hskel'] at hle
    have hpeers : Peers H S registry g g' := ⟨hfree, hforks, hg, hg'⟩
    exact hpeers.answer_eq ⟨hw, hw'⟩ (hall hpeers hw') hy' (by omega) ho
  · obtain ⟨hw', hy', d', hd', rfl⟩ := hg'.votesFollow hfree w y' v' hv'
    have hpeers : Peers H S registry g g' := ⟨hfree, hforks, hg, hg'⟩
    have hround := hpeers.roundOf_eq ⟨hw, hw'⟩
    exact hpeers.specVote_of_unanimous ⟨hw, hw'⟩ (hall hpeers hw') (by omega) hy' hd'

/-- In a run of one member event 3 decides that event 1 is famous, two rounds below it. -/
theorem decision_locks_votes_solo :
    ∃ t, VoteCall stampHash {e | e ∈ soloChain 3} (plainRegistry 1) 3 1 t (.decided .famous) ∧
      (t.roundOf 3 - t.roundOf 1) % coinRoundFrequency ≠ 0 ∧
      ∀ y' t' o, VoteCall stampHash {e | e ∈ soloChain 3} (plainRegistry 1) y' 1 t' o →
        t.roundOf 3 ≤ t'.roundOf y' → o = .cast true ∨ o = .decided .famous := by
  have hrun : runAnswers (plainRegistry 1) ((soloChain 3).take 2) (plainEvent 3 0 (some 2) none) 0
      [] [2] 1 (.decided .famous)
      (fun t => decide ((t.roundOf 3 - t.roundOf 1) % coinRoundFrequency ≠ 0)) = true := by
    decide +kernel
  obtain ⟨t, hcall, hcoin⟩ := exists_voteCall (S := {e | e ∈ soloChain 3})
    (fun _ he => List.mem_of_mem_take he) (by decide) hrun
  have hforks : ForkFree {e | e ∈ soloChain 3} := forkFree_of_pairwise (by decide)
  obtain ⟨v, hv, hvotes, -⟩ := decision_locks_votes (collisionFree_soloChain 3) hforks hcall
    (of_decide_eq_true hcoin)
  obtain rfl : v = true := by
    cases v
    · cases hv
    · rfl
  exact ⟨t, hcall, of_decide_eq_true hcoin, hvotes⟩

/-- Member 0 does not see event 3 from its first event of round 2; members 2 and 1 do, and event 12
votes with two to one for it. The first event of member 3 of round 2 comes last. -/
def lateVoter : List Event :=
  [plainEvent 1 0 none none, plainEvent 2 1 none none, plainEvent 3 2 none none,
    plainEvent 4 3 none none, plainEvent 5 0 (some 1) (some 4), plainEvent 6 1 (some 2) (some 5),
    plainEvent 7 3 (some 4) (some 6), plainEvent 8 0 (some 5) (some 7),
    plainEvent 9 2 (some 3) (some 8), plainEvent 10 1 (some 6) (some 9),
    plainEvent 11 0 (some 8) (some 10), plainEvent 12 2 (some 9) (some 11),
    plainEvent 13 3 (some 7) (some 10)]

/-- Events 8 and 9 of members 0 and 1 do not see event 3, event 10 of member 2 does, and event 12
votes against it with two to one. Then two branches of member 3 come, both of which see it. -/
def doubledVoter : List Event :=
  [plainEvent 1 0 none none, plainEvent 2 1 none none, plainEvent 3 2 none none,
    plainEvent 4 3 none none, plainEvent 5 0 (some 1) (some 4), plainEvent 6 1 (some 2) (some 5),
    plainEvent 7 3 (some 4) (some 6), plainEvent 8 0 (some 5) (some 7),
    plainEvent 9 1 (some 6) (some 8), plainEvent 10 2 (some 3) (some 9),
    plainEvent 11 0 (some 8) (some 10), plainEvent 12 1 (some 9) (some 11),
    plainEvent 13 3 (some 7) (some 10), plainEvent 14 3 (some 7) (some 10)]

end Results

end Hashgraph

end JKain
