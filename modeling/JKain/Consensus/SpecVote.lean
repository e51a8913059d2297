import JKain.Consensus.RoundSpec
import JKain.Lib.Election

/-!
# Votes are a function of the graph

The specification gives the vote of a witness `y` on a candidate `w` by recursion on the distance of
their rounds: what `y` sees at distance one, then the majority of the votes of the witnesses of the
round below that `y` strongly sees, and in a coin round without a supermajority a bit of the
signature of `y`. `specVote` is this recursion. The program records votes as they become known, in
the order of the insertions, and stops voting when an election has ended; every vote it records is
the one of the specification, and that does not depend on the graph it is computed in.
-/

namespace JKain

open Std JKain.Lib

/-- The fame that a vote stands for. -/
def FameStatus.ofVote (v : Bool) : FameStatus := if v then .famous else .notFamous

namespace Hashgraph

/-- The vote of `y` on `w`, which is `d + 1` rounds below it, among `members` members. -/
def specVote (g : Hashgraph) (members : ℕ) (w : EventHash) : ℕ → EventHash → Bool
  | 0, y => g.sees y w
  | d + 1, y =>
    let v := majority (g.specVote members w d) (g.heard y).toFinset
    if (d + 2) % coinRoundFrequency = 0 ∧
        ¬2 * members < 3 * votesFor (g.specVote members w d) (g.heard y).toFinset v then
      g.coinOf y
    else v

section Outcome

variable {g g' : Hashgraph} {members d : ℕ} {w y : EventHash} {votes : EventHash → Option Bool}

theorem votesFor_toFinset {l : List EventHash} (hl : l.Nodup) (f : EventHash → Bool) (b : Bool) :
    votesFor f l.toFinset b = l.countP (f · == b) := by
  have hfilter : (l.toFinset.filter fun s => f s = b) = (l.filter (f · == b)).toFinset := by
    ext s
    simp
  rw [votesFor, hfilter, List.toFinset_card_of_nodup (hl.filter _), List.countP_eq_length_filter]

theorem countP_votes {l : List EventHash} {f : EventHash → Bool}
    (h : ∀ s ∈ l, votes s = some (f s)) (b : Bool) :
    l.countP (votes · == some b) = l.countP (f · == b) := by
  refine List.countP_congr fun s hs => ?_
  rw [h s hs]
  simp

/-- What a voter two rounds or more above the candidate makes of the votes of the specification. -/
theorem outcome_eq (hround : g.roundOf y = g.roundOf w + (d + 2))
    (htotal : g.totalAt (g.roundOf y) = members) (hnodup : (g.heard y).Nodup)
    (hvotes : ∀ s ∈ g.heard y, votes s = some (g.specVote members w d s)) :
    g.outcome y w votes =
      if 2 * members < 3 * votesFor (g.specVote members w d) (g.heard y).toFinset
          (majority (g.specVote members w d) (g.heard y).toFinset) then
        .decided (.ofVote (g.specVote members w (d + 1) y))
      else .cast (g.specVote members w (d + 1) y) := by
  have hcount (b : Bool) : (g.heard y).countP (votes · == some b) =
      votesFor (g.specVote members w d) (g.heard y).toFinset b := by
    rw [countP_votes hvotes, votesFor_toFinset hnodup]
  have hdistance : g.roundOf y - g.roundOf w = d + 2 := by omega
  rw [outcome, if_neg (by omega), hcount, hcount, conclusion, hdistance, htotal, specVote]
  generalize g.specVote members w d = f
  generalize hH : (g.heard y).toFinset = heard
  have hmajority : decide (votesFor f heard true ≥ votesFor f heard false) = majority f heard := rfl
  have hstake : (if majority f heard then votesFor f heard true else votesFor f heard false) =
      votesFor f heard (majority f heard) := by
    cases majority f heard <;> rfl
  rw [hmajority, hstake]
  generalize majority f heard = v
  by_cases hsuper : 2 * members < 3 * votesFor f heard v
  · have hdecide : decide (votesFor f heard v * 3 > members * 2) = true :=
      decide_eq_true (by omega)
    simp only [hdecide, Bool.not_true, Bool.and_false, Bool.false_eq_true, if_false, if_true,
      hsuper, not_true_eq_false, and_false]
    rfl
  · have hdecide : decide (votesFor f heard v * 3 > members * 2) = false :=
      decide_eq_false (by omega)
    simp only [hdecide, Bool.not_false, Bool.and_true, Bool.false_eq_true, if_false, hsuper,
      not_false_eq_true, and_true, decide_eq_true_eq]
    split <;> rfl

theorem specVote_of_skeleton_eq (h : g'.skeleton = g.skeleton) :
    g'.specVote members w d y = g.specVote members w d y := by
  induction d generalizing y with
  | zero => rw [specVote, specVote, ← sees_skeleton, h, sees_skeleton]
  | succ d ih =>
    have hfun : g'.specVote members w d = g.specVote members w d := funext fun _ => ih
    rw [specVote, specVote, hfun, heard_of_skeleton_eq h, ← coinOf_skeleton, h, coinOf_skeleton]

end Outcome

/-! ## The vote in another graph -/

section Meeting

variable {g g' : Hashgraph} {members d : ℕ} {w y s : EventHash}

namespace Meets

/-- What a voter hears in one graph it hears in the other. -/
theorem mem_heard (h : Meets g g') (hwf : g.WellFormed) (hwf' : g'.WellFormed)
    (hrounds : ∀ z, Both g g' z → SameRound g g' z)
    (htotals : ∀ n, g.memberCountAtRound n = g'.memberCountAtRound n) (hy : Both g g' y)
    (hs : s ∈ g.heard y) : s ∈ g'.heard y ∧ Both g g' s := by
  obtain ⟨ry, hry⟩ := Option.isSome_iff_exists.mp hy.1
  obtain ⟨ry', hry'⟩ := Option.isSome_iff_exists.mp hy.2
  obtain ⟨hmem, hstrong⟩ := List.mem_filter.mp hs
  rw [hwf.stronglySees_eq hmem] at hstrong
  have hboth := (h.anc hy (hwf.anc_of_stronglySeesAt h.whole hy.1 hmem hstrong)).2
  obtain ⟨rs, hrs, hround, hwit⟩ := hwf.witness_sound hmem
  obtain ⟨rs', hrs'⟩ := Option.isSome_iff_exists.mp hboth.2
  obtain ⟨hround', hwit'⟩ := hrounds s hboth rs rs' hrs hrs'
  have hsame : g.roundOf y = g'.roundOf y := by
    rw [roundOf_eq hry, roundOf_eq hry', (hrounds y hy ry ry' hry hry').1]
  have hmem' : s ∈ g'.witnessesOfRound (g'.roundOf y - 1) := by
    rw [← hsame, ← hround, hround']
    exact hwf'.witness_complete hrs' (hwit' ▸ hwit)
  refine ⟨List.mem_filter.mpr ⟨hmem', ?_⟩, hboth⟩
  rw [hwf'.stronglySees_eq hmem', ← hsame, ← h.stronglySeesAt_eq hy hboth (htotals _)]
  exact hstrong

theorem coinOf_eq (h : Meets g g') (hy : Both g g' y) : g.coinOf y = g'.coinOf y := by
  obtain ⟨r, hr⟩ := Option.isSome_iff_exists.mp hy.1
  obtain ⟨r', hr'⟩ := Option.isSome_iff_exists.mp hy.2
  simp only [coinOf, coinRoundVote, hr, hr', h.event_eq hr hr']

/-- The vote of the specification is the same in both graphs. -/
theorem specVote_eq (h : Meets g g') (hwf : g.WellFormed) (hwf' : g'.WellFormed)
    (hrounds : ∀ z, Both g g' z → SameRound g g' z)
    (htotals : ∀ n, g.memberCountAtRound n = g'.memberCountAtRound n) (hw : Both g g' w)
    (hy : Both g g' y) : g.specVote members w d y = g'.specVote members w d y := by
  induction d generalizing y with
  | zero => exact h.sees_eq hy hw
  | succ d ih =>
    have hrounds' : ∀ z, Both g' g z → SameRound g' g z := fun z hz r r' hr hr' => by
      obtain ⟨hround, hwit⟩ := hrounds z hz.symm r' r hr' hr
      exact ⟨hround.symm, hwit.symm⟩
    have hheard : (g.heard y).toFinset = (g'.heard y).toFinset := by
      ext s
      rw [List.mem_toFinset, List.mem_toFinset]
      exact ⟨fun hs => (h.mem_heard hwf hwf' hrounds htotals hy hs).1,
        fun hs => (h.symm.mem_heard hwf' hwf hrounds' (fun n => (htotals n).symm) hy.symm hs).1⟩
    have hvotes : ∀ s ∈ (g'.heard y).toFinset,
        g.specVote members w d s = g'.specVote members w d s := by
      intro s hs
      rw [← hheard, List.mem_toFinset] at hs
      exact ih (h.mem_heard hwf hwf' hrounds htotals hy hs).2
    rw [specVote, specVote, hheard, majority_congr hvotes, votesFor_congr hvotes, h.coinOf_eq hy]

end Meets

end Meeting

/-! ## Ballots that follow the specification -/

/-- What the specification lets `y` answer about `w`: its vote, or the end of the election if the
supermajority of what it hears is for that vote. -/
def Answers (g : Hashgraph) (members : ℕ) (y w : EventHash) (o : VoteOutcome) : Prop :=
  ∃ d, g.roundOf y = g.roundOf w + (d + 1) ∧
    (o = .cast (g.specVote members w d y) ∨
      ∃ d', d = d' + 1 ∧ o = .decided (.ofVote (g.specVote members w d y)) ∧
        2 * members < 3 * votesFor (g.specVote members w d') (g.heard y).toFinset
          (majority (g.specVote members w d') (g.heard y).toFinset))

/-- Every vote of the ballot on `w` is a witness's, and the one of the specification. -/
def Follows (g : Hashgraph) (members : ℕ) (w : EventHash) (b : Ballot) : Prop :=
  ∀ y v, b.votes y = some v → (g.get? w).isSome ∧ y ∈ g.witnessesOfRound (g.roundOf y) ∧
    ∃ d, g.roundOf y = g.roundOf w + (d + 1) ∧ v = g.specVote members w d y

section Follows

variable {g g' : Hashgraph} {members n : ℕ} {w y : EventHash} {b : Ballot}

theorem WellFormed.roundOf_witness (hwf : g.WellFormed) (hy : y ∈ g.witnessesOfRound n) :
    g.roundOf y = n := by
  obtain ⟨r, hr, hround, -⟩ := hwf.witness_sound hy
  rw [roundOf_eq hr, hround]

/-- A voter whose witnesses below have all voted as the specification says answers as it says. -/
theorem Follows.outcome (h : g.Follows members w b) (hwf : g.WellFormed)
    (htotal : ∀ n, 1 ≤ n → g.totalAt n = members) (hlt : g.roundOf w < g.roundOf y)
    (hready : g.roundOf w + 1 < g.roundOf y → ∀ s ∈ g.heard y, (b.votes s).isSome) :
    g.Answers members y w (g.outcome y w b.votes) := by
  obtain ⟨d, hd⟩ : ∃ d, g.roundOf y = g.roundOf w + (d + 1) :=
    ⟨g.roundOf y - g.roundOf w - 1, by omega⟩
  refine ⟨d, hd, ?_⟩
  cases d with
  | zero =>
    rw [Hashgraph.outcome, if_pos hd]
    exact .inl rfl
  | succ d =>
    have hvotes : ∀ s ∈ g.heard y, b.votes s = some (g.specVote members w d s) := by
      intro s hs
      obtain ⟨v, hv⟩ := Option.isSome_iff_exists.mp (hready (by omega) s hs)
      obtain ⟨-, -, d', hd', rfl⟩ := h s v hv
      have hround := hwf.roundOf_witness (List.mem_filter.mp hs).1
      obtain rfl : d' = d := by omega
      exact hv
    rw [outcome_eq hd (htotal _ (by omega)) ((hwf.witness_nodup _).filter _) hvotes]
    by_cases hsuper : 2 * members < 3 * votesFor (g.specVote members w d) (g.heard y).toFinset
        (majority (g.specVote members w d) (g.heard y).toFinset)
    · rw [if_pos hsuper]
      exact .inr ⟨d, rfl, rfl, hsuper⟩
    · rw [if_neg hsuper]
      exact .inl rfl

/-- An early decision rests on a supermajority of the direct votes of the next round. -/
theorem Follows.super_of_eagerOutcome (h : g.Follows members w b) (hwf : g.WellFormed)
    (htotal : ∀ n, 1 ≤ n → g.totalAt n = members) {status : FameStatus}
    (heager : g.eagerOutcome w b.votes = some status) :
    ∃ v, status = .ofVote v ∧ 2 * members < 3 * votesFor (g.specVote members w 0)
      (g.witnessesOfRound (g.roundOf w + 1)).toFinset v := by
  have hcount (v : Bool) (hall : ((g.witnessesOfRound (g.roundOf w + 1)).filterMap b.votes).length =
        (g.witnessesOfRound (g.roundOf w + 1)).length) :
      ((g.witnessesOfRound (g.roundOf w + 1)).filterMap b.votes).count v =
        votesFor (g.specVote members w 0) (g.witnessesOfRound (g.roundOf w + 1)).toFinset v := by
    have hvotes : ∀ s ∈ g.witnessesOfRound (g.roundOf w + 1),
        b.votes s = some (g.specVote members w 0 s) := by
      intro s hs
      obtain ⟨v, hv⟩ := Option.isSome_iff_exists.mp (List.filterMap_length_eq_length.mp hall s hs)
      obtain ⟨-, -, d, hd, rfl⟩ := h s v hv
      have hround := hwf.roundOf_witness hs
      obtain rfl : d = 0 := by omega
      exact hv
    rw [votesFor_toFinset (hwf.witness_nodup _), List.filterMap_congr hvotes,
      List.filterMap_eq_map', List.count, List.countP_map]
    rfl
  simp only [eagerOutcome] at heager
  split_ifs at heager with hgates hyes hno
  · push Not at hgates
    rw [hcount true hgates.2.2.2.2.2, htotal _ (by omega)] at hyes
    exact ⟨true, (Option.some.inj heager).symm, by omega⟩
  · push Not at hgates
    rw [hcount false hgates.2.2.2.2.2, htotal _ (by omega)] at hno
    exact ⟨false, (Option.some.inj heager).symm, by omega⟩

theorem Follows.ask (h : g.Follows members w b) (hwf : g.WellFormed)
    (htotal : ∀ n, 1 ≤ n → g.totalAt n = members) (hw : (g.get? w).isSome)
    (hy : y ∈ g.witnessesOfRound (g.roundOf y)) (hlt : g.roundOf w < g.roundOf y)
    (hready : g.roundOf w + 1 < g.roundOf y → b.fame = some .undecided →
      ∀ s ∈ g.heard y, (b.votes s).isSome) : g.Follows members w (b.ask g w y) := by
  unfold Ballot.ask
  split
  case isFalse => exact h
  case isTrue hopen =>
    obtain ⟨d, hd, hcast | ⟨d', -, hdecided, -⟩⟩ :=
      h.outcome hwf htotal hlt fun hfar => hready hfar hopen.1
    · -- The one new vote is the answer of `y`.
      rw [hcast]
      intro z v (hz : Function.update b.votes y (some _) z = some v)
      by_cases hzy : z = y
      · subst hzy
        rw [Function.update_self] at hz
        exact ⟨hw, hy, d, hd, (Option.some.inj hz).symm⟩
      · rw [Function.update_of_ne hzy] at hz
        exact h z v hz
    · rw [hdecided]
      exact h

theorem votes_eager (b : Ballot) (g : Hashgraph) (w : EventHash) :
    (b.eager g w).votes = b.votes := by
  unfold Ballot.eager
  split
  · cases g.eagerOutcome w b.votes <;> rfl
  · rfl

theorem Follows.eager (h : g.Follows members w b) : g.Follows members w (b.eager g w) := by
  intro y v hv
  rw [votes_eager] at hv
  exact h y v hv

/-- Asking witnesses of one round, when those of the round below have voted. -/
theorem Follows.foldl_ask (h : g.Follows members w b) (hwf : g.WellFormed)
    (htotal : ∀ n, 1 ≤ n → g.totalAt n = members) (hw : (g.get? w).isSome)
    (hlt : g.roundOf w < n) {l : List EventHash} (hl : l ⊆ g.witnessesOfRound n)
    (hbelow : g.roundOf w + 1 < n → b.fame = some .undecided →
      ∀ s ∈ g.witnessesOfRound (n - 1), (b.votes s).isSome) :
    g.Follows members w (l.foldl (Ballot.ask g w) b) := by
  induction l generalizing b with
  | nil => exact h
  | cons y l ih =>
    have hy := hl List.mem_cons_self
    have hround := hwf.roundOf_witness hy
    have hasked : g.Follows members w (b.ask g w y) := by
      refine h.ask hwf htotal hw (by rwa [hround]) (by omega) fun hfar hopen s hs => ?_
      have hmem := (List.mem_filter.mp hs).1
      rw [hround] at hmem
      exact hbelow (by omega) hopen s hmem
    refine ih hasked (fun z hz => hl (List.mem_cons_of_mem y hz)) fun hfar hopen s hs => ?_
    have hgrows := Ballot.ask_grows b g w y
    obtain ⟨v, hv⟩ := Option.isSome_iff_exists.mp (hbelow hfar (hgrows.undecided hopen) s hs)
    rw [hgrows.votes_kept hv]
    rfl

/-- The backfill asks round after round, so the votes below a voter are there when it is asked. -/
theorem Follows.foldl_backfillRound (h : g.Follows members w b) (hwf : g.WellFormed)
    (htotal : ∀ n, 1 ≤ n → g.totalAt n = members) (hw : (g.get? w).isSome)
    (hlt : g.roundOf w < n)
    (hbelow : g.roundOf w + 1 < n → b.fame = some .undecided →
      ∀ s ∈ g.witnessesOfRound (n - 1), (b.votes s).isSome) (k : ℕ) :
    g.Follows members w ((List.range' n k).foldl (Ballot.backfillRound g w) b) := by
  induction k generalizing n b with
  | zero => exact h
  | succ k ih =>
    rw [List.range'_succ, List.foldl_cons]
    refine ih (h.foldl_ask hwf htotal hw hlt (List.Subset.refl _) hbelow).eager (by omega)
      fun _ hopen s hs => ?_
    exact Ballot.votes_backfillRound_isSome hopen hs

theorem Follows.of_skeleton_eq (h : g.Follows members w b) (hskel : g'.skeleton = g.skeleton) :
    g'.Follows members w b := by
  intro y v hv
  obtain ⟨hw, hy, d, hd, rfl⟩ := h y v hv
  refine ⟨by rwa [isSome_get?_of_skeleton_eq hskel], ?_, d, ?_,
    (specVote_of_skeleton_eq hskel).symm⟩
  · rw [roundOf_of_skeleton_eq hskel, witnessesOfRound_of_skeleton_eq hskel]
    exact hy
  · rw [roundOf_of_skeleton_eq hskel, roundOf_of_skeleton_eq hskel, hd]

end Follows

/-! ## Recorded votes -/

/-- Every recorded vote is the one of the specification. -/
def VotesFollow (g : Hashgraph) (members : ℕ) : Prop := ∀ w, g.Follows members w (g.ballot w)

section Recorded

variable {H : Hasher} {S : Set Event} {registry : MembershipRegistry} {g g' : Hashgraph}
  {members i : ℕ} {y w hash : EventHash} {event : Event}

/-- The votes that the new witness `y` casts, and those that are cast on it, follow too. -/
theorem VotesFollow.polled (h : g.VotesFollow members) (hwf : g.WellFormed)
    (htotal : ∀ n, 1 ≤ n → g.totalAt n = members) (hy : g.fameOf y = some .undecided)
    (hcast : g.VotesCast (· = y)) (w : EventHash) : g.Follows members w (g.polled y w) := by
  have hstored {u : EventHash} (hu : g.fameOf u = some .undecided) : (g.get? u).isSome := by
    obtain ⟨r, hr, -⟩ := exists_witness_of_fameOf hu
    exact Option.isSome_of_eq_some hr
  unfold Hashgraph.polled
  split_ifs with hwy hcandidate
  · -- The first round that is backfilled has no round of voters below it.
    subst hwy
    exact ((h w).foldl_backfillRound hwf htotal (hstored hy) (Nat.lt_succ_self _)
      (fun hfar => absurd hfar (Nat.lt_irrefl _)) _).eager
  · have hywit : y ∈ g.witnessesOfRound (g.roundOf y) := by
      obtain ⟨r, hr, hwit⟩ := exists_witness_of_fameOf hy
      rw [roundOf_eq hr]
      exact hwf.witness_complete hr hwit
    refine ((h w).ask hwf htotal (hstored hcandidate.1) hywit hcandidate.2
      fun hfar _ s hs => ?_).eager
    have hmem := (List.mem_filter.mp hs).1
    have hround := hwf.roundOf_witness hmem
    refine hcast w s hcandidate.1 (by rwa [hround]) (by omega) hwy ?_
    rintro rfl
    omega
  · exact h w

theorem Checked.sameRound_placed (hc : g.Checked hash event i) (z : EventHash) :
    SameRound g (g.placed hash event i) z := by
  intro r r' hr hr'
  rw [placed, get?_place, if_neg (hc.ne hr)] at hr'
  obtain rfl := Option.some.inj (hr.symm.trans hr')
  exact ⟨rfl, rfl⟩

/-- The votes recorded before an insertion are those of the specification after it. -/
theorem VotesFollow.placed (h : g.VotesFollow members) (hwf : g.WellFormed) (hw : g.Whole)
    (hc : g.Checked hash event i) (hfit : g.Fits hash event) :
    (g.placed hash event i).VotesFollow members := by
  intro w y v hv
  have hvote : (g.placed hash event i).recordedVote y w = some v := hv
  rw [Hashgraph.placed, recordedVote_place] at hvote
  split at hvote
  case isTrue => cases hvote
  case isFalse hy =>
    obtain ⟨hwstored, hywit, d, hd, hspec⟩ := h w y v hvote
    obtain ⟨rw', hrw⟩ := Option.isSome_iff_exists.mp hwstored
    have hkept {x : EventHash} (hx : x ≠ hash) : (g.placed hash event i).get? x = g.get? x := by
      rw [Hashgraph.placed, get?_place, if_neg hx]
    have hystored : (g.get? y).isSome := by
      by_contra hnone
      rw [roundOf, Option.not_isSome_iff_eq_none.mp hnone] at hd
      exact absurd hd (by simp)
    have hboth {x : EventHash} (hx : x ≠ hash) (hstored : (g.get? x).isSome) :
        Meets.Both g (g.placed hash event i) x := ⟨hstored, by rwa [hkept hx]⟩
    refine ⟨(hboth (hc.ne hrw) hwstored).2, ?_, d, ?_, ?_⟩
    · obtain ⟨r, hr, -, hwit⟩ := hwf.witness_sound hywit
      have hr' : (g.placed hash event i).get? y = some r := by rw [hkept hy, hr]
      rw [roundOf_eq hr']
      exact (hwf.place hc hfit _).witness_complete hr' hwit
    · rw [roundOf, roundOf, hkept hy, hkept (hc.ne hrw)]
      exact hd
    · rw [hspec]
      exact (hc.meets hw hwf.toConsistent hfit _).specVote_eq hwf (hwf.place hc hfit _)
        (fun z _ => hc.sameRound_placed z) (fun n => (memberCountAtRound_place n).symm)
        (hboth (hc.ne hrw) hwstored) (hboth hy hystored)

theorem Inserted.votesFollow (hins : g.Inserted hash event i g') (h : g.VotesFollow members)
    (hwf : g.WellFormed) (hw : g.Whole) (hcast : g.VotesCast fun _ => False)
    (htotal : ∀ n, 1 ≤ n → g.totalAt n = members) (hc : g.Checked hash event i)
    (hfit : g.Fits hash event) : g'.VotesFollow members := by
  have hplaced := h.placed hwf hw hc hfit
  have htotal' (n : ℕ) (hn : 1 ≤ n) : (g.placed hash event i).totalAt n = members := by
    rw [← htotal n hn]
    exact totalAt_of_memberCountAtRound_eq (memberCountAtRound_place n)
  intro w
  refine Follows.of_skeleton_eq ?_ hins.advances.skeleton_eq
  rw [hins.ballot_eq]
  split
  case isTrue hwit =>
    refine hplaced.polled (hwf.place hc hfit _) htotal' ?_ (hcast.place _) w
    rw [Hashgraph.placed, fameOf_place, if_pos rfl]
    exact if_pos hwit
  case isFalse => exact hplaced w

theorem Reached.votesFollow (hfree : H.CollisionFree S)
    (h : Reached H (fun _ op => op.Inserts S) registry g) : g.VotesFollow registry.len := by
  have hall : g.Whole ∧ FixedRegistry registry g ∧ g.VotesFollow registry.len := by
    refine h.invariant (I := fun g => g.Whole ∧ FixedRegistry registry g ∧
      g.VotesFollow registry.len) hfree (fun _ _ hop => hop.from)
      ⟨whole_new registry, ⟨rfl, rfl, rfl⟩, fun w y v hv => ?_⟩ fun g g' op hs hg hop heffect => ?_
    · have hnone : (Hashgraph.new registry).recordedVote y w = none := by
        rw [recordedVote, get?_new]
        rfl
      cases hnone.symm.trans hv
    · obtain ⟨hw, hfix, hfollow⟩ := hg
      refine ⟨heffect.whole hop.keepsEvents hs.wf.toConsistent hw, hfix.effect heffect hop, ?_⟩
      cases heffect with
      | none hsame => exact hsame ▸ hfollow
      | insert hhash hc hinserted =>
        exact hinserted.votesFollow hfollow hs.wf hw hs.cast (fun n hn => hfix.totalAt_of_pos hn) hc
          (hs.fits hfree hop.from hhash hc)
      | addMember _ _ => exact hop.elim
      | prune _ _ => exact hop.elim
  exact hall.2.2

/-- In a run with a fixed registry every vote recorded for `y` on `w` is the one of the
specification, which every graph over the same events that holds `y` and `w` gives alike. Two graphs
never record different votes for one pair. -/
theorem recorded_votes_meet_definition (hfree : H.CollisionFree S)
    (hg : Reached H (fun _ op => op.Inserts S) registry g)
    (hg' : Reached H (fun _ op => op.Inserts S) registry g') {v : Bool}
    (hv : g.recordedVote y w = some v) :
    (∃ d, g.roundOf y = g.roundOf w + (d + 1) ∧ v = g.specVote registry.len w d y) ∧
      (∀ d, (g'.get? y).isSome → (g'.get? w).isSome →
        g'.specVote registry.len w d y = g.specVote registry.len w d y) ∧
      ∀ v', g'.recordedVote y w = some v' → v' = v := by
  have hs := hg.sound hfree fun _ _ h => h.from
  have hs' := hg'.sound hfree fun _ _ h => h.from
  have hfix := hg.fixedRegistry hfree
  have hfix' := hg'.fixedRegistry hfree
  obtain ⟨hw, -, d, hd, hspec⟩ := hg.votesFollow hfree w y v hv
  have hstored {t : Hashgraph} {b : Bool} (ht : t.recordedVote y w = some b) :
      (t.get? y).isSome := by
    obtain ⟨r, hr, -⟩ := Option.bind_eq_some_iff.mp ht
    exact Option.isSome_of_eq_some hr
  have hsame (d : ℕ) (hy' : (g'.get? y).isSome) (hw' : (g'.get? w).isSome) :
      g'.specVote registry.len w d y = g.specVote registry.len w d y :=
    (hg'.meets_of_inserts hfree hg).specVote_eq hs'.wf hs.wf
      (fun z hz => hg'.sameRound hfree hg hz) (hfix'.memberCountAtRound_eq hfix) ⟨hw', hw⟩
      ⟨hy', hstored hv⟩
  refine ⟨⟨d, hd, hspec⟩, hsame, fun v' hv' => ?_⟩
  obtain ⟨hw', -, d', hd', hspec'⟩ := hg'.votesFollow hfree w y v' hv'
  have hround {x : EventHash} (hx : (g.get? x).isSome) (hx' : (g'.get? x).isSome) :
      g.roundOf x = g'.roundOf x := by
    obtain ⟨r, hr⟩ := Option.isSome_iff_exists.mp hx
    obtain ⟨r', hr'⟩ := Option.isSome_iff_exists.mp hx'
    rw [roundOf_eq hr, roundOf_eq hr', (hg.sameRound hfree hg' ⟨hx, hx'⟩ r r' hr hr').1]
  have hy := hround (hstored hv) (hstored hv')
  have hcandidate := hround hw hw'
  obtain rfl : d' = d := by omega
  rw [hspec', hspec, hsame d' (hstored hv') hw']

theorem recorded_votes_meet_definition_solo :
    ∃ g, Reached stampHash (fun _ op => op.Inserts {e | e ∈ soloChain 2}) (plainRegistry 1) g ∧
      g.recordedVote 2 1 = some true ∧
      ∃ d, g.roundOf 2 = g.roundOf 1 + (d + 1) ∧ true = g.specVote (plainRegistry 1).len 1 d 2 := by
  obtain ⟨g, hg, hv⟩ := exists_built (S := {e | e ∈ soloChain 2}) (plainRegistry 1) (soloChain 2)
    (fun g => g.recordedVote 2 1 == some true) (fun _ he => he) (by decide +kernel)
  have hv : g.recordedVote 2 1 = some true := eq_of_beq hv
  exact ⟨g, hg, hv, (recorded_votes_meet_definition (collisionFree_soloChain 2) hg hg hv).1⟩

end Recorded

end Hashgraph

end JKain
