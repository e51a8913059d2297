import JKain.Consensus.Order

/-!
# Virtual voting

The election that decides whether a witness is famous, as `fame.rs` runs it inside every insertion
of a witness: votes are computed on demand, recorded on the voter, and an election is closed by the
first voter that finds a supermajority, or early by a complete tally of the next round.
-/

namespace JKain

open Std JKain.Lib

/-- `COIN_ROUND_FREQUENCY`. -/
def coinRoundFrequency : ℕ := 12

/-- `VoteOutcome`. -/
inductive VoteOutcome
  | cast (vote : Bool)
  | decided (status : FameStatus)
  deriving DecidableEq

/-- What the votes of the strongly seen witnesses come to: a count, unless one of them found the
election closed. -/
inductive Tally
  | counted (yes no : ℕ)
  | decided (status : FameStatus)
  deriving DecidableEq

/-- The order in which one call iterates over a hash map: any rearrangement of its entries. -/
structure IterOrder where
  order : List EventHash → List EventHash
  perm : ∀ l, (order l).Perm l

namespace Hashgraph

/-- `fame_of(w).is_some_and(|s| s != Undecided)`. -/
def hasDecidedFame (g : Hashgraph) (w : EventHash) : Bool := (g.fameOf w).any (· != .undecided)

/-- `coin_round_vote`: bit 0 of byte 32 of the voter's signature. -/
def coinRoundVote (g : Hashgraph) (voter : EventHash) : Except Fault Bool :=
  match g.get? voter with
  | some record => .ok (record.event.signature.bytes 32 &&& 1 == 1)
  | none => .error (.panic .voterAbsent)

/-- `Hashgraph::decide_fame`. -/
def decideFame (candidate : EventHash) (status : FameStatus) : HashgraphM PUnit := do
  modify fun g => { g with
    events := g.events.modify candidate fun record => { record with fameStatus := status }
    undecidedWitnesses := g.undecidedWitnesses.erase candidate }
  let g ← get
  noteRoundDecidedIfComplete ((g.get? candidate).elim 0 (·.round))

/-- The loop of `Hashgraph::vote_of` over the strongly seen witnesses. -/
def tallyVotes (vote : EventHash → HashgraphM VoteOutcome) :
    List EventHash → ℕ → ℕ → HashgraphM Tally
  | [], yes, no => return .counted yes no
  | s :: rest, yes, no => do
    let outcome ← vote s
    match outcome with
    | .decided status => return .decided status
    | .cast true => tallyVotes vote rest (yes + 1) no
    | .cast false => tallyVotes vote rest yes (no + 1)

/-- Records a vote and returns it. -/
def castVote (y w : EventHash) (vote : Bool) : HashgraphM VoteOutcome := do
  modify (·.recordVote y w vote)
  return .cast vote

/-- The end of `Hashgraph::vote_of`: what the voter makes of the votes it collected. A
supermajority closes the election in a coin round too. -/
def concludeVote (y w : EventHash) (yRound wRound yes no : ℕ) : HashgraphM VoteOutcome := do
  let v := decide (yes ≥ no)
  let stake := if v then yes else no
  let isCoinRound := decide ((yRound - wRound) % coinRoundFrequency = 0)
  let g ← get
  let total ← fromExcept (g.memberCountAtRound yRound)
  let hasSupermajority := decide (stake * 3 > total * 2)
  if isCoinRound && !hasSupermajority then do
    let vote ← fromExcept (g.coinRoundVote y)
    castVote y w vote
  else if hasSupermajority then do
    let status : FameStatus := if v then .famous else .notFamous
    decideFame w status
    return .decided status
  else castVote y w v

/-- `Hashgraph::vote_of`, with the depth of the recursion as fuel: each level goes one round down.
The `debug_assert` is a panic. -/
def voteOf : ℕ → EventHash → EventHash → HashgraphM VoteOutcome
  | 0, _, _ => throw .fuel
  | fuel + 1, y, w => do
    let g ← get
    let yRec ← fromExcept (g.getOrUnknown y)
    let wRec ← fromExcept (g.getOrUnknown w)
    let wFame := (g.fameOf w).getD .undecided
    if wFame ≠ .undecided then return .decided wFame
    else
      match yRec.votes[w]? with
      | some vote => return .cast vote
      | none =>
        if yRec.round = wRec.round + 1 then do
          let vote ← fromExcept (g.see y w)
          castVote y w vote
        else if yRec.round ≤ wRec.round + 1 then throw (.panic .candidateNotBelow)
        else do
          let stronglySeen ← fromExcept
            (keepM (fun s => unwrapOrFalse (g.stronglySee y s))
              (g.witnessesOfRound (yRec.round - 1)))
          let tally ← tallyVotes (fun s => voteOf fuel s w) stronglySeen 0 0
          match tally with
          | .decided status => return .decided status
          | .counted yes no => concludeVote y w yRec.round wRec.round yes no

/-- A call of `vote_of`, with enough fuel for the voter's round. -/
def vote (y w : EventHash) : HashgraphM VoteOutcome := do
  let g ← get
  voteOf ((g.get? y).elim 0 (·.round) + 1) y w

/-- The votes on `w` that the witnesses `voters` have recorded. -/
def recordedVotes (g : Hashgraph) (w : EventHash) (voters : List EventHash) : List Bool :=
  voters.filterMap fun v => (g.get? v).bind (·.votes[w]?)

/-- The verdict of the next round's tally in `Hashgraph::try_eager_decide`, `none` if one of its
gates holds it back: too few rounds, no voters, a roster change, too few voters, too few votes, or
a voter without a vote. -/
def eagerVerdict (g : Hashgraph) (w : EventHash) (wRound : ℕ) :
    Except Fault (Option FameStatus) :=
  let voters := g.witnessesOfRound (wRound + 1)
  if g.highestWitnessRound < wRound + 2 then .ok none
  else if voters.isEmpty then .ok none
  else do
    let countNext ← g.memberCountAtRound (wRound + 1)
    let total ← g.memberCountAtRound (wRound + 2)
    let votes := g.recordedVotes w voters
    let yes := votes.count true
    let no := votes.count false
    if countNext ≠ total then return none
    else if voters.length * 3 ≤ total * 2 then return none
    else if votes.length * 3 ≤ total * 2 then return none
    else if votes.length ≠ voters.length then return none
    else if yes * 3 > total * 2 then return some .famous
    else if no * 3 > total * 2 then return some .notFamous
    else return none

/-- `Hashgraph::try_eager_decide`. -/
def tryEagerDecide (w : EventHash) : HashgraphM (Option FameStatus) := do
  let g ← get
  if g.hasDecidedFame w then return g.fameOf w
  else
    match g.get? w with
    | none => return none
    | some wRec =>
      let verdict ← fromExcept (g.eagerVerdict w wRec.round)
      match verdict with
      | none => return none
      | some status =>
        decideFame w status
        return some status

/-- The body of the candidate loop of `Hashgraph::vote_as_witness`. -/
def voteOnCandidate (y candidate : EventHash) : HashgraphM PUnit := do
  let _ ← vote y candidate
  let _ ← tryEagerDecide candidate

/-- The backfill loop of `Hashgraph::vote_as_witness`, over the rounds above `y`. -/
def backfill (y : EventHash) : List ℕ → HashgraphM PUnit
  | [] => return
  | round :: rounds => do
    let g ← get
    if g.hasDecidedFame y then return
    else do
      (g.witnessesOfRound round).forM fun voter => do
        let _ ← vote voter y
      let g ← get
      if g.fameOf y = some .undecided then do
        let _ ← tryEagerDecide y
        let g ← get
        if g.hasDecidedFame y then return else backfill y rounds
      else backfill y rounds

/-- The candidates of `Hashgraph::vote_as_witness`, as the hash map of the undecided witnesses
yields them. -/
def candidates (g : Hashgraph) (iter : IterOrder) (yRound : ℕ) : List EventHash :=
  iter.order ((g.undecidedWitnesses.toList.filter (·.2 < yRound)).map (·.1))

/-- `Hashgraph::vote_as_witness`. -/
def voteAsWitness (iter : IterOrder) (y : EventHash) : HashgraphM PUnit := do
  let g ← get
  match g.get? y with
  | none => throw (.panic .witnessAbsent)
  | some yRec =>
    (g.candidates iter yRec.round).forM (voteOnCandidate y)
    let g ← get
    backfill y (List.range' (yRec.round + 1) (g.highestWitnessRound - yRec.round))
    let g ← get
    if g.fameOf y = some .undecided then do
      let _ ← tryEagerDecide y
    else return

end Hashgraph

end JKain
