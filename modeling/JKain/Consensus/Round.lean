import JKain.Consensus.Ancestry

/-!
# Round assignment

`finalizeRound` settles the round and the witness flag of an event that was stored at its base
round.
-/

namespace JKain

open Std JKain.Lib

/-- `base_round`: the larger round of the parents, 1 without parents. -/
def baseRound : Option ℕ → Option ℕ → ℕ
  | none, none => 1
  | some a, none => a
  | none, some b => b
  | some a, some b => max a b

namespace Hashgraph

/-- `bumps_round` of `Hashgraph::finalize_round`: whether the event strongly sees a supermajority
of the witnesses of its base round. -/
def bumpsRound (g : Hashgraph) (hash : EventHash) (base : ℕ) : Except Fault Bool := do
  let stronglySeenCount ← countM (g.stronglySeeAt hash · base) (g.witnessesOfRound base)
  let total ← g.memberCountAtRound base
  return decide (stronglySeenCount * 3 > total * 2)

/-- `Hashgraph::finalize_round`. -/
def finalizeRound (hash : EventHash) (base : ℕ) (selfParentRound : Option ℕ) :
    HashgraphM PUnit := do
  let g ← get
  let bumps ← fromExcept (g.bumpsRound hash base)
  let finalRound := if bumps then base + 1 else base
  let isWitness := selfParentRound.elim true fun spr => decide (finalRound > spr)
  modify (·.setEventRound hash finalRound isWitness)
  if isWitness then modify (·.recordWitness finalRound hash) else return

end Hashgraph

end JKain
