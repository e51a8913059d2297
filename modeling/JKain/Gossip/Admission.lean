import JKain.Gossip.NodeSpec

/-!
# Around an activation

What insertions leave as it is while a pass is under way, the round a roster is active from, and
histories in which nodes join.
-/

namespace JKain

open Std Executor

theorem MembershipRegistry.mem_memberIds_register {registry : MembershipRegistry}
    {node member : NodeId} {key blsKey : List UInt8} :
    member ∈ (registry.register node key blsKey).memberIds ↔
      member = node ∨ member ∈ registry.memberIds := by
  rw [memberIds, register, ExtTreeMap.mem_keys, ExtTreeMap.mem_insert, Std.compare_eq_iff_eq,
    memberIds, ExtTreeMap.mem_keys, eq_comm]

/-! ## The frame of a pass -/

namespace Hashgraph

/-- What the calls that interleave with a pass, insertions and prunings, leave as it is. -/
structure Frames (g g' : Hashgraph) : Prop where
  next_le : g.nextRoundToOrder ≤ g'.nextRoundToOrder
  received : ∀ {x n}, g'.roundReceived x = some n →
    g.roundReceived x = some n ∨ g.nextRoundToOrder ≤ n
  snapshots : ∀ {k}, k ∈ g'.rosterHistory.snapshots → k ∈ g.rosterHistory.snapshots
  members : g'.memberIndex = g.memberIndex

variable {H : Hasher} {g g' : Hashgraph}

theorem Frames.of_insert {iter : IterOrder} {event : Event}
    (h : (Op.insert iter event).Effect H g g') :
    Frames g g' ∧ g'.rosterHistory = g.rosterHistory := by
  have hroster : g'.rosterHistory = g.rosterHistory := by
    cases h with
    | none hsame => rw [hsame]
    | insert _ _ hinserted => exact hinserted.rosterHistory_eq
  refine ⟨⟨h.next_le, fun hx => (h.received hx).imp_right And.left, ?_, ?_⟩, hroster⟩
  · intro k hk
    rwa [hroster] at hk
  · rcases h.members with hsame | ⟨_, _, _, hop, _⟩
    · exact hsame.1
    · cases hop

end Hashgraph

namespace Hashgraph

variable {g : Hashgraph} {n : ℕ} {roster : MembershipRegistry}

theorem exists_activeAt_of_rosterForRound (h : g.rosterForRound n = .ok roster) :
    ∃ k, g.rosterHistory.activeAt n = some (k, roster) := by
  rw [rosterForRound] at h
  split at h
  · rename_i k _ hactive
    cases h
    exact ⟨k, hactive⟩
  · cases h

end Hashgraph

/-! ## Histories with a join -/

namespace Node

open Hashgraph (plainEvent plainRegistry inOrder stampHash collisionFree_stampHash)

/-- Hashes and signatures that accept everything. -/
def plainCrypto : Crypto := ⟨fun _ => 0, fun _ => true, fun _ _ _ => true, fun _ _ => true⟩

/-- The payload of an `Add` with keys of zeros and an address. -/
def addPayload (node : NodeId) : Transaction :=
  ⟨[0x02, 0x00] ++ beBytes 8 node ++ List.replicate 32 0 ++ List.replicate 48 0 ++
    List.replicate 96 0 ++ [0, 0, 0, 7, 0x04, 127, 0, 0, 1, 0, 80] ++ [0x00]⟩

/-- Four events of member 0, the first one with the given transactions. -/
def joinHistory (txs : List Transaction) : List Event :=
  [{ plainEvent 1 0 none none with payload := txs }, plainEvent 2 0 (some 1) none,
    plainEvent 3 0 (some 2) none, plainEvent 4 0 (some 3) none]

end Node

end JKain
