import JKain.Consensus.NoPanic

/-!
# The ordering watermark

`next_round_to_order` splits the rounds: those below it are decided and were ordered, once each and
in increasing order, and it is itself not decided. Rounds above it may be decided already, since the
elections of a later round can end before those of an earlier one, and then `highest_decided_round`
runs ahead of the watermark.
-/

namespace JKain

open Std

namespace Hashgraph

/-- What the watermark says in every state of a run. -/
structure Watermarked (g : Hashgraph) : Prop where
  pos : 1 ≤ g.nextRoundToOrder
  decided : ∀ {n}, 1 ≤ n → n < g.nextRoundToOrder → g.isRoundDecided n = true
  undecided : g.isRoundDecided g.nextRoundToOrder = false
  received : ∀ {x n}, g.roundReceived x = some n → 1 ≤ n ∧ n < g.nextRoundToOrder
  log_eq : g.orderLog = List.range' 1 (g.nextRoundToOrder - 1)

section Run

variable {H : Hasher} {S : Set Event} {P : Hashgraph → Op → Prop} {registry : MembershipRegistry}
  {g g' : Hashgraph} {op : Op}

theorem watermarked_new (registry : MembershipRegistry) :
    (Hashgraph.new registry).Watermarked where
  pos := le_rfl
  decided hpos hlt := absurd hlt (by simp only [Hashgraph.new]; omega)
  undecided := by simp [isRoundDecided, Hashgraph.new]
  received {x n} h := by
    rw [roundReceived, get?_new] at h
    cases h
  log_eq := rfl

/-- A stamp is an old one, or its round is one that was ordered by this operation. -/
theorem Op.Effect.received (h : op.Effect H g g') {x : EventHash} {n : ℕ}
    (hx : g'.roundReceived x = some n) :
    g.roundReceived x = some n ∨ g.nextRoundToOrder ≤ n ∧ n < g'.nextRoundToOrder := by
  have hstored : (g'.get? x).isSome := by
    rw [roundReceived] at hx
    exact Option.isSome_of_isSome_bind (Option.isSome_of_eq_some hx)
  rcases h.stamped hstored with hsame | ⟨-, m, t, hle, hlt, hnew⟩
  · exact .inl ((congrArg Prod.fst hsame).symm.trans hx)
  · obtain rfl : m = n := Option.some.inj ((congrArg Prod.fst hnew).symm.trans hx)
    exact .inr ⟨hle, hlt⟩

theorem Op.Effect.watermarked (h : op.Effect H g g') (hg : g.Watermarked) : g'.Watermarked := by
  have hreceived {x : EventHash} {n : ℕ} (hx : g'.roundReceived x = some n) :
      1 ≤ n ∧ n < g'.nextRoundToOrder := by
    have hpos := hg.pos
    have hnext := h.next_le
    rcases h.received hx with hold | hnew
    · have := hg.received hold
      omega
    · omega
  cases h with
  | none hsame => exact hsame ▸ hg
  | @insert _ event hash i _ hc hinserted =>
    have hadvances := hinserted.advances
    have hdecided (n : ℕ) : (g.placed hash event i).isRoundDecided n = g.isRoundDecided n := by
      rw [isRoundDecided, placed, fullyDecidedRounds_place, isRoundDecided]
    have hnext : (g.placed hash event i).nextRoundToOrder = g.nextRoundToOrder :=
      nextRoundToOrder_place
    have hlog : (g.placed hash event i).orderLog = g.orderLog := orderLog_place
    have hle := hadvances.next_le
    rw [hnext] at hle
    have hpos := hg.pos
    refine ⟨hpos.trans hle, fun {n} hn hlt => ?_, hadvances.next_open ?_, hreceived, ?_⟩
    · by_cases hold : n < g.nextRoundToOrder
      · exact hadvances.decided_kept ((hdecided n).trans (hg.decided hn hold))
      · exact hadvances.ordered_decided n (by omega) hlt
    · rw [hnext, hdecided, hg.undecided]
    · rw [hadvances.log_eq, hnext, hlog, hg.log_eq]
      have hsplit := List.range'_append_1 (s := 1) (m := g.nextRoundToOrder - 1)
        (n := g'.nextRoundToOrder - g.nextRoundToOrder)
      rw [show 1 + (g.nextRoundToOrder - 1) = g.nextRoundToOrder by omega] at hsplit
      rw [hsplit]
      congr 1
      omega
  | addMember _ hsame =>
    subst hsame
    exact ⟨hg.pos, hg.decided, hg.undecided, hreceived, hg.log_eq⟩
  | prune _ hpruned =>
    refine ⟨?_, fun {n} hn hlt => ?_, ?_, hreceived, ?_⟩
    · exact hpruned.next_eq ▸ hg.pos
    · rw [isRoundDecided, hpruned.decided_eq]
      exact hg.decided hn (hpruned.next_eq ▸ hlt)
    · rw [isRoundDecided, hpruned.decided_eq, hpruned.next_eq]
      exact hg.undecided
    · rw [hpruned.log_eq, hpruned.next_eq, hg.log_eq]

theorem Reached.watermarked (hfree : H.CollisionFree S) (hP : ∀ g op, P g op → op.From S)
    (h : Reached H P registry g) : g.Watermarked :=
  h.invariant hfree hP (watermarked_new registry) fun _ _ _ _ hg _ heffect =>
    heffect.watermarked hg

/-! ## The highest decided round -/

theorem le_highestDecidedRound {n : ℕ} (h : g.isRoundDecided n = true) :
    n ≤ g.highestDecidedRound := by
  have hmem : n ∈ g.fullyDecidedRounds := ExtTreeSet.contains_iff_mem.mp h
  obtain ⟨m, hmax⟩ := Option.isSome_iff_exists.mp (ExtTreeSet.isSome_max?_of_mem hmem)
  rw [highestDecidedRound, hmax, Option.getD_some]
  exact Nat.isLE_compare.mp ((ExtTreeSet.max?_eq_some_iff_mem_and_forall.mp hmax).2 n hmem)

theorem isRoundDecided_highestDecidedRound (h : g.highestDecidedRound ≠ 0) :
    g.isRoundDecided g.highestDecidedRound = true := by
  cases hmax : g.fullyDecidedRounds.max? with
  | none => exact absurd (by rw [highestDecidedRound, hmax, Option.getD_none]) h
  | some m =>
    rw [highestDecidedRound, hmax, Option.getD_some]
    exact ExtTreeSet.contains_max? hmax

end Run

/-- Four members whose chains let the elections of round 2 end before those of round 1. -/
def earlyDecision : List Event :=
  [plainEvent 1 0 none none, plainEvent 2 2 none none, plainEvent 3 3 none none,
    plainEvent 4 1 none none, plainEvent 5 2 (some 2) (some 3), plainEvent 6 0 (some 1) (some 3),
    plainEvent 7 2 (some 5) (some 6), plainEvent 8 0 (some 6) (some 7),
    plainEvent 9 0 (some 8) (some 3), plainEvent 10 2 (some 7) (some 9),
    plainEvent 11 3 (some 3) (some 10), plainEvent 12 3 (some 11) (some 10),
    plainEvent 13 3 (some 12) (some 9), plainEvent 14 3 (some 13) (some 9),
    plainEvent 15 2 (some 10) (some 14), plainEvent 16 1 (some 4) (some 15),
    plainEvent 17 0 (some 9) (some 16), plainEvent 18 2 (some 15) (some 17),
    plainEvent 19 3 (some 14) (some 16), plainEvent 20 0 (some 17) (some 18),
    plainEvent 21 3 (some 19) (some 16), plainEvent 22 3 (some 21) (some 20),
    plainEvent 23 1 (some 16) (some 22), plainEvent 24 0 (some 20) (some 23)]

end Hashgraph

end JKain
