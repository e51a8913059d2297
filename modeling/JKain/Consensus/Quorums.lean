import JKain.Consensus.Equivocation

/-!
# Rounds rest on quorums of the round below

An event moves to the next round by counting the witnesses of its base round that it strongly sees.
A forking member can have several witnesses in a round, but no two of them are strongly seen, so the
witnesses counted have different creators, and every round from the second on is entered on the
witnesses of more than two thirds of the members.
-/

namespace JKain

open Std JKain.Lib

namespace Hashgraph

/-- The creators of the stored events of a list. -/
def creatorsOf (g : Hashgraph) (l : List EventHash) : Finset NodeId :=
  (l.filterMap fun w => (g.get? w).map (·.event.creator)).toFinset

section Creators

variable {g : Hashgraph} {l : List EventHash} {c : NodeId}

/-- Stored events with different creators have as many creators as there are events. -/
theorem card_creatorsOf (hl : l.Nodup) (hstored : ∀ w ∈ l, (g.get? w).isSome)
    (hcreators : ∀ w ∈ l, ∀ w' ∈ l, ∀ r r', g.get? w = some r → g.get? w' = some r' →
      r.event.creator = r'.event.creator → w = w') : (g.creatorsOf l).card = l.length := by
  have hnodup : (l.filterMap fun w => (g.get? w).map (·.event.creator)).Nodup := by
    refine List.pairwise_filterMap.mpr (hl.pairwise_of_forall_ne fun w hw w' hw' hne => ?_)
    intro c hc c' hc' hcc
    obtain ⟨r, hr, rfl⟩ := Option.map_eq_some_iff.mp hc
    obtain ⟨r', hr', rfl⟩ := Option.map_eq_some_iff.mp hc'
    exact hne (hcreators w hw w' hw' r r' hr hr' hcc)
  rw [creatorsOf, List.toFinset_card_of_nodup hnodup, List.filterMap_length_eq_length]
  intro w hw
  rw [Option.isSome_map]
  exact hstored w hw

end Creators

section Quorums

variable {H : Hasher} {S : Set Event} {registry : MembershipRegistry} {g : Hashgraph}
  {F : Finset NodeId} {x w w' : EventHash} {r rw' rw'' : EventRecord} {n : ℕ}

/-! ## Rounds along one link -/

theorem Whole.round_parent_le (hw : g.Whole) (hx : g.get? x = some r) {p : EventHash}
    {rp : EventRecord} (hrp : g.get? p = some rp) (hp : p ∈ r.event.parents) :
    rp.round ≤ r.round :=
  (Whole.le_newBase hx hrp hp).trans (hw.newBase_le_round hx)

theorem baseRound_cases (a b : Option ℕ) :
    (a = none ∧ b = none ∧ baseRound a b = 1) ∨ a = some (baseRound a b) ∨
      b = some (baseRound a b) := by
  rcases a with _ | a <;> rcases b with _ | b
  · exact .inl ⟨rfl, rfl, rfl⟩
  · exact .inr (.inr rfl)
  · exact .inr (.inl rfl)
  · rcases max_choice a b with h | h
    · exact .inr (.inl (congrArg some h.symm))
    · exact .inr (.inr (congrArg some h.symm))

/-- The base round of an event is the round of a parent, or 1 without parents. -/
theorem Whole.newBase_cases (hw : g.Whole) (hx : g.get? x = some r) :
    (r.event.parents = [] ∧ g.newBase r.event = 1) ∨
      ∃ p ∈ r.event.parents, ∃ rp, g.get? p = some rp ∧ rp.round = g.newBase r.event := by
  have hlink {o : Option EventHash} (ho : ∀ p, o = some p → p ∈ r.event.parents)
      (h : (o.bind g.get?).map (·.round) = some (g.newBase r.event)) :
      ∃ p ∈ r.event.parents, ∃ rp, g.get? p = some rp ∧ rp.round = g.newBase r.event := by
    obtain ⟨rp, hrp, hround⟩ := Option.map_eq_some_iff.mp h
    obtain ⟨p, hp, hrp⟩ := Option.bind_eq_some_iff.mp hrp
    exact ⟨p, ho p hp, rp, hrp, hround⟩
  have hnone {o : Option EventHash} (ho : ∀ p, o = some p → p ∈ r.event.parents)
      (h : (o.bind g.get?).map (·.round) = none) : o = none := by
    by_contra hne
    obtain ⟨p, rfl⟩ := Option.ne_none_iff_exists'.mp hne
    have hstored := hw.parents hx p (ho p rfl)
    rw [Option.map_eq_none_iff, Option.bind_some] at h
    rw [h] at hstored
    cases hstored
  have hself (p : EventHash) (hp : r.event.selfParent = some p) : p ∈ r.event.parents :=
    Event.mem_parents.mpr (.inl hp)
  have hother (p : EventHash) (hp : r.event.otherParent = some p) : p ∈ r.event.parents :=
    Event.mem_parents.mpr (.inr hp)
  rcases baseRound_cases ((g.selfRecord r.event).map (·.round))
    ((g.otherRecord r.event).map (·.round)) with ⟨ha, hb, hone⟩ | ha | hb
  · refine .inl ⟨?_, hone⟩
    rw [Event.parents, hnone hself ha, hnone hother hb]
    rfl
  · exact .inr (hlink hself ha)
  · exact .inr (hlink hother hb)

/-! ## Moving to the next round -/

/-- Two witnesses of a round that one event strongly sees have different creators. -/
theorem Reached.witness_eq_of_stronglySee (hfree : H.CollisionFree S)
    (hF : ∀ c, Forks S c → c ∈ F) (hcard : 3 * F.card < registry.len)
    (hg : Reached H (fun _ op => op.Inserts S) registry g) (hw : w ∈ g.witnessesOfRound n)
    (hw' : w' ∈ g.witnessesOfRound n) (hrw : g.get? w = some rw') (hrw' : g.get? w' = some rw'')
    (hcreator : rw'.event.creator = rw''.event.creator) (hstrong : g.stronglySee x w = .ok true)
    (hstrong' : g.stronglySee x w' = .ok true) : w = w' := by
  have hs := hg.sound hfree fun _ _ h => h.from
  have hwhole := hg.whole hfree fun _ _ h => h.fromKeeps
  -- A witness on the chain of the other would be in an earlier round.
  have hbranch {a b : EventHash} (ha : a ∈ g.witnessesOfRound n) (hb : b ∈ g.witnessesOfRound n)
      (hne : a ≠ b) : ¬Descends H S a b := by
    intro hdesc
    obtain ⟨ra, hra, hround, hwit⟩ := hs.wf.witness_sound ha
    obtain ⟨rb, hrb, hround', -⟩ := hs.wf.witness_sound hb
    have hchain := hs.selfAnc_of_descends hfree hwhole (Option.isSome_of_eq_some hra) hdesc
    have hlt := hwhole.round_lt_of_selfAnc hra hrb hwit hchain hne
    omega
  by_contra hne
  exact hg.not_stronglySee_branches hfree hF hcard hg hrw hrw' hcreator (hbranch hw hw' hne)
    (hbranch hw' hw (Ne.symm hne)) hstrong hstrong'

/-- The witnesses of a round that an event strongly sees are of as many members. -/
theorem Reached.card_creatorsOf_strong (hfree : H.CollisionFree S)
    (hF : ∀ c, Forks S c → c ∈ F) (hcard : 3 * F.card < registry.len)
    (hg : Reached H (fun _ op => op.Inserts S) registry g) (x : EventHash) (n : ℕ) :
    (g.creatorsOf ((g.witnessesOfRound n).filter (g.stronglySees x))).card =
      (g.witnessesOfRound n).countP (g.stronglySees x) := by
  have hwf := (hg.sound hfree fun _ _ h => h.from).wf
  rw [List.countP_eq_length_filter]
  refine card_creatorsOf ((hwf.witness_nodup n).filter _) (fun w hw => ?_)
    fun w hw w' hw' r r' hr hr' hcreator => ?_
  · obtain ⟨r, hr, -, -⟩ := hwf.witness_sound (List.mem_filter.mp hw).1
    exact Option.isSome_of_eq_some hr
  · obtain ⟨hmem, hstrong⟩ := List.mem_filter.mp hw
    obtain ⟨hmem', hstrong'⟩ := List.mem_filter.mp hw'
    exact hg.witness_eq_of_stronglySee hfree hF hcard hmem hmem' hr hr' hcreator
      (truth_eq_true_iff.mp hstrong) (truth_eq_true_iff.mp hstrong')

theorem Whole.newBase_pos (hw : g.Whole) (hwf : g.WellFormed) (hx : g.get? x = some r) :
    1 ≤ g.newBase r.event := by
  rcases hw.newBase_cases hx with ⟨-, hone⟩ | ⟨p, -, rp, hrp, hround⟩
  · exact hone.ge
  · exact hround ▸ hwf.round_pos hrp

/-- An event that moves to the next round strongly sees a quorum of its base round. -/
theorem FixedRegistry.quorum_of_bumped (hfix : FixedRegistry registry g) (hw : g.Whole)
    (hwf : g.WellFormed) (hx : g.get? x = some r) (hbumped : g.bumped x r.event = true) :
    2 * registry.len <
      3 * (g.witnessesOfRound (g.newBase r.event)).countP (g.stronglySees x) := by
  have hlt := of_decide_eq_true hbumped
  rw [hfix.totalAt_of_pos (hw.newBase_pos hwf hx)] at hlt
  have hle : (g.witnessesOfRound (g.newBase r.event)).countP
        (fun w => decide (w ≠ x) && g.stronglySeesAt x w (g.newBase r.event)) ≤
      (g.witnessesOfRound (g.newBase r.event)).countP (g.stronglySees x) := by
    refine List.countP_mono_left fun w hmem hstrong => ?_
    rw [Bool.and_eq_true] at hstrong
    rw [hwf.stronglySees_eq hmem]
    exact hstrong.2
  omega

/-- An event without parents is in the first round. -/
theorem Whole.round_eq_one (hw : g.Whole) (hwf : g.WellFormed) (hsettled : g.RoundsSettled)
    (hx : g.get? x = some r) (hparents : r.event.parents = []) : r.round = 1 := by
  have hbase : g.newBase r.event = 1 := by
    rcases hw.newBase_cases hx with ⟨-, hone⟩ | ⟨p, hp, -⟩
    · exact hone
    · rw [hparents] at hp
      cases hp
  -- It has no ancestor but itself, so it strongly sees nothing that counts.
  have hbumped : g.bumped x r.event = false := by
    refine decide_eq_false ?_
    have hzero : (g.witnessesOfRound (g.newBase r.event)).countP
        (fun w => decide (w ≠ x) && g.stronglySeesAt x w (g.newBase r.event)) = 0 := by
      refine List.countP_eq_zero.mpr fun w hmem hstrong => ?_
      rw [Bool.and_eq_true, decide_eq_true_eq] at hstrong
      have hanc := hwf.anc_of_stronglySeesAt hw (Option.isSome_of_eq_some hx) hmem hstrong.2
      rcases Whole.anc_cases hanc with hsame | ⟨p, hp, -⟩
      · exact hstrong.1 hsame.symm
      · rw [mem_parentsOf hx, hparents] at hp
        cases hp
    omega
  rw [(hsettled x r hx).1, newRound, hbumped, hbase]
  rfl

/-- Every round from the second on is entered by an event that strongly sees witnesses of the round
below by more than two thirds of the members. -/
theorem Reached.exists_quorum_below (hfree : H.CollisionFree S) (hF : ∀ c, Forks S c → c ∈ F)
    (hcard : 3 * F.card < registry.len)
    (hg : Reached H (fun _ op => op.Inserts S) registry g) (hx : g.get? x = some r)
    (hround : 2 ≤ r.round) :
    ∃ a ra, g.Anc x a ∧ g.get? a = some ra ∧ ra.round = r.round ∧
      2 * registry.len < 3 * (g.creatorsOf
        ((g.witnessesOfRound (r.round - 1)).filter (g.stronglySees a))).card := by
  have hw := hg.whole hfree fun _ _ h => h.fromKeeps
  have hwf := (hg.sound hfree fun _ _ h => h.from).wf
  have hsettled := hg.roundsSettled hfree
  induction x, (Option.isSome_of_eq_some hx) using hw.parents_induction generalizing r with
  | step x r' hr' ih =>
    obtain rfl := Option.some.inj (hx.symm.trans hr')
    have hset := (hsettled x r hx).1
    cases hbumped : g.bumped x r.event with
    | true =>
      -- The event enters the round itself.
      rw [hbumped, newRound, if_pos rfl] at hset
      refine ⟨x, r, .refl, hx, rfl, ?_⟩
      rw [hg.card_creatorsOf_strong hfree hF hcard, hset, Nat.add_sub_cancel]
      exact (hg.fixedRegistry hfree).quorum_of_bumped hw hwf hx hbumped
    | false =>
      -- The round is a parent's.
      rw [hbumped, newRound, if_neg (by simp)] at hset
      rcases hw.newBase_cases hx with ⟨-, hone⟩ | ⟨p, hp, rp, hrp, hbase⟩
      · omega
      · have hsame : rp.round = r.round := hbase.trans hset.symm
        obtain ⟨a, ra, hanc, hra, haround, hquorum⟩ := ih p hp hrp (by omega)
        rw [hsame] at haround hquorum
        exact ⟨a, ra, .head ((mem_parentsOf hx).mpr hp) hanc, hra, haround, hquorum⟩

/-- The structure of the rounds: an event is in the round of a parent or one above, in no earlier
round than its parents, and in the first round without any; every later round is entered on a quorum
of the round below; and a member that has not forked has one witness in a round at most. -/
theorem rounds_rest_on_quorums (hfree : H.CollisionFree S) (hF : ∀ c, Forks S c → c ∈ F)
    (hcard : 3 * F.card < registry.len)
    (hg : Reached H (fun _ op => op.Inserts S) registry g) :
    (∀ x r, g.get? x = some r →
      (∀ p rp, p ∈ r.event.parents → g.get? p = some rp → rp.round ≤ r.round) ∧
      (r.event.parents = [] → r.round = 1) ∧
      (r.event.parents ≠ [] →
        ∃ p rp, p ∈ r.event.parents ∧ g.get? p = some rp ∧ r.round ≤ rp.round + 1) ∧
      (2 ≤ r.round → ∃ a ra, g.Anc x a ∧ g.get? a = some ra ∧ ra.round = r.round ∧
        2 * registry.len < 3 * (g.creatorsOf
          ((g.witnessesOfRound (r.round - 1)).filter (g.stronglySees a))).card)) ∧
    ∀ n w w' r r', w ∈ g.witnessesOfRound n → w' ∈ g.witnessesOfRound n → g.get? w = some r →
      g.get? w' = some r' → r.event.creator = r'.event.creator →
        ¬g.ForkedBy r'.event.creator → w = w' := by
  have hw := hg.whole hfree fun _ _ h => h.fromKeeps
  have hwf := (hg.sound hfree fun _ _ h => h.from).wf
  refine ⟨fun x r hx => ⟨?_, ?_, ?_, ?_⟩, ?_⟩
  · intro p rp hp hrp
    exact hw.round_parent_le hx hrp hp
  · exact hw.round_eq_one hwf (hg.roundsSettled hfree) hx
  · intro hne
    rcases hw.newBase_cases hx with ⟨hnil, -⟩ | ⟨p, hp, rp, hrp, hbase⟩
    · exact absurd hnil hne
    · exact ⟨p, rp, hp, hrp, hbase ▸ hw.round_le_newBase_succ hx⟩
  · exact hg.exists_quorum_below hfree hF hcard hx
  · intro n w w' r r' hmem hmem' hr hr' hcreator hfork
    exact hw.witness_unique hwf hmem hmem' hr hr' hcreator hfork

end Quorums

/-- Member 3 forks with its first event, and event 9 is in round 2 on the witnesses of at least three
members. -/
theorem rounds_rest_on_quorums_root :
    ∃ g r, Reached stampHash (fun _ op => op.Inserts {e | e ∈ forkedRoot}) (plainRegistry 4) g ∧
      g.get? 9 = some r ∧ r.round = 2 ∧ ∃ a ra, g.Anc 9 a ∧ g.get? a = some ra ∧ ra.round = 2 ∧
        2 * (plainRegistry 4).len <
          3 * (g.creatorsOf ((g.witnessesOfRound 1).filter (g.stronglySees a))).card := by
  have hrun : (replay stampHash (.new (plainRegistry 4)) (forkedRoot.map (.insert inOrder))).any
      (fun g => (g.get? 9).any (·.round == 2)) = true := by decide +kernel
  obtain ⟨g, hg, hnine⟩ := exists_built (S := {e | e ∈ forkedRoot}) _ _ _ (fun _ he => he) hrun
  obtain ⟨r, hr, hround⟩ := (Option.any_eq_true ..).mp hnine
  rw [beq_iff_eq] at hround
  have hall := (rounds_rest_on_quorums (F := {3}) (collisionFree_stampHash (by decide))
    (mem_of_forks (by decide)) (by decide +kernel) hg).1 9 r hr
  rw [hround] at hall
  exact ⟨g, r, hg, hr, hround, hall.2.2.2 le_rfl⟩

end Hashgraph

end JKain
