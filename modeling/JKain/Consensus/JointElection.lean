import JKain.Consensus.Lineage
import JKain.Consensus.Quorums
import JKain.Consensus.Queries
import JKain.Consensus.SpecVote
import Mathlib.Combinatorics.Enumerative.DoubleCounting

/-!
# One election over two graphs

Two graphs of runs over the same events, with the same static registry and without forks, hold
different witnesses. Their witnesses together still have one of each member in a round at most, and
each of them strongly sees a quorum of the round below. So the votes on a candidate that both hold
are those of one election, whose layers are the witnesses of both.
-/

namespace JKain

open Std JKain.Lib

namespace Hashgraph

/-! ## Quorums without forks -/

section Quorums

variable {H : Hasher} {S : Set Event} {registry : MembershipRegistry} {g : Hashgraph}
  {x a s : EventHash} {r : EventRecord}

theorem Reached.not_ancestryForks (hfree : H.CollisionFree S) (hforks : ForkFree S)
    (hg : Reached H (fun _ op => op.Inserts S) registry g) (x : EventHash) (m : NodeId) :
    ¬g.AncestryForks x m := fun h =>
  (hg.sound hfree fun _ _ h => h.from).not_forkedBy (not_forks_of_forkFree hforks m) h.forkedBy

/-- Without forks a descendant strongly sees what its ancestor does. -/
theorem Reached.stronglySees_of_anc (hfree : H.CollisionFree S) (hforks : ForkFree S)
    (hg : Reached H (fun _ op => op.Inserts S) registry g) (hx : (g.get? x).isSome)
    (hanc : g.Anc x a) (hs : (g.get? s).isSome) (h : g.stronglySees a s = true) :
    g.stronglySees x s = true := by
  have hw := hg.whole hfree fun _ _ h => h.fromKeeps
  have hwf := (hg.sound hfree fun _ _ h => h.from).wf
  have hfix := hg.fixedRegistry hfree
  obtain ⟨rx, hrx⟩ := Option.isSome_iff_exists.mp hx
  obtain ⟨ra, hra⟩ := Option.isSome_iff_exists.mp (hw.isSome_of_anc hx hanc)
  obtain ⟨rs, hrs⟩ := Option.isSome_iff_exists.mp hs
  have hsee {z : EventHash} (haz : g.CanSee a z) : g.CanSee x z := by
    obtain ⟨rz, hrz, haz, -⟩ := haz
    exact ⟨rz, hrz, hanc.trans haz, hg.not_ancestryForks hfree hforks x _⟩
  rw [stronglySees, truth_eq_true_iff, hfix.stronglySee_eq hwf hra hrs, Except.ok.injEq,
    Bool.and_eq_true, decide_eq_true_eq] at h
  rw [stronglySees, truth_eq_true_iff, hfix.stronglySee_eq hwf hrx hrs, Except.ok.injEq,
    Bool.and_eq_true, decide_eq_true_eq]
  have hsub : g.carriers a s ⊆ g.carriers x s := by
    rw [hfix.carriers_eq_seenThrough hw hwf.toConsistent hra hrs
        (hg.not_ancestryForks hfree hforks a),
      hfix.carriers_eq_seenThrough hw hwf.toConsistent hrx hrs
        (hg.not_ancestryForks hfree hforks x)]
    intro c hc
    obtain ⟨hmember, z, rz, hrz, hcreator, haz, hzs⟩ := mem_seenThrough.mp hc
    exact mem_seenThrough.mpr ⟨hmember, z, rz, hrz, hcreator, hsee haz, hzs⟩
  have hcard := Finset.card_le_card hsub
  refine ⟨?_, by omega⟩
  rw [hw.sees_iff_canSee hwf.toConsistent hrx hrs]
  exact hsee ((hw.sees_iff_canSee hwf.toConsistent hra hrs).mp h.1)

theorem Reached.creator_mem (hfree : H.CollisionFree S)
    (hg : Reached H (fun _ op => op.Inserts S) registry g) (hx : g.get? x = some r) :
    r.event.creator ∈ registry.memberIds.toFinset := by
  obtain ⟨i, hi⟩ := (hg.sound hfree fun _ _ h => h.from).wf.member hx
  rw [memberIndexOf, (hg.fixedRegistry hfree).memberIndex_eq] at hi
  exact List.mem_toFinset.mpr (List.mem_of_getElem? (memberIndexOf_new.mp hi))

/-- An event of a later round than the first strongly sees a quorum of the round below. -/
theorem Reached.quorum_heard (hfree : H.CollisionFree S) (hforks : ForkFree S)
    (hg : Reached H (fun _ op => op.Inserts S) registry g) (hx : g.get? x = some r)
    (hround : 2 ≤ r.round) : 2 * registry.len < 3 * (g.heard x).toFinset.card := by
  have hwf := (hg.sound hfree fun _ _ h => h.from).wf
  have hnone (c : NodeId) (hc : Forks S c) : c ∈ (∅ : Finset NodeId) :=
    absurd hc (not_forks_of_forkFree hforks c)
  have hpos : 3 * (∅ : Finset NodeId).card < registry.len := by
    rw [registry.len_eq]
    exact Finset.card_pos.mpr ⟨_, hg.creator_mem hfree hx⟩
  obtain ⟨a, ra, hanc, -, -, hquorum⟩ := hg.exists_quorum_below hfree hnone hpos hx hround
  rw [hg.card_creatorsOf_strong hfree hnone hpos] at hquorum
  have hle : (g.witnessesOfRound (r.round - 1)).countP (g.stronglySees a) ≤
      (g.witnessesOfRound (r.round - 1)).countP (g.stronglySees x) := by
    refine List.countP_mono_left fun s hs hstrong => ?_
    obtain ⟨rs, hrs, -, -⟩ := hwf.witness_sound hs
    exact hg.stronglySees_of_anc hfree hforks (Option.isSome_of_eq_some hx) hanc
      (Option.isSome_of_eq_some hrs) hstrong
  have hcard : (g.heard x).toFinset.card =
      (g.witnessesOfRound (r.round - 1)).countP (g.stronglySees x) := by
    rw [heard, List.toFinset_card_of_nodup ((hwf.witness_nodup _).filter _), roundOf_eq hx,
      List.countP_eq_length_filter]
  omega

end Quorums

/-! ## Two graphs -/

/-- Two graphs of runs over the same events, which have no forks. -/
structure Peers (H : Hasher) (S : Set Event) (registry : MembershipRegistry) (g g' : Hashgraph) :
    Prop where
  free : H.CollisionFree S
  forkFree : ForkFree S
  left : Reached H (fun _ op => op.Inserts S) registry g
  right : Reached H (fun _ op => op.Inserts S) registry g'

/-- The witnesses of a round in either graph. -/
def jointWitnesses (g g' : Hashgraph) (n : ℕ) : Finset EventHash :=
  (g.witnessesOfRound n).toFinset ∪ (g'.witnessesOfRound n).toFinset

namespace Peers

variable {H : Hasher} {S : Set Event} {registry : MembershipRegistry} {g g' : Hashgraph}
  {w y s : EventHash} {d n : ℕ}

theorem symm (h : Peers H S registry g g') : Peers H S registry g' g :=
  ⟨h.free, h.forkFree, h.right, h.left⟩

theorem sound (h : Peers H S registry g g') : g.Sound H S :=
  h.left.sound h.free fun _ _ hop => hop.from

theorem meets (h : Peers H S registry g g') : Meets g g' := h.left.meets_of_inserts h.free h.right

theorem roundOf_eq (h : Peers H S registry g g') (hy : Meets.Both g g' y) :
    g.roundOf y = g'.roundOf y := by
  obtain ⟨r, hr⟩ := Option.isSome_iff_exists.mp hy.1
  obtain ⟨r', hr'⟩ := Option.isSome_iff_exists.mp hy.2
  rw [Hashgraph.roundOf_eq hr, Hashgraph.roundOf_eq hr',
    (h.left.sameRound h.free h.right hy r r' hr hr').1]

theorem isSome_of_mem_heard (h : Peers H S registry g g') (hs : s ∈ g.heard y) :
    (g.get? y).isSome ∧ (g.get? s).isSome := by
  obtain ⟨hmem, hstrong⟩ := List.mem_filter.mp hs
  obtain ⟨rs, hrs, -, -⟩ := h.sound.wf.witness_sound hmem
  obtain ⟨ry, -, hry, -, -⟩ := (h.left.fixedRegistry h.free).of_stronglySee h.sound.wf
    (truth_eq_true_iff.mp hstrong)
  exact ⟨Option.isSome_of_eq_some hry, Option.isSome_of_eq_some hrs⟩

/-- What a voter of this graph hears in the other graph it hears here. -/
theorem mem_heard (h : Peers H S registry g g') (hy : (g.get? y).isSome) (hs : s ∈ g'.heard y) :
    s ∈ g.heard y := by
  have hy' := (h.symm.isSome_of_mem_heard hs).1
  exact (h.symm.meets.mem_heard h.symm.sound.wf h.sound.wf
    (fun _ hz => h.right.sameRound h.free h.left hz)
    ((h.right.fixedRegistry h.free).memberCountAtRound_eq (h.left.fixedRegistry h.free))
    ⟨hy', hy⟩ hs).1

theorem mem_witnesses (h : Peers H S registry g g') (hy : (g.get? y).isSome)
    (hwit : y ∈ g'.witnessesOfRound n) : y ∈ g.witnessesOfRound n := by
  obtain ⟨r', hr', hround', hwit'⟩ := h.symm.sound.wf.witness_sound hwit
  obtain ⟨r, hr⟩ := Option.isSome_iff_exists.mp hy
  obtain ⟨hround, hflag⟩ := h.left.sameRound h.free h.right
    ⟨hy, Option.isSome_of_eq_some hr'⟩ r r' hr hr'
  rw [← hround', ← hround]
  exact h.sound.wf.witness_complete hr (hflag ▸ hwit')

/-- A creator's witness in one graph is its witness of the round in the other: the later of the two
would have the other on its chain, in an earlier round. -/
theorem witness_eq_of_seq_le (h : Peers H S registry g g') {a b : EventHash}
    {ra rb : EventRecord} (ha : a ∈ g.witnessesOfRound n) (hb : b ∈ g'.witnessesOfRound n)
    (hra : g.get? a = some ra) (hrb : g'.get? b = some rb)
    (hcreator : ra.event.creator = rb.event.creator) (hle : ra.seq ≤ rb.seq) : a = b := by
  by_contra hne
  have hchain : g'.SelfAnc b a := h.meets.selfAnc_of_not_forks h.sound h.symm.sound
    (not_forks_of_forkFree h.forkFree _) (isEventAt_of_get? hra)
    (hcreator ▸ isEventAt_of_get? hrb) hle
  have hstored := h.symm.meets.whole.isSome_of_anc (Option.isSome_of_eq_some hrb) hchain.anc
  obtain ⟨ra', hra', hround, -⟩ := h.symm.sound.wf.witness_sound (h.symm.mem_witnesses hstored ha)
  obtain ⟨rb', hrb', hround', hwit⟩ := h.symm.sound.wf.witness_sound hb
  have hlt := h.symm.meets.whole.round_lt_of_selfAnc hrb' hra' hwit hchain (Ne.symm hne)
  omega

theorem witness_eq (h : Peers H S registry g g') {a b : EventHash} {ra rb : EventRecord}
    (ha : a ∈ g.witnessesOfRound n) (hb : b ∈ g'.witnessesOfRound n) (hra : g.get? a = some ra)
    (hrb : g'.get? b = some rb) (hcreator : ra.event.creator = rb.event.creator) : a = b := by
  rcases Nat.le_total ra.seq rb.seq with hle | hle
  · exact h.witness_eq_of_seq_le ha hb hra hrb hcreator hle
  · exact (h.symm.witness_eq_of_seq_le hb ha hrb hra hcreator.symm hle).symm

/-! ### The election -/

/-- `t` is one of the two graphs and `t'` the other. -/
def Sides (g g' t t' : Hashgraph) : Prop := t = g ∧ t' = g' ∨ t = g' ∧ t' = g

theorem sides (h : Peers H S registry g g') {t t' : Hashgraph} (ht : Sides g g' t t') :
    Peers H S registry t t' := by
  rcases ht with ⟨rfl, rfl⟩ | ⟨rfl, rfl⟩
  · exact h
  · exact h.symm

theorem exists_side (hy : y ∈ jointWitnesses g g' n) :
    ∃ t t', Sides g g' t t' ∧ y ∈ t.witnessesOfRound n := by
  rcases Finset.mem_union.mp hy with hy | hy
  · exact ⟨g, g', .inl ⟨rfl, rfl⟩, List.mem_toFinset.mp hy⟩
  · exact ⟨g', g, .inr ⟨rfl, rfl⟩, List.mem_toFinset.mp hy⟩

theorem mem_jointWitnesses {t t' : Hashgraph} (ht : Sides g g' t t')
    (hy : y ∈ t.witnessesOfRound n) : y ∈ jointWitnesses g g' n := by
  rcases ht with ⟨rfl, rfl⟩ | ⟨rfl, rfl⟩
  · exact Finset.mem_union_left _ (List.mem_toFinset.mpr hy)
  · exact Finset.mem_union_right _ (List.mem_toFinset.mpr hy)

/-- The members have one witness each in a round, in both graphs together. -/
theorem card_jointWitnesses_le (h : Peers H S registry g g') (n : ℕ) :
    (jointWitnesses g g' n).card ≤ registry.len := by
  rw [registry.len_eq]
  refine Finset.card_le_card_of_forall_subsingleton
    (fun y c => ∃ t t' r, Sides g g' t t' ∧ y ∈ t.witnessesOfRound n ∧ t.get? y = some r ∧
      r.event.creator = c) (fun y hy => ?_) ?_
  · obtain ⟨t, t', ht, hwit⟩ := exists_side hy
    obtain ⟨r, hr, -, -⟩ := (h.sides ht).sound.wf.witness_sound hwit
    exact ⟨_, (h.sides ht).left.creator_mem h.free hr, t, t', r, ht, hwit, hr, rfl⟩
  · rintro c - y ⟨-, t, t', r, ht, hy, hr, hc⟩ z ⟨-, u, u', rz, hu, hz, hrz, hcz⟩
    have hpeers : Peers H S registry t u :=
      ⟨h.free, h.forkFree, (h.sides ht).left, (h.sides hu).left⟩
    exact hpeers.witness_eq hy hz hr hrz (hc.trans hcz.symm)

/-- A voter hears in both graphs together what it hears in the one that holds it. -/
theorem heard_union (h : Peers H S registry g g') {t t' : Hashgraph} (ht : Sides g g' t t')
    (hy : (t.get? y).isSome) :
    (g.heard y).toFinset ∪ (g'.heard y).toFinset = (t.heard y).toFinset := by
  have hpeers := h.sides ht
  have hsub : (t'.heard y).toFinset ⊆ (t.heard y).toFinset := fun s hs => by
    rw [List.mem_toFinset] at hs ⊢
    exact hpeers.mem_heard hy hs
  rcases ht with ⟨rfl, rfl⟩ | ⟨rfl, rfl⟩
  · exact Finset.union_eq_left.mpr hsub
  · exact Finset.union_eq_right.mpr hsub

/-- The election on `w`, a candidate of round `n`, among the witnesses of both graphs. -/
def election (h : Peers H S registry g g') (w : EventHash) (n : ℕ) : Election EventHash where
  layer d := jointWitnesses g g' (n + 1 + d)
  below y := (g.heard y).toFinset ∪ (g'.heard y).toFinset
  direct y := g.sees y w || g'.sees y w
  coin y := g.coinOf y || g'.coinOf y
  isCoin d := decide ((d + 1) % coinRoundFrequency = 0)
  total := registry.len
  card_layer_le d := h.card_jointWitnesses_le _
  below_subset d y hy s hs := by
    obtain ⟨t, t', ht, hwit⟩ := exists_side hy
    obtain ⟨r, hr, hround, -⟩ := (h.sides ht).sound.wf.witness_sound hwit
    rw [h.heard_union ht (Option.isSome_of_eq_some hr), List.mem_toFinset] at hs
    have hmem := (List.mem_filter.mp hs).1
    rw [Hashgraph.roundOf_eq hr, hround] at hmem
    exact mem_jointWitnesses ht hmem
  quorum_below d y hy := by
    obtain ⟨t, t', ht, hwit⟩ := exists_side hy
    obtain ⟨r, hr, hround, -⟩ := (h.sides ht).sound.wf.witness_sound hwit
    rw [h.heard_union ht (Option.isSome_of_eq_some hr)]
    exact (h.sides ht).left.quorum_heard h.free h.forkFree hr (by omega)

/-- An answer that the graph holding the voter gives whenever the other one does. -/
theorem or_eq {f : Hashgraph → Bool} {t t' : Hashgraph} (ht : Sides g g' t t')
    (hle : f t' = true → f t = true) : (f g || f g') = f t := by
  rcases ht with ⟨rfl, rfl⟩ | ⟨rfl, rfl⟩
  · rw [Bool.or_eq_left_iff_imp]
    exact hle
  · rw [Bool.or_eq_right_iff_imp]
    exact hle

theorem sees_or (h : Peers H S registry g g') {t t' : Hashgraph} (ht : Sides g g' t t')
    (hw : Meets.Both g g' w) (hy : (t.get? y).isSome) :
    (g.sees y w || g'.sees y w) = t.sees y w := by
  refine or_eq (f := fun u => u.sees y w) ht fun hsees => ?_
  obtain ⟨r, -, hr, -⟩ := exists_of_see (truth_eq_true_iff.mp hsees)
  have hw' : Meets.Both t t' w := by
    rcases ht with ⟨rfl, rfl⟩ | ⟨rfl, rfl⟩
    · exact hw
    · exact hw.symm
  rw [(h.sides ht).meets.sees_eq ⟨hy, Option.isSome_of_eq_some hr⟩ hw']
  exact hsees

theorem coinOf_or (h : Peers H S registry g g') {t t' : Hashgraph} (ht : Sides g g' t t')
    (hy : (t.get? y).isSome) : (g.coinOf y || g'.coinOf y) = t.coinOf y := by
  refine or_eq (f := fun u => u.coinOf y) ht fun hcoin => ?_
  have hy' : (t'.get? y).isSome := by
    by_contra hnone
    rw [coinOf, coinRoundVote, Option.not_isSome_iff_eq_none.mp hnone] at hcoin
    cases hcoin
  rw [(h.sides ht).meets.coinOf_eq ⟨hy, hy'⟩]
  exact hcoin

/-- A voter casts in the election the vote that the graph which holds it gives it. -/
theorem vote_eq (h : Peers H S registry g g') {t t' : Hashgraph} (ht : Sides g g' t t')
    (hw : Meets.Both g g' w) (hy : (t.get? y).isSome) :
    (h.election w n).vote d y = t.specVote registry.len w d y := by
  induction d generalizing y with
  | zero => exact h.sees_or ht hw hy
  | succ d ih =>
    have hheard : (h.election w n).below y = (t.heard y).toFinset := h.heard_union ht hy
    have hvotes : ∀ s ∈ (t.heard y).toFinset,
        (h.election w n).vote d s = t.specVote registry.len w d s := fun s hs =>
      ih ((h.sides ht).isSome_of_mem_heard (List.mem_toFinset.mp hs)).2
    have hcoin : (h.election w n).coin y = t.coinOf y := h.coinOf_or ht hy
    rw [Election.vote, specVote, hheard, majority_congr hvotes, votesFor_congr hvotes, hcoin]
    simp only [election, decide_eq_true_eq]

end Peers

end Hashgraph

end JKain
