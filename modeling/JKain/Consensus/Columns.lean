import JKain.Consensus.TransferSpec

/-!
# Member columns

A graph that grows gives each new member the next free slot of the rows; a graph that starts at a
checkpoint numbers the members by their ids. The two numberings agree where members join in
increasing order of their ids, and a row then means the same on both sides. In any other order they
do not: the learner reads, and refuses, rows that are in order.
-/

namespace JKain

open Std JKain.Lib

namespace Hashgraph

/-- The slots are numbered by the ids of their members. -/
structure HasColumns (g : Hashgraph) (ids : List NodeId) : Prop where
  sorted : ids.Pairwise (· < ·)
  count : g.memberCount = ids.length
  index : ∀ {c i}, g.memberIndexOf c = some i ↔ ids[i]? = some c

/-- A member that joins has a larger id than all members before it. -/
def Op.Ascends (g : Hashgraph) : Op → Prop
  | .addMember node _ _ => ∀ c, (g.memberIndexOf c).isSome → c < node
  | _ => True

section Columns

variable {H : Hasher} {S : Set Event} {registry : MembershipRegistry} {g g' : Hashgraph}
  {ids ids' : List NodeId} {op : Op}

theorem HasColumns.mem_iff (h : g.HasColumns ids) (c : NodeId) :
    c ∈ ids ↔ (g.memberIndexOf c).isSome := by
  rw [List.mem_iff_getElem?, Option.isSome_iff_exists]
  exact exists_congr fun _ => h.index.symm

/-- The members determine their slots. -/
theorem HasColumns.memberIndexOf_eq (h : g.HasColumns ids) (h' : g'.HasColumns ids')
    (hmembers : ∀ c, (g.memberIndexOf c).isSome ↔ (g'.memberIndexOf c).isSome) (c : NodeId) :
    g.memberIndexOf c = g'.memberIndexOf c := by
  have hids : ids = ids' := h.sorted.eq_of_mem_iff h'.sorted fun c => by
    rw [h.mem_iff, h'.mem_iff, hmembers]
  subst hids
  exact Option.ext fun i => h.index.trans h'.index.symm

theorem sorted_memberIds (registry : MembershipRegistry) :
    registry.memberIds.Pairwise (· < ·) :=
  ExtTreeMap.ordered_keys.imp fun h => Nat.compare_eq_lt.mp h

theorem hasColumns_new (registry : MembershipRegistry) :
    (Hashgraph.new registry).HasColumns registry.memberIds :=
  ⟨sorted_memberIds registry, rfl, memberIndexOf_new⟩

theorem hasColumns_fromCheckpoint (checkpoint : CheckpointPayload) (rh : RosterHistory) :
    (fromCheckpoint checkpoint rh).HasColumns checkpoint.rosterSnapshot.memberIds :=
  ⟨sorted_memberIds _, rfl, memberIndexOf_new⟩

theorem HasColumns.widen (h : g.HasColumns ids) {node : NodeId}
    (hlast : ∀ c, (g.memberIndexOf c).isSome → c < node) (activationRound : ℕ)
    (newRegistry : MembershipRegistry) :
    (g.widen node activationRound newRegistry).HasColumns (ids ++ [node]) := by
  have hlt (c : NodeId) (hc : c ∈ ids) : c < node := hlast c ((h.mem_iff c).mp hc)
  refine ⟨?_, by simp [Hashgraph.widen, h.count], fun {c i} => ?_⟩
  · rw [List.pairwise_append]
    refine ⟨h.sorted, List.pairwise_singleton _ _, fun c hc d hd => ?_⟩
    obtain rfl := List.mem_singleton.mp hd
    exact hlt c hc
  · rw [memberIndexOf_widen, List.getElem?_append]
    by_cases hc : c = node
    · -- The new member is in the last slot and in no other.
      subst hc
      rw [if_pos rfl, Option.some.injEq, h.count]
      split
      · rename_i hi
        refine ⟨fun heq => absurd heq (by omega), fun hmem => ?_⟩
        exact absurd (hlt c (List.mem_of_getElem? hmem)) (lt_irrefl c)
      · rename_i hi
        rw [List.getElem?_singleton]
        split <;> simp <;> omega
    · rw [if_neg hc, h.index]
      split
      · rfl
      · rename_i hi
        rw [List.getElem?_eq_none (by omega), List.getElem?_singleton]
        split <;> simp [Ne.symm hc]

/-- In a run in which members join in increasing order the slots are numbered by the ids. -/
theorem Reached.columns (hfree : H.CollisionFree S)
    (h : Reached H (fun g op => op.From S ∧ op.Ascends g) registry g) :
    ∃ ids, g.HasColumns ids := by
  refine h.invariant (I := fun g => ∃ ids, g.HasColumns ids) hfree (fun _ _ hp => hp.1)
    ⟨_, hasColumns_new registry⟩ ?_
  rintro g g' op - ⟨ids, hids⟩ ⟨-, hascends⟩ heffect
  rcases heffect.members with ⟨hindex, hcount⟩ | ⟨node, round, newRegistry, rfl, -, rfl⟩
  · refine ⟨ids, hids.sorted, hcount.trans hids.count, fun {c i} => ?_⟩
    rw [memberIndexOf, hindex]
    exact hids.index
  · exact ⟨_, hids.widen hascends round newRegistry⟩

theorem Reached.orderPaired {P : Hashgraph → Op → Prop} (hfree : H.CollisionFree S)
    (hP : ∀ g op, P g op → op.From S) (h : Reached H P registry g) : g.OrderPaired := by
  refine h.invariant hfree hP (fun x => by rfl) ?_
  intro g g' op _ hpaired _ heffect x
  cases hx : g'.get? x with
  | none => simp [orderOf, Hashgraph.roundReceived, Hashgraph.consensusTimestamp, hx]
  | some r =>
    rcases heffect.stamped (Option.isSome_of_eq_some hx) with hsame | ⟨-, n, t, -, -, heq⟩
    · rw [hsame]
      exact hpaired x
    · rw [heq]
      rfl

/-- Where members join in increasing order of their ids, a graph that starts at a checkpoint with
the same members gives every member the same slot. A row loaded from the grown graph then holds the
same number for every member, and with all events loaded the window roots agree. -/
theorem columns_eq_of_ascending (hfree : H.CollisionFree S)
    (h : Reached H (fun g op => op.From S ∧ op.Ascends g) registry g)
    {checkpoint : CheckpointPayload}
    (hroster : ∀ c, c ∈ checkpoint.rosterSnapshot.memberIds ↔ (g.memberIndexOf c).isSome)
    (rh : RosterHistory) (decidedRound : ℕ) :
    (∀ c, (fromCheckpoint checkpoint rh).memberIndexOf c = g.memberIndexOf c) ∧
      ∀ l, Loaded H g decidedRound (fromCheckpoint checkpoint rh) l →
        (∀ x r, l.get? x = some r → ∃ r', g.get? x = some r' ∧ ∀ c i j,
          l.memberIndexOf c = some i → g.memberIndexOf c = some j →
            r.ancestorSeqs[i]? = r'.ancestorSeqs[j]?) ∧
        ((∀ x, (g.get? x).isSome → (l.get? x).isSome) → ∀ sha round windowRounds,
          rh.activeAt round = g.rosterHistory.activeAt round →
            l.tryComputeWindowRoot sha round windowRounds =
              g.tryComputeWindowRoot sha round windowRounds) := by
  have hs : g.Sound H S := h.sound hfree fun _ _ hp => hp.1
  obtain ⟨ids, hids⟩ := h.columns hfree
  have hlearner := hasColumns_fromCheckpoint checkpoint rh
  have hmembers (c : NodeId) :
      ((fromCheckpoint checkpoint rh).memberIndexOf c).isSome ↔ (g.memberIndexOf c).isSome :=
    (hlearner.mem_iff c).symm.trans (hroster c)
  have hcolumns := hlearner.memberIndexOf_eq hids hmembers
  have hcount : (fromCheckpoint checkpoint rh).memberCount = g.memberCount := by
    have hsame : checkpoint.rosterSnapshot.memberIds = ids :=
      hlearner.sorted.eq_of_mem_iff hids.sorted fun c => by rw [hroster, hids.mem_iff]
    rw [hlearner.count, hids.count, hsame]
  refine ⟨hcolumns, fun l hl => ?_⟩
  have hmirrors := hl.mirrors (fun _ => ExtTreeMap.getElem?_empty) hcount
    (fun hx => (hs.numbered hx).1) hs.wf.row_length (h.orderPaired hfree fun _ _ hp => hp.1)
  refine ⟨fun x r hx => ?_, fun hall sha round windowRounds hactive => ?_⟩
  · obtain ⟨r', hr', heq⟩ := hmirrors.record hx
    refine ⟨r', hr', fun c i j hi hj => ?_⟩
    rw [memberIndexOf, hmirrors.memberIndex_eq] at hi
    obtain rfl := Option.some.inj ((hi.symm.trans (hcolumns c)).trans hj)
    rw [show r.ancestorSeqs = r'.ancestorSeqs from (congrArg RetainedEvent.ancestorSeqs heq.symm :)]
  · refine tryComputeWindowRoot_of_retained_eq (fun x => ?_) sha ?_ windowRounds
    · cases hx : l.get? x with
      | some r =>
        obtain ⟨r', hr', heq⟩ := hmirrors.record hx
        rw [hr', Option.map_some, Option.map_some, heq]
      | none =>
        have habsent : ¬(g.get? x).isSome := fun hsome => by simpa [hx] using hall x hsome
        rw [Option.not_isSome_iff_eq_none.mp habsent]
    · rw [memberCountAtRound, rosterForRound, hmirrors.rosterHistory_eq,
        show (fromCheckpoint checkpoint rh).rosterHistory = rh from rfl, hactive]
      rfl

end Columns

/-! ## Members that join out of order -/

/-- The registry of the given members, with empty keys. -/
def registryOf (members : List NodeId) : MembershipRegistry :=
  members.foldl (fun registry node => registry.register node [] []) .new

/-- A payload for round 1 that commits to nothing but its roster. -/
def rosterPayload (roster : MembershipRegistry) : CheckpointPayload :=
  .new (fun _ => 0) 1 0 0 0 0 roster

/-- The theorem where member 7 joins after member 5. -/
theorem columns_eq_of_ascending_seven :
    (fromCheckpoint (rosterPayload (registryOf [5, 7])) (.new (registryOf [5, 7]))).memberIndexOf 7 =
      ((Hashgraph.new (registryOf [5])).widen 7 1 (registryOf [5, 7])).memberIndexOf 7 := by
  have hids : (registryOf [5]).memberIds = [5] := by decide +kernel
  have hfive (c : NodeId) (hc : ((Hashgraph.new (registryOf [5])).memberIndexOf c).isSome) :
      c < 7 := by
    have hmem := ((hasColumns_new (registryOf [5])).mem_iff c).mpr hc
    rw [hids, List.mem_singleton] at hmem
    exact hmem ▸ by decide
  have hnew : (Hashgraph.new (registryOf [5])).memberIndexOf 7 = none := by decide +kernel
  have hrun : Reached stampHash (fun g op => op.From ∅ ∧ op.Ascends g) (registryOf [5])
      ((Hashgraph.new (registryOf [5])).widen 7 1 (registryOf [5, 7])) := by
    refine @Reached.step _ _ _ _ _ (.addMember 7 1 (registryOf [5, 7])) .new hnew ⟨trivial, hfive⟩
      (.inl ?_)
    obtain ⟨a, t, hok, rfl⟩ := (addMember_spec hnew).exists_ok
    exact ⟨a, hok⟩
  have hroster := ((hasColumns_new (registryOf [5])).widen hfive 1 (registryOf [5, 7])).mem_iff
  rw [hids] at hroster
  refine (columns_eq_of_ascending (S := ∅) (fun _ he => he.elim) hrun (fun c => ?_) _ 0).1 7
  rw [← hroster c, show (rosterPayload (registryOf [5, 7])).rosterSnapshot.memberIds = [5] ++ [7] by
    decide +kernel]

/-- Member 5 creates an event, and then member 3 joins. -/
def lateJoin : List Op :=
  [.insert inOrder (plainEvent 1 5 none none), .addMember 3 1 (registryOf [5, 3])]

/-- A graph started from the roster after the join. -/
def lateLearner : Hashgraph :=
  fromCheckpoint (rosterPayload (registryOf [5, 3])) (.new (registryOf [5, 3]))

/-- Whether the learner accepts a record. -/
def lateAccepts (record : RetainedEvent) : Bool :=
  match insertAccepted stampHash record 0 lateLearner with
  | .ok _ _ => true
  | .error _ _ => false

/-- Member 3 joins after member 5: the grown graph has member 5 in slot 0, a graph started from the
same roster in slot 1, and it refuses the record of member 5. -/
theorem columns_differ_after_late_join :
    ∃ g, Reached stampHash (fun _ op => op.From {e | e ∈ [plainEvent 1 5 none none]})
        (registryOf [5]) g ∧
      (∀ c, c ∈ (registryOf [5, 3]).memberIds ↔ (g.memberIndexOf c).isSome) ∧
      g.memberIndexOf 5 = some 0 ∧ lateLearner.memberIndexOf 5 = some 1 ∧
      ∃ record ∈ g.retainedEvents, lateAccepts record = false := by
  have hrun : ((replay stampHash (Hashgraph.new (registryOf [5])) lateJoin).any fun g =>
      decide (g.memberIndex.keys = (registryOf [5, 3]).memberIds ∧ g.memberIndexOf 5 = some 0 ∧
        ∃ record ∈ g.retainedEvents, lateAccepts record = false)) = true := by decide +kernel
  rw [Option.any_eq_true] at hrun
  obtain ⟨g, hg, hcheck⟩ := hrun
  obtain ⟨hkeys, hfive, hrecord⟩ := of_decide_eq_true hcheck
  refine ⟨g, Reached.new.replay (fun op hop t => ?_) hg, fun c => ?_, hfive, by decide +kernel,
    hrecord⟩
  · simp only [lateJoin, List.mem_cons, List.not_mem_nil, or_false] at hop
    rcases hop with rfl | rfl <;> simp [Op.From]
  · rw [← hkeys, ExtTreeMap.mem_keys, memberIndexOf, ExtTreeMap.isSome_getElem?_iff_mem]

end Hashgraph

end JKain
