import JKain.Primitives

/-!
# Membership registries and their history

A registry is the set of members with the keys that verify them; a roster history maps each
activation round to the registry that is active from that round on.
-/

namespace JKain

open Std

/-- The Ed25519 key and the 48-byte BLS key registered for a member. -/
structure MemberKeys where
  key : List UInt8
  blsKey : List UInt8

/-- `MembershipRegistry`: the members and their keys. -/
structure MembershipRegistry where
  keys : ExtTreeMap NodeId MemberKeys

namespace MembershipRegistry

/-- `MembershipRegistry::new`. -/
def new : MembershipRegistry := ⟨∅⟩

/-- `MembershipRegistry::register`. -/
def register (reg : MembershipRegistry) (node : NodeId) (key blsKey : List UInt8) :
    MembershipRegistry :=
  ⟨reg.keys.insert node ⟨key, blsKey⟩⟩

/-- `MembershipRegistry::member_ids`: the members in increasing order. -/
def memberIds (reg : MembershipRegistry) : List NodeId := reg.keys.keys

/-- `MembershipRegistry::len`. -/
def len (reg : MembershipRegistry) : ℕ := reg.keys.size

theorem len_eq (reg : MembershipRegistry) : reg.len = reg.memberIds.toFinset.card := by
  rw [memberIds, List.toFinset_card_of_nodup ExtTreeMap.nodup_keys, ExtTreeMap.length_keys, len]

end MembershipRegistry

/-- `RosterHistory`: registry snapshots keyed by the round they become active in. -/
structure RosterHistory where
  snapshots : ExtTreeMap ℕ MembershipRegistry

namespace RosterHistory

/-- `RosterHistory::new`: the genesis registry is active from round 1. -/
def new (genesis : MembershipRegistry) : RosterHistory := ⟨(∅ : ExtTreeMap ℕ _).insert 1 genesis⟩

/-- `self.snapshots.range(..=round).next_back()`: the last snapshot active at `round`. -/
def activeAt (rh : RosterHistory) (round : ℕ) : Option (ℕ × MembershipRegistry) :=
  (rh.snapshots.toList.filter (·.1 ≤ round)).getLast?

/-- `RosterHistory::schedule`: a snapshot scheduled twice for a round keeps the later registry. -/
def schedule (rh : RosterHistory) (activationRound : ℕ) (registry : MembershipRegistry) :
    RosterHistory :=
  ⟨rh.snapshots.insert activationRound registry⟩

/-- `RosterHistory::prune_before`: drops the snapshots below `keepFromRound`, except the last of
them. -/
def pruneBefore (rh : RosterHistory) (keepFromRound : ℕ) : RosterHistory :=
  let predecessor := (rh.snapshots.toList.filter (·.1 < keepFromRound)).getLast?.map (·.1)
  ⟨rh.snapshots.filter fun round _ => keepFromRound ≤ round || some round == predecessor⟩

/-! ## Which rounds have a roster -/

section ActiveAt

variable {rh : RosterHistory} {m n : ℕ}

theorem isSome_activeAt_iff : (rh.activeAt n).isSome ↔ ∃ k ≤ n, k ∈ rh.snapshots := by
  rw [activeAt, Option.isSome_iff_ne_none, ne_eq, List.getLast?_eq_none_iff,
    List.filter_eq_nil_iff]
  simp only [decide_eq_true_eq, not_forall, not_not, Prod.exists, exists_prop,
    ExtTreeMap.mem_toList_iff_getElem?_eq_some]
  constructor
  · rintro ⟨k, registry, hk, hle⟩
    exact ⟨k, hle, ExtTreeMap.isSome_getElem?_iff_mem.mp (Option.isSome_of_eq_some hk)⟩
  · rintro ⟨k, hle, hk⟩
    obtain ⟨registry, hregistry⟩ :=
      Option.isSome_iff_exists.mp (ExtTreeMap.isSome_getElem?_iff_mem.mpr hk)
    exact ⟨k, registry, hregistry, hle⟩

theorem isSome_activeAt_mono (hle : m ≤ n) (h : (rh.activeAt m).isSome) :
    (rh.activeAt n).isSome := by
  obtain ⟨k, hk, hmem⟩ := isSome_activeAt_iff.mp h
  exact isSome_activeAt_iff.mpr ⟨k, hk.trans hle, hmem⟩

theorem isSome_activeAt_new (genesis : MembershipRegistry) : ((new genesis).activeAt 1).isSome :=
  isSome_activeAt_iff.mpr ⟨1, le_rfl, by simp [new]⟩

theorem isSome_activeAt_schedule (round : ℕ) (registry : MembershipRegistry)
    (h : (rh.activeAt n).isSome) : ((rh.schedule round registry).activeAt n).isSome := by
  obtain ⟨k, hk, hmem⟩ := isSome_activeAt_iff.mp h
  exact isSome_activeAt_iff.mpr ⟨k, hk, by simp [schedule, hmem]⟩

/-- Dropping old snapshots keeps a roster for the rounds from the bound on. -/
theorem isSome_activeAt_pruneBefore {keepFromRound : ℕ} (hle : keepFromRound ≤ n)
    (h : (rh.activeAt n).isSome) : ((rh.pruneBefore keepFromRound).activeAt n).isSome := by
  obtain ⟨k, hk, hmem⟩ := isSome_activeAt_iff.mp h
  rw [isSome_activeAt_iff]
  cases hlast : (rh.snapshots.toList.filter (·.1 < keepFromRound)).getLast? with
  | some p =>
    -- The last snapshot below the bound is kept.
    have hp := List.mem_of_getLast? hlast
    rw [List.mem_filter, decide_eq_true_eq] at hp
    have hget : rh.snapshots[p.1]? = some p.2 :=
      ExtTreeMap.mem_toList_iff_getElem?_eq_some.mp hp.1
    refine ⟨p.1, hp.2.le.trans hle, ?_⟩
    rw [← ExtTreeMap.isSome_getElem?_iff_mem, pruneBefore, hlast]
    simp [hget]
  | none =>
    -- There is none below the bound, so `k` is kept.
    obtain ⟨registry, hregistry⟩ :=
      Option.isSome_iff_exists.mp (ExtTreeMap.isSome_getElem?_iff_mem.mpr hmem)
    have hkeep : keepFromRound ≤ k := by
      by_contra hlt
      have hin : (k, registry) ∈ rh.snapshots.toList.filter (·.1 < keepFromRound) := by
        rw [List.mem_filter]
        exact ⟨ExtTreeMap.mem_toList_iff_getElem?_eq_some.mpr hregistry, by simpa using hlt⟩
      rw [List.getLast?_eq_none_iff.mp hlast] at hin
      cases hin
    refine ⟨k, hk, ?_⟩
    rw [← ExtTreeMap.isSome_getElem?_iff_mem, pruneBefore, hlast]
    simp [hregistry, hkeep]

/-! ## Which snapshot is active -/

theorem mem_snapshots_of_getElem? {k : ℕ} {registry : MembershipRegistry}
    (h : rh.snapshots[k]? = some registry) : k ∈ rh.snapshots :=
  ExtTreeMap.isSome_getElem?_iff_mem.mp (Option.isSome_of_eq_some h)

private theorem last_of_activeAt {k : ℕ} {registry : MembershipRegistry}
    (h : rh.activeAt n = some (k, registry)) :
    k ≤ n ∧ rh.snapshots[k]? = some registry ∧ ∀ j ∈ rh.snapshots, j ≤ n → j ≤ k := by
  obtain ⟨front, hfront⟩ := List.getLast?_eq_some_iff.mp h
  have hmem : (k, registry) ∈ rh.snapshots.toList.filter (·.1 ≤ n) := by simp [hfront]
  rw [List.mem_filter, ExtTreeMap.mem_toList_iff_getElem?_eq_some, decide_eq_true_eq] at hmem
  refine ⟨hmem.2, hmem.1, fun j hj hle => ?_⟩
  obtain ⟨other, hother⟩ :=
    Option.isSome_iff_exists.mp (ExtTreeMap.isSome_getElem?_iff_mem.mpr hj)
  have hin : (j, other) ∈ rh.snapshots.toList.filter (·.1 ≤ n) := by
    rw [List.mem_filter, ExtTreeMap.mem_toList_iff_getElem?_eq_some]
    exact ⟨hother, by simpa using hle⟩
  have hsorted := rh.snapshots.ordered_keys_toList.filter (·.1 ≤ n)
  rw [hfront] at hin hsorted
  rcases List.mem_append.mp hin with hbefore | hlast
  · exact (compare_lt_iff_lt.mp
      ((List.pairwise_append.mp hsorted).2.2 _ hbefore (k, registry) (by simp))).le
  · exact (congrArg Prod.fst (List.mem_singleton.mp hlast)).le

/-- The active snapshot is the last one at or below the round. -/
theorem activeAt_eq_some_iff {k : ℕ} {registry : MembershipRegistry} :
    rh.activeAt n = some (k, registry) ↔
      k ≤ n ∧ rh.snapshots[k]? = some registry ∧ ∀ j ∈ rh.snapshots, j ≤ n → j ≤ k := by
  refine ⟨last_of_activeAt, fun ⟨hle, hget, hlast⟩ => ?_⟩
  have hmem := mem_snapshots_of_getElem? hget
  obtain ⟨⟨k', registry'⟩, hactive⟩ :=
    Option.isSome_iff_exists.mp (isSome_activeAt_iff.mpr ⟨k, hle, hmem⟩)
  obtain ⟨hle', hget', hlast'⟩ := last_of_activeAt hactive
  obtain rfl : k' = k :=
    (hlast k' (mem_snapshots_of_getElem? hget') hle').antisymm (hlast' k hmem hle)
  rw [hactive, Option.some.inj (hget'.symm.trans hget)]

/-- The first registry is active from round 1 on, until another one is scheduled. -/
theorem activeAt_new (genesis : MembershipRegistry) (hn : 1 ≤ n) :
    (new genesis).activeAt n = some (1, genesis) := by
  refine activeAt_eq_some_iff.mpr ⟨hn, by simp [new], fun j hj _ => ?_⟩
  simp only [new, ExtTreeMap.mem_insert, ExtTreeMap.not_mem_empty, or_false] at hj
  exact (Std.compare_eq_iff_eq.mp hj).ge

/-- The first snapshot is never dropped while it is the only one. -/
theorem pruneBefore_new (genesis : MembershipRegistry) (keepFromRound : ℕ) :
    (new genesis).pruneBefore keepFromRound = new genesis := by
  have hlist : (new genesis).snapshots.toList = [(1, genesis)] := rfl
  rw [pruneBefore, hlist]
  congr 1
  refine ExtTreeMap.ext_getElem? fun {k} => ?_
  rw [ExtTreeMap.getElem?_filter', new, ExtTreeMap.getElem?_insert]
  by_cases hk : compare 1 k = .eq
  · obtain rfl := Std.compare_eq_iff_eq.mp hk
    rcases Nat.lt_or_ge 1 keepFromRound with hlt | hge
    · simp [hlt]
    · simp [hge]
  · simp [hk]

/-- A snapshot scheduled above all others is active from its round on, and changes nothing below
it. -/
theorem activeAt_schedule {round : ℕ} {registry : MembershipRegistry}
    (h : ∀ k ∈ rh.snapshots, k < round) :
    (rh.schedule round registry).activeAt n =
      if round ≤ n then some (round, registry) else rh.activeAt n := by
  have hmem (j : ℕ) : j ∈ (rh.schedule round registry).snapshots ↔ round = j ∨ j ∈ rh.snapshots := by
    simp [schedule]
  split
  · rename_i hle
    refine activeAt_eq_some_iff.mpr ⟨hle, by simp [schedule], fun j hj _ => ?_⟩
    rcases (hmem j).mp hj with rfl | hj
    · exact le_rfl
    · exact (h j hj).le
  · rename_i hlt
    refine Option.ext fun ⟨k, registry'⟩ => ?_
    simp only [activeAt_eq_some_iff, hmem]
    refine and_congr_right fun hk => and_congr ?_ ⟨fun hlast j hj => hlast j (.inr hj), ?_⟩
    · rw [schedule, ExtTreeMap.getElem?_insert, if_neg]
      rw [Std.compare_eq_iff_eq]
      omega
    · rintro hlast j (rfl | hj) hjn
      · exact absurd hjn hlt
      · exact hlast j hj hjn

/-! ## What dropping old snapshots keeps -/

/-- The last snapshot below a bound that is not under the cut is kept: it is either above the cut or
the last one below it. -/
theorem getLast?_below_pruneBefore {keepFromRound bound : ℕ} (hle : keepFromRound ≤ bound) :
    ((rh.pruneBefore keepFromRound).snapshots.toList.filter (·.1 < bound)).getLast? =
      (rh.snapshots.toList.filter (·.1 < bound)).getLast? := by
  rw [pruneBefore, ExtTreeMap.toList_filter, List.filter_comm]
  cases hlast : (rh.snapshots.toList.filter (·.1 < bound)).getLast? with
  | none => rw [List.getLast?_eq_none_iff.mp hlast, List.filter_nil, List.getLast?_nil]
  | some p =>
    obtain ⟨front, hfront⟩ := List.getLast?_eq_some_iff.mp hlast
    rw [hfront, List.filter_append, List.getLast?_append]
    by_cases hp : keepFromRound ≤ p.1
    · simp [hp]
    · -- Nothing between the cut and the bound is stored, so that the two last snapshots are one.
      have hsorted := (rh.snapshots.ordered_keys_toList.filter (·.1 < bound))
      rw [hfront, List.pairwise_append] at hsorted
      have hsame : rh.snapshots.toList.filter (·.1 < keepFromRound) = front ++ [p] := by
        rw [← hfront]
        refine List.filter_congr fun q hq => ?_
        by_cases hqb : q.1 < bound
        · have hmem : q ∈ front ++ [p] := hfront ▸ List.mem_filter.mpr ⟨hq, by simpa using hqb⟩
          have hqp : q.1 ≤ p.1 := by
            rcases List.mem_append.mp hmem with h | h
            · exact (compare_lt_iff_lt.mp (hsorted.2.2 q h p (by simp))).le
            · rw [List.mem_singleton.mp h]
          simp only [hqb, decide_true, decide_eq_true_eq]
          omega
        · simp only [hqb, decide_false, decide_eq_false_iff_not]
          omega
      simp [hsame]

theorem activeAt_pruneBefore {keepFromRound : ℕ} (hle : keepFromRound ≤ n) :
    (rh.pruneBefore keepFromRound).activeAt n = rh.activeAt n := by
  have hbound (rh : RosterHistory) :
      rh.activeAt n = (rh.snapshots.toList.filter (·.1 < n + 1)).getLast? := by
    simp only [activeAt, Nat.lt_succ_iff]
  rw [hbound, hbound, getLast?_below_pruneBefore (by omega)]

end ActiveAt

end RosterHistory

end JKain
