import JKain.Consensus.WellFormed

/-!
# What ordering does

The ordering loop writes received rounds, timestamps and its own position; the elections stay. What
it assigns is a function of the graph without these: `assignment g r x` is the timestamp round `r`
gives to `x`, and an event takes the first assignment among the rounds that are ordered. `Orders g
g'` says this of a stretch of the loop, and stretches compose.
-/

namespace JKain

open Std JKain.Lib

/-- A record without what ordering writes. -/
def EventRecord.unordered (r : EventRecord) : EventRecord :=
  { r with roundReceived := none, consensusTimestamp := none }

namespace Hashgraph

/-- The graph without what ordering writes. -/
def unordered (g : Hashgraph) : Hashgraph :=
  { g with
    events := g.events.map fun _ record => record.unordered
    fullyDecidedRounds := ∅
    nextRoundToOrder := 0
    orderLog := [] }

section Unordered

variable (g : Hashgraph)

@[simp] theorem get?_unordered (x : EventHash) :
    g.unordered.get? x = (g.get? x).map EventRecord.unordered := by
  simp [unordered, get?, ExtTreeMap.getElem?_map]

@[simp] theorem skeleton_unordered : g.unordered.skeleton = g.skeleton := by
  have hevents : (g.events.map fun _ record => record.unordered).map
      (fun _ record => record.bare) = g.events.map fun _ record => record.bare := by
    refine ExtTreeMap.ext_getElem? fun {k} => ?_
    simp only [ExtTreeMap.getElem?_map]
    cases g.events[k]? <;> rfl
  simp only [skeleton, unordered, hevents]

@[simp] theorem fameOf_unordered (w : EventHash) : g.unordered.fameOf w = g.fameOf w := by
  unfold fameOf
  rw [get?_unordered]
  cases g.get? w <;> rfl

@[simp] theorem isCanonical_unordered (w : EventHash) :
    g.unordered.isCanonical w = g.isCanonical w := by
  unfold isCanonical
  rw [get?_unordered]
  cases g.get? w <;> rfl

@[simp] theorem famousWitnessesOfRound_unordered (round : ℕ) :
    g.unordered.famousWitnessesOfRound round = g.famousWitnessesOfRound round := by
  unfold famousWitnessesOfRound
  refine List.filter_congr fun w _ => ?_
  rw [fameOf_unordered, isCanonical_unordered]

end Unordered

/-! ## The ordering queries read the skeleton and the fame only -/

section Skeleton

variable (g : Hashgraph)

@[simp] theorem creatorChainEvent_skeleton (x : EventHash) (c : NodeId) (i s : ℕ) :
    g.skeleton.creatorChainEvent x c i s = g.creatorChainEvent x c i s := by
  simp [creatorChainEvent]

@[simp] theorem chainEventSees_skeleton (x y : EventHash) (c : NodeId) (i : ℕ) :
    g.skeleton.chainEventSees x y c i = g.chainEventSees x y c i := by
  funext s
  simp [chainEventSees]

@[simp] theorem earliestSeeing_skeleton (x y : EventHash) (r : EventRecord)
    (members : List (NodeId × ℕ)) (earliest : Option (ℕ × EventHash)) :
    g.skeleton.earliestSeeing x y r.bare members earliest =
      g.earliestSeeing x y r members earliest := by
  induction members generalizing earliest with
  | nil => rfl
  | cons m members ih =>
    obtain ⟨c, i⟩ := m
    simp only [earliestSeeing, ih, EventRecord.bare_ancestorSeq, chainEventSees_skeleton,
      creatorChainEvent_skeleton]

@[simp] theorem firstSeenTimestamp_skeleton (x y : EventHash) :
    g.skeleton.firstSeenTimestamp x y = g.firstSeenTimestamp x y := by
  have htime (e : EventHash) : (g.skeleton.get? e).map (·.event.timestamp) =
      (g.get? e).map (·.event.timestamp) := by
    rw [get?_skeleton]
    cases g.get? e <;> rfl
  unfold firstSeenTimestamp
  rw [get?_skeleton]
  cases g.get? x with
  | none => rfl
  | some r => simp only [Option.map_some, earliestSeeing_skeleton, memberIndex_skeleton, htime]

@[simp] theorem orderTimestamp_skeleton (famous : List EventHash) (x : EventHash) :
    g.skeleton.orderTimestamp famous x = g.orderTimestamp famous x := by
  simp [orderTimestamp]

end Skeleton

/-! ## What the rounds assign -/

/-- The timestamp `assign_order` gives `x` in `round`, if it gives one. -/
def assignment (g : Hashgraph) (round : ℕ) (x : EventHash) : Option Timestamp :=
  if (g.famousWitnessesOfRound round).isEmpty then none
  else (g.orderTimestamp (g.famousWitnessesOfRound round) x).toOption.join

/-- The first assignment to `x` among `k` rounds from `round` on. -/
def firstAssignment (g : Hashgraph) (x : EventHash) : ℕ → ℕ → Option (ℕ × Timestamp)
  | _, 0 => none
  | round, k + 1 =>
    ((g.assignment round x).map (round, ·)).or (g.firstAssignment x (round + 1) k)

/-- The received round and the consensus timestamp of `x`. -/
def orderOf (g : Hashgraph) (x : EventHash) : Option ℕ × Option Timestamp :=
  (g.roundReceived x, g.consensusTimestamp x)

/-- An assignment is written to an event that was not received before. -/
def stamp (order : Option ℕ × Option Timestamp) (assigned : Option (ℕ × Timestamp)) :
    Option ℕ × Option Timestamp :=
  if order.1.isSome then order else assigned.elim order fun a => (some a.1, some a.2)

@[simp] theorem stamp_none (order : Option ℕ × Option Timestamp) : stamp order none = order := by
  simp [stamp]

theorem stamp_stamp (order : Option ℕ × Option Timestamp) (a b : Option (ℕ × Timestamp)) :
    stamp (stamp order a) b = stamp order (a.or b) := by
  by_cases h : order.1.isSome
  · simp [stamp, h]
  · cases a <;> simp [stamp, h]

theorem firstAssignment_add (g : Hashgraph) (x : EventHash) (round j k : ℕ) :
    g.firstAssignment x round (j + k) =
      (g.firstAssignment x round j).or (g.firstAssignment x (round + j) k) := by
  induction j generalizing round with
  | zero => simp [firstAssignment]
  | succ j ih =>
    rw [show j + 1 + k = j + k + 1 by omega, firstAssignment, firstAssignment, ih,
      Option.or_assoc, show round + 1 + j = round + (j + 1) by omega]

/-- A round assigns only what it is asked for. -/
theorem firstAssignment_bounds {g : Hashgraph} {x : EventHash} {round k n : ℕ} {t : Timestamp}
    (h : g.firstAssignment x round k = some (n, t)) : round ≤ n ∧ n < round + k := by
  induction k generalizing round with
  | zero => cases h
  | succ k ih =>
    rw [firstAssignment, Option.or_eq_some_iff] at h
    rcases h with h | ⟨-, h⟩
    · obtain ⟨_, -, heq⟩ := Option.map_eq_some_iff.mp h
      obtain ⟨rfl, -⟩ := Prod.mk.inj heq
      omega
    · have := ih h
      omega

theorem assignment_of_firstAssignment {g : Hashgraph} {x : EventHash} {round k n : ℕ}
    {t : Timestamp} (h : g.firstAssignment x round k = some (n, t)) :
    g.assignment n x = some t := by
  induction k generalizing round with
  | zero => cases h
  | succ k ih =>
    rw [firstAssignment, Option.or_eq_some_iff] at h
    rcases h with h | ⟨-, h⟩
    · obtain ⟨t', ht', heq⟩ := Option.map_eq_some_iff.mp h
      obtain ⟨rfl, rfl⟩ := Prod.mk.inj heq
      exact ht'
    · exact ih h

/-- What a round assigns to an event, one of its witnesses sees. -/
theorem exists_sees_of_assignment {g : Hashgraph} {n : ℕ} {x : EventHash} {t : Timestamp}
    (h : g.assignment n x = some t) : ∃ w ∈ g.witnessesOfRound n, g.sees w x = true := by
  rw [assignment] at h
  split at h
  · cases h
  · rename_i hne
    obtain ⟨w, hw⟩ : ∃ w, w ∈ g.famousWitnessesOfRound n := by
      cases hl : g.famousWitnessesOfRound n with
      | nil =>
        rw [hl] at hne
        exact absurd rfl hne
      | cons w l => exact ⟨w, List.mem_cons_self⟩
    refine ⟨w, (List.mem_filter.mp hw).1, ?_⟩
    cases hevery : everyM (fun w => unwrapOrFalse (g.see w x)) (g.famousWitnessesOfRound n) with
    | error fault =>
      simp only [orderTimestamp, hevery] at h
      cases h
    | ok b =>
      cases b with
      | false =>
        simp only [orderTimestamp, hevery] at h
        cases h
      | true =>
        have hsee := eq_true_of_everyM hevery hw
        rw [sees, truth_eq_true_iff]
        revert hsee
        cases g.see w x with
        | ok b => exact id
        | error fault =>
          cases fault with
          | err e =>
            intro hsee
            cases hsee
          | panic p => exact id
          | fuel => exact id

/-- The rounds that `g` and `g'` lie apart gave the event its order, if it got one. -/
def Stamped (g g' : Hashgraph) (x : EventHash) : Prop :=
  g'.orderOf x = g.orderOf x ∨ g.roundReceived x = none ∧
    ∃ n t, g.nextRoundToOrder ≤ n ∧ n < g'.nextRoundToOrder ∧ g'.orderOf x = (some n, some t)

theorem Stamped.of_stamp {g g' t : Hashgraph} {x : EventHash}
    (h : g'.orderOf x = stamp (g.orderOf x)
      (t.firstAssignment x g.nextRoundToOrder (g'.nextRoundToOrder - g.nextRoundToOrder))) :
    Stamped g g' x := by
  rw [stamp] at h
  by_cases hsome : (g.orderOf x).1.isSome
  · rw [if_pos hsome] at h
    exact .inl h
  · rw [if_neg hsome] at h
    cases hfirst : t.firstAssignment x g.nextRoundToOrder
        (g'.nextRoundToOrder - g.nextRoundToOrder) with
    | none =>
      rw [hfirst] at h
      exact .inl h
    | some a =>
      rw [hfirst] at h
      obtain ⟨hlow, hhigh⟩ := firstAssignment_bounds hfirst
      exact .inr ⟨by simpa [orderOf] using hsome, a.1, a.2, hlow, by omega, h⟩

theorem Stamped.trans {g g' g'' : Hashgraph} {x : EventHash} (h : Stamped g g' x)
    (h' : Stamped g' g'' x) (hle : g.nextRoundToOrder ≤ g'.nextRoundToOrder)
    (hle' : g'.nextRoundToOrder ≤ g''.nextRoundToOrder) : Stamped g g'' x := by
  rcases h' with hsame' | ⟨hnone', n', t', hlow', hhigh', heq'⟩
  · rcases h with hsame | ⟨hnone, n, t, hlow, hhigh, heq⟩
    · exact .inl (hsame'.trans hsame)
    · exact .inr ⟨hnone, n, t, hlow, by omega, hsame'.trans heq⟩
  · refine .inr ⟨?_, n', t', by omega, hhigh', heq'⟩
    rcases h with hsame | ⟨hnone, -⟩
    · rw [← show g'.roundReceived x = g.roundReceived x from congrArg Prod.fst hsame]
      exact hnone'
    · exact hnone

section UnorderedEq

variable {g g' : Hashgraph} (h : g'.unordered = g.unordered)
include h

theorem skeleton_eq_of_unordered_eq : g'.skeleton = g.skeleton := by
  rw [← skeleton_unordered, h, skeleton_unordered]

theorem fameOf_eq_of_unordered_eq (w : EventHash) : g'.fameOf w = g.fameOf w := by
  rw [← fameOf_unordered, h, fameOf_unordered]

theorem famous_eq_of_unordered_eq (round : ℕ) :
    g'.famousWitnessesOfRound round = g.famousWitnessesOfRound round := by
  rw [← famousWitnessesOfRound_unordered, h, famousWitnessesOfRound_unordered]

theorem undecidedWitnesses_eq_of_unordered_eq :
    g'.undecidedWitnesses = g.undecidedWitnesses :=
  (congrArg undecidedWitnesses h :)

theorem assignment_eq_of_unordered_eq (round : ℕ) (x : EventHash) :
    g'.assignment round x = g.assignment round x := by
  unfold assignment
  rw [famous_eq_of_unordered_eq h, ← orderTimestamp_skeleton g', skeleton_eq_of_unordered_eq h,
    orderTimestamp_skeleton]

theorem firstAssignment_eq_of_unordered_eq (x : EventHash) (round k : ℕ) :
    g'.firstAssignment x round k = g.firstAssignment x round k := by
  induction k generalizing round with
  | zero => rfl
  | succ k ih => rw [firstAssignment, firstAssignment, ih, assignment_eq_of_unordered_eq h]

end UnorderedEq

/-! ## Stretches of the ordering loop -/

/-- What the ordering loop can do between `g` and `g'`. -/
structure Orders (g g' : Hashgraph) : Prop where
  unordered_eq : g'.unordered = g.unordered
  decided_eq : g'.fullyDecidedRounds = g.fullyDecidedRounds
  next_le : g.nextRoundToOrder ≤ g'.nextRoundToOrder
  ordered_decided : ∀ r, g.nextRoundToOrder ≤ r → r < g'.nextRoundToOrder →
    g.isRoundDecided r = true
  log_eq : g'.orderLog = g.orderLog ++
    List.range' g.nextRoundToOrder (g'.nextRoundToOrder - g.nextRoundToOrder)
  order_eq : ∀ x, (g.get? x).isSome → g'.orderOf x = stamp (g.orderOf x)
    (g.firstAssignment x g.nextRoundToOrder (g'.nextRoundToOrder - g.nextRoundToOrder))

theorem isSome_get?_of_skeleton_eq {g g' : Hashgraph} (h : g'.skeleton = g.skeleton)
    (x : EventHash) : (g'.get? x).isSome = (g.get? x).isSome := by
  rw [← Option.isSome_map (f := EventRecord.bare), ← get?_skeleton, h, get?_skeleton,
    Option.isSome_map]

namespace Orders

variable {g g' g'' : Hashgraph}

theorem refl (g : Hashgraph) : Orders g g where
  unordered_eq := rfl
  decided_eq := rfl
  next_le := le_rfl
  ordered_decided := fun r h h' => absurd h' (by omega)
  log_eq := by simp
  order_eq := by simp [firstAssignment]

theorem trans (h : Orders g g') (h' : Orders g' g'') : Orders g g'' := by
  have hle := h.next_le
  have hle' := h'.next_le
  have hsplit : g''.nextRoundToOrder - g.nextRoundToOrder =
      (g'.nextRoundToOrder - g.nextRoundToOrder) +
        (g''.nextRoundToOrder - g'.nextRoundToOrder) := by omega
  have hstart : g.nextRoundToOrder + (g'.nextRoundToOrder - g.nextRoundToOrder) =
      g'.nextRoundToOrder := by omega
  refine ⟨h'.unordered_eq.trans h.unordered_eq, h'.decided_eq.trans h.decided_eq, hle.trans hle',
    ?_, ?_, ?_⟩
  · intro r hr hr'
    by_cases hmid : r < g'.nextRoundToOrder
    · exact h.ordered_decided r hr hmid
    · have hdec := h'.ordered_decided r (by omega) hr'
      rwa [isRoundDecided, h.decided_eq] at hdec
  · rw [h'.log_eq, h.log_eq, List.append_assoc, hsplit, ← List.range'_append, Nat.one_mul, hstart]
  · intro x hx
    have hx' : (g'.get? x).isSome := by
      rw [isSome_get?_of_skeleton_eq (skeleton_eq_of_unordered_eq h.unordered_eq)]
      exact hx
    rw [h'.order_eq x hx', h.order_eq x hx, stamp_stamp,
      firstAssignment_eq_of_unordered_eq h.unordered_eq, hsplit, firstAssignment_add, hstart]

end Orders

/-! ## Updates of one record -/

/-- Changes the record of one event. -/
def modifyRecord (g : Hashgraph) (hash : EventHash) (f : EventRecord → EventRecord) : Hashgraph :=
  { g with events := g.events.modify hash f }

section ModifyRecord

variable {g : Hashgraph} {hash : EventHash} {f : EventRecord → EventRecord}

theorem get?_modifyRecord (x : EventHash) :
    (g.modifyRecord hash f).get? x = if hash = x then (g.get? x).map f else g.get? x := by
  rw [modifyRecord, get?, get?, ExtTreeMap.getElem?_modify]
  by_cases hx : hash = x
  · subst hx
    simp
  · simp [hx]

theorem map_events_modifyRecord {α : Type} {k : EventRecord → α} (hf : ∀ r, k (f r) = k r) :
    (g.modifyRecord hash f).events.map (fun _ record => k record) =
      g.events.map fun _ record => k record := by
  refine ExtTreeMap.ext_getElem? fun {x} => ?_
  have hget : (g.modifyRecord hash f).get? x = if hash = x then (g.get? x).map f else g.get? x :=
    get?_modifyRecord x
  rw [get?, get?] at hget
  rw [ExtTreeMap.getElem?_map, ExtTreeMap.getElem?_map, hget]
  by_cases hx : hash = x
  · cases g.events[x]? <;> simp [hx, hf]
  · simp [hx]

/-- An update that keeps the bare record keeps the skeleton. -/
theorem skeleton_modifyRecord (hf : ∀ r, (f r).bare = r.bare) :
    (g.modifyRecord hash f).skeleton = g.skeleton := by
  simp only [skeleton, map_events_modifyRecord hf]
  rfl

theorem unordered_modifyRecord (hf : ∀ r, (f r).unordered = r.unordered) :
    (g.modifyRecord hash f).unordered = g.unordered := by
  simp only [unordered, map_events_modifyRecord hf]
  rfl

end ModifyRecord

theorem setEventOrder_eq (g : Hashgraph) (x : EventHash) (round : ℕ) (t : Timestamp) :
    g.setEventOrder x round t = g.modifyRecord x fun record =>
      { record with roundReceived := some round, consensusTimestamp := some t } := rfl

theorem unordered_setEventOrder (g : Hashgraph) (x : EventHash) (round : ℕ) (t : Timestamp) :
    (g.setEventOrder x round t).unordered = g.unordered :=
  unordered_modifyRecord fun _ => rfl

theorem orderOf_setEventOrder {g : Hashgraph} {x : EventHash} (hx : (g.get? x).isSome)
    (round : ℕ) (t : Timestamp) (y : EventHash) :
    (g.setEventOrder x round t).orderOf y = if x = y then (some round, some t) else g.orderOf y := by
  unfold orderOf roundReceived consensusTimestamp
  rw [setEventOrder_eq, get?_modifyRecord]
  by_cases hxy : x = y
  · subst hxy
    obtain ⟨r, hr⟩ := Option.isSome_iff_exists.mp hx
    simp [hr]
  · simp [hxy]

/-! ## The operations -/

/-- The queries of the ordering return, up to the faults of `E`. -/
structure Serves (E : Fault → Prop) (g : Hashgraph) : Prop where
  wf : g.WellFormed
  median : E (.panic .noFirstSeen) ∨ g.Indexed

section Operations

variable {E : Fault → Prop} {g : Hashgraph}

theorem Indexed.of_skeleton_eq {g' : Hashgraph} (h : g'.skeleton = g.skeleton)
    (hindexed : g.Indexed) : g'.Indexed := by
  intro x r' i hx hi hflag
  obtain ⟨r, hr, hbare⟩ := get?_of_skeleton_eq h hx
  have hevent : r.event = r'.event := (congrArg EventRecord.event hbare :)
  have hseq : r.seq = r'.seq := (congrArg EventRecord.seq hbare :)
  have hmember : g'.memberIndex = g.memberIndex := (congrArg memberIndex h :)
  have hforkers : g'.knownForkers = g.knownForkers := (congrArg knownForkers h :)
  have hindex : g'.byCreatorSeq = g.byCreatorSeq := (congrArg byCreatorSeq h :)
  rw [eventForCreatorSeq, hindex, ← hevent, ← hseq]
  refine hindexed x r i hr ?_ ?_
  · rwa [memberIndexOf, hmember, ← hevent] at hi
  · rwa [flagged, hforkers] at hflag

theorem Serves.of_skeleton_eq {g' : Hashgraph} (h : g'.skeleton = g.skeleton)
    (hg : g.Serves E) : g'.Serves E where
  wf := hg.wf.of_skeleton_eq h
  median := hg.median.imp_right (Indexed.of_skeleton_eq h)

theorem medianTimestamp_safe {l : List ℕ} (h : E (.panic .noFirstSeen) ∨ l ≠ []) :
    Safe E (medianTimestamp l) := by
  unfold medianTimestamp
  simp only [List.length_insertionSort]
  split
  · rename_i hlen
    rcases h with hE | hne
    · exact .error hE
    · exact absurd (List.length_eq_zero_iff.mp hlen) hne
  · split <;> exact .ok _

theorem Serves.orderTimestamp_safe (hg : g.Serves E) {famous : List EventHash}
    (hfamous : ∀ w ∈ famous, (g.get? w).isSome) (hne : famous ≠ []) {x : EventHash}
    (hx : (g.get? x).isSome) : Safe E (g.orderTimestamp famous x) := by
  obtain ⟨rx, hrx⟩ := Option.isSome_iff_exists.mp hx
  have hsee (w : EventHash) (hw : w ∈ famous) :
      unwrapOrFalse (g.see w x) = .ok (g.sees w x) := by
    obtain ⟨rw, hrw⟩ := Option.isSome_iff_exists.mp (hfamous w hw)
    exact hg.wf.unwrapOrFalse_see_eq hrw hrx
  have hevery : everyM (fun w => unwrapOrFalse (g.see w x)) famous =
      .ok (famous.all fun w => g.sees w x) :=
    (everyM_returns (E := fun _ => False) fun w hw => .of_eq (hsee w hw)).eq_ok
  unfold orderTimestamp
  rw [hevery]
  refine (Safe.ok _).bind fun all hall => ?_
  cases all with
  | false => exact .ok _
  | true =>
    rw [if_pos rfl]
    refine (mapM_safe fun w _ => hg.wf.firstSeenTimestamp_safe hrx).bind fun firstSeen hfirst => ?_
    refine (medianTimestamp_safe (hg.median.imp_right fun hindexed => ?_)).bind fun _ _ => .ok _
    -- The first famous witness sees the event, so that it finds a timestamp.
    obtain ⟨w, rest, rfl⟩ := List.exists_cons_of_ne_nil hne
    obtain ⟨rw, hrw⟩ := Option.isSome_iff_exists.mp (hfamous w (by simp))
    have hsees : g.sees w x = true := by
      have hall' : (w :: rest).all (fun w => g.sees w x) = true := Except.ok.inj hall
      exact List.all_eq_true.mp hall' w (by simp)
    obtain ⟨t, ht⟩ := hg.wf.firstSeenTimestamp_eq hindexed hrw hrx hsees
    rw [List.mapM_cons, ht] at hfirst
    simp only [bind, Except.bind, pure, Except.pure] at hfirst
    split at hfirst
    · cases hfirst
    · obtain rfl := Except.ok.inj hfirst
      simp

theorem mem_pendingOrderEvents {x : EventHash} :
    x ∈ g.pendingOrderEvents ↔ (g.get? x).isSome ∧ g.roundReceived x = none := by
  unfold pendingOrderEvents roundReceived
  simp only [List.mem_map, List.mem_filter, Prod.exists, exists_and_right, exists_eq_right,
    ExtTreeMap.mem_toList_iff_getElem?_eq_some]
  constructor
  · rintro ⟨r, hr, hnone⟩
    have hget : g.get? x = some r := hr
    simpa [hget] using hnone
  · rintro ⟨hx, hnone⟩
    obtain ⟨r, hr⟩ := Option.isSome_iff_exists.mp hx
    exact ⟨r, hr, by simpa [hr] using hnone⟩

theorem nodup_pendingOrderEvents (g : Hashgraph) : g.pendingOrderEvents.Nodup := by
  have hkeys : (g.events.toList.map Prod.fst).Nodup := by
    rw [ExtTreeMap.map_fst_toList_eq_keys]
    exact ExtTreeMap.nodup_keys
  exact hkeys.sublist (List.filter_sublist.map Prod.fst)

theorem isSome_get?_of_mem_famous (hwf : g.WellFormed) {round : ℕ} {w : EventHash}
    (hw : w ∈ g.famousWitnessesOfRound round) : (g.get? w).isSome := by
  obtain ⟨r, hr, -, -⟩ := hwf.witness_sound (List.mem_of_mem_filter hw)
  rw [hr]
  rfl

/-- The state of the loop of `assign_order`, with the events of `rest` still to come. -/
structure Assigning (g : Hashgraph) (round : ℕ) (rest : List EventHash) (t : Hashgraph) :
    Prop where
  unordered_eq : t.unordered = g.unordered
  decided_eq : t.fullyDecidedRounds = g.fullyDecidedRounds
  next_eq : t.nextRoundToOrder = g.nextRoundToOrder
  log_eq : t.orderLog = g.orderLog
  rest_nodup : rest.Nodup
  rest_pending : ∀ x ∈ rest, (g.get? x).isSome ∧ g.roundReceived x = none
  order_eq : ∀ x, (g.get? x).isSome → t.orderOf x =
    if x ∈ rest then g.orderOf x else stamp (g.orderOf x) ((g.assignment round x).map (round, ·))

theorem Assigning.init (g : Hashgraph) (round : ℕ) :
    Assigning g round g.pendingOrderEvents g where
  unordered_eq := rfl
  decided_eq := rfl
  next_eq := rfl
  log_eq := rfl
  rest_nodup := g.nodup_pendingOrderEvents
  rest_pending := fun _ hx => mem_pendingOrderEvents.mp hx
  order_eq := by
    intro x hx
    by_cases hpending : x ∈ g.pendingOrderEvents
    · rw [if_pos hpending]
    · have hreceived : (g.orderOf x).1.isSome := by
        rw [Option.isSome_iff_ne_none]
        exact fun hnone => hpending (mem_pendingOrderEvents.mpr ⟨hx, hnone⟩)
      rw [if_neg hpending, stamp, if_pos hreceived]

theorem Assigning.step (hg : g.Serves E) {round : ℕ} {b : EventHash} {rest : List EventHash}
    {t : Hashgraph} (hne : g.famousWitnessesOfRound round ≠ [])
    (h : Assigning g round (b :: rest) t) :
    Holds E (assignEvent round (g.famousWitnessesOfRound round) b) t
      fun _ t' => Assigning g round rest t' := by
  obtain ⟨hb, hpending⟩ := h.rest_pending b (by simp)
  obtain ⟨hfresh, hnodup⟩ := List.nodup_cons.mp h.rest_nodup
  have hrest : ∀ x ∈ rest, (g.get? x).isSome ∧ g.roundReceived x = none :=
    fun x hx => h.rest_pending x (List.mem_cons_of_mem b hx)
  have hskel := skeleton_eq_of_unordered_eq h.unordered_eq
  have htime : t.orderTimestamp (g.famousWitnessesOfRound round) b =
      g.orderTimestamp (g.famousWitnessesOfRound round) b := by
    rw [← orderTimestamp_skeleton t, hskel, orderTimestamp_skeleton]
  have hsafe := hg.orderTimestamp_safe (fun w hw => isSome_get?_of_mem_famous hg.wf hw) hne hb
  have hassign : g.assignment round b =
      (g.orderTimestamp (g.famousWitnessesOfRound round) b).toOption.join := by
    rw [assignment, if_neg (by simpa using hne)]
  -- Every other event of the rest keeps its order, and the assigned ones keep their stamp.
  have hother (x : EventHash) (hx : (g.get? x).isSome) (hxb : b ≠ x) : t.orderOf x =
      if x ∈ rest then g.orderOf x
      else stamp (g.orderOf x) ((g.assignment round x).map (round, ·)) := by
    rw [h.order_eq x hx]
    simp [hxb.symm]
  unfold assignEvent
  rw [Holds.bind_iff, Holds.get_iff, Holds.bind_iff, htime]
  cases htimestamp : g.orderTimestamp (g.famousWitnessesOfRound round) b with
  | error e => exact hsafe e htimestamp
  | ok timestamp =>
    rw [htimestamp] at hassign
    cases timestamp with
    | none =>
      refine ⟨h.unordered_eq, h.decided_eq, h.next_eq, h.log_eq, hnodup, hrest, ?_⟩
      intro x hx
      by_cases hxb : b = x
      · subst hxb
        rw [h.order_eq b hx, hassign]
        simp [hfresh, Except.toOption]
      · exact hother x hx hxb
    | some timestamp =>
      have hbt : (t.get? b).isSome := by
        rw [isSome_get?_of_skeleton_eq hskel]
        exact hb
      refine ⟨(unordered_setEventOrder t b round timestamp).trans h.unordered_eq, h.decided_eq,
        h.next_eq, h.log_eq, hnodup, hrest, ?_⟩
      intro x hx
      rw [orderOf_setEventOrder hbt]
      by_cases hxb : b = x
      · subst hxb
        have hnone : (g.orderOf b).1 = none := hpending
        rw [if_pos rfl, if_neg hfresh, hassign]
        simp [stamp, hnone, Except.toOption]
      · rw [if_neg hxb]
        exact hother x hx hxb

/-- One turn of the ordering loop. -/
theorem assignOrder_spec (hg : g.Serves E) (round : ℕ) :
    Holds E (assignOrder round) g fun _ g' =>
      g'.unordered = g.unordered ∧ g'.fullyDecidedRounds = g.fullyDecidedRounds ∧
      g'.nextRoundToOrder = g.nextRoundToOrder ∧ g'.orderLog = g.orderLog ++ [round] ∧
      ∀ x, (g.get? x).isSome →
        g'.orderOf x = stamp (g.orderOf x) ((g.assignment round x).map (round, ·)) := by
  unfold assignOrder
  rw [Holds.bind_iff, Holds.modify_iff, Holds.bind_iff, Holds.get_iff, Holds.ite_iff]
  let logged : Hashgraph := { g with orderLog := g.orderLog ++ [round] }
  have hlogged_eq : logged.unordered = g.unordered := rfl
  have hlogged : logged.Serves E := hg.of_skeleton_eq (skeleton_eq_of_unordered_eq hlogged_eq)
  refine ⟨fun hempty => ?_, fun hne => ?_⟩
  · refine ⟨rfl, rfl, rfl, rfl, fun x _ => ?_⟩
    have hnone : g.assignment round x = none := by
      rw [← assignment_eq_of_unordered_eq hlogged_eq, assignment, if_pos hempty]
    rw [hnone]
    exact (stamp_none _).symm
  · have hne' : logged.famousWitnessesOfRound round ≠ [] := by simpa using hne
    refine (Holds.forM_list_rest (I := Assigning logged round)
      (fun b rest t ht => ht.step hlogged hne') (Assigning.init logged round)).mono
      fun _ g' h => ⟨h.unordered_eq, h.decided_eq, h.next_eq, h.log_eq, fun x hx => ?_⟩
    have horder := h.order_eq x hx
    rw [if_neg List.not_mem_nil, assignment_eq_of_unordered_eq hlogged_eq] at horder
    exact horder

/-- The decided rounds as a finite set. -/
def decidedRounds (g : Hashgraph) : Finset ℕ := g.fullyDecidedRounds.toList.toFinset

theorem mem_decidedRounds {r : ℕ} : r ∈ g.decidedRounds ↔ g.isRoundDecided r = true := by
  rw [decidedRounds, List.mem_toFinset, ExtTreeSet.mem_toList, ← ExtTreeSet.contains_iff_mem,
    isRoundDecided]

/-- The ordering loop ends at a round that is not decided, within one turn per decided round. -/
theorem orderLoop_spec {fuel : ℕ} (hg : g.Serves E)
    (hfuel : (g.decidedRounds.filter (g.nextRoundToOrder ≤ ·)).card < fuel) :
    Holds E (orderLoop fuel) g fun _ g' =>
      Orders g g' ∧ g'.isRoundDecided g'.nextRoundToOrder = false := by
  induction fuel generalizing g with
  | zero => omega
  | succ fuel ih =>
    unfold orderLoop
    rw [Holds.bind_iff, Holds.get_iff, Holds.ite_iff]
    refine ⟨fun hdecided => ?_, fun hnot => ⟨Orders.refl g, by simpa using hnot⟩⟩
    rw [Holds.bind_iff, Holds.modify_iff, Holds.bind_iff]
    let advanced : Hashgraph := { g with nextRoundToOrder := g.nextRoundToOrder + 1 }
    have hadvanced_eq : advanced.unordered = g.unordered := rfl
    have hadvanced : advanced.Serves E :=
      hg.of_skeleton_eq (skeleton_eq_of_unordered_eq hadvanced_eq)
    refine (assignOrder_spec hadvanced g.nextRoundToOrder).mono ?_
    rintro _ g₁ ⟨hunordered, hdecided_eq, hnext, hlog, horder⟩
    have hnext' : g₁.nextRoundToOrder = g.nextRoundToOrder + 1 := hnext
    have hstep : Orders g g₁ := by
      refine ⟨hunordered, hdecided_eq, by omega, ?_, ?_, ?_⟩
      · intro r hr hr'
        rw [show r = g.nextRoundToOrder by omega]
        exact hdecided
      · rw [hlog, hnext', Nat.add_sub_cancel_left]
        rfl
      · intro x hx
        rw [horder x hx, hnext', Nat.add_sub_cancel_left,
          assignment_eq_of_unordered_eq hadvanced_eq]
        simp only [firstAssignment, Option.or_none]
        rfl
    have hless : (g₁.decidedRounds.filter (g₁.nextRoundToOrder ≤ ·)).card < fuel := by
      have hsub : (g₁.decidedRounds.filter (g₁.nextRoundToOrder ≤ ·)) ⊂
          g.decidedRounds.filter (g.nextRoundToOrder ≤ ·) := by
        have hset : g₁.decidedRounds = g.decidedRounds := by
          rw [decidedRounds, decidedRounds, hstep.decided_eq]
        rw [hset, hnext', Finset.ssubset_iff_of_subset]
        · refine ⟨g.nextRoundToOrder, ?_, by simp⟩
          exact Finset.mem_filter.mpr ⟨mem_decidedRounds.mpr hdecided, le_rfl⟩
        · intro r hr
          rw [Finset.mem_filter] at hr ⊢
          exact ⟨hr.1, by omega⟩
      have := Finset.card_lt_card hsub
      omega
    have hserves : g₁.Serves E := hg.of_skeleton_eq (skeleton_eq_of_unordered_eq hstep.unordered_eq)
    exact (ih hserves hless).mono fun _ g' h => ⟨hstep.trans h.1, h.2⟩

theorem orderDecidedRounds_spec (hg : g.Serves E) :
    Holds E orderDecidedRounds g fun _ g' =>
      Orders g g' ∧ g'.isRoundDecided g'.nextRoundToOrder = false := by
  unfold orderDecidedRounds
  rw [Holds.bind_iff, Holds.get_iff]
  refine orderLoop_spec hg (Nat.lt_succ_of_le ?_)
  calc (g.decidedRounds.filter (g.nextRoundToOrder ≤ ·)).card
      ≤ g.decidedRounds.card := Finset.card_filter_le _ _
    _ ≤ g.fullyDecidedRounds.toList.length := List.toFinset_card_le _
    _ = g.fullyDecidedRounds.size := ExtTreeSet.length_toList

/-! ## Closing a round -/

/-- No witness of the round is undecided. -/
def Settled (g : Hashgraph) (round : ℕ) : Prop :=
  ∀ w : EventHash, g.undecidedWitnesses[w]? ≠ some round

/-- `round_view_complete`, without its faults. -/
def viewComplete (g : Hashgraph) (round : ℕ) : Bool := truth (g.roundViewComplete round)

/-- What `note_round_decided_if_complete` tests. -/
def Closable (g : Hashgraph) (round : ℕ) : Prop :=
  round ≠ 0 ∧ g.Settled round ∧ g.viewComplete round = true

/-- The graph with one more decided round. -/
def close (g : Hashgraph) (round : ℕ) : Hashgraph :=
  { g with fullyDecidedRounds := g.fullyDecidedRounds.insert round }

/-- What retrying a round makes of the graph: a closable round is closed, and the decided rounds are
ordered from the lowest one on. -/
def Noted (g : Hashgraph) (round : ℕ) (g' : Hashgraph) : Prop :=
  (g.Closable round ∧ Orders (g.close round) g' ∧
    g'.isRoundDecided g'.nextRoundToOrder = false) ∨ (¬g.Closable round ∧ g' = g)

theorem any_undecided_iff {round : ℕ} :
    (g.undecidedWitnesses.toList.any fun (_, witnessRound) => witnessRound == round) = true ↔
      ¬g.Settled round := by
  simp only [Settled, List.any_eq_true, beq_iff_eq, Prod.exists, not_forall, not_not,
    ExtTreeMap.mem_toList_iff_getElem?_eq_some, exists_eq_right]

theorem unordered_close (g : Hashgraph) (round : ℕ) : (g.close round).unordered = g.unordered := rfl

theorem isRoundDecided_close {round r : ℕ} :
    (g.close round).isRoundDecided r = true ↔ r = round ∨ g.isRoundDecided r = true := by
  simp only [close, isRoundDecided, ExtTreeSet.contains_insert, Bool.or_eq_true, beq_iff_eq,
    Nat.compare_eq_eq]
  rw [eq_comm (a := round)]

theorem roundViewComplete_safe {round : ℕ} (h : Covers E g round) :
    Safe E (g.roundViewComplete round) :=
  h.bind fun _ _ => .ok _

/-- `note_round_decided_if_complete` closes the round and orders what it can, or does nothing. -/
theorem noteRoundDecidedIfComplete_spec (hg : g.Serves E) {round : ℕ}
    (hcover : round ≠ 0 → Covers E g round) :
    Holds E (noteRoundDecidedIfComplete round) g fun _ g' => Noted g round g' := by
  unfold noteRoundDecidedIfComplete
  rw [Holds.ite_iff]
  refine ⟨fun hzero => .inr ⟨fun hclosable => hclosable.1 hzero, rfl⟩, fun hzero => ?_⟩
  rw [Holds.bind_iff, Holds.get_iff, Holds.ite_iff, any_undecided_iff]
  refine ⟨fun hopen => .inr ⟨fun hclosable => hopen hclosable.2.1, rfl⟩, fun hsettled => ?_⟩
  rw [Holds.bind_iff]
  refine Holds.of_returns (roundViewComplete_safe (hcover hzero)).returns ?_
  rw [Holds.ite_iff]
  refine ⟨fun hview => ?_, fun hview => .inr ⟨fun hclosable => hview hclosable.2.2, rfl⟩⟩
  rw [Holds.bind_iff, Holds.modify_iff]
  have hskel : (g.close round).skeleton = g.skeleton := rfl
  exact (orderDecidedRounds_spec (hg.of_skeleton_eq hskel)).mono fun _ g' h =>
    .inl ⟨⟨hzero, not_not.mp hsettled, hview⟩, h⟩

end Operations

/-! ## The order of a round -/

theorem mem_consensusOrder {g : Hashgraph} {x : EventHash} {n : ℕ} :
    x ∈ g.consensusOrder n ↔ g.roundReceived x = some n := by
  rw [consensusOrder, List.mem_insertionSort, List.mem_filter, beq_iff_eq, and_iff_right_iff_imp]
  intro hx
  rw [roundReceived] at hx
  obtain ⟨r, hr, -⟩ := Option.bind_eq_some_iff.mp hx
  rw [allEventHashes, ExtTreeMap.mem_keys, ← ExtTreeMap.isSome_getElem?_iff_mem]
  exact Option.isSome_of_eq_some hr

/-- Two graphs list a round alike if they received the same events in it, with the same keys. -/
theorem consensusOrder_congr {g g' : Hashgraph} {n : ℕ}
    (hreceived : ∀ x, g'.roundReceived x = some n ↔ g.roundReceived x = some n)
    (hkey : ∀ {x}, g.roundReceived x = some n → g'.orderKey x = g.orderKey x) :
    g'.consensusOrder n = g.consensusOrder n := by
  -- The two graphs list the same events of the round, in the same order of their hashes.
  have hevents : (g'.allEventHashes.filter fun x => g'.roundReceived x == some n) =
      g.allEventHashes.filter fun x => g.roundReceived x == some n := by
    have hsorted (t : Hashgraph) : t.allEventHashes.Pairwise (· < ·) :=
      t.events.ordered_keys.imp compare_lt_iff_lt.mp
    refine ((hsorted g').filter _).eq_of_mem_iff ((hsorted g).filter _) fun x => ?_
    have hmem (t : Hashgraph) :
        x ∈ (t.allEventHashes.filter fun x => t.roundReceived x == some n) ↔
          t.roundReceived x = some n := by
      rw [← mem_consensusOrder, consensusOrder, List.mem_insertionSort]
    rw [hmem, hmem, hreceived]
  rw [consensusOrder, hevents, consensusOrder]
  have hsort := List.map_insertionSort (r := fun a b => g'.orderKey a ≤ g'.orderKey b)
    (s := fun a b => g.orderKey a ≤ g.orderKey b) id
    (g.allEventHashes.filter fun x => g.roundReceived x == some n) fun a ha b hb => by
      rw [List.mem_filter, beq_iff_eq] at ha hb
      rw [hkey ha.2, hkey hb.2, id, id]
  simpa only [List.map_id] using hsort

end Hashgraph

end JKain
