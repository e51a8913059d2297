import JKain.Consensus.Run
import JKain.Consensus.Transfer

/-!
# Loading a transferred graph

What `insertAccepted` does to the learner's graph when it returns, and how the graph loaded from a
teacher's records compares with the teacher's.
-/

namespace JKain

open Std JKain.Lib

namespace Hashgraph

/-! ## One record -/

/-- The learner's graph after a record was accepted: the record is stored, and of the rest only the
indices of events changed. -/
structure Accepted (l : Hashgraph) (hash : EventHash) (record : RetainedEvent) (l' : Hashgraph) :
    Prop where
  fresh : l.get? hash = none
  row_le : record.ancestorSeqs.length ≤ l.memberCount
  get?_eq : ∀ x, l'.get? x = if x = hash then some (l.acceptedRecord record) else l.get? x
  frame : l' = { l with
    events := l'.events
    children := l'.children
    firstChild := l'.firstChild
    byCreatorSeq := l'.byCreatorSeq
    latestByCreator := l'.latestByCreator
    knownForkers := l'.knownForkers }

section Accepted

variable {H : Hasher} {l l' : Hashgraph} {hash : EventHash} {record : RetainedEvent}
  {decidedRound i : ℕ}

theorem checkAccepted_ok (h : l.checkAccepted hash record decidedRound = .ok i) :
    l.get? hash = none ∧ record.ancestorSeqs.length ≤ l.memberCount := by
  unfold checkAccepted at h
  split at h
  · cases h
  · rename_i hfresh
    refine ⟨by simpa using hfresh, ?_⟩
    cases hmember : okOr (l.memberIndexOf record.event.creator) .unknownCreator with
    | error e =>
      rw [hmember] at h
      cases h
    | ok j =>
      rw [hmember] at h
      simp only [bind, Except.bind] at h
      split at h
      · cases h
      · omega

theorem noteBranch_frame {event : Event} (h : l.noteBranch hash event i = .ok l') :
    l' = { l with firstChild := l'.firstChild, knownForkers := l'.knownForkers } := by
  unfold noteBranch at h
  split at h
  · split at h
    · cases h
      rfl
    · split at h
      · cases h
        rfl
      · cases h
  · cases h
    rfl

theorem storeAccepted_ok (h : l.storeAccepted hash record i = .ok l') :
    (∀ x, l'.get? x = if x = hash then some (l.acceptedRecord record) else l.get? x) ∧
      l' = { l with
        events := l'.events
        children := l'.children
        firstChild := l'.firstChild
        byCreatorSeq := l'.byCreatorSeq
        latestByCreator := l'.latestByCreator
        knownForkers := l'.knownForkers } := by
  unfold storeAccepted at h
  cases hbranch : l.noteBranch hash record.event i with
  | error e =>
    rw [hbranch] at h
    cases h
  | ok t =>
    rw [hbranch] at h
    obtain rfl := Except.ok.inj h
    have hevents : t.events = l.events := by rw [noteBranch_frame hbranch]
    rw [noteLatest_eq, foldl_noteChild]
    refine ⟨fun x => ?_, ?_⟩
    · simp only [get?, hevents, ExtTreeMap.getElem?_insert]
      by_cases hx : x = hash
      · simp [hx]
      · simp [hx, Ne.symm hx]
    · rw [noteBranch_frame hbranch]

theorem insertAccepted_spec (H : Hasher) (record : RetainedEvent) (decidedRound : ℕ)
    (l : Hashgraph) : Holds (fun _ => True) (insertAccepted H record decidedRound) l
      fun hash l' => H record.event = .ok hash ∧ l.Accepted hash record l' := by
  unfold insertAccepted
  cases hhash : H record.event with
  | error reason => trivial
  | ok hash =>
    cases hcheck : l.checkAccepted hash record decidedRound with
    | error e => simp [hcheck]
    | ok i =>
      cases hstore : l.storeAccepted hash record i with
      | error e => simp [hcheck, hstore]
      | ok l' =>
        obtain ⟨hfresh, hrow⟩ := checkAccepted_ok hcheck
        obtain ⟨hget, hframe⟩ := storeAccepted_ok hstore
        simp only [Holds.bind_iff, Holds.get_iff, hcheck, Holds.fromExcept_ok, hstore,
          Holds.modify_iff, Holds.pure_iff]
        exact ⟨trivial, hfresh, hrow, hget, hframe⟩

end Accepted

/-! ## All records of a teacher -/

/-- The graphs a learner reaches from `start` by loading records of the teacher `g`, in any
order. -/
inductive Loaded (H : Hasher) (g : Hashgraph) (decidedRound : ℕ) (start : Hashgraph) :
    Hashgraph → Prop
  | start : Loaded H g decidedRound start start
  | accept {l l' : Hashgraph} {record : RetainedEvent} {hash : EventHash} :
      Loaded H g decidedRound start l → record ∈ g.retainedEvents →
      insertAccepted H record decidedRound l = .ok hash l' → Loaded H g decidedRound start l'

section Loaded

variable {H : Hasher} {g l start : Hashgraph} {decidedRound : ℕ}

theorem mem_retainedEvents {record : RetainedEvent} :
    record ∈ g.retainedEvents ↔ ∃ x r, g.get? x = some r ∧ r.retained = record := by
  simp only [retainedEvents, List.mem_map, Prod.exists,
    ExtTreeMap.mem_toList_iff_getElem?_eq_some]
  rfl

/-- An order is a round and a timestamp, or none of them. -/
def OrderPaired (g : Hashgraph) : Prop := ∀ x, (g.orderOf x).1.isSome = (g.orderOf x).2.isSome

/-- A teacher's record is stored as it was: the slots, the order and the round come through. -/
theorem retained_acceptedRecord {r : EventRecord} (hrow : r.ancestorSeqs.length = l.memberCount)
    (hpaired : r.roundReceived.isSome = r.consensusTimestamp.isSome) :
    (l.acceptedRecord r.retained).retained = r.retained := by
  have hresize : l.resizedRow r.ancestorSeqs = r.ancestorSeqs := by simp [resizedRow, hrow]
  have htime : (r.roundReceived.map fun _ => r.consensusTimestamp.getD 0) =
      r.consensusTimestamp := by
    cases hr : r.roundReceived <;> cases ht : r.consensusTimestamp <;> simp_all
  simp only [EventRecord.retained, acceptedRecord, hresize, htime]

/-- What a loaded graph has in common with the teacher and with the graph it started from. -/
structure Mirrors (g start l : Hashgraph) : Prop where
  record : ∀ {x r}, l.get? x = some r → ∃ r', g.get? x = some r' ∧ r'.retained = r.retained
  memberIndex_eq : l.memberIndex = start.memberIndex
  memberCount_eq : l.memberCount = start.memberCount
  rosterHistory_eq : l.rosterHistory = start.rosterHistory

theorem Loaded.mirrors (h : Loaded H g decidedRound start l) (hempty : ∀ x, start.get? x = none)
    (hcount : start.memberCount = g.memberCount)
    (hhash : ∀ {x r}, g.get? x = some r → H r.event = .ok x)
    (hrow : ∀ {x r}, g.get? x = some r → r.ancestorSeqs.length = g.memberCount)
    (hpaired : g.OrderPaired) : Mirrors g start l := by
  induction h with
  | start =>
    refine ⟨fun {x r} hx => ?_, rfl, rfl, rfl⟩
    rw [hempty] at hx
    cases hx
  | @accept l l' record hash _ hmem haccept ih =>
    obtain ⟨hrecord, haccepted⟩ := (insertAccepted_spec H record decidedRound l).of_ok haccept
    obtain ⟨x, r, hr, rfl⟩ := mem_retainedEvents.mp hmem
    obtain rfl : x = hash := Except.ok.inj ((hhash hr).symm.trans hrecord)
    refine ⟨fun {y ry} hy => ?_, ?_, ?_, ?_⟩
    · rw [haccepted.get?_eq] at hy
      by_cases hyx : y = x
      · rw [if_pos hyx] at hy
        obtain rfl := Option.some.inj hy
        have hwidth : r.ancestorSeqs.length = l.memberCount := by
          rw [hrow hr, ih.memberCount_eq, hcount]
        have hstamp : r.roundReceived.isSome = r.consensusTimestamp.isSome := by
          simpa only [orderOf_of_get? hr] using hpaired x
        exact ⟨r, hyx ▸ hr, (retained_acceptedRecord hwidth hstamp).symm⟩
      · rw [if_neg hyx] at hy
        exact ih.record hy
    · rw [haccepted.frame]
      exact ih.memberIndex_eq
    · rw [haccepted.frame]
      exact ih.memberCount_eq
    · rw [haccepted.frame]
      exact ih.rosterHistory_eq

/-! ## The ordered events of a loaded graph -/

section Retained

variable (hsame : ∀ x, (l.get? x).map EventRecord.retained = (g.get? x).map EventRecord.retained)

include hsame

theorem allEventHashes_of_retained_eq : l.allEventHashes = g.allEventHashes := by
  have hevents : l.events.map (fun _ r => r.retained) = g.events.map fun _ r => r.retained := by
    refine ExtTreeMap.ext_getElem? fun {x} => ?_
    simp only [ExtTreeMap.getElem?_map]
    exact hsame x
  rw [allEventHashes, ← ExtTreeMap.keys_map (f := fun _ r => r.retained), hevents,
    ExtTreeMap.keys_map, allEventHashes]

theorem consensusOrder_of_retained_eq (n : ℕ) : l.consensusOrder n = g.consensusOrder n := by
  have hread {α : Type} (f : RetainedEvent → α) (x : EventHash) :
      (l.get? x).map (fun r => f r.retained) = (g.get? x).map fun r => f r.retained := by
    have := congrArg (Option.map f) (hsame x)
    rwa [Option.map_map, Option.map_map] at this
  have hbind {α : Type} (f : RetainedEvent → Option α) (x : EventHash) :
      (l.get? x).bind (fun r => f r.retained) = (g.get? x).bind fun r => f r.retained := by
    have := congrArg (Option.bind · f) (hsame x)
    rwa [Option.bind_map, Option.bind_map] at this
  have hreceived (x : EventHash) : l.roundReceived x = g.roundReceived x :=
    hbind RetainedEvent.roundReceived x
  have hkey : l.orderKey = g.orderKey := by
    funext x
    rw [orderKey, show l.consensusTimestamp x = g.consensusTimestamp x from
      hbind RetainedEvent.consensusTimestamp x, show (l.get? x).map
        (signatureTieBreak ·.event.signature) = (g.get? x).map
        (signatureTieBreak ·.event.signature) from
      hread (fun r => signatureTieBreak r.event.signature) x, orderKey]
  rw [consensusOrder, allEventHashes_of_retained_eq hsame, hkey, consensusOrder]
  simp only [hreceived]

theorem windowLeaf_of_retained_eq (sha : Sha256) (width : ℕ) :
    l.windowLeaf sha width = g.windowLeaf sha width := by
  funext x
  have hleaf (g : Hashgraph) : g.windowLeaf sha width x =
      match (g.get? x).map EventRecord.retained with
      | none => .error ⟨"window_root event", hashHex x⟩
      | some r => .ok (windowLeafHash sha x ⟨r.event, r.seq, r.ancestorSeqs, r.round, false, ∅,
          .undecided, r.roundReceived, r.consensusTimestamp⟩ width) := by
    unfold windowLeaf
    cases g.get? x <;> rfl
  rw [hleaf, hsame, hleaf]

/-- Graphs with the same events in the same order have the same window root, where their rosters
have the same size. -/
theorem tryComputeWindowRoot_of_retained_eq (sha : Sha256) {round : ℕ}
    (hroster : l.memberCountAtRound round = g.memberCountAtRound round) (windowRounds : ℕ) :
    l.tryComputeWindowRoot sha round windowRounds =
      g.tryComputeWindowRoot sha round windowRounds := by
  have hevents : l.windowEvents round windowRounds = g.windowEvents round windowRounds := by
    rw [windowEvents, funext (consensusOrder_of_retained_eq hsame), windowEvents]
  unfold tryComputeWindowRoot
  simp only [hevents, hroster, windowLeaf_of_retained_eq hsame]

end Retained

end Loaded

end Hashgraph

end JKain
