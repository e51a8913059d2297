import JKain.Primitives
import Mathlib.Logic.Function.Basic
import Mathlib.Data.List.Basic

/-!
# Timestamps of own events

A node takes the timestamps of its own events from its clock, but never one that is not above the
last timestamp it has handed out, which it keeps in an atomic counter. The calls run concurrently
and compete for the counter with compare and exchange. Applying a checkpoint raises the counter to
what the peer sends, and a restart begins from what was persisted of it.

The addition in a call saturates. So a peer that sends the largest number makes the node hand out
this number again and again.
-/

namespace JKain

/-- The largest timestamp, `u64::MAX`. -/
def maxTimestamp : Timestamp := 2 ^ 64 - 1

/-- A running call of `next_timestamp`: the reading of the clock in milliseconds and what it has
loaded from the counter. -/
structure TimestampCall where
  clockMillis : ℕ
  prev : Option Timestamp

/-- What of a node concerns its timestamps. -/
structure TimestampState where
  /-- `last_timestamp`. -/
  last : Timestamp
  /-- The calls of `next_timestamp` that are running. -/
  calls : ℕ → Option TimestampCall
  /-- What tasks have loaded from the counter in order to persist it. -/
  held : ℕ → Option Timestamp
  /-- The watermark in the state database. -/
  watermark : Option Timestamp
  /-- Whether a checkpoint is on disk; without one a restart is a fresh start. -/
  checkpoint : Bool
  /-- The timestamps of the own events in the event log. -/
  logged : List Timestamp
  /-- The timestamps that were handed out, in order. -/
  assigned : List Timestamp

namespace TimestampState

/-- A node that starts for the first time. -/
def initial : TimestampState := ⟨0, fun _ => none, fun _ => none, none, false, [], []⟩

/-- The reading of `next_timestamp`. A clock before the epoch counts as zero, and the milliseconds
are cut to eight bytes. -/
def readClock : Option ℕ → ℕ
  | none => 0
  | some millis => millis % 2 ^ 64

/-- What a pass of the loop in `next_timestamp_with_clock` proposes. -/
def candidate (clockMillis : ℕ) (prev : Timestamp) : Timestamp :=
  max clockMillis (min (prev + 1) maxTimestamp)

/-- `max().unwrap_or(0)`. -/
def maxOrZero (timestamps : List Timestamp) : Timestamp := timestamps.foldl max 0

/-- What `replay_response` finds of the counter. -/
def recovered (s : TimestampState) : Timestamp :=
  if s.checkpoint then max (s.watermark.getD 0) (maxOrZero s.logged) else 0

inductive Action where
  /-- A task calls `next_timestamp` and reads the clock. -/
  | call (task : ℕ) (clock : Option ℕ)
  /-- The call loads the counter. -/
  | load (task : ℕ)
  /-- `compare_exchange_weak`, which may also fail for no reason. -/
  | exchange (task : ℕ) (spurious : Bool)
  /-- `apply_checkpoint` with the last timestamp that was sent and the timestamps of the own events
  among the retained ones. -/
  | applyCheckpoint (lastTimestamp : Timestamp) (retained : List Timestamp)
  /-- `apply_checkpoint` or `accept_checkpoint` loads the counter to persist it. -/
  | hold (task : ℕ)
  /-- `set_watermark`, which may fail. -/
  | setWatermark (task : ℕ) (stored : Bool)
  /-- An accepted checkpoint is written to disk. -/
  | saveCheckpoint
  /-- An own event is appended to the event log. -/
  | log (timestamp : Timestamp)
  /-- Own events are pruned from the event log. -/
  | prune (kept : Timestamp → Bool)
  /-- The process ends at any point and is started again. -/
  | restart

/-- A step of the node. An action of a task that is not at that point changes nothing. -/
def step (s : TimestampState) : Action → TimestampState
  | .call task clock =>
    { s with calls := Function.update s.calls task (some ⟨readClock clock, none⟩) }
  | .load task =>
    match s.calls task with
    | none => s
    | some c =>
      { s with calls := Function.update s.calls task (some { c with prev := some s.last }) }
  | .exchange task spurious =>
    match s.calls task with
    | some ⟨clockMillis, some prev⟩ =>
      if s.last = prev ∧ ¬spurious then
        { s with
          last := candidate clockMillis prev
          calls := Function.update s.calls task none
          assigned := s.assigned ++ [candidate clockMillis prev] }
      else { s with calls := Function.update s.calls task (some ⟨clockMillis, none⟩) }
    | _ => s
  | .applyCheckpoint lastTimestamp retained =>
    { s with last := max s.last (max lastTimestamp (maxOrZero retained)) }
  | .hold task => { s with held := Function.update s.held task (some s.last) }
  | .setWatermark task stored =>
    match s.held task with
    | none => s
    | some value =>
      { s with
        watermark := if stored then some value else s.watermark
        held := Function.update s.held task none }
  | .saveCheckpoint => { s with checkpoint := true }
  | .log timestamp => { s with logged := s.logged ++ [timestamp] }
  | .prune kept => { s with logged := s.logged.filter kept }
  | .restart => { s with last := s.recovered, calls := fun _ => none, held := fun _ => none }

/-- The states that are reached by steps that meet a condition. -/
inductive Reached (P : TimestampState → Action → Prop) : TimestampState → Prop where
  | initial : Reached P initial
  | step {s : TimestampState} {action : Action} (h : Reached P s) (hP : P s action) :
    Reached P (s.step action)

/-- A timestamp is handed out only while the largest one has not been, and at a restart the
checkpoint, the watermark and the log cover the timestamps that were handed out. -/
def Covered (s : TimestampState) : Action → Prop
  | .exchange _ _ => ∀ t ∈ s.assigned, t < maxTimestamp
  | .restart => ∀ t ∈ s.assigned, t ≤ s.recovered
  | _ => True

/-- The timestamps increase, and the counter is not below any of them. -/
structure Increasing (s : TimestampState) : Prop where
  pairwise : s.assigned.Pairwise (· < ·)
  le_last : ∀ t ∈ s.assigned, t ≤ s.last

theorem lt_candidate {t last : Timestamp} (hlast : t ≤ last) (hmax : t < maxTimestamp)
    (clockMillis : ℕ) : t < candidate clockMillis last := by
  have hnext : t < min (last + 1) maxTimestamp := Nat.lt_min.mpr ⟨Nat.lt_succ_of_le hlast, hmax⟩
  exact Nat.lt_of_lt_of_le hnext (Nat.le_max_right ..)

theorem Increasing.assign {s : TimestampState} (h : Increasing s) {clockMillis : ℕ}
    (hmax : ∀ t ∈ s.assigned, t < maxTimestamp) (calls : ℕ → Option TimestampCall) :
    Increasing { s with
      last := candidate clockMillis s.last
      calls := calls
      assigned := s.assigned ++ [candidate clockMillis s.last] } := by
  have hlt (t) (ht : t ∈ s.assigned) : t < candidate clockMillis s.last :=
    lt_candidate (h.le_last t ht) (hmax t ht) clockMillis
  constructor
  · refine List.pairwise_append.mpr ⟨h.pairwise, List.pairwise_singleton .., fun t ht t' ht' => ?_⟩
    rw [List.mem_singleton.mp ht']
    exact hlt t ht
  · intro t ht
    rcases List.mem_append.mp ht with ht | ht
    · exact Nat.le_of_lt (hlt t ht)
    · exact Nat.le_of_eq (List.mem_singleton.mp ht)

theorem Increasing.step {s : TimestampState} (h : Increasing s) {action : Action}
    (hcovered : s.Covered action) : Increasing (s.step action) := by
  cases action with
  | call task clock => exact ⟨h.pairwise, h.le_last⟩
  | load task =>
    rw [TimestampState.step]
    split
    · exact h
    · exact ⟨h.pairwise, h.le_last⟩
  | exchange task spurious =>
    rw [TimestampState.step]
    split
    · split
      · next hexchanged =>
        obtain ⟨rfl, -⟩ := hexchanged
        exact h.assign hcovered _
      · exact ⟨h.pairwise, h.le_last⟩
    · exact h
  | applyCheckpoint lastTimestamp retained =>
    exact ⟨h.pairwise, fun t ht => Nat.le_trans (h.le_last t ht) (Nat.le_max_left ..)⟩
  | hold task => exact ⟨h.pairwise, h.le_last⟩
  | setWatermark task stored =>
    rw [TimestampState.step]
    split
    · exact h
    · exact ⟨h.pairwise, h.le_last⟩
  | saveCheckpoint => exact ⟨h.pairwise, h.le_last⟩
  | log timestamp => exact ⟨h.pairwise, h.le_last⟩
  | prune kept => exact ⟨h.pairwise, h.le_last⟩
  | restart => exact ⟨h.pairwise, hcovered⟩

/-- The timestamps of own events increase strictly in every run in which the largest one is handed
out at most once and a restart finds a value that is not below the last one. -/
theorem own_timestamps_increase {s : TimestampState} (h : Reached Covered s) :
    s.assigned.Pairwise (· < ·) := by
  have hincreasing : Increasing s := by
    induction h with
    | initial => exact ⟨.nil, nofun⟩
    | step _ hcovered ih => exact ih.step hcovered
  exact hincreasing.pairwise

/-- All steps of a run meet a condition. -/
def Along (P : TimestampState → Action → Prop) : TimestampState → List Action → Prop
  | _, [] => True
  | s, action :: actions => P s action ∧ Along P (s.step action) actions

theorem Reached.along {P : TimestampState → Action → Prop} {s : TimestampState}
    {actions : List Action} (h : Reached P s) (halong : Along P s actions) :
    Reached P (actions.foldl TimestampState.step s) := by
  induction actions generalizing s with
  | nil => exact h
  | cons action actions ih => exact ih (h.step halong.1) halong.2

instance (s : TimestampState) : DecidablePred s.Covered
  | .exchange _ _ => inferInstanceAs (Decidable (∀ t ∈ s.assigned, t < maxTimestamp))
  | .restart => inferInstanceAs (Decidable (∀ t ∈ s.assigned, t ≤ s.recovered))
  | .call _ _ | .load _ | .applyCheckpoint _ _ | .hold _ | .setWatermark _ _ | .saveCheckpoint
  | .log _ | .prune _ => inferInstanceAs (Decidable True)

/-- Two calls run at once on a clock that stands still, and the second of them has to try again. The
counter is persisted and the event of the second one logged. After a restart the clock is behind. -/
def coveredRun : List Action :=
  [.call 0 (some 7), .call 1 (some 7), .load 0, .load 1, .exchange 0 false, .exchange 1 false,
    .hold 0, .load 1, .exchange 1 false, .setWatermark 0 true, .saveCheckpoint, .log 8, .restart,
    .call 0 (some 3), .load 0, .exchange 0 true, .load 0, .exchange 0 false]

theorem own_timestamps_increase_restarted :
    (coveredRun.foldl step initial).assigned = [7, 8, 9] ∧
      (coveredRun.foldl step initial).assigned.Pairwise (· < ·) := by
  have hcovered : Along Covered initial coveredRun := by
    simp only [coveredRun, Along, and_true]
    decide +kernel
  exact ⟨by decide +kernel, own_timestamps_increase (Reached.initial.along hcovered)⟩

/-- A peer sends the largest timestamp, and the node hands it out twice. -/
def exhaustedRun : List Action :=
  [.applyCheckpoint maxTimestamp [], .call 0 (some 5), .load 0, .exchange 0 false,
    .call 0 (some 6), .load 0, .exchange 0 false]

/-- A node hands out a timestamp and logs its event. It is started again without a checkpoint, on a
clock that is behind. -/
def freshStartRun : List Action :=
  [.call 0 (some 9), .load 0, .exchange 0 false, .log 9, .restart, .call 0 (some 4), .load 0,
    .exchange 0 false]

theorem own_timestamps_repeat :
    (exhaustedRun.foldl step initial).assigned = [2 ^ 64 - 1, 2 ^ 64 - 1] ∧
      (freshStartRun.foldl step initial).assigned = [9, 4] ∧
      ¬(exhaustedRun.foldl step initial).assigned.Pairwise (· < ·) ∧
      ¬(freshStartRun.foldl step initial).assigned.Pairwise (· < ·) := by
  decide +kernel

end TimestampState

end JKain
