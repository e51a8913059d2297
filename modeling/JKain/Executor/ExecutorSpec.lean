import JKain.Executor.Executor

/-!
# Execution when no write fails

The executor as a function of the state alone. `State.applyEvent` is what the transactions of an
event make of a state, and `membershipOps` are the operations an event puts into the bucket of its
round, which do not depend on the state. An executor with no faults in store runs through, ends in
the state of these functions, and counts every event it was given as executed.
-/

namespace JKain

open Std Lib

namespace State

variable (c : Crypto)

/-- The state after the writes of an operation. -/
def applyWrites (state : State) (writes : List Write) : State :=
  writes.foldl (fun state (key, value) => state.apply c.sha (.put key value)) state

/-- The state after an operation on identities or actors, which is unchanged by a rejected one. -/
def applyChecked {ε : Type} (state : State) : Except ε (List Write) → State
  | .error _ => state
  | .ok writes => state.applyWrites c writes

/-- The state after a transaction. -/
def applyTransaction (state : State) (tx : Transaction) : State :=
  match DecodedOp.decode c tx.payload with
  | .ok (.kv op) => state.apply c.sha op
  | .ok (.membership _) => state
  | .ok (.did op) => state.applyChecked c (didWrites c state op)
  | .ok (.subActor op) => state.applyChecked c (subActorWrites c state op)
  | .ok (.rebind op) => state.applyChecked c (rebindWrites c state op)
  | .error _ => state

/-- The state after the transactions of an event. -/
def applyEvent (state : State) (event : Event) : State :=
  event.payload.foldl (applyTransaction c) state

open Executor (Diffs recordWrites)

/-- The changes recorded with an operation on identities or actors, none for a rejected one. -/
def recordChecked {ε : Type} (diffs : Diffs) : Except ε (List Write) → Diffs
  | .error _ => diffs
  | .ok writes => recordWrites diffs writes

/-- The changes recorded with a transaction. -/
def recordTransaction (state : State) (diffs : Diffs) (tx : Transaction) : Diffs :=
  match DecodedOp.decode c tx.payload with
  | .ok (.kv (.put key value)) => diffs.insert key (some value)
  | .ok (.kv (.delete key)) => diffs.insert key none
  | .ok (.membership _) => diffs
  | .ok (.did op) => recordChecked diffs (didWrites c state op)
  | .ok (.subActor op) => recordChecked diffs (subActorWrites c state op)
  | .ok (.rebind op) => recordChecked diffs (rebindWrites c state op)
  | .error _ => diffs

/-- The changes recorded with the transactions of a list, each in the state the ones before it
left. -/
def recordTransactions : List Transaction → State → Diffs → Diffs
  | [], _, diffs => diffs
  | tx :: txs, state, diffs =>
    recordTransactions txs (state.applyTransaction c tx) (state.recordTransaction c diffs tx)

end State

namespace Executor

/-- The membership operation of a transaction. -/
def membershipOp (c : Crypto) (tx : Transaction) : Option MembershipOp :=
  match DecodedOp.decode c tx.payload with
  | .ok (.membership op) => some op
  | _ => none

/-- The membership operations of an event, in order. -/
def membershipOps (c : Crypto) (event : Event) : List MembershipOp :=
  event.payload.filterMap (membershipOp c)

variable {c : Crypto} {executor : Executor}

/-- The executor in another state. -/
def withState (executor : Executor) (state : State) : Executor := { executor with state }

@[simp] theorem withState_state (state : State) : (executor.withState state).state = state := rfl

@[simp] theorem withState_faults (state : State) :
    (executor.withState state).faults = executor.faults := rfl

@[simp] theorem withState_executed (state : State) :
    (executor.withState state).executed = executor.executed := rfl

@[simp] theorem withState_withState (state state' : State) :
    (executor.withState state).withState state' = executor.withState state' := rfl

theorem withState_self : executor.withState executor.state = executor := rfl

theorem applyOp_eq (h : executor.faults = []) (op : Op) :
    applyOp c op executor = .ok () (executor.withState (executor.state.apply c.sha op)) := by
  simp only [applyOp, h, List.headD_nil, Bool.false_eq_true, ↓reduceIte, List.tail_nil, withState]

theorem applyWrites_eq (h : executor.faults = []) (writes : List Write) :
    applyWrites c writes executor =
      .ok () (executor.withState (executor.state.applyWrites c writes)) := by
  induction writes generalizing executor with
  | nil => rfl
  | cons write rest ih =>
    obtain ⟨key, value⟩ := write
    rw [applyWrites, bind_eq_of_ok (applyOp_eq h _)]
    exact ih h

theorem applyChecked_eq {ε : Type} (h : executor.faults = []) (wrap : ε → OpError)
    (writes : State → Except ε (List Write)) (result : ExecuteResult) :
    ∃ result', applyChecked c wrap writes result executor = .ok result'
        (executor.withState (executor.state.applyChecked c (writes executor.state))) ∧
      result'.membershipOps = result.membershipOps ∧
      result'.diffs = State.recordChecked result.diffs (writes executor.state) := by
  have hget : (get : ExecutorM Executor) executor = .ok executor executor := rfl
  rw [applyChecked, bind_eq_of_ok hget]
  cases hwrites : writes executor.state with
  | error error => exact ⟨_, rfl, rfl, rfl⟩
  | ok ws => exact ⟨_, bind_eq_of_ok (applyWrites_eq h ws), rfl, rfl⟩

theorem executeTransaction_eq (h : executor.faults = []) (result : ExecuteResult)
    (tx : Transaction) :
    ∃ result', executeTransaction c result tx executor = .ok result'
        (executor.withState (executor.state.applyTransaction c tx)) ∧
      result'.membershipOps = result.membershipOps ++ (membershipOp c tx).toList ∧
      result'.diffs = executor.state.recordTransaction c result.diffs tx := by
  rw [executeTransaction, State.applyTransaction, membershipOp, State.recordTransaction]
  cases DecodedOp.decode c tx.payload with
  | error error => exact ⟨_, rfl, (List.append_nil _).symm, rfl⟩
  | ok op =>
    cases op with
    | kv op =>
      cases op with
      | put key value => exact ⟨_, bind_eq_of_ok (applyOp_eq h _), (List.append_nil _).symm, rfl⟩
      | delete key => exact ⟨_, bind_eq_of_ok (applyOp_eq h _), (List.append_nil _).symm, rfl⟩
    | membership op => exact ⟨_, rfl, rfl, rfl⟩
    | did op =>
      simpa using applyChecked_eq h OpError.did (didWrites c · op) result
    | subActor op =>
      simpa using applyChecked_eq h OpError.actor (subActorWrites c · op) result
    | rebind op =>
      simpa using applyChecked_eq h OpError.actor (rebindWrites c · op) result

/-- An event runs through: the state, the membership operations and the changes are those of its
transactions. -/
theorem executeEventWithDiffs_eq (h : executor.faults = []) (event : Event) (diffs : Diffs) :
    ∃ result, executeEventWithDiffs c event diffs executor =
        .ok result (executor.withState (executor.state.applyEvent c event)) ∧
      result.membershipOps = membershipOps c event ∧
      result.diffs = State.recordTransactions c event.payload executor.state diffs := by
  -- The loop over the transactions, from any result and state.
  suffices hloop : ∀ (txs : List Transaction) (result : ExecuteResult) (executor : Executor),
      executor.faults = [] →
      ∃ result', txs.foldlM (executeTransaction c) result executor =
          .ok result' (executor.withState (txs.foldl (State.applyTransaction c) executor.state)) ∧
        result'.membershipOps = result.membershipOps ++ txs.filterMap (membershipOp c) ∧
        result'.diffs = State.recordTransactions c txs executor.state result.diffs by
    exact hloop event.payload ⟨[], [], [], diffs⟩ executor h
  intro txs
  induction txs with
  | nil => exact fun result executor _ => ⟨result, rfl, (List.append_nil _).symm, rfl⟩
  | cons tx txs ih =>
    intro result executor h
    obtain ⟨result', hrun, hops, hdiffs⟩ := executeTransaction_eq h result tx
    obtain ⟨result'', hrest, hops', hdiffs'⟩ :=
      ih result' (executor.withState (executor.state.applyTransaction c tx)) h
    refine ⟨result'', ?_, ?_, ?_⟩
    · rw [List.foldlM_cons, bind_eq_of_ok hrun]
      exact hrest
    · rw [hops', hops, List.append_assoc]
      cases hop : membershipOp c tx <;> simp [hop]
    · rw [hdiffs', hdiffs]
      rfl

/-! ## Whatever the partition does

A failed write ends the event. If the event runs through, the state is the one its transactions
make, whichever faults the partition had in store. -/

section AnyFaults

variable (executor)

theorem applyOp_holds (op : Op) :
    Holds (fun _ => True) (applyOp c op) executor fun _ executor' =>
      executor'.state = executor.state.apply c.sha op := by
  rw [Holds, applyOp]
  split
  · rename_i hrun
    split at hrun
    · cases hrun
    · obtain ⟨-, rfl⟩ := EStateM.Result.ok.inj hrun
      rfl
  · trivial

theorem applyWrites_holds (writes : List Write) :
    Holds (fun _ => True) (applyWrites c writes) executor fun _ executor' =>
      executor'.state = executor.state.applyWrites c writes := by
  induction writes generalizing executor with
  | nil => rfl
  | cons write rest ih =>
    obtain ⟨key, value⟩ := write
    rw [applyWrites, Holds.bind_iff]
    refine (applyOp_holds executor _).mono fun _ executor' hstate => ?_
    refine (ih executor').mono fun _ executor'' hstate' => ?_
    rw [hstate', hstate]
    rfl

theorem applyChecked_holds {ε : Type} (wrap : ε → OpError)
    (writes : State → Except ε (List Write)) (result : ExecuteResult) :
    Holds (fun _ => True) (applyChecked c wrap writes result) executor fun _ executor' =>
      executor'.state = executor.state.applyChecked c (writes executor.state) := by
  rw [applyChecked, Holds.bind_iff, Holds.get_iff]
  cases writes executor.state with
  | error error => rfl
  | ok ws =>
    rw [Holds.bind_iff]
    exact (applyWrites_holds executor ws).mono fun _ _ hstate => hstate

theorem executeTransaction_holds (result : ExecuteResult) (tx : Transaction) :
    Holds (fun _ => True) (executeTransaction c result tx) executor fun _ executor' =>
      executor'.state = executor.state.applyTransaction c tx := by
  rw [executeTransaction, State.applyTransaction]
  cases DecodedOp.decode c tx.payload with
  | error error => rfl
  | ok op =>
    cases op with
    | kv op =>
      cases op with
      | put key value =>
        exact Holds.bind_iff.mpr ((applyOp_holds executor _).mono fun _ _ hstate => hstate)
      | delete key =>
        exact Holds.bind_iff.mpr ((applyOp_holds executor _).mono fun _ _ hstate => hstate)
    | membership op => rfl
    | did op => exact applyChecked_holds executor OpError.did (didWrites c · op) result
    | subActor op => exact applyChecked_holds executor OpError.actor (subActorWrites c · op) result
    | rebind op => exact applyChecked_holds executor OpError.actor (rebindWrites c · op) result

/-- An event that runs through leaves the state of its transactions. -/
theorem executeEventWithDiffs_holds (event : Event) (diffs : Diffs) :
    Holds (fun _ => True) (executeEventWithDiffs c event diffs) executor fun _ executor' =>
      executor'.state = executor.state.applyEvent c event := by
  suffices hloop : ∀ (txs : List Transaction) (result : ExecuteResult) (executor : Executor),
      Holds (fun _ => True) (txs.foldlM (executeTransaction c) result) executor
        fun _ executor' => executor'.state = txs.foldl (State.applyTransaction c) executor.state from
    hloop event.payload _ executor
  intro txs
  induction txs with
  | nil => exact fun _ _ => rfl
  | cons tx txs ih =>
    intro result executor
    rw [List.foldlM_cons, Holds.bind_iff]
    refine (executeTransaction_holds executor result tx).mono fun result' executor' hstate => ?_
    refine (ih result' executor').mono fun _ _ hstate' => ?_
    rw [hstate', hstate]
    rfl

end AnyFaults

/-- The executor after events were executed one after the other, each of them without a failed
write and with whatever changes were recorded before it. -/
inductive Executes (c : Crypto) : Executor → List Event → Executor → Prop
  | nil (executor : Executor) : Executes c executor [] executor
  | cons {executor executor' executor'' : Executor} {event : Event} {events : List Event}
      {diffs : Diffs} {result : ExecuteResult}
      (hevent : executeEventWithDiffs c event diffs executor = .ok result executor')
      (hrest : Executes c executor' events executor'') :
      Executes c executor (event :: events) executor''

theorem Executes.state_eq {executor' : Executor} {events : List Event}
    (h : Executes c executor events executor') :
    executor'.state =
      (events.flatMap Event.payload).foldl (State.applyTransaction c) executor.state := by
  induction h with
  | nil executor => rfl
  | cons hevent hrest ih =>
    rw [ih, (executeEventWithDiffs_holds _ _ _).of_ok hevent, List.flatMap_cons,
      List.foldl_append]
    rfl

variable (c) in
/-- Without failed writes every event is executed. -/
theorem exists_executes (executor : Executor) (h : executor.faults = []) (events : List Event) :
    ∃ executor', Executes c executor events executor' := by
  induction events generalizing executor with
  | nil => exact ⟨executor, .nil executor⟩
  | cons event events ih =>
    obtain ⟨result, hevent, -⟩ := executeEventWithDiffs_eq (c := c) h event ∅
    obtain ⟨executor', hrest⟩ := ih (executor.withState (executor.state.applyEvent c event)) h
    exact ⟨executor', .cons hevent hrest⟩

end Executor

end JKain
