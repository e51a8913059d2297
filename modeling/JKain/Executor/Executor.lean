import JKain.Executor.State

/-!
# Executing events

The executor folds the payloads of finalized events into the state, each event once. Membership
operations do not touch the state: they are put into buckets by the round the event was received in.
A failed write to the partition ends the event it happens in.
-/

namespace JKain

open Std

/-- `DidError`. -/
inductive DidError
  | unknownSigner
  | invalidSignature
  | identifierAlreadyExists
  | unknownIdentifier
  | alreadyDeactivated
  | creationDeactivated
  deriving DecidableEq

/-- `ActorError`. -/
inductive ActorError
  | unknownRootDid
  | rootDeactivated
  | unknownRootActor
  | subActorAlreadyExists
  | unknownSubActor
  | expectedSubActorId
  | unknownSigner
  | invalidSignature
  | inclusionProofInvalid
  | consistencyProofInvalid
  | invalidProofOfPossession
  | invalidAuthorization
  deriving DecidableEq

/-- `OpError`. -/
inductive OpError
  | did (error : DidError)
  | actor (error : ActorError)
  deriving DecidableEq

/-- A write of a transition that was found valid: a key and the value it gets. -/
abbrev Write := List UInt8 × List UInt8

/-! ## What a valid operation writes

The checks of an operation read the state only; what they admit is a list of writes, which the
program then makes in this order. -/

section Checks

variable (c : Crypto) (state : State)

/-- The document stored for an identity, if it can be read. -/
def storedDocument (id : DidId) : Option DidDocument :=
  (state.get (didStateKey id)).bind (decodeAll (DidDocument.decode c))

/-- The root actor stored for an identity, if it can be read. -/
def storedRoot (id : DidId) : Option RootActor :=
  (state.get (actorStateKey (.root id))).bind (decodeAll (RootActor.decode c))

/-- The signature of an operation on an identity, under a document. -/
def checkDidSigner (op : DidOp) (document : DidDocument) : Except DidError Unit :=
  match document.signingKey op.signedBy.toNat with
  | none => .error .unknownSigner
  | some key =>
    if c.verify key op.signedPayload op.signature then .ok () else .error .invalidSignature

/-- The verification of `apply_did_op`. -/
def checkDidOp (op : DidOp) : Except DidError Unit :=
  match op.isCreation, state.get (didStateKey op.id) with
  | true, some _ => .error .identifierAlreadyExists
  | false, none => .error .unknownIdentifier
  | true, none =>
    if op.document.deactivated then .error .creationDeactivated
    else checkDidSigner c op op.document
  | false, some encoded =>
    match decodeAll (DidDocument.decode c) encoded with
    | none => .error .invalidSignature
    | some prior =>
      if prior.deactivated then .error .alreadyDeactivated else checkDidSigner c op prior

/-- The root actor that goes with the new document; a deactivation leaves it alone. -/
def didRootWrite (op : DidOp) : Option Write :=
  if op.document.deactivated then none
  else
    let fresh : RootActor := ⟨op.id, emptyRoot, 0, op.document.controlKey⟩
    let root :=
      if op.isCreation then fresh
      else
        match storedRoot c state op.id with
        | some root => ⟨op.id, root.merkleRoot, root.leafCount, op.document.controlKey⟩
        | none => fresh
    some (actorStateKey (.root op.id), root.encode)

/-- What `apply_did_op` writes. -/
def didWrites (op : DidOp) : Except DidError (List Write) :=
  match checkDidOp c state op with
  | .error error => .error error
  | .ok _ =>
    .ok ((didStateKey op.id, op.document.encode) :: (didRootWrite c state op).toList)

/-- `apply_sub_actor_op`, the checks of the two proofs. -/
def checkSubActorProofs (op : SubActorOp) (root : RootActor) : Except ActorError Unit :=
  let leaf := subactorLeafHash c.sha op.actorId op.controlKey
  if op.inclusionProof.leafIndex ≠ root.leafCount ||
      op.inclusionProof.leafCount ≠ root.leafCount + 1 ||
      !verifyInclusion c.sha leaf op.inclusionProof op.newRoot then
    .error .inclusionProofInvalid
  else if op.consistencyProof.oldLeafCount ≠ root.leafCount ||
      op.consistencyProof.newLeafCount ≠ root.leafCount + 1 ||
      !verifyConsistency c.sha root.merkleRoot op.consistencyProof op.newRoot then
    .error .consistencyProofInvalid
  else .ok ()

/-- What `apply_sub_actor_op` writes. The record is built for a sub-actor's id, so the last error of
the program cannot occur. -/
def subActorWrites (op : SubActorOp) : Except ActorError (List Write) :=
  if state.contains (actorStateKey op.actorId) then .error .subActorAlreadyExists
  else
    match storedDocument c state op.rootDid with
    | none => .error .unknownRootDid
    | some document =>
      if document.deactivated then .error .rootDeactivated
      else
        match storedRoot c state op.rootDid with
        | none => .error .unknownRootActor
        | some root =>
          match document.signingKey op.signedBy.toNat with
          | none => .error .unknownSigner
          | some key =>
            if !c.verify key op.signedPayload op.signature then .error .invalidSignature
            else
              match checkSubActorProofs c op root with
              | .error error => .error error
              | .ok _ =>
                let actor : SubActor := ⟨op.actorId, op.controlKey, op.operatingKey⟩
                let updated : RootActor :=
                  ⟨op.rootDid, op.newRoot, root.leafCount + 1, root.controlKey⟩
                .ok [(actorStateKey op.actorId, actor.encode),
                  (actorStateKey (.root op.rootDid), updated.encode)]

/-- What `apply_rebind_op` writes. -/
def rebindWrites (op : RebindOp) : Except ActorError (List Write) :=
  match op.actorId with
  | .root _ => .error .expectedSubActorId
  | .sub rootDid _ _ =>
    match (state.get (actorStateKey op.actorId)).bind (decodeAll (SubActor.decode c)) with
    | none => .error .unknownSubActor
    | some actor =>
      match storedDocument c state rootDid with
      | none => .error .unknownRootDid
      | some document =>
        if document.deactivated then .error .rootDeactivated
        else
          match storedRoot c state rootDid with
          | none => .error .unknownRootActor
          | some root =>
            let payload := op.signedPayload actor.operatingKey
            if !c.verify op.newOperatingKey payload op.proofOfPossession then
              .error .invalidProofOfPossession
            else if !c.verify root.controlKey payload op.authorizingSignature then
              .error .invalidAuthorization
            else
              let updated : SubActor := ⟨op.actorId, actor.controlKey, op.newOperatingKey⟩
              .ok [(actorStateKey op.actorId, updated.encode)]

end Checks

/-! ## The executor -/

/-- `Executor`, with the faults its partition still has in store. -/
structure Executor where
  state : State
  executed : ExtTreeSet EventHash
  faults : State.WriteFaults

namespace Executor

/-- `Executor::new`, and `Executor::from_state` on a restored state: nothing counts as executed. -/
def fromState (state : State) (faults : State.WriteFaults) : Executor := ⟨state, ∅, faults⟩

/-- `StateDbError`, as far as a write can meet it. -/
inductive StorageError
  | io
  deriving DecidableEq

/-- Programs on the executor that a failed write ends. -/
abbrev ExecutorM := EStateM StorageError Executor

variable (c : Crypto)

/-- `self.state.apply(&op)?`: on a failed write neither the partition nor the tree changes. -/
def applyOp (op : Op) : ExecutorM Unit := fun executor =>
  if executor.faults.headD false then .error .io { executor with faults := executor.faults.tail }
  else .ok ()
    { executor with state := executor.state.apply c.sha op, faults := executor.faults.tail }

/-- The changes of a round, by key: the value a key got last, or that it was deleted. -/
abbrev Diffs := ExtTreeMap (List UInt8) (Option (List UInt8))

/-- The writes of a valid operation, one after the other. -/
def applyWrites : List Write → ExecutorM Unit
  | [] => pure ()
  | (key, value) :: rest => do
    applyOp c (.put key value)
    applyWrites rest

/-- The changes that the writes of an operation record once all of them are made. -/
def recordWrites (diffs : Diffs) (writes : List Write) : Diffs :=
  writes.foldl (fun diffs (key, value) => diffs.insert key (some value)) diffs

/-- `ExecuteResult`, with the changes recorded so far. -/
structure ExecuteResult where
  errors : List ExecutorError
  membershipOps : List MembershipOp
  opErrors : List OpError
  diffs : Diffs

/-- The common shape of the three kinds of operation on identities and actors: a rejected one is
recorded, the writes of a valid one are made. -/
def applyChecked {ε : Type} (wrap : ε → OpError) (writes : State → Except ε (List Write))
    (result : ExecuteResult) : ExecutorM ExecuteResult := do
  let executor ← get
  match writes executor.state with
  | .error error => return { result with opErrors := result.opErrors ++ [wrap error] }
  | .ok ws => do
    applyWrites c ws
    return { result with diffs := recordWrites result.diffs ws }

/-- One transaction of `execute_event_with_diffs`. -/
def executeTransaction (result : ExecuteResult) (tx : Transaction) : ExecutorM ExecuteResult :=
  match DecodedOp.decode c tx.payload with
  | .ok (.kv (.put key value)) => do
    applyOp c (.put key value)
    return { result with diffs := result.diffs.insert key (some value) }
  | .ok (.kv (.delete key)) => do
    applyOp c (.delete key)
    return { result with diffs := result.diffs.insert key none }
  | .ok (.membership op) => return { result with membershipOps := result.membershipOps ++ [op] }
  | .ok (.did op) => applyChecked c .did (didWrites c · op) result
  | .ok (.subActor op) => applyChecked c .actor (subActorWrites c · op) result
  | .ok (.rebind op) => applyChecked c .actor (rebindWrites c · op) result
  | .error error => return { result with errors := result.errors ++ [error] }

/-- `execute_event_with_diffs`. -/
def executeEventWithDiffs (event : Event) (diffs : Diffs) : ExecutorM ExecuteResult :=
  event.payload.foldlM (executeTransaction c) ⟨[], [], [], diffs⟩

/-- What `bucket_finalized_with_diffs` fills: the operations waiting for activation, by the round
received, and the round up to which events were processed. -/
structure Buckets where
  pending : ExtTreeMap ℕ (List MembershipOp)
  processedThroughRound : ℕ

/-- `pending.entry(round).or_default().extend(ops)`, which is skipped for no operations. -/
def Buckets.extend (buckets : Buckets) (round : ℕ) (ops : List MembershipOp) : Buckets :=
  if ops.isEmpty then buckets
  else
    let waiting := buckets.pending[round]?.getD []
    { buckets with pending := buckets.pending.insert round (waiting ++ ops) }

/-- What the loop of `bucket_finalized_with_diffs` carries along. -/
structure BucketLoop where
  buckets : Buckets
  diffsByRound : ExtTreeMap ℕ Diffs
  anyNew : Bool

/-- One finalized event: it is skipped if it was executed before. A failed write leaves the event
unexecuted and its operations out of the buckets, with the writes before it made. -/
def bucketEvent (hash : EventHash) (event : Event) (round : ℕ) (loop : BucketLoop) :
    Executor → Except StorageError BucketLoop × Executor := fun executor =>
  if executor.executed.contains hash then (.ok loop, executor)
  else
    match executeEventWithDiffs c event (loop.diffsByRound[round]?.getD ∅) executor with
    | .error error executor => (.error error, executor)
    | .ok result executor =>
      (.ok ⟨loop.buckets.extend round result.membershipOps,
          loop.diffsByRound.insert round result.diffs, true⟩,
        { executor with executed := executor.executed.insert hash })

/-- The loop over the finalized events, with the loop's data as far as it got. -/
def bucketEvents : List (EventHash × Event × ℕ) → BucketLoop → Executor →
    Option StorageError × BucketLoop × Executor
  | [], loop, executor => (none, loop, executor)
  | (hash, event, round) :: rest, loop, executor =>
    match bucketEvent c hash event round loop executor with
    | (.error error, executor) => (some error, loop, executor)
    | (.ok loop, executor) => bucketEvents rest loop executor

/-- `bucket_finalized_with_diffs`, on events that come with their hashes. The watermark moves only
when every event went through and one of them was new; the buckets keep what was put into them
before a failure. -/
def bucketFinalizedWithDiffs (finalized : List (EventHash × Event × ℕ)) (buckets : Buckets)
    (executor : Executor) :
    Except StorageError (ExtTreeMap ℕ Diffs) × Buckets × Executor :=
  match bucketEvents c finalized ⟨buckets, ∅, false⟩ executor with
  | (some error, loop, executor) => (.error error, loop.buckets, executor)
  | (none, loop, executor) =>
    let newMax := (finalized.map (·.2.2)).foldl max 0
    let through := loop.buckets.processedThroughRound
    (.ok (loop.diffsByRound.filter fun _ diffs => !diffs.isEmpty),
      { loop.buckets with
        processedThroughRound := if loop.anyNew && newMax > through then newMax else through },
      executor)

end Executor

end JKain
