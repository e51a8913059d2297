import JKain.Executor.IdentitySpec

/-!
# Who changes the records of an identity

The records of an identity are its document, its root actor and its sub-actors. A transaction
changes one of them only if it is an operation on that identity whose signature verifies under a key
of the current document, or, for a rebind, under the control key of the current root actor. Once the
document is deactivated no operation is authorized any more, so the records stay as they are. Writes
may fail at any point: an operation that is cut short has made some of its writes and no others.
-/

namespace JKain

open Std Lib

/-! ## Executors that transactions lead to -/

namespace Executor

variable {c : Crypto} {start executor : Executor}

/-- The executors that transactions lead to, one after the other. A transaction that a failed write
ends counts as well, with the writes made before. -/
inductive Reaches (c : Crypto) (start : Executor) : Executor → Prop
  | refl : Reaches c start start
  | transaction {executor : Executor} (h : Reaches c start executor) (result : ExecuteResult)
      (tx : Transaction) :
      Reaches c start (finalState (executeTransaction c result tx executor))
  | executed {executor : Executor} (h : Reaches c start executor) (hash : EventHash) :
      Reaches c start { executor with executed := executor.executed.insert hash }

/-! ## Writes that may fail -/

variable (executor)

theorem applyOp_final (op : Op) :
    (finalState (applyOp c op executor)).state = executor.state ∨
      (finalState (applyOp c op executor)).state = executor.state.apply c.sha op := by
  rw [applyOp]
  split
  · exact .inl rfl
  · exact .inr rfl

/-- The writes before the one that failed are made. -/
theorem applyWrites_final (writes : List Write) :
    ∃ k, (finalState (applyWrites c writes executor)).state =
      executor.state.applyWrites c (writes.take k) := by
  induction writes generalizing executor with
  | nil => exact ⟨0, rfl⟩
  | cons write rest ih =>
    obtain ⟨key, value⟩ := write
    rw [applyWrites]
    apply finalState_bind (P := fun executor' : Executor => ∃ k, executor'.state =
      executor.state.applyWrites c (((key, value) :: rest).take k))
    · intro _ executor' hrun
      obtain ⟨k, hk⟩ := ih executor'
      refine ⟨k + 1, ?_⟩
      rw [hk, (applyOp_holds executor _).of_ok hrun]
      rfl
    · intro error executor' hrun
      have hfault : executor'.state = executor.state := by
        rw [applyOp] at hrun
        split at hrun
        · obtain ⟨-, rfl⟩ := EStateM.Result.error.inj hrun
          rfl
        · cases hrun
      exact ⟨0, hfault⟩

theorem applyChecked_final {ε : Type} (wrap : ε → OpError)
    (writes : State → Except ε (List Write)) (result : ExecuteResult) :
    (finalState (applyChecked c wrap writes result executor)).state = executor.state ∨
      ∃ ws k, writes executor.state = .ok ws ∧
        (finalState (applyChecked c wrap writes result executor)).state =
          executor.state.applyWrites c (ws.take k) := by
  have hget : (get : ExecutorM Executor) executor = .ok executor executor := rfl
  rw [applyChecked, bind_eq_of_ok hget]
  cases hwrites : writes executor.state with
  | error error => exact .inl rfl
  | ok ws =>
    obtain ⟨k, hk⟩ := applyWrites_final (c := c) executor ws
    refine .inr ⟨ws, k, rfl, ?_⟩
    dsimp only
    apply finalState_bind (P := fun executor' : Executor => executor'.state =
      executor.state.applyWrites c (ws.take k))
    · intro _ executor' hrun
      rw [hrun] at hk
      exact hk
    · intro error executor' hrun
      rw [hrun] at hk
      exact hk

end Executor

/-! ## Authorized operations -/

/-- The identity an actor belongs to. -/
def ActorId.identity : ActorId → DidId
  | root id => id
  | sub id _ _ => id

/-- The identity whose record a slot is for. -/
def Slot.identity : Slot → DidId
  | document id => id
  | actor id => id.identity

/-- The identity an operation names. -/
def DecodedOp.identity? : DecodedOp → Option DidId
  | did op => some op.id
  | subActor op => some op.rootDid
  | rebind op => some op.actorId.identity
  | _ => none

/-- An operation on an identity with a signature that verifies: for a new identity under a key of
the document it brings, afterwards under a key of the stored document, which is active, and for a
rebind under the control key of the stored root actor. -/
inductive Authorized (c : Crypto) (state : State) : DecodedOp → Prop
  | create {op : DidOp} {key : List UInt8} (hcreation : op.isCreation = true)
      (hnew : state.get (didStateKey op.id) = none)
      (hkey : op.document.signingKey op.signedBy.toNat = some key)
      (hverify : c.verify key op.signedPayload op.signature = true) :
      Authorized c state (.did op)
  | update {op : DidOp} {doc : DidDocument} {key : List UInt8}
      (hdoc : storedDocument c state op.id = some doc) (hactive : doc.deactivated = false)
      (hkey : doc.signingKey op.signedBy.toNat = some key)
      (hverify : c.verify key op.signedPayload op.signature = true) :
      Authorized c state (.did op)
  | mint {op : SubActorOp} {doc : DidDocument} {key : List UInt8}
      (hdoc : storedDocument c state op.rootDid = some doc) (hactive : doc.deactivated = false)
      (hkey : doc.signingKey op.signedBy.toNat = some key)
      (hverify : c.verify key op.signedPayload op.signature = true) :
      Authorized c state (.subActor op)
  | rebind {op : RebindOp} {doc : DidDocument} {root : RootActor} {actor : SubActor}
      (hdoc : storedDocument c state op.actorId.identity = some doc)
      (hactive : doc.deactivated = false)
      (hroot : storedRoot c state op.actorId.identity = some root)
      (hactor : storedSub c state op.actorId = some actor)
      (hverify : c.verify root.controlKey (op.signedPayload actor.operatingKey)
        op.authorizingSignature = true) :
      Authorized c state (.rebind op)

section Authorized

variable {c : Crypto} {state : State}

/-- Nothing is authorized for an identity whose document is deactivated. -/
theorem Authorized.active {op : DecodedOp} (h : Authorized c state op) {id : DidId}
    (hid : op.identity? = some id) {doc : DidDocument} (hdoc : storedDocument c state id = some doc) :
    doc.deactivated = false := by
  cases h with
  | create hcreation hnew hkey hverify =>
    obtain rfl := Option.some.inj hid
    rw [storedDocument, hnew] at hdoc
    cases hdoc
  | update hstored hactive hkey hverify | mint hstored hactive hkey hverify
  | rebind hstored hactive hroot hactor hverify =>
    obtain rfl := Option.some.inj hid
    rw [← Option.some.inj (hstored.symm.trans hdoc)]
    exact hactive

theorem checkDidSigner_ok {op : DidOp} {doc : DidDocument}
    (h : checkDidSigner c op doc = .ok ()) :
    ∃ key, doc.signingKey op.signedBy.toNat = some key ∧
      c.verify key op.signedPayload op.signature = true := by
  rw [checkDidSigner] at h
  split at h
  · cases h
  · rename_i key hkey
    split at h
    · rename_i hverify
      exact ⟨key, hkey, hverify⟩
    · cases h

theorem didWrites_authorized {op : DidOp} {writes : List Write}
    (h : didWrites c state op = .ok writes) : Authorized c state (.did op) := by
  rw [didWrites] at h
  cases hcheck : checkDidOp c state op with
  | error error => rw [hcheck] at h; cases h
  | ok u =>
    rw [checkDidOp] at hcheck
    split at hcheck
    · cases hcheck
    · cases hcheck
    · rename_i hcreation hnew
      split at hcheck
      · cases hcheck
      · obtain ⟨key, hkey, hverify⟩ := checkDidSigner_ok hcheck
        exact .create hcreation hnew hkey hverify
    · rename_i encoded hcreation hget
      split at hcheck
      · cases hcheck
      · rename_i prior hdecode
        split at hcheck
        · cases hcheck
        · rename_i hactive
          obtain ⟨key, hkey, hverify⟩ := checkDidSigner_ok hcheck
          have hprior : storedDocument c state op.id = some prior :=
            Option.bind_eq_some_iff.mpr ⟨encoded, hget, hdecode⟩
          exact .update hprior (Bool.not_eq_true _ ▸ hactive) hkey hverify

theorem subActorWrites_authorized {op : SubActorOp} {writes : List Write}
    (h : subActorWrites c state op = .ok writes) : Authorized c state (.subActor op) := by
  rw [subActorWrites] at h
  split at h
  · cases h
  · split at h
    · cases h
    · rename_i doc hdoc
      split at h
      · cases h
      · rename_i hactive
        split at h
        · cases h
        · split at h
          · cases h
          · rename_i key hkey
            split at h
            · cases h
            · rename_i hverify
              rw [Bool.not_eq_true, Bool.not_eq_false'] at hverify
              exact .mint hdoc (Bool.not_eq_true _ ▸ hactive) hkey hverify

theorem rebindWrites_authorized {op : RebindOp} {writes : List Write}
    (h : rebindWrites c state op = .ok writes) : Authorized c state (.rebind op) := by
  rw [rebindWrites] at h
  split at h
  · cases h
  · rename_i rootDid tag index hid
    have hidentity : op.actorId.identity = rootDid := by rw [hid]; rfl
    split at h
    · cases h
    · rename_i actor hactor
      split at h
      · cases h
      · rename_i doc hdoc
        split at h
        · cases h
        · rename_i hactive
          split at h
          · cases h
          · rename_i root hroot
            dsimp only at h
            split_ifs at h with hpossession hverify
            rw [Bool.not_eq_true, Bool.not_eq_false'] at hverify
            exact .rebind (hidentity ▸ hdoc) (Bool.not_eq_true _ ▸ hactive) (hidentity ▸ hroot)
              hactor hverify

/-- An operation stores records of the identity it names. -/
theorem Change.identity {op : DecodedOp} {entries : List Entry} (h : Change c state op entries) :
    ∀ entry ∈ entries, op.identity? = some entry.slot.identity := by
  cases h with
  | create hop hcreation hnew hactive
  | update hop hcreation hprior hpriorActive hactive hroot
  | mint hop hnew hdoc hroot hproofs =>
    rw [List.forall_mem_cons, List.forall_mem_singleton]
    exact ⟨rfl, rfl⟩
  | deactivate hop hcreation hprior hpriorActive hinactive
  | rebind hop hid hactor =>
    rw [List.forall_mem_singleton]
    rfl

end Authorized

/-! ## One transaction -/

/-- What an operation on an identity that may have been cut short does to a state: some of the
records it stores are stored, in order. -/
def Touches (c : Crypto) (state : State) (tx : Transaction) (state' : State) : Prop :=
  ∃ (op : DecodedOp) (entries : List Entry), DecodedOp.decode c tx.payload = .ok op ∧
    Authorized c state op ∧ state' = entries.foldl (State.store c) state ∧
    ∀ entry ∈ entries, entry.Valid c ∧ op.identity? = some entry.slot.identity

section Transaction

variable {c : Crypto} {state : State} {tx : Transaction}

theorem Touches.of_change {op : DecodedOp} {entries : List Entry}
    (hdecode : DecodedOp.decode c tx.payload = .ok op) (hauthorized : Authorized c state op)
    (h : Change c state op entries) (k : ℕ) :
    Touches c state tx (state.applyWrites c ((entries.map Entry.write).take k)) := by
  refine ⟨op, entries.take k, hdecode, hauthorized, ?_, fun entry hentry => ?_⟩
  · rw [← List.map_take, State.applyWrites_map_write]
  · have hmem := List.mem_of_mem_take hentry
    exact ⟨h.valid entry hmem, h.identity entry hmem⟩

/-- A transaction leaves the reserved keys alone or is an authorized operation. -/
theorem Executor.executeTransaction_touches (c : Crypto) (executor : Executor)
    (result : ExecuteResult) (tx : Transaction) :
    Touches c executor.state tx (finalState (executeTransaction c result tx executor)).state ∨
      ∀ key, Reserved key →
        (finalState (executeTransaction c result tx executor)).state.get key =
          executor.state.get key := by
  rw [executeTransaction]
  cases hdecode : DecodedOp.decode c tx.payload with
  | error error => exact .inr fun _ _ => rfl
  | ok op =>
    have hvalid := DecodedOp.decode_valid hdecode
    cases op with
    | kv op =>
      -- The keys of plain operations are not reserved, whether the write fails or not.
      have hkv : ∀ key, Reserved key →
          (finalState (applyOp c op executor)).state.get key = executor.state.get key := by
        intro key hkey
        rcases applyOp_final (c := c) executor op with hstate | hstate
        · rw [hstate]
        · rw [hstate]
          exact State.get_apply_of_ne fun heq => hvalid (heq ▸ hkey)
      refine .inr fun key hkey => ?_
      have hop := hkv key hkey
      cases op <;>
      · dsimp only
        apply finalState_bind (P := fun executor' : Executor =>
          executor'.state.get key = executor.state.get key)
        · intro _ executor' hrun
          rw [hrun] at hop
          exact hop
        · intro error executor' hrun
          rw [hrun] at hop
          exact hop
    | membership op => exact .inr fun _ _ => rfl
    | did op =>
      rcases applyChecked_final (c := c) executor OpError.did (didWrites c · op) result with
        hsame | ⟨ws, k, hwrites, hstate⟩
      · exact .inr fun key _ => congrArg (State.get · key) hsame
      · obtain ⟨entries, rfl, hchange⟩ := didWrites_change hvalid hwrites
        exact .inl (hstate ▸ .of_change hdecode (didWrites_authorized hwrites) hchange k)
    | subActor op =>
      rcases applyChecked_final (c := c) executor OpError.actor (subActorWrites c · op) result with
        hsame | ⟨ws, k, hwrites, hstate⟩
      · exact .inr fun key _ => congrArg (State.get · key) hsame
      · obtain ⟨entries, rfl, hchange⟩ := subActorWrites_change hvalid hwrites
        exact .inl (hstate ▸ .of_change hdecode (subActorWrites_authorized hwrites) hchange k)
    | rebind op =>
      rcases applyChecked_final (c := c) executor OpError.actor (rebindWrites c · op) result with
        hsame | ⟨ws, k, hwrites, hstate⟩
      · exact .inr fun key _ => congrArg (State.get · key) hsame
      · obtain ⟨entries, rfl, hchange⟩ := rebindWrites_change hvalid hwrites
        exact .inl (hstate ▸ .of_change hdecode (rebindWrites_authorized hwrites) hchange k)

theorem State.get_foldl_store_of_ne {entries : List Entry} {key : List UInt8}
    (h : ∀ entry ∈ entries, entry.slot.key ≠ key) :
    (entries.foldl (State.store c) state).get key = state.get key := by
  induction entries generalizing state with
  | nil => rfl
  | cons entry entries ih =>
    rw [List.forall_mem_cons] at h
    rw [List.foldl_cons, ih h.2, State.store, State.get_apply_put, if_neg h.1]

/-- A record that a transaction changes belongs to an identity the transaction is authorized
for. -/
theorem Executor.authorized_of_get_ne {executor : Executor} {result : ExecuteResult} {slot : Slot}
    (hslot : slot.Valid)
    (hchanged : (finalState (executeTransaction c result tx executor)).state.get slot.key ≠
      executor.state.get slot.key) :
    ∃ op, DecodedOp.decode c tx.payload = .ok op ∧ op.identity? = some slot.identity ∧
      Authorized c executor.state op := by
  rcases executeTransaction_touches c executor result tx with
    ⟨op, entries, hdecode, hauthorized, hstate, hentries⟩ | hsame
  · rw [hstate] at hchanged
    obtain ⟨entry, hentry, hkey⟩ : ∃ entry ∈ entries, entry.slot.key = slot.key := by
      by_contra hnone
      push Not at hnone
      exact hchanged (State.get_foldl_store_of_ne hnone)
    obtain ⟨hvalid, hidentity⟩ := hentries entry hentry
    rw [Slot.key_inj hvalid.slot hslot hkey] at hidentity
    exact ⟨op, hdecode, hidentity, hauthorized⟩
  · exact absurd (hsame _ slot.reserved) hchanged

end Transaction

/-! ## Whole runs -/

/-- Whatever is executed after an identity was deactivated, its records stay. -/
theorem Executor.Reaches.get_eq_of_deactivated {c : Crypto} {executor executor' : Executor}
    (h : Reaches c executor executor') {slot : Slot} (hslot : slot.Valid) {doc : DidDocument}
    (hdoc : storedDocument c executor.state slot.identity = some doc)
    (hinactive : doc.deactivated = true) :
    executor'.state.get slot.key = executor.state.get slot.key := by
  -- The document is one of the records, so the induction is over all of them at once.
  suffices hall : ∀ other : Slot, other.Valid → other.identity = slot.identity →
      executor'.state.get other.key = executor.state.get other.key from hall slot hslot rfl
  have hid : slot.identity.Valid := by
    cases slot with
    | document id => exact hslot
    | actor id =>
      cases id with
      | root id => exact hslot
      | sub id tag index => exact hslot.1
  induction h with
  | refl => exact fun _ _ _ => rfl
  | executed h hash ih => exact ih
  | transaction h result tx ih =>
    rename_i current
    intro other hother hidentity
    by_contra hchanged
    rw [← ih other hother hidentity] at hchanged
    obtain ⟨op, hdecode, hop, hauthorized⟩ := authorized_of_get_ne hother hchanged
    have hcurrent : storedDocument c current.state slot.identity = some doc := by
      rw [storedDocument, show didStateKey slot.identity = (Slot.document slot.identity).key from rfl,
        ih (.document slot.identity) hid rfl]
      exact hdoc
    rw [hidentity] at hop
    rw [hauthorized.active hop hcurrent] at hinactive
    cases hinactive

/-- For every executor and every transaction, a record of an identity changes only if the
transaction is an operation that names the identity and is authorized, and no record of an identity
with a deactivated document changes in what follows. -/
theorem identity_records_frame (c : Crypto) (executor : Executor) (id : DidId) :
    (∀ (result : Executor.ExecuteResult) (tx : Transaction) (slot : Slot), slot.Valid →
      slot.identity = id →
      (finalState (Executor.executeTransaction c result tx executor)).state.get slot.key ≠
        executor.state.get slot.key →
      ∃ op, DecodedOp.decode c tx.payload = .ok op ∧ op.identity? = some id ∧
        Authorized c executor.state op) ∧
    ∀ doc, storedDocument c executor.state id = some doc → doc.deactivated = true →
      ∀ executor', Executor.Reaches c executor executor' →
        ∀ slot : Slot, slot.Valid → slot.identity = id →
          executor'.state.get slot.key = executor.state.get slot.key := by
  constructor
  · intro result tx slot hslot hid hchanged
    obtain ⟨op, hdecode, hop, hauthorized⟩ := Executor.authorized_of_get_ne hslot hchanged
    exact ⟨op, hdecode, hid ▸ hop, hauthorized⟩
  · intro doc hdoc hinactive executor' hreaches slot hslot hid
    exact hreaches.get_eq_of_deactivated hslot (hid ▸ hdoc) hinactive

/-- The identity of the run below. -/
def retiredId : DidId := ⟨[0x6D], [0x61], beBytes 16 9⟩

/-- An executor that has created an identity and deactivated it. -/
def retired : Executor :=
  let op := fun deactivated isCreation : Bool => DidOp.encode ⟨retiredId,
    ⟨beBytes 32 1, [.signing (beBytes 32 2)], deactivated⟩, ⟨fun _ => 0⟩, 0, isCreation⟩
  [op false true, op true false].foldl
    (fun executor body => finalState
      (Executor.executeTransaction lastBytes ⟨[], [], [], ∅⟩ ⟨0x03 :: body⟩ executor))
    (.fromState (.new lastBytes.sha) [])

theorem identity_records_frame_retired :
    (storedDocument lastBytes retired.state retiredId).map DidDocument.deactivated = some true ∧
      ∀ executor, Executor.Reaches lastBytes retired executor →
        executor.state.get (actorStateKey (.root retiredId)) =
          retired.state.get (actorStateKey (.root retiredId)) := by
  have hdoc : (storedDocument lastBytes retired.state retiredId).map DidDocument.deactivated =
      some true := by decide +kernel
  obtain ⟨doc, hstored, hinactive⟩ := Option.map_eq_some_iff.mp hdoc
  have hvalid : (Slot.actor (.root retiredId)).Valid := by
    refine ⟨?_, ?_, ?_, ?_⟩ <;> decide +kernel
  exact ⟨hdoc, fun executor hreaches =>
    (identity_records_frame lastBytes retired retiredId).2 doc hstored hinactive executor hreaches
      (.actor (.root retiredId)) hvalid rfl⟩

end JKain
