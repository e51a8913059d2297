import JKain.Executor.IdentitySpec

/-!
# Replaying signed operations

The payloads that are signed name the identity or the actor and what it is changed to, and for a
rebind what it is changed from. They carry no number and no digest of the state they were made for.
So a signature is good again whenever the state it was made for comes back: an update is accepted a
second time after the document was changed away and back, and a rebind after the operating key was.
A run in which no replaced document or key is brought back is safe from replays.
-/

namespace JKain

open Std Lib

/-! ## What is signed -/

section Payloads

variable {c : Crypto}

/-- The signed payloads of the three kinds of operation are told apart by their seventh byte. -/
theorem payload_byte (domain rest : List UInt8) (byte : UInt8) (h : domain[6]? = some byte) :
    (domain ++ rest)[6]? = some byte := by
  have hlt : 6 < domain.length := (List.getElem?_eq_some_iff.mp h).1
  rw [List.getElem?_append_left hlt, h]

theorem DidOp.signedPayload_byte (op : DidOp) : op.signedPayload[6]? = some 0x64 := by
  rw [DidOp.signedPayload, List.append_assoc]
  exact payload_byte _ _ _ (by decide +kernel)

theorem SubActorOp.signedPayload_byte (op : SubActorOp) : op.signedPayload[6]? = some 0x73 := by
  rw [SubActorOp.signedPayload, List.append_assoc, List.append_assoc]
  exact payload_byte _ _ _ (by decide +kernel)

theorem RebindOp.signedPayload_byte (op : RebindOp) (key : List UInt8) :
    (op.signedPayload key)[6]? = some 0x72 := by
  rw [RebindOp.signedPayload, List.append_assoc, List.append_assoc]
  exact payload_byte _ _ _ (by decide +kernel)

theorem DidOp.signedPayload_inj {op op' : DidOp} (h : op.Valid c) (h' : op'.Valid c)
    (heq : op.signedPayload = op'.signedPayload) : op.id = op'.id ∧ op.document = op'.document := by
  rw [DidOp.signedPayload, DidOp.signedPayload, List.append_assoc, List.append_assoc,
    List.append_cancel_left_eq] at heq
  obtain ⟨hid, hdoc⟩ := DidId.encode_append_inj h.id h'.id heq
  exact ⟨hid, (DidDocument.decode_reads h.document).eq_of_eq
    (hdoc ▸ DidDocument.decode_reads h'.document)⟩

/-- An actor's identifier with its length in front is determined by the bytes it begins. -/
theorem writeBytes_actorId_inj {id id' : ActorId} (h : id.Typed) (h' : id'.Typed)
    {rest rest' : List UInt8}
    (heq : writeBytes id.encode ++ rest = writeBytes id'.encode ++ rest') :
    id = id' ∧ rest = rest' := by
  rw [writeBytes, writeBytes, List.append_assoc, List.append_assoc] at heq
  obtain ⟨-, hbody⟩ := List.append_inj heq (by simp)
  exact ActorId.encode_append_inj h h' hbody

theorem SubActorOp.Valid.actorId {op : SubActorOp} (h : op.Valid c) : op.actorId.Valid :=
  ⟨h.rootDid, h.index⟩

theorem SubActorOp.signedPayload_inj {op op' : SubActorOp} (h : op.actorId.Typed)
    (h' : op'.actorId.Typed) (hkey : op.controlKey.length = 32) (hkey' : op'.controlKey.length = 32)
    (heq : op.signedPayload = op'.signedPayload) :
    op.actorId = op'.actorId ∧ op.controlKey = op'.controlKey ∧
      op.operatingKey = op'.operatingKey := by
  rw [SubActorOp.signedPayload, SubActorOp.signedPayload] at heq
  simp only [List.append_assoc, List.append_cancel_left_eq] at heq
  obtain ⟨hid, hkeys⟩ := writeBytes_actorId_inj h h' heq
  exact ⟨hid, List.append_inj hkeys (hkey.trans hkey'.symm)⟩

theorem RebindOp.signedPayload_inj {op op' : RebindOp} (h : op.actorId.Typed)
    (h' : op'.actorId.Typed) {key key' : List UInt8} (hkey : key.length = 32)
    (hkey' : key'.length = 32) (heq : op.signedPayload key = op'.signedPayload key') :
    op.actorId = op'.actorId ∧ key = key' ∧ op.newOperatingKey = op'.newOperatingKey := by
  rw [RebindOp.signedPayload, RebindOp.signedPayload] at heq
  simp only [List.append_assoc, List.append_cancel_left_eq] at heq
  obtain ⟨hid, hkeys⟩ := writeBytes_actorId_inj h h' heq
  exact ⟨hid, List.append_inj hkeys (hkey.trans hkey'.symm)⟩

end Payloads

/-! ## Runs -/

/-- The state after the first transactions of a run. -/
def stateAfter (c : Crypto) (txs : List Transaction) (k : ℕ) : State :=
  (txs.take k).foldl (State.applyTransaction c) (.new c.sha)

/-- Whether an operation on identities is accepted. -/
def accepted (c : Crypto) (state : State) (tx : Transaction) : Bool :=
  match DecodedOp.decode c tx.payload with
  | .ok (.did op) => (didWrites c state op).isOk
  | .ok (.subActor op) => (subActorWrites c state op).isOk
  | .ok (.rebind op) => (rebindWrites c state op).isOk
  | _ => false

/-- The signed payload and the signature that an update or deactivation of a document, a mint or a
rebind carries in a state. A rebind is signed for the operating key it finds there. -/
def authorization (c : Crypto) (state : State) (tx : Transaction) :
    Option (List UInt8 × Signature) :=
  match DecodedOp.decode c tx.payload with
  | .ok (.did op) => if op.isCreation then none else some (op.signedPayload, op.signature)
  | .ok (.subActor op) => some (op.signedPayload, op.signature)
  | .ok (.rebind op) => (storedSub c state op.actorId).map fun actor =>
      (op.signedPayload actor.operatingKey, op.authorizingSignature)
  | _ => none

/-- The operation at this place of a run brings back no document and no operating key that was
replaced before. -/
def NoRestore (c : Crypto) (txs : List Transaction) (k : ℕ) (tx : Transaction) : Prop :=
  match DecodedOp.decode c tx.payload with
  | .ok (.did op) => ∀ i < k, storedDocument c (stateAfter c txs i) op.id = some op.document →
      storedDocument c (stateAfter c txs k) op.id = some op.document
  | .ok (.rebind op) => ∀ i < k,
      (storedSub c (stateAfter c txs i) op.actorId).map SubActor.operatingKey =
        some op.newOperatingKey →
      (storedSub c (stateAfter c txs k) op.actorId).map SubActor.operatingKey =
        some op.newOperatingKey
  | _ => True

instance (c : Crypto) (txs : List Transaction) (k : ℕ) (tx : Transaction) :
    Decidable (NoRestore c txs k tx) :=
  match h : DecodedOp.decode c tx.payload with
  | .ok (.did op) => decidable_of_iff
      (∀ i < k, storedDocument c (stateAfter c txs i) op.id = some op.document →
        storedDocument c (stateAfter c txs k) op.id = some op.document) (by rw [NoRestore, h])
  | .ok (.rebind op) => decidable_of_iff
      (∀ i < k, (storedSub c (stateAfter c txs i) op.actorId).map SubActor.operatingKey =
          some op.newOperatingKey →
        (storedSub c (stateAfter c txs k) op.actorId).map SubActor.operatingKey =
          some op.newOperatingKey) (by rw [NoRestore, h])
  | .ok (.kv _) => .isTrue (by rw [NoRestore, h]; trivial)
  | .ok (.membership _) => .isTrue (by rw [NoRestore, h]; trivial)
  | .ok (.subActor _) => .isTrue (by rw [NoRestore, h]; trivial)
  | .error _ => .isTrue (by rw [NoRestore, h]; trivial)

section Runs

variable {c : Crypto} {txs : List Transaction}

theorem stateAfter_succ {k : ℕ} {tx : Transaction} (h : txs[k]? = some tx) :
    stateAfter c txs (k + 1) = (stateAfter c txs k).applyTransaction c tx := by
  rw [stateAfter, List.take_add_one, h, List.foldl_append]
  rfl

/-- The records of every state of a run agree with each other. -/
theorem kept_stateAfter (c : Crypto) (txs : List Transaction) (k : ℕ) :
    ∃ log, Kept c (fun _ _ => True) log (stateAfter c txs k) :=
  ⟨_, Kept.run (CommitRule.trivial c) (Kept.new c _) fun _ _ => Set.mem_univ _⟩

/-- A reserved key that holds something keeps holding something. -/
theorem State.isSome_get_applyTransaction {state : State} (tx : Transaction) {key : List UInt8}
    (hkey : Reserved key) (h : (state.get key).isSome) :
    ((state.applyTransaction c tx).get key).isSome := by
  rcases State.applyTransaction_cases c state tx with
    ⟨op, entries, -, -, hstate, -⟩ | ⟨hget, -⟩
  · rw [hstate]
    clear hstate
    induction entries generalizing state with
    | nil => exact h
    | cons entry entries ih =>
      refine ih ?_
      rw [State.store, State.get_apply_put]
      split
      · rfl
      · exact h
  · rw [hget key hkey]
    exact h

theorem isSome_get_stateAfter {key : List UInt8} (hkey : Reserved key) {k k' : ℕ} (hle : k ≤ k')
    (h : ((stateAfter c txs k).get key).isSome) : ((stateAfter c txs k').get key).isSome := by
  induction k', hle using Nat.le_induction with
  | base => exact h
  | succ n _ ih =>
    cases htx : txs[n]? with
    | none =>
      have hlen : txs.length ≤ n := List.getElem?_eq_none_iff.mp htx
      rw [stateAfter, List.take_of_length_le hlen] at ih
      rw [stateAfter, List.take_of_length_le (hlen.trans (Nat.le_succ n))]
      exact ih
    | some tx =>
      rw [stateAfter_succ htx]
      exact State.isSome_get_applyTransaction tx hkey ih

/-- Storing a record again that is there. -/
theorem State.Has.kv_store {state : State} {entry : Entry} (h : state.Has c entry) :
    (state.store c entry).kv = state.kv := by
  refine ExtTreeMap.ext_getElem? fun key => ?_
  have hget : (state.store c entry).get key = state.get key := by
    rw [State.store, State.get_apply_put]
    split
    · rename_i hkey
      rw [← hkey, h.get]
    · rfl
  exact hget

end Runs

/-! ## Repeated operations -/

/-- The two operations change the same identity or actor to the same thing. -/
def DecodedOp.Repeats : DecodedOp → DecodedOp → Prop
  | did op, did op' => op.id = op'.id ∧ op.document = op'.document
  | subActor op, subActor op' => op.actorId = op'.actorId
  | rebind op, rebind op' =>
    op.actorId = op'.actorId ∧ op.newOperatingKey = op'.newOperatingKey
  | _, _ => False

section Repeats

variable {c : Crypto} {state state' : State} {tx tx' : Transaction} {op op' : DecodedOp}
  {entries : List Entry}

theorem Change.repeats_self (h : Change c state op entries) : op.Repeats op := by
  cases h with
  | create => exact ⟨rfl, rfl⟩
  | update => exact ⟨rfl, rfl⟩
  | deactivate => exact ⟨rfl, rfl⟩
  | mint => exact rfl
  | rebind => exact ⟨rfl, rfl⟩

/-- The three kinds of operation that carry an authorization. -/
theorem authorization_cases {payload : List UInt8} {signature : Signature}
    (h : authorization c state tx = some (payload, signature)) :
    (∃ op, DecodedOp.decode c tx.payload = .ok (.did op) ∧ payload = op.signedPayload) ∨
    (∃ op, DecodedOp.decode c tx.payload = .ok (.subActor op) ∧ payload = op.signedPayload) ∨
    ∃ op key, DecodedOp.decode c tx.payload = .ok (.rebind op) ∧ key.length = 32 ∧
      payload = op.signedPayload key := by
  rw [authorization] at h
  split at h
  · rename_i op hdecode
    split at h
    · cases h
    · exact .inl ⟨op, hdecode, (Prod.mk.inj (Option.some.inj h)).1.symm⟩
  · rename_i op hdecode
    exact .inr (.inl ⟨op, hdecode, (Prod.mk.inj (Option.some.inj h)).1.symm⟩)
  · rename_i op hdecode
    obtain ⟨actor, hactor, hpair⟩ := Option.map_eq_some_iff.mp h
    obtain ⟨value, -, hstored⟩ := Option.bind_eq_some_iff.mp hactor
    have hvalid := decodeAll_ensures SubActor.decode_ensures hstored
    exact .inr (.inr ⟨op, actor.operatingKey, hdecode, hvalid.operatingKey.length,
      (Prod.mk.inj hpair).1.symm⟩)
  · cases h

/-- Operations with the same authorization repeat each other. -/
theorem repeats_of_authorization (hdecode : DecodedOp.decode c tx.payload = .ok op)
    {pair : List UInt8 × Signature} (h : authorization c state tx = some pair)
    (h' : authorization c state' tx' = some pair) :
    ∃ op', DecodedOp.decode c tx'.payload = .ok op' ∧ op.Repeats op' := by
  obtain ⟨payload, signature⟩ := pair
  have hbytes : ∀ {x y : UInt8}, payload[6]? = some x → payload[6]? = some y → x = y :=
    fun hx hy => Option.some.inj (hx.symm.trans hy)
  rcases authorization_cases h with ⟨op₁, hop, heq⟩ | ⟨op₁, hop, heq⟩ | ⟨op₁, key, hop, hlen, heq⟩ <;>
    rcases authorization_cases h' with
      ⟨op₂, hop', heq'⟩ | ⟨op₂, hop', heq'⟩ | ⟨op₂, key', hop', hlen', heq'⟩ <;>
    obtain rfl := Except.ok.inj (hop.symm.trans hdecode)
  · exact ⟨_, hop', DidOp.signedPayload_inj (DecodedOp.decode_valid hop)
      (DecodedOp.decode_valid hop') (heq.symm.trans heq')⟩
  · exact absurd (hbytes (heq ▸ op₁.signedPayload_byte) (heq' ▸ op₂.signedPayload_byte))
      (by decide)
  · exact absurd (hbytes (heq ▸ op₁.signedPayload_byte) (heq' ▸ op₂.signedPayload_byte key'))
      (by decide)
  · exact absurd (hbytes (heq ▸ op₁.signedPayload_byte) (heq' ▸ op₂.signedPayload_byte))
      (by decide)
  · have hvalid : op₁.Valid c := DecodedOp.decode_valid hop
    have hvalid' : op₂.Valid c := DecodedOp.decode_valid hop'
    exact ⟨_, hop', (SubActorOp.signedPayload_inj hvalid.actorId.typed hvalid'.actorId.typed
      hvalid.controlKey.length hvalid'.controlKey.length (heq.symm.trans heq')).1⟩
  · exact absurd (hbytes (heq ▸ op₁.signedPayload_byte) (heq' ▸ op₂.signedPayload_byte key'))
      (by decide)
  · exact absurd (hbytes (heq ▸ op₁.signedPayload_byte key) (heq' ▸ op₂.signedPayload_byte))
      (by decide)
  · exact absurd (hbytes (heq ▸ op₁.signedPayload_byte key) (heq' ▸ op₂.signedPayload_byte))
      (by decide)
  · have hvalid : op₁.Valid c := DecodedOp.decode_valid hop
    have hvalid' : op₂.Valid c := DecodedOp.decode_valid hop'
    obtain ⟨hid, -, hkey⟩ := RebindOp.signedPayload_inj hvalid.actorId.typed hvalid'.actorId.typed
      hlen hlen' (heq.symm.trans heq')
    exact ⟨_, hop', hid, hkey⟩

theorem State.applyTransaction_of_accepted (h : accepted c state tx = true) :
    ∃ op entries, DecodedOp.decode c tx.payload = .ok op ∧ Change c state op entries ∧
      state.applyTransaction c tx = entries.foldl (State.store c) state := by
  rw [accepted] at h
  rw [State.applyTransaction]
  cases hdecode : DecodedOp.decode c tx.payload with
  | error error => rw [hdecode] at h; cases h
  | ok op =>
    rw [hdecode] at h
    have hvalid := DecodedOp.decode_valid hdecode
    cases op with
    | kv op => cases h
    | membership op => cases h
    | did op =>
      dsimp only at h ⊢
      cases hwrites : didWrites c state op with
      | error error => rw [hwrites] at h; cases h
      | ok writes =>
        obtain ⟨entries, rfl, hchange⟩ := didWrites_change hvalid hwrites
        exact ⟨_, entries, rfl, hchange, State.applyWrites_map_write entries⟩
    | subActor op =>
      dsimp only at h ⊢
      cases hwrites : subActorWrites c state op with
      | error error => rw [hwrites] at h; cases h
      | ok writes =>
        obtain ⟨entries, rfl, hchange⟩ := subActorWrites_change hvalid hwrites
        exact ⟨_, entries, rfl, hchange, State.applyWrites_map_write entries⟩
    | rebind op =>
      dsimp only at h ⊢
      cases hwrites : rebindWrites c state op with
      | error error => rw [hwrites] at h; cases h
      | ok writes =>
        obtain ⟨entries, rfl, hchange⟩ := rebindWrites_change hvalid hwrites
        exact ⟨_, entries, rfl, hchange, State.applyWrites_map_write entries⟩

/-- A rejected operation on identities changes nothing. -/
theorem State.applyTransaction_of_rejected (h : accepted c state tx = false)
    (hdecode : DecodedOp.decode c tx.payload = .ok op') (hop : op.Repeats op') :
    state.applyTransaction c tx = state := by
  rw [accepted, hdecode] at h
  rw [State.applyTransaction, hdecode]
  cases op' with
  | kv op' => cases op <;> exact hop.elim
  | membership op' => rfl
  | did op' =>
    dsimp only at h ⊢
    cases hwrites : didWrites c state op' with
    | error error => rfl
    | ok writes => rw [hwrites] at h; cases h
  | subActor op' =>
    dsimp only at h ⊢
    cases hwrites : subActorWrites c state op' with
    | error error => rfl
    | ok writes => rw [hwrites] at h; cases h
  | rebind op' =>
    dsimp only at h ⊢
    cases hwrites : rebindWrites c state op' with
    | error error => rfl
    | ok writes => rw [hwrites] at h; cases h

end Repeats

/-! ## Operations that are done -/

/-- What the operation asks for is the case. -/
def DecodedOp.Done (c : Crypto) (state : State) : DecodedOp → Prop
  | did op => storedDocument c state op.id = some op.document
  | subActor op => (state.get (actorStateKey op.actorId)).isSome
  | rebind op => (storedSub c state op.actorId).map SubActor.operatingKey =
      some op.newOperatingKey
  | _ => False

section Done

variable {c : Crypto} {state : State} {op op' : DecodedOp} {entries : List Entry}
  {log : List SubActorOp}

theorem DecodedOp.Done.repeats (h : op.Done c state) (hop : op.Repeats op') :
    op'.Done c state := by
  cases op <;> cases op' <;> try exact hop.elim
  case did op op' =>
    rw [DecodedOp.Done, ← hop.1, ← hop.2]
    exact h
  case subActor op op' =>
    rw [DecodedOp.Done, ← show op.actorId = op'.actorId from hop]
    exact h
  case rebind op op' =>
    rw [DecodedOp.Done, ← hop.1, ← hop.2]
    exact h

/-- An accepted operation is done. -/
theorem Change.done (h : Change c state op entries) (hcanonical : state.Canonical c) :
    op.Done c (entries.foldl (State.store c) state) := by
  have hvalid := h.valid
  have hcanonical' := hcanonical.foldl_store hvalid
  cases h with
  | create hop hcreation hnew hactive =>
    rw [List.forall_mem_cons, List.forall_mem_singleton] at hvalid
    refine (storedDocument_eq_some_iff hcanonical' hop.id).mpr ?_
    exact (State.has_document_store_root hvalid.2).mpr
      ((State.has_document_store_document hvalid.1).mpr (.inl ⟨rfl, rfl⟩))
  | update hop hcreation hprior hpriorActive hactive hroot =>
    rw [List.forall_mem_cons, List.forall_mem_singleton] at hvalid
    refine (storedDocument_eq_some_iff hcanonical' hop.id).mpr ?_
    exact (State.has_document_store_root hvalid.2).mpr
      ((State.has_document_store_document hvalid.1).mpr (.inl ⟨rfl, rfl⟩))
  | deactivate hop hcreation hprior hpriorActive hinactive =>
    rw [List.forall_mem_singleton] at hvalid
    refine (storedDocument_eq_some_iff hcanonical' hop.id).mpr ?_
    exact (State.has_document_store_document hvalid).mpr (.inl ⟨rfl, rfl⟩)
  | mint hop hnew hdoc hroot hproofs =>
    rename_i op doc root
    rw [List.forall_mem_cons, List.forall_mem_singleton] at hvalid
    have hsub : (state.store c (.sub ⟨op.actorId, op.controlKey, op.operatingKey⟩)).Has c
        (.sub ⟨op.actorId, op.controlKey, op.operatingKey⟩) :=
      (State.has_sub_store_sub hvalid.1).mpr (.inl rfl)
    exact Option.isSome_iff_exists.mpr ⟨_, ((State.has_sub_store_root hvalid.2).mpr hsub).get⟩
  | rebind hop hid hactor =>
    rename_i op rootDid tag index actor
    rw [List.forall_mem_singleton] at hvalid
    have hhas : (state.store c (.sub ⟨op.actorId, actor.controlKey, op.newOperatingKey⟩)).Has c
        (.sub ⟨op.actorId, actor.controlKey, op.newOperatingKey⟩) :=
      (State.has_sub_store_sub hvalid).mpr (.inl rfl)
    have hactorId : (ActorId.sub rootDid tag index).Valid := hid ▸ hop.actorId
    have hstored := (storedSub_eq_some_iff hcanonical' hactorId).mpr ⟨hid, hhas⟩
    rw [← hid] at hstored
    exact congrArg (Option.map SubActor.operatingKey) hstored

/-- An operation that is done changes nothing when it is accepted again. -/
theorem DecodedOp.Done.kv_eq (hdone : op.Done c state) (h : Change c state op entries)
    (hkept : Kept c (fun _ _ => True) log state) :
    (entries.foldl (State.store c) state).kv = state.kv := by
  cases h with
  | create hop hcreation hnew hactive =>
    rename_i op
    obtain ⟨value, hget, -⟩ := Option.bind_eq_some_iff.mp hdone
    rw [hnew] at hget
    cases hget
  | update hop hcreation hprior hpriorActive hactive hroot =>
    rename_i op prior root
    obtain rfl := Option.some.inj (hprior.symm.trans hdone)
    have hdoc := (storedDocument_eq_some_iff hkept.canonical hop.id).mp hdone
    obtain ⟨root', hid, hhas⟩ := (hkept.paired op.id).mp ⟨_, hdoc⟩
    have hstored := (storedRoot_eq_some_iff hkept.canonical hop.id).mpr ⟨hid, hhas⟩
    rw [hstored, Option.getD_some] at hroot
    subst hroot
    have hkey := hkept.control root _ hhas (hid ▸ hdoc) hactive
    -- The root actor that is written is the one that is there.
    have hsame : (⟨op.id, root.merkleRoot, root.leafCount, op.document.controlKey⟩ : RootActor) =
        root := by
      rw [hkey, ← hid]
    have hroot' : (state.store c (.document op.id op.document)).Has c (.root root) :=
      (State.has_root_store_document hdoc.valid).mpr hhas
    rw [hsame, List.foldl_cons, List.foldl_cons, List.foldl_nil, hroot'.kv_store, hdoc.kv_store]
  | deactivate hop hcreation hprior hpriorActive hinactive =>
    obtain rfl := Option.some.inj (hprior.symm.trans hdone)
    rw [hpriorActive] at hinactive
    cases hinactive
  | mint hop hnew hdoc hroot hproofs =>
    rename_i op doc root
    have hsome : (state.get (actorStateKey op.actorId)).isSome := hdone
    rw [hnew] at hsome
    cases hsome
  | rebind hop hid hactor =>
    rename_i op rootDid tag index actor
    have hkey : (storedSub c state op.actorId).map SubActor.operatingKey =
        some op.newOperatingKey := hdone
    rw [hactor, Option.map_some, Option.some.injEq] at hkey
    rw [hid] at hactor
    have hactorId : (ActorId.sub rootDid tag index).Valid := hid ▸ hop.actorId
    obtain ⟨hsame, hhas⟩ := (storedSub_eq_some_iff hkept.canonical hactorId).mp hactor
    rw [← hkey, hid, ← hsame]
    exact hhas.kv_store

/-- What was done stays done until the place of a repetition, if that brings nothing back. -/
theorem DecodedOp.Done.of_noRestore {txs : List Transaction} {tx : Transaction} {k j : ℕ}
    (hdecode : DecodedOp.decode c tx.payload = .ok op) (hrestore : NoRestore c txs j tx)
    (hle : k ≤ j) (h : op.Done c (stateAfter c txs k)) : op.Done c (stateAfter c txs j) := by
  rw [NoRestore, hdecode] at hrestore
  rcases Nat.eq_or_lt_of_le hle with rfl | hlt
  · exact h
  · cases op with
    | kv op => exact h.elim
    | membership op => exact h.elim
    | did op => exact hrestore k hlt h
    | subActor op => exact isSome_get_stateAfter (.inr rfl) hle h
    | rebind op => exact hrestore k hlt h

end Done

/-- The identity of the runs below. -/
def rotatedId : DidId := ⟨[0x6D], [0x61], beBytes 16 7⟩

/-- A document with one key for everything. -/
def oneKeyDocument (n : ℕ) : DidDocument := ⟨beBytes 32 n, [.signing (beBytes 32 n)], false⟩

/-- The signed change of the identity to a document. -/
def rotation (n signature : ℕ) (isCreation : Bool) : DidOp :=
  ⟨rotatedId, oneKeyDocument n, .ofBytes (beBytes 64 signature), 0, isCreation⟩

/-- Three signatures were made: with key 1 for the documents with keys 1 and 2, and with key 2 for
the document with key 1. No other signature is valid. -/
def threeSignatures : Crypto where
  sha := lastBytes.sha
  validKey _ := true
  verify key message signature :=
    [(beBytes 32 1, (rotation 1 101 true).signedPayload, (rotation 1 101 true).signature),
      (beBytes 32 1, (rotation 2 102 false).signedPayload, (rotation 2 102 false).signature),
      (beBytes 32 2, (rotation 1 103 false).signedPayload, (rotation 1 103 false).signature)].contains
      (key, message, signature)
  verifyPop _ _ := true

/-- The identity is created, changed and changed back; then the first change is submitted again. -/
def rotated : List Transaction :=
  [⟨0x03 :: (rotation 1 101 true).encode⟩, ⟨0x03 :: (rotation 2 102 false).encode⟩,
    ⟨0x03 :: (rotation 1 103 false).encode⟩, ⟨0x03 :: (rotation 2 102 false).encode⟩]

end JKain
