import JKain.Executor.Records
import JKain.Executor.MerkleLog

/-!
# The invariant of the identity records

From the empty state on, whatever payloads are executed, the reserved keys hold decodable records,
documents and root actors come in pairs with the same control key, and a root actor's commitment is
the RFC 6962 root of its sub-actors in the order in which they were minted. That order is not in the
state; `mints` reads it off the run.
-/

namespace JKain

open Std Lib

/-! ## The entries after a change -/

section Store

variable {c : Crypto} {state : State}

theorem State.Canonical.foldl_store {entries : List Entry} (h : state.Canonical c)
    (hvalid : ∀ e ∈ entries, e.Valid c) : (entries.foldl (State.store c) state).Canonical c := by
  induction entries generalizing state with
  | nil => exact h
  | cons e entries ih =>
    rw [List.forall_mem_cons] at hvalid
    exact ih (h.store hvalid.1) hvalid.2

/-- What a state has depends on its reserved keys only. -/
theorem State.Has.congr {state' : State} {e : Entry}
    (hget : ∀ key, Reserved key → state'.get key = state.get key) (h : state.Has c e) :
    state'.Has c e :=
  ⟨h.valid, (hget _ e.slot.reserved).trans h.get⟩

end Store

/-! ## The invariant -/

/-- The mints under an identity, in order. -/
def mintsUnder (id : DidId) (log : List SubActorOp) : List SubActorOp :=
  log.filter (·.rootDid = id)

/-- The leaf of a mint. -/
def SubActorOp.leaf (sha : Sha256) (op : SubActorOp) : Digest :=
  subactorLeafHash sha op.actorId op.controlKey

/-- The strings hashed to check the two proofs of a mint. -/
def mintInputs (c : Crypto) (state : State) (op : SubActorOp) : List (List UInt8) :=
  match storedRoot c state op.rootDid with
  | none => []
  | some root =>
    verifyConsistencyInputs c.sha root.merkleRoot op.consistencyProof ++
      verifyInclusionInputs c.sha (op.leaf c.sha) op.inclusionProof

/-- A root actor commits to a list of mints, and the strings hashed for the commitment are among
`T`. -/
structure RootActor.Commits (sha : Sha256) (T : Set (List UInt8)) (root : RootActor)
    (ops : List SubActorOp) : Prop where
  leafCount : root.leafCount = ops.length
  merkleRoot : root.merkleRoot = mth sha (ops.map (SubActorOp.leaf sha))
  inputs : ∀ bytes ∈ mthInputs sha (ops.map (SubActorOp.leaf sha)), bytes ∈ T

/-- The records of a state agree with each other and with the mints so far. `R` relates a root
actor's commitment to the mints under its identity. -/
structure Kept (c : Crypto) (R : RootActor → List SubActorOp → Prop) (log : List SubActorOp)
    (state : State) : Prop where
  canonical : state.Canonical c
  paired : ∀ id, (∃ doc, state.Has c (.document id doc)) ↔
    ∃ root : RootActor, root.didId = id ∧ state.Has c (.root root)
  control : ∀ root doc, state.Has c (.root root) → state.Has c (.document root.didId doc) →
    doc.deactivated = false → doc.controlKey = root.controlKey
  distinct : (log.map SubActorOp.actorId).Nodup
  stored : ∀ op ∈ log, ∃ key, state.Has c (.sub ⟨op.actorId, op.controlKey, key⟩)
  rooted : ∀ op ∈ log, ∃ root : RootActor, root.didId = op.rootDid ∧ state.Has c (.root root)
  complete : ∀ actor, state.Has c (.sub actor) → ∃ op ∈ log, op.actorId = actor.actorId
  commits : ∀ root, state.Has c (.root root) →
    R root (mintsUnder root.didId log)

namespace Kept

variable {c : Crypto} {R : RootActor → List SubActorOp → Prop} {log : List SubActorOp}
  {state : State}

theorem new (c : Crypto) (R : RootActor → List SubActorOp → Prop) : Kept c R [] (State.new c.sha) := by
  have hget : ∀ key, (State.new c.sha).get key = none := fun key => ExtTreeMap.getElem?_empty
  have hhas : ∀ e, ¬(State.new c.sha).Has c e := by
    intro e h
    have hstored := h.get
    rw [hget] at hstored
    cases hstored
  exact {
    canonical := fun key value _ h => absurd h (by simp [hget])
    paired := fun id => ⟨fun ⟨_, h⟩ => (hhas _ h).elim, fun ⟨_, _, h⟩ => (hhas _ h).elim⟩
    control := fun root doc h => (hhas _ h).elim
    distinct := List.nodup_nil
    stored := fun op hop => absurd hop List.not_mem_nil
    rooted := fun op hop => absurd hop List.not_mem_nil
    complete := fun actor h => (hhas _ h).elim
    commits := fun root h => (hhas _ h).elim }

/-- The invariant is about the reserved keys. -/
theorem congr {state' : State} (h : Kept c R log state)
    (hget : ∀ key, Reserved key → state'.get key = state.get key) : Kept c R log state' := by
  have hfrom : ∀ {e}, state'.Has c e → state.Has c e :=
    State.Has.congr fun key hkey => (hget key hkey).symm
  have hto : ∀ {e}, state.Has c e → state'.Has c e := State.Has.congr hget
  exact {
    canonical := fun key value hkey hvalue => by
      obtain ⟨entry, hhas, heq⟩ := h.canonical key value hkey ((hget key hkey).symm.trans hvalue)
      exact ⟨entry, hto hhas, heq⟩
    paired := fun id => by
      constructor
      · rintro ⟨doc, hdoc⟩
        obtain ⟨root, hid, hroot⟩ := (h.paired id).mp ⟨doc, hfrom hdoc⟩
        exact ⟨root, hid, hto hroot⟩
      · rintro ⟨root, hid, hroot⟩
        obtain ⟨doc, hdoc⟩ := (h.paired id).mpr ⟨root, hid, hfrom hroot⟩
        exact ⟨doc, hto hdoc⟩
    control := fun root doc hroot hdoc => h.control root doc (hfrom hroot) (hfrom hdoc)
    distinct := h.distinct
    stored := fun op hop => (h.stored op hop).imp fun _ => hto
    rooted := fun op hop => (h.rooted op hop).imp fun _ => And.imp_right hto
    complete := fun actor hactor => h.complete actor (hfrom hactor)
    commits := fun root hroot => h.commits root (hfrom hroot) }

/-- Storing a document with a root actor that has its control key and commits to the mints so
far. -/
theorem identity (h : Kept c R log state) {doc : DidDocument} {root : RootActor}
    (hdoc : (Entry.document root.didId doc).Valid c) (hroot : (Entry.root root).Valid c)
    (hkey : doc.controlKey = root.controlKey)
    (hcommits : R root (mintsUnder root.didId log)) :
    Kept c R log ((state.store c (.document root.didId doc)).store c (.root root)) := by
  have hdocs : ∀ {id' doc'}, ((state.store c (.document root.didId doc)).store c (.root root)).Has c
      (.document id' doc') ↔ (id' = root.didId ∧ doc' = doc) ∨
        (id' ≠ root.didId ∧ state.Has c (.document id' doc')) := by
    intro id' doc'
    rw [State.has_document_store_root hroot, State.has_document_store_document hdoc]
  have hroots : ∀ {root'}, ((state.store c (.document root.didId doc)).store c (.root root)).Has c
      (.root root') ↔ root' = root ∨ (root'.didId ≠ root.didId ∧ state.Has c (.root root')) := by
    intro root'
    rw [State.has_root_store_root hroot, State.has_root_store_document hdoc]
  have hsubs : ∀ {actor}, ((state.store c (.document root.didId doc)).store c (.root root)).Has c
      (.sub actor) ↔ state.Has c (.sub actor) := by
    intro actor
    rw [State.has_sub_store_root hroot, State.has_sub_store_document hdoc]
  have hcanonical := (h.canonical.store hdoc).store hroot
  generalize (state.store c (.document root.didId doc)).store c (.root root) = state' at *
  have hmine : state'.Has c (.root root) := hroots.mpr (.inl rfl)
  -- A root actor that was there is still there, or this one took its place.
  have hrooted : ∀ root', state.Has c (.root root') →
      ∃ root'' : RootActor, root''.didId = root'.didId ∧ state'.Has c (.root root'') := by
    intro root' hold
    by_cases hid : root'.didId = root.didId
    · exact ⟨root, hid.symm, hmine⟩
    · exact ⟨root', rfl, hroots.mpr (.inr ⟨hid, hold⟩)⟩
  exact {
    canonical := hcanonical
    paired := fun id => by
      by_cases hid : id = root.didId
      · subst hid
        exact iff_of_true ⟨doc, hdocs.mpr (.inl ⟨rfl, rfl⟩)⟩ ⟨root, rfl, hmine⟩
      · constructor
        · rintro ⟨doc', hdoc'⟩
          rcases hdocs.mp hdoc' with ⟨heq, -⟩ | ⟨-, hold⟩
          · exact absurd heq hid
          · obtain ⟨root', rfl, hold'⟩ := (h.paired id).mp ⟨doc', hold⟩
            exact ⟨root', rfl, hroots.mpr (.inr ⟨hid, hold'⟩)⟩
        · rintro ⟨root', rfl, hroot'⟩
          rcases hroots.mp hroot' with heq | ⟨-, hold⟩
          · exact absurd (congrArg RootActor.didId heq) hid
          · obtain ⟨doc', hold'⟩ := (h.paired root'.didId).mpr ⟨root', rfl, hold⟩
            exact ⟨doc', hdocs.mpr (.inr ⟨hid, hold'⟩)⟩
    control := fun root' doc' hroot' hdoc' hactive => by
      rcases hroots.mp hroot' with rfl | ⟨hid, hold⟩
      · rcases hdocs.mp hdoc' with ⟨-, rfl⟩ | ⟨hne, -⟩
        · exact hkey
        · exact absurd rfl hne
      · rcases hdocs.mp hdoc' with ⟨heq, -⟩ | ⟨-, hold'⟩
        · exact absurd heq hid
        · exact h.control root' doc' hold hold' hactive
    distinct := h.distinct
    stored := fun op hop => (h.stored op hop).imp fun _ => hsubs.mpr
    rooted := fun op hop => by
      obtain ⟨root', hid, hold⟩ := h.rooted op hop
      exact hid ▸ hrooted root' hold
    complete := fun actor hactor => h.complete actor (hsubs.mp hactor)
    commits := fun root' hroot' => by
      rcases hroots.mp hroot' with rfl | ⟨-, hold⟩
      · exact hcommits
      · exact h.commits root' hold }

/-- Storing a deactivated document for an identity that has one. -/
theorem deactivated (h : Kept c R log state) {id : DidId} {doc prior : DidDocument}
    (hdoc : (Entry.document id doc).Valid c) (hprior : state.Has c (.document id prior))
    (hinactive : doc.deactivated = true) : Kept c R log (state.store c (.document id doc)) := by
  have hdocs : ∀ {id' doc'}, (state.store c (.document id doc)).Has c (.document id' doc') ↔
      (id' = id ∧ doc' = doc) ∨ (id' ≠ id ∧ state.Has c (.document id' doc')) :=
    State.has_document_store_document hdoc
  have hroots : ∀ {root'}, (state.store c (.document id doc)).Has c (.root root') ↔
      state.Has c (.root root') := State.has_root_store_document hdoc
  have hsubs : ∀ {actor'}, (state.store c (.document id doc)).Has c (.sub actor') ↔
      state.Has c (.sub actor') := State.has_sub_store_document hdoc
  exact {
    canonical := h.canonical.store hdoc
    paired := fun id' => by
      simp only [hroots]
      rw [← h.paired id']
      by_cases hid : id' = id
      · subst hid
        exact iff_of_true ⟨doc, hdocs.mpr (.inl ⟨rfl, rfl⟩)⟩ ⟨prior, hprior⟩
      · simp only [hdocs, hid, false_and, ne_eq, not_false_eq_true, true_and, false_or]
    control := fun root' doc' hroot' hdoc' hactive => by
      rcases hdocs.mp hdoc' with ⟨-, rfl⟩ | ⟨-, hold⟩
      · rw [hinactive] at hactive
        cases hactive
      · exact h.control root' doc' (hroots.mp hroot') hold hactive
    distinct := h.distinct
    stored := fun op hop => (h.stored op hop).imp fun _ => hsubs.mpr
    rooted := fun op hop => (h.rooted op hop).imp fun _ => And.imp_right hroots.mpr
    complete := fun actor hactor => h.complete actor (hsubs.mp hactor)
    commits := fun root' hroot' => h.commits root' (hroots.mp hroot') }

/-- Storing another operating key for a sub-actor. -/
theorem rebound (h : Kept c R log state) {actor actor' : SubActor}
    (hactor : state.Has c (.sub actor)) (hvalid : (Entry.sub actor').Valid c)
    (hid : actor'.actorId = actor.actorId) (hkey : actor'.controlKey = actor.controlKey) :
    Kept c R log (state.store c (.sub actor')) := by
  have hdocs : ∀ {id doc}, (state.store c (.sub actor')).Has c (.document id doc) ↔
      state.Has c (.document id doc) := State.has_document_store_sub hvalid
  have hroots : ∀ {root}, (state.store c (.sub actor')).Has c (.root root) ↔
      state.Has c (.root root) := State.has_root_store_sub hvalid
  have hsubs : ∀ {a}, (state.store c (.sub actor')).Has c (.sub a) ↔
      a = actor' ∨ (a.actorId ≠ actor'.actorId ∧ state.Has c (.sub a)) :=
    State.has_sub_store_sub hvalid
  exact {
    canonical := h.canonical.store hvalid
    paired := fun id => by
      simp only [hdocs, hroots]
      exact h.paired id
    control := fun root doc hroot hdoc => h.control root doc (hroots.mp hroot) (hdocs.mp hdoc)
    distinct := h.distinct
    stored := fun op hop => by
      obtain ⟨key, hold⟩ := h.stored op hop
      by_cases hsame : op.actorId = actor'.actorId
      · have heq := Entry.sub.inj (hold.eq hactor (congrArg Slot.actor (hsame.trans hid)))
        refine ⟨actor'.operatingKey, hsubs.mpr (.inl ?_)⟩
        rw [hsame, show op.controlKey = actor'.controlKey by rw [hkey, ← heq]]
      · exact ⟨key, hsubs.mpr (.inr ⟨hsame, hold⟩)⟩
    rooted := fun op hop => (h.rooted op hop).imp fun _ => And.imp_right hroots.mpr
    complete := fun a ha => by
      rcases hsubs.mp ha with rfl | ⟨-, hold⟩
      · rw [hid]
        exact h.complete actor hactor
      · exact h.complete a hold
    commits := fun root hroot => h.commits root (hroots.mp hroot) }

theorem mintsUnder_append (id : DidId) (log : List SubActorOp) (op : SubActorOp) :
    mintsUnder id (log ++ [op]) =
      if op.rootDid = id then mintsUnder id log ++ [op] else mintsUnder id log := by
  rw [mintsUnder, List.filter_append, List.filter_singleton]
  by_cases hid : op.rootDid = id
  · simp [hid, mintsUnder]
  · simp [hid, mintsUnder]

/-- Storing a new sub-actor with a root actor that commits to it. -/
theorem mint (h : Kept c R log state) {op : SubActorOp} {root root' : RootActor}
    (hnew : state.get (actorStateKey op.actorId) = none)
    (hactor : (Entry.sub ⟨op.actorId, op.controlKey, op.operatingKey⟩).Valid c)
    (hroot : state.Has c (.root root)) (hroot' : (Entry.root root').Valid c)
    (hop : op.rootDid = root.didId) (hid : root'.didId = root.didId)
    (hkey : root'.controlKey = root.controlKey)
    (hcommits : R root' (mintsUnder root.didId log ++ [op])) :
    Kept c R (log ++ [op]) ((state.store c
      (.sub ⟨op.actorId, op.controlKey, op.operatingKey⟩)).store c (.root root')) := by
  have hdocs : ∀ {id doc}, ((state.store c (.sub ⟨op.actorId, op.controlKey,
      op.operatingKey⟩)).store c (.root root')).Has c (.document id doc) ↔
      state.Has c (.document id doc) := by
    intro id doc
    rw [State.has_document_store_root hroot', State.has_document_store_sub hactor]
  have hroots : ∀ {r}, ((state.store c (.sub ⟨op.actorId, op.controlKey,
      op.operatingKey⟩)).store c (.root root')).Has c (.root r) ↔
      r = root' ∨ (r.didId ≠ root'.didId ∧ state.Has c (.root r)) := by
    intro r
    rw [State.has_root_store_root hroot', State.has_root_store_sub hactor]
  have hsubs : ∀ {a}, ((state.store c (.sub ⟨op.actorId, op.controlKey,
      op.operatingKey⟩)).store c (.root root')).Has c (.sub a) ↔
      a = ⟨op.actorId, op.controlKey, op.operatingKey⟩ ∨
        (a.actorId ≠ op.actorId ∧ state.Has c (.sub a)) := by
    intro a
    rw [State.has_sub_store_root hroot', State.has_sub_store_sub hactor]
  have hcanonical := (h.canonical.store hactor).store hroot'
  generalize (state.store c (.sub ⟨op.actorId, op.controlKey, op.operatingKey⟩)).store c
    (.root root') = state' at *
  have hmine : state'.Has c (.root root') := hroots.mpr (.inl rfl)
  -- The slot was free, so no sub-actor there before is the new one.
  have hfresh : ∀ a, state.Has c (.sub a) → a.actorId ≠ op.actorId := by
    intro a ha heq
    have hget : state.get (actorStateKey a.actorId) = some a.encode := ha.get
    rw [heq, hnew] at hget
    cases hget
  have hrooted : ∀ r : RootActor, state.Has c (.root r) →
      ∃ r' : RootActor, r'.didId = r.didId ∧ state'.Has c (.root r') := by
    intro r hold
    by_cases hsame : r.didId = root'.didId
    · exact ⟨root', hsame.symm, hmine⟩
    · exact ⟨r, rfl, hroots.mpr (.inr ⟨hsame, hold⟩)⟩
  exact {
    canonical := hcanonical
    paired := fun id => by
      simp only [hdocs, h.paired id]
      constructor
      · rintro ⟨r, rfl, hold⟩
        exact hrooted r hold
      · rintro ⟨r, rfl, hr⟩
        rcases hroots.mp hr with rfl | ⟨-, hold⟩
        · exact ⟨root, hid.symm, hroot⟩
        · exact ⟨r, rfl, hold⟩
    control := fun r doc hr hdoc hactive => by
      rcases hroots.mp hr with rfl | ⟨-, hold⟩
      · rw [hkey]
        exact h.control root doc hroot (hid ▸ hdocs.mp hdoc) hactive
      · exact h.control r doc hold (hdocs.mp hdoc) hactive
    distinct := by
      rw [List.map_append, List.map_singleton, List.nodup_append]
      refine ⟨h.distinct, List.nodup_singleton _, fun id hmem id' hmem' heq => ?_⟩
      obtain ⟨op', hop', rfl⟩ := List.mem_map.mp hmem
      obtain ⟨key, hold⟩ := h.stored op' hop'
      exact hfresh _ hold (heq.trans (List.mem_singleton.mp hmem'))
    stored := fun op' hop' => by
      rcases List.mem_append.mp hop' with hop' | hop'
      · obtain ⟨key, hold⟩ := h.stored op' hop'
        exact ⟨key, hsubs.mpr (.inr ⟨hfresh _ hold, hold⟩)⟩
      · obtain rfl := List.mem_singleton.mp hop'
        exact ⟨op'.operatingKey, hsubs.mpr (.inl rfl)⟩
    rooted := fun op' hop' => by
      rcases List.mem_append.mp hop' with hop' | hop'
      · obtain ⟨r, hr, hold⟩ := h.rooted op' hop'
        exact hr ▸ hrooted r hold
      · obtain rfl := List.mem_singleton.mp hop'
        exact hop ▸ hrooted root hroot
    complete := fun a ha => by
      rcases hsubs.mp ha with rfl | ⟨-, hold⟩
      · exact ⟨op, List.mem_append_right _ List.mem_cons_self, rfl⟩
      · obtain ⟨op', hop', heq⟩ := h.complete a hold
        exact ⟨op', List.mem_append_left _ hop', heq⟩
    commits := fun r hr => by
      rw [mintsUnder_append]
      rcases hroots.mp hr with rfl | ⟨hne, hold⟩
      · rw [hid, if_pos hop]
        exact hcommits
      · rw [if_neg fun heq => hne (by rw [← heq, hop, hid])]
        exact h.commits r hold }

end Kept

/-- What the operations need of a relation between commitments and mints: it holds of a fresh root
actor, does not depend on the keys, and is kept by the checks of a mint whose hashed strings are
among `T`. -/
structure CommitRule (c : Crypto) (T : Set (List UInt8))
    (R : RootActor → List SubActorOp → Prop) : Prop where
  fresh : ∀ id key, R ⟨id, emptyRoot, 0, key⟩ []
  rekey : ∀ {root ops} id key, R root ops → R ⟨id, root.merkleRoot, root.leafCount, key⟩ ops
  mint : ∀ {root : RootActor} {ops : List SubActorOp} {op : SubActorOp}, op.Valid c → R root ops →
    checkSubActorProofs c op root = .ok () →
    (∀ bytes ∈ verifyConsistencyInputs c.sha root.merkleRoot op.consistencyProof, bytes ∈ T) →
    (∀ bytes ∈ verifyInclusionInputs c.sha (op.leaf c.sha) op.inclusionProof, bytes ∈ T) →
    R ⟨op.rootDid, op.newRoot, root.leafCount + 1, root.controlKey⟩ (ops ++ [op])

theorem CommitRule.trivial (c : Crypto) : CommitRule c Set.univ fun _ _ => True :=
  ⟨fun _ _ => True.intro, fun _ _ _ => True.intro, fun _ _ _ _ _ => True.intro⟩

section Commits

variable {c : Crypto} {T : Set (List UInt8)}

/-- What the checks of a mint's two proofs leave as the next commitment. -/
theorem RootActor.Commits.mint (hfree : Set.InjOn c.sha T) (hsha : ∀ bytes, c.sha bytes < 256 ^ 32)
    {ops : List SubActorOp} {op : SubActorOp} {root : RootActor} (hop : op.Valid c)
    (hroot : root.Commits c.sha T ops) (hproofs : checkSubActorProofs c op root = .ok ())
    (hconsistency : ∀ bytes ∈ verifyConsistencyInputs c.sha root.merkleRoot op.consistencyProof,
      bytes ∈ T)
    (hinclusion : ∀ bytes ∈ verifyInclusionInputs c.sha (op.leaf c.sha) op.inclusionProof,
      bytes ∈ T) :
    RootActor.Commits c.sha T ⟨op.rootDid, op.newRoot, root.leafCount + 1, root.controlKey⟩
      (ops ++ [op]) := by
  have hlength : (ops.map (SubActorOp.leaf c.sha)).length = root.leafCount := by
    rw [List.length_map, hroot.leafCount]
  have hleaves : ∀ leaf ∈ ops.map (SubActorOp.leaf c.sha), leaf < 256 ^ 32 := by
    intro leaf hleaf
    obtain ⟨op', -, rfl⟩ := List.mem_map.mp hleaf
    exact hsha _
  simp only [checkSubActorProofs] at hproofs
  split_ifs at hproofs with hnotIncluded hnotConsistent
  simp only [Bool.or_eq_true, decide_eq_true_eq, Bool.not_eq_true', not_or, not_not,
    Bool.not_eq_false] at hnotIncluded hnotConsistent
  obtain ⟨⟨hindex, hcount⟩, hincluded⟩ := hnotIncluded
  obtain ⟨⟨hold, hnew⟩, hconsistent⟩ := hnotConsistent
  rw [hroot.merkleRoot] at hconsistent hconsistency
  obtain ⟨hmth, hinputs⟩ := newRoot_eq_mth hfree hsha (hsha _) hleaves hroot.inputs
    hop.consistencyNodes hop.inclusionNodes (by rw [hindex, hlength]) (by rw [hcount, hlength])
    hincluded (by rw [hold, hlength]) (by rw [hnew, hlength]) hconsistent hconsistency hinclusion
  refine ⟨?_, ?_, ?_⟩
  · rw [List.length_append, List.length_singleton, ← hroot.leafCount]
  · rw [List.map_append, List.map_singleton]
    exact hmth
  · rw [List.map_append, List.map_singleton]
    exact hinputs

/-- The commitments that RFC 6962 asks for follow the rule if no hashed strings collide. -/
theorem RootActor.Commits.commitRule (hfree : Set.InjOn c.sha T)
    (hsha : ∀ bytes, c.sha bytes < 256 ^ 32) : CommitRule c T (RootActor.Commits c.sha T) where
  fresh := fun id key => by
    refine ⟨rfl, mth_nil.symm, ?_⟩
    rw [List.map_nil, mthInputs]
    exact fun bytes hbytes => absurd hbytes List.not_mem_nil
  rekey := fun id key h => ⟨h.leafCount, h.merkleRoot, h.inputs⟩
  mint := RootActor.Commits.mint hfree hsha

end Commits

namespace Kept

variable {c : Crypto} {T : Set (List UInt8)} {R : RootActor → List SubActorOp → Prop}
  {log : List SubActorOp} {state : State}

/-- An accepted operation keeps the invariant. -/
theorem change (h : Kept c R log state) (hR : CommitRule c T R) {op : DecodedOp} {entries : List Entry}
    (hchange : Change c state op entries)
    (hinputs : ∀ mint, op.mint? = some mint → ∀ bytes ∈ mintInputs c state mint, bytes ∈ T) :
    Kept c R (log ++ op.mint?.toList) (entries.foldl (State.store c) state) := by
  have hvalid := hchange.valid
  cases hchange with
  | create hop hcreation hnew hactive =>
    rename_i op
    rw [List.forall_mem_cons, List.forall_mem_singleton] at hvalid
    -- Nothing was minted under an identity that did not exist.
    have hnone : mintsUnder op.id log = [] := by
      rw [mintsUnder, List.filter_eq_nil_iff]
      intro mint hmint hid
      obtain ⟨root, hroot, hhas⟩ := h.rooted mint hmint
      obtain ⟨doc, hdoc⟩ := (h.paired op.id).mpr ⟨root, hroot.trans (of_decide_eq_true hid), hhas⟩
      have hget : state.get (didStateKey op.id) = some doc.encode := hdoc.get
      rw [hnew] at hget
      cases hget
    have hcommits : R ⟨op.id, emptyRoot, 0, op.document.controlKey⟩ (mintsUnder op.id log) := by
      rw [hnone]
      exact hR.fresh op.id op.document.controlKey
    have hkept := h.identity hvalid.1 hvalid.2 rfl hcommits
    simpa only [DecodedOp.mint?, Option.toList_none, List.append_nil, List.foldl_cons,
      List.foldl_nil] using hkept
  | update hop hcreation hprior hpriorActive hactive hroot =>
    rename_i op prior root
    rw [List.forall_mem_cons, List.forall_mem_singleton] at hvalid
    have hhas := (storedDocument_eq_some_iff h.canonical hop.id).mp hprior
    obtain ⟨root', hid, hhas'⟩ := (h.paired op.id).mp ⟨prior, hhas⟩
    have hstored := (storedRoot_eq_some_iff h.canonical hop.id).mpr ⟨hid, hhas'⟩
    rw [hstored, Option.getD_some] at hroot
    subst hroot
    have hcommits : R ⟨op.id, root.merkleRoot, root.leafCount, op.document.controlKey⟩
        (mintsUnder op.id log) := hid ▸ hR.rekey op.id op.document.controlKey (h.commits root hhas')
    have hkept := h.identity hvalid.1 hvalid.2 rfl hcommits
    simpa only [DecodedOp.mint?, Option.toList_none, List.append_nil, List.foldl_cons,
      List.foldl_nil] using hkept
  | deactivate hop hcreation hprior hpriorActive hinactive =>
    rw [List.forall_mem_singleton] at hvalid
    have hhas := (storedDocument_eq_some_iff h.canonical hop.id).mp hprior
    have hkept := h.deactivated hvalid hhas hinactive
    simpa only [DecodedOp.mint?, Option.toList_none, List.append_nil, List.foldl_cons,
      List.foldl_nil] using hkept
  | mint hop hnew hdoc hroot hproofs =>
    rename_i op doc root
    rw [List.forall_mem_cons, List.forall_mem_singleton] at hvalid
    obtain ⟨hid, hhas⟩ := (storedRoot_eq_some_iff h.canonical hop.rootDid).mp hroot
    have hin := hinputs op rfl
    simp only [mintInputs, hroot, List.mem_append] at hin
    have hcommits := hR.mint hop (h.commits root hhas) hproofs
      (fun bytes hbytes => hin bytes (.inl hbytes)) (fun bytes hbytes => hin bytes (.inr hbytes))
    exact h.mint hnew hvalid.1 hhas hvalid.2 hid.symm hid.symm rfl hcommits
  | rebind hop hid hactor =>
    rename_i op rootDid tag index actor
    rw [List.forall_mem_singleton] at hvalid
    have hactorId : (ActorId.sub rootDid tag index).Valid := hid ▸ hop.actorId
    rw [hid] at hactor
    obtain ⟨hsame, hhas⟩ := (storedSub_eq_some_iff h.canonical hactorId).mp hactor
    have hkept := h.rebound hhas hvalid (hid.trans hsame.symm) rfl
    simpa only [DecodedOp.mint?, Option.toList_none, List.append_nil, List.foldl_cons,
      List.foldl_nil] using hkept

/-- A transaction keeps the invariant. -/
theorem applyTransaction (h : Kept c R log state) (hR : CommitRule c T R) (tx : Transaction)
    (hinputs : ∀ mint, minted c state tx = some mint →
      ∀ bytes ∈ mintInputs c state mint, bytes ∈ T) :
    Kept c R (log ++ (minted c state tx).toList) (state.applyTransaction c tx) := by
  rcases State.applyTransaction_cases c state tx with
    ⟨op, entries, -, hchange, hstate, hmint⟩ | ⟨hget, hmint⟩
  · rw [hstate, hmint]
    exact h.change hR hchange fun mint hop => hinputs mint (hmint.trans hop)
  · rw [hmint, Option.toList_none, List.append_nil]
    exact h.congr hget

end Kept

/-! ## Runs -/

/-- The mints of a run, in order. -/
def mints (c : Crypto) : State → List Transaction → List SubActorOp
  | _, [] => []
  | state, tx :: txs => (minted c state tx).toList ++ mints c (state.applyTransaction c tx) txs

/-- The strings hashed for the proofs of the mints of a run. -/
def hashedInputs (c : Crypto) : State → List Transaction → List (List UInt8)
  | _, [] => []
  | state, tx :: txs =>
    (minted c state tx).toList.flatMap (mintInputs c state) ++
      hashedInputs c (state.applyTransaction c tx) txs

theorem Kept.run {c : Crypto} {T : Set (List UInt8)} {R : RootActor → List SubActorOp → Prop}
    (hR : CommitRule c T R) {txs : List Transaction} {log : List SubActorOp}
    {state : State} (h : Kept c R log state)
    (hinputs : ∀ bytes ∈ hashedInputs c state txs, bytes ∈ T) :
    Kept c R (log ++ mints c state txs) (txs.foldl (State.applyTransaction c) state) := by
  induction txs generalizing log state with
  | nil =>
    rw [mints, List.append_nil]
    exact h
  | cons tx txs ih =>
    rw [mints, ← List.append_assoc]
    refine ih (h.applyTransaction hR tx fun mint hmint bytes hbytes => ?_)
      fun bytes hbytes => hinputs bytes (List.mem_append_right _ hbytes)
    refine hinputs bytes (List.mem_append_left _ ?_)
    rw [hmint]
    exact List.mem_flatMap.mpr ⟨mint, List.mem_cons_self, hbytes⟩

/-! ## The records of an identity's sub-actors -/

/-- Whether an actor is a sub-actor of the identity. -/
def ActorId.isUnder (id : DidId) : ActorId → Bool
  | root _ => false
  | sub rootDid _ _ => rootDid = id

/-- The leaf of a sub-actor's record. -/
def SubActor.leaf (sha : Sha256) (actor : SubActor) : Digest :=
  subactorLeafHash sha actor.actorId actor.controlKey

/-- The sub-actor records of the state that belong to an identity, by key. -/
def subActorsUnder (c : Crypto) (state : State) (id : DidId) : List SubActor :=
  state.kv.toList.filterMap fun (key, value) =>
    (decodeAll (SubActor.decode c) value).filter fun actor =>
      actorStateKey actor.actorId = key && actor.actorId.isUnder id

/-- The records of the sub-actors minted under an identity, in the order of the mints. -/
def mintedRecords (c : Crypto) (state : State) (id : DidId) (log : List SubActorOp) :
    List SubActor :=
  (mintsUnder id log).filterMap fun op => storedSub c state op.actorId

theorem mem_subActorsUnder {c : Crypto} {state : State} {id : DidId} {actor : SubActor} :
    actor ∈ subActorsUnder c state id ↔
      storedSub c state actor.actorId = some actor ∧ actor.actorId.isUnder id = true := by
  simp only [subActorsUnder, List.mem_filterMap, Option.filter_eq_some_iff, Bool.and_eq_true,
    decide_eq_true_eq, storedSub, Option.bind_eq_some_iff]
  constructor
  · rintro ⟨⟨key, value⟩, hmem, hdecode, rfl, hunder⟩
    exact ⟨⟨value, ExtTreeMap.mem_toList_iff_getElem?_eq_some.mp hmem, hdecode⟩, hunder⟩
  · rintro ⟨⟨value, hget, hdecode⟩, hunder⟩
    exact ⟨(actorStateKey actor.actorId, value),
      ExtTreeMap.mem_toList_iff_getElem?_eq_some.mpr hget, hdecode, rfl, hunder⟩

theorem nodup_subActorsUnder (c : Crypto) (state : State) (id : DidId) :
    (subActorsUnder c state id).Nodup := by
  refine List.Pairwise.filterMap _ ?_ (ExtTreeMap.distinct_keys_toList (t := state.kv))
  rintro ⟨key, value⟩ ⟨key', value'⟩ hne actor hactor actor' hactor' rfl
  simp only [Option.mem_def, Option.filter_eq_some_iff, Bool.and_eq_true,
    decide_eq_true_eq] at hactor hactor'
  exact hne (Std.compare_eq_iff_eq.mpr (hactor.2.1.symm.trans hactor'.2.1))

section Records

variable {c : Crypto} {R : RootActor → List SubActorOp → Prop} {log : List SubActorOp}
  {state : State}

theorem Kept.storedSub_mint (h : Kept c R log state) {op : SubActorOp} (hop : op ∈ log) :
    ∃ key, storedSub c state op.actorId = some ⟨op.actorId, op.controlKey, key⟩ := by
  obtain ⟨key, hhas⟩ := h.stored op hop
  exact ⟨key, (storedSub_eq_some_iff h.canonical (SubActor.Valid.actorId hhas.valid)).mpr
    ⟨rfl, hhas⟩⟩

theorem mem_mintsUnder {id : DidId} {op : SubActorOp} :
    op ∈ mintsUnder id log ↔ op ∈ log ∧ op.rootDid = id := by
  rw [mintsUnder, List.mem_filter, decide_eq_true_eq]

/-- The records are those of the mints, one for each, up to the operating key. -/
theorem Kept.map_mintedRecords {β : Type} (h : Kept c R log state) (id : DidId)
    {f : SubActor → β} {g : SubActorOp → β}
    (hfg : ∀ op key, f ⟨SubActorOp.actorId op, op.controlKey, key⟩ = g op) :
    (mintedRecords c state id log).map f = (mintsUnder id log).map g := by
  have hmap : ∀ op ∈ mintsUnder id log,
      (storedSub c state op.actorId).map f = some (g op) := by
    intro op hop
    obtain ⟨key, hstored⟩ := h.storedSub_mint (mem_mintsUnder.mp hop).1
    rw [hstored, Option.map_some, hfg]
  rw [mintedRecords, List.map_filterMap, List.filterMap_congr hmap]
  exact congrFun List.filterMap_eq_map _

theorem Kept.map_leaf_mintedRecords (h : Kept c R log state) (id : DidId) :
    (mintedRecords c state id log).map (SubActor.leaf c.sha) =
      (mintsUnder id log).map (SubActorOp.leaf c.sha) :=
  h.map_mintedRecords id fun _ _ => rfl

/-- A sub-actor that can be read was minted. -/
theorem Kept.exists_mint (h : Kept c R log state) {id : DidId} {actor : SubActor}
    (hactor : storedSub c state actor.actorId = some actor)
    (hunder : actor.actorId.isUnder id = true) :
    ∃ op ∈ mintsUnder id log, op.actorId = actor.actorId := by
  obtain ⟨value, -, hdecode⟩ := Option.bind_eq_some_iff.mp hactor
  have hvalid := (decodeAll_ensures SubActor.decode_ensures hdecode).actorId
  cases hid : actor.actorId with
  | root did =>
    rw [hid] at hunder
    cases hunder
  | sub rootDid tag index =>
    rw [hid] at hactor hvalid hunder
    obtain ⟨-, hhas⟩ := (storedSub_eq_some_iff h.canonical hvalid).mp hactor
    obtain ⟨op, hop, hsame⟩ := h.complete actor hhas
    have hroot := (ActorId.sub.inj (hsame.trans hid)).1
    exact ⟨op, mem_mintsUnder.mpr ⟨hop, hroot.trans (of_decide_eq_true hunder)⟩, hsame.trans hid⟩

/-- The records of the mints are the sub-actor records of the state. -/
theorem Kept.mintedRecords_perm (h : Kept c R log state) (id : DidId) :
    (mintedRecords c state id log).Perm (subActorsUnder c state id) := by
  have hids : (mintedRecords c state id log).map SubActor.actorId =
      (mintsUnder id log).map SubActorOp.actorId := h.map_mintedRecords id fun _ _ => rfl
  have hnodup : (mintedRecords c state id log).Nodup := by
    refine List.Nodup.of_map SubActor.actorId ?_
    rw [hids]
    exact h.distinct.sublist (List.filter_sublist.map _)
  refine (List.perm_ext_iff_of_nodup hnodup (nodup_subActorsUnder c state id)).mpr fun actor => ?_
  rw [mem_subActorsUnder, mintedRecords, List.mem_filterMap]
  constructor
  · rintro ⟨op, hop, hactor⟩
    obtain ⟨hlog, hid⟩ := mem_mintsUnder.mp hop
    obtain ⟨key, hstored⟩ := h.storedSub_mint hlog
    obtain rfl := Option.some.inj (hstored.symm.trans hactor)
    exact ⟨hactor, decide_eq_true hid⟩
  · rintro ⟨hactor, hunder⟩
    obtain ⟨op, hop, hid⟩ := h.exists_mint hactor hunder
    exact ⟨op, hop, hid ▸ hactor⟩

end Records

/-! ## The invariant in terms of the stored bytes -/

/-- What holds of the identity records of a state that was reached with the given mints. -/
structure IdentityInvariant (c : Crypto) (log : List SubActorOp) (state : State) : Prop where
  document : ∀ key value, state.get key = some value → key.head? = some 0xD1 →
    ∃ id doc, key = didStateKey id ∧ decodeAll (DidDocument.decode c) value = some doc
  actor : ∀ key value, state.get key = some value → key.head? = some 0xA1 →
    (∃ root, key = actorStateKey (.root root.didId) ∧
      decodeAll (RootActor.decode c) value = some root) ∨
    ∃ actor, key = actorStateKey actor.actorId ∧
      decodeAll (SubActor.decode c) value = some actor
  paired : ∀ id, state.contains (actorStateKey (.root id)) = state.contains (didStateKey id)
  controlKey : ∀ id doc root, storedDocument c state id = some doc →
    storedRoot c state id = some root → doc.deactivated = false →
    doc.controlKey = root.controlKey
  leafCount : ∀ id root, storedRoot c state id = some root →
    root.leafCount = (subActorsUnder c state root.didId).length
  minted : ∀ id root, storedRoot c state id = some root →
    (mintedRecords c state root.didId log).Perm (subActorsUnder c state root.didId)
  merkleRoot : ∀ id root, storedRoot c state id = some root →
    root.merkleRoot = mth c.sha
      ((mintedRecords c state root.didId log).map (SubActor.leaf c.sha))

section Stored

variable {c : Crypto} {R : RootActor → List SubActorOp → Prop} {log : List SubActorOp}
  {state : State}

/-- Under a document's key there is a document, whatever identifier the key was made from. -/
theorem State.Canonical.document_of_get (h : state.Canonical c) {id : DidId} {value : List UInt8}
    (hget : state.get (didStateKey id) = some value) :
    ∃ id' doc, id'.encode = id.encode ∧ value = doc.encode ∧ state.Has c (.document id' doc) := by
  obtain ⟨entry, hhas, hkey, rfl⟩ := h _ value (.inl rfl) hget
  cases entry with
  | document id' doc => exact ⟨id', doc, (List.cons.inj hkey).2, rfl, hhas⟩
  | root root => exact absurd (List.cons.inj hkey).1 (by decide)
  | sub actor => exact absurd (List.cons.inj hkey).1 (by decide)

/-- Under a root actor's key there is a root actor. -/
theorem State.Canonical.root_of_get (h : state.Canonical c) {id : DidId} {value : List UInt8}
    (hget : state.get (actorStateKey (.root id)) = some value) :
    ∃ root : RootActor, root.didId.encode = id.encode ∧ value = root.encode ∧
      state.Has c (.root root) := by
  obtain ⟨entry, hhas, hkey, rfl⟩ := h _ value (.inr rfl) hget
  cases entry with
  | document id' doc => exact absurd (List.cons.inj hkey).1 (by decide)
  | root root => exact ⟨root, (List.cons.inj (List.cons.inj hkey).2).2, rfl, hhas⟩
  | sub actor =>
    obtain ⟨rootDid, tag, index, hsub⟩ := SubActor.Valid.isSub hhas.valid
    rw [Entry.slot, hsub] at hkey
    exact absurd (List.cons.inj (List.cons.inj hkey).2).1 (by decide)

theorem Kept.has_of_storedRoot (h : Kept c R log state) {id : DidId} {root : RootActor}
    (hroot : storedRoot c state id = some root) :
    root.didId.encode = id.encode ∧ state.Has c (.root root) := by
  obtain ⟨value, hget, hdecode⟩ := Option.bind_eq_some_iff.mp hroot
  obtain ⟨root', hencode, rfl, hhas⟩ := h.canonical.root_of_get hget
  rw [decodeAll_of_reads (RootActor.decode_reads hhas.valid)] at hdecode
  obtain rfl := Option.some.inj hdecode
  exact ⟨hencode, hhas⟩

theorem Kept.contains_iff (h : Kept c R log state) (id : DidId) :
    state.contains (actorStateKey (.root id)) = state.contains (didStateKey id) := by
  rw [Bool.eq_iff_iff, State.contains, State.contains, Option.isSome_iff_exists,
    Option.isSome_iff_exists]
  constructor
  · rintro ⟨value, hget⟩
    obtain ⟨root, hencode, -, hhas⟩ := h.canonical.root_of_get hget
    obtain ⟨doc, hdoc⟩ := (h.paired root.didId).mpr ⟨root, rfl, hhas⟩
    have hdocGet : state.get (didStateKey root.didId) = some doc.encode := hdoc.get
    rw [didStateKey, hencode] at hdocGet
    exact ⟨_, hdocGet⟩
  · rintro ⟨value, hget⟩
    obtain ⟨id', doc, hencode, -, hhas⟩ := h.canonical.document_of_get hget
    obtain ⟨root, rfl, hroot⟩ := (h.paired id').mp ⟨doc, hhas⟩
    have hrootGet : state.get (actorStateKey (.root root.didId)) = some root.encode := hroot.get
    rw [actorStateKey, ActorId.encode, hencode] at hrootGet
    exact ⟨_, hrootGet⟩

/-- The invariant on records, read on the stored bytes. -/
theorem Kept.identityInvariant {T : Set (List UInt8)}
    (h : Kept c (RootActor.Commits c.sha T) log state) : IdentityInvariant c log state where
  document := fun key value hget hkey => by
    obtain ⟨entry, hhas, rfl, rfl⟩ := h.canonical key value (.inl hkey) hget
    cases entry with
    | document id doc =>
      exact ⟨id, doc, rfl, decodeAll_of_reads (DidDocument.decode_reads hhas.valid.2)⟩
    | root root => exact absurd (Option.some.inj hkey) (by decide)
    | sub actor => exact absurd (Option.some.inj hkey) (by decide)
  actor := fun key value hget hkey => by
    obtain ⟨entry, hhas, rfl, rfl⟩ := h.canonical key value (.inr hkey) hget
    cases entry with
    | document id doc => exact absurd (Option.some.inj hkey) (by decide)
    | root root =>
      exact .inl ⟨root, rfl, decodeAll_of_reads (RootActor.decode_reads hhas.valid)⟩
    | sub actor =>
      exact .inr ⟨actor, rfl, decodeAll_of_reads (SubActor.decode_reads hhas.valid)⟩
  paired := h.contains_iff
  controlKey := fun id doc root hdoc hroot hactive => by
    obtain ⟨hencode, hhas⟩ := h.has_of_storedRoot hroot
    rw [storedDocument, didStateKey, ← hencode] at hdoc
    have hid := RootActor.Valid.didId hhas.valid
    exact h.control root doc hhas ((storedDocument_eq_some_iff h.canonical hid).mp hdoc) hactive
  leafCount := fun id root hroot => by
    have hhas := (h.has_of_storedRoot hroot).2
    have hlengths := congrArg List.length (h.map_leaf_mintedRecords root.didId)
    rw [List.length_map, List.length_map] at hlengths
    rw [(h.commits root hhas).leafCount, ← hlengths]
    exact (h.mintedRecords_perm root.didId).length_eq
  minted := fun id root _ => h.mintedRecords_perm root.didId
  merkleRoot := fun id root hroot => by
    have hhas := (h.has_of_storedRoot hroot).2
    rw [(h.commits root hhas).merkleRoot, h.map_leaf_mintedRecords]

end Stored

/-- Whatever is executed from the empty state on, the identity records agree with each other and
with the mints of the run, if no two strings hashed for the proofs of the mints collide. -/
theorem identity_records_invariant {c : Crypto} (hsha : ∀ bytes, c.sha bytes < 256 ^ 32)
    {faults : State.WriteFaults} {events : List Event} {executor : Executor}
    (hrun : Executor.Executes c (.fromState (.new c.sha) faults) events executor)
    (hfree : Set.InjOn c.sha
      {bytes | bytes ∈ hashedInputs c (.new c.sha) (events.flatMap Event.payload)}) :
    IdentityInvariant c (mints c (.new c.sha) (events.flatMap Event.payload)) executor.state := by
  have hkept := Kept.run (RootActor.Commits.commitRule hfree hsha) (Kept.new c _)
    fun _ hbytes => hbytes
  rw [hrun.state_eq]
  exact hkept.identityInvariant

/-- A digest that keeps the last 32 bytes; every key and signature is valid. -/
def lastBytes : Crypto where
  sha bytes := fromBe bytes % 256 ^ 32
  validKey _ := true
  verify _ _ _ := true
  verifyPop _ _ := true

/-- An event that creates an identity and mints three sub-actors under it. -/
def threeMints : Event :=
  let id : DidId := ⟨[0x6D], [0x61], beBytes 16 7⟩
  let signature : Signature := ⟨fun _ => 0⟩
  let document : DidDocument := ⟨beBytes 32 1, [.signing (beBytes 32 2)], false⟩
  let mint := fun (index : ℕ) (newRoot : Digest) (old new : List Digest) =>
    SubActorOp.encode ⟨id, .game, index, beBytes 32 (10 + index), beBytes 32 (20 + index), newRoot,
      ⟨index, index + 1, old⟩, ⟨index, index + 1, new⟩, signature, 0⟩
  let leaf := fun index : ℕ =>
    subactorLeafHash lastBytes.sha (.sub id .game index) (beBytes 32 (10 + index))
  let two := nodeHash lastBytes.sha (leaf 0) (leaf 1)
  { creator := 0
    selfParent := none
    otherParent := none
    timestamp := 0
    payload :=
      [⟨0x03 :: DidOp.encode ⟨id, document, signature, 0, true⟩⟩,
        ⟨0x04 :: mint 0 (leaf 0) [] []⟩,
        ⟨0x04 :: mint 1 two [leaf 1] [leaf 0]⟩,
        ⟨0x04 :: mint 2 (nodeHash lastBytes.sha two (leaf 2)) [leaf 2] [two]⟩]
    signature }

theorem identity_records_invariant_three_mints :
    (mints lastBytes (.new lastBytes.sha) ([threeMints].flatMap Event.payload)).length = 3 ∧
      ∃ executor, Executor.Executes lastBytes (.fromState (.new lastBytes.sha) []) [threeMints]
          executor ∧
        IdentityInvariant lastBytes
          (mints lastBytes (.new lastBytes.sha) ([threeMints].flatMap Event.payload))
          executor.state := by
  have hsha : ∀ bytes, lastBytes.sha bytes < 256 ^ 32 := fun bytes =>
    Nat.mod_lt (fromBe bytes) (Nat.pow_pos (by decide))
  have hfree : ∀ a ∈ hashedInputs lastBytes (.new lastBytes.sha) ([threeMints].flatMap Event.payload),
      ∀ b ∈ hashedInputs lastBytes (.new lastBytes.sha) ([threeMints].flatMap Event.payload),
        lastBytes.sha a = lastBytes.sha b → a = b := by decide +kernel
  obtain ⟨executor, hrun⟩ := Executor.exists_executes lastBytes
    (.fromState (.new lastBytes.sha) []) rfl [threeMints]
  refine ⟨by decide +kernel, executor, hrun, ?_⟩
  exact identity_records_invariant hsha hrun fun a ha b hb => hfree a ha b hb

end JKain
