import JKain.Consensus.PruneSpec
import Mathlib.Data.Set.Basic

/-!
# Runs of a node

A run starts from an empty graph and takes insertions, new members and prunings in any order. An
operation that returns, with a value or with an error, leads to the next state; a panic ends the
run. `Sound` is what every state of a run satisfies, forks and dangling parents included. It rests
on one assumption about the hash function: the events of the run collide with no other.
-/

namespace JKain

open Std JKain.Lib

/-- No two events of `S` have the same hash. -/
def Hasher.CollisionFree (H : Hasher) (S : Set Event) : Prop :=
  ∀ e ∈ S, ∀ e' ∈ S, ∀ h, H e = .ok h → H e' = .ok h → e = e'

/-- The number of an event by the chain of its self-parents, all of them in `S`. -/
inductive Numbered (H : Hasher) (S : Set Event) : Event → ℕ → Prop
  | root {e : Event} : e ∈ S → e.selfParent = none → Numbered H S e 1
  | child {e p : Event} {h : EventHash} {n : ℕ} : e ∈ S → e.selfParent = some h → H p = .ok h →
      p.creator = e.creator → Numbered H S p n → Numbered H S e (n + 1)

namespace Numbered

variable {H : Hasher} {S : Set Event} {e : Event} {m n : ℕ}

theorem mem (h : Numbered H S e n) : e ∈ S := by
  cases h with
  | root he _ => exact he
  | child he _ _ _ _ => exact he

theorem unique (hfree : H.CollisionFree S) (h : Numbered H S e m) (h' : Numbered H S e n) :
    m = n := by
  induction h generalizing n with
  | root _ hself =>
    cases h' with
    | root _ _ => rfl
    | child _ hself' _ _ _ =>
      rw [hself] at hself'
      cases hself'
  | child _ hself hp _ hnum ih =>
    cases h' with
    | root _ hself' =>
      rw [hself] at hself'
      cases hself'
    | child _ hself' hp' _ hnum' =>
      rw [hself, Option.some.injEq] at hself'
      subst hself'
      obtain rfl := hfree _ hnum.mem _ hnum'.mem _ hp hp'
      rw [ih hnum']

end Numbered

namespace Hashgraph

/-! ## Runs -/

/-- The operation returned, with a value or with an error, and left the graph `g'`. -/
def Returned {α : Type} (m : HashgraphM α) (g g' : Hashgraph) : Prop :=
  (∃ a, m g = .ok a g') ∨ ∃ c, m g = .error (.err c) g'

section Returned

variable {α : Type} {m : HashgraphM α} {g t t' : Hashgraph}

theorem Returned.eq_of_ok {a : α} (h : Returned m g t) (hok : m g = .ok a t') : t = t' := by
  rcases h with ⟨b, hb⟩ | ⟨c, hc⟩
  · rw [hok] at hb
    cases hb
    rfl
  · rw [hok] at hc
    cases hc

theorem Returned.eq_of_err {c : ConsensusError} (h : Returned m g t)
    (herr : m g = .error (.err c) t') : t = t' := by
  rcases h with ⟨b, hb⟩ | ⟨c', hc'⟩
  · rw [herr] at hb
    cases hb
  · rw [herr] at hc'
    cases hc'
    rfl

end Returned

/-- An operation of a run. -/
inductive Op
  | insert (iter : IterOrder) (event : Event)
  | addMember (node : NodeId) (activationRound : ℕ) (registry : MembershipRegistry)
  | prune (threshold : ℕ)

/-- The operation is called as its contract asks: members are added once, and only ordered rounds
are pruned. -/
def Op.Admissible (g : Hashgraph) : Op → Prop
  | .insert _ _ => True
  | .addMember node _ _ => g.memberIndexOf node = none
  | .prune threshold => threshold < g.nextRoundToOrder

/-- The operation leads from `g` to `g'`. -/
def Op.Leads (H : Hasher) (g g' : Hashgraph) : Op → Prop
  | .insert iter event => Returned (Hashgraph.insert H iter event) g g'
  | .addMember node activationRound registry =>
    Returned (Hashgraph.addMember node activationRound registry) g g'
  | .prune threshold => Returned (pruneBeforeRound threshold) g g'

/-- The states of the runs from a registry whose operations satisfy `P` in the state before
them. -/
inductive Reached (H : Hasher) (P : Hashgraph → Op → Prop) (registry : MembershipRegistry) :
    Hashgraph → Prop
  | new : Reached H P registry (Hashgraph.new registry)
  | step {g g' : Hashgraph} {op : Op} : Reached H P registry g → op.Admissible g → P g op →
      op.Leads H g g' → Reached H P registry g'

/-- The inserted events are from `S`. -/
def Op.From (S : Set Event) : Op → Prop
  | .insert _ event => event ∈ S
  | _ => True

/-- The operation drops no event. -/
def Op.KeepsEvents : Op → Prop
  | .prune _ => False
  | _ => True

/-- The operation inserts an event of `S`: the registry is static and nothing is pruned. -/
def Op.Inserts (S : Set Event) : Op → Prop
  | .insert _ event => event ∈ S
  | _ => False

theorem Op.Inserts.from {S : Set Event} {op : Op} (h : op.Inserts S) : op.From S := by
  cases op with
  | insert _ _ => exact h
  | addMember _ _ _ => exact h.elim
  | prune _ => exact h.elim

theorem Op.Inserts.keepsEvents {S : Set Event} {op : Op} (h : op.Inserts S) : op.KeepsEvents := by
  cases op with
  | insert _ _ => trivial
  | addMember _ _ _ => trivial
  | prune _ => exact h

/-- No creator has two events with one self-parent, or two without. -/
def ForkFree (S : Set Event) : Prop :=
  ∀ e ∈ S, ∀ e' ∈ S, e.creator = e'.creator → e.selfParent = e'.selfParent → e = e'

theorem forkFree_of_pairwise {l : List Event}
    (h : l.Pairwise fun e e' => (e.creator, e.selfParent) ≠ (e'.creator, e'.selfParent)) :
    ForkFree {e | e ∈ l} := by
  intro e he e' he' hcreator hself
  by_contra hne
  have : Std.Symm fun e e' : Event =>
      (e.creator, e.selfParent) ≠ (e'.creator, e'.selfParent) := ⟨fun _ _ => Ne.symm⟩
  exact h.forall he he' hne (by rw [hcreator, hself])

/-- What every state of a run satisfies. -/
structure Sound (H : Hasher) (S : Set Event) (g : Hashgraph) : Prop where
  wf : g.WellFormed
  exact : g.UndecidedExact
  cast : g.VotesCast fun _ => False
  numbered : ∀ {x r}, g.get? x = some r → H r.event = .ok x ∧ Numbered H S r.event r.seq

section Insert

variable {H : Hasher} {S : Set Event} {g g' : Hashgraph} {hash : EventHash} {event : Event} {i : ℕ}

theorem Sound.numbered_new (hs : g.Sound H S) (hevent : event ∈ S) (hc : g.Checked hash event i) :
    Numbered H S event (g.newSeq event) := by
  cases hself : event.selfParent with
  | none =>
    have hseq : g.newSeq event = 1 := by simp [newSeq, selfRecord, hself]
    rw [hseq]
    exact .root hevent hself
  | some p =>
    obtain ⟨rp, hrp⟩ := Option.isSome_iff_exists.mp
      (hc.parents p (Event.mem_parents.mpr (.inl hself)))
    obtain ⟨hhash, hnum⟩ := hs.numbered hrp
    rw [newSeq_eq hself hrp]
    exact .child hevent hself hhash (hc.self_creator (by simp [selfRecord, hself, hrp])) hnum

/-- An event that is stored without its self-parent still fits to it. -/
theorem Sound.fits (hs : g.Sound H S) (hfree : H.CollisionFree S) (hevent : event ∈ S)
    (hhash : H event = .ok hash) (hc : g.Checked hash event i) : g.Fits hash event := by
  intro x r hx hself
  obtain ⟨-, hnum⟩ := hs.numbered hx
  have hnew := hs.numbered_new hevent hc
  generalize hseq : r.seq = n at hnum
  cases hnum with
  | root _ hself' =>
    rw [hself] at hself'
    cases hself'
  | child _ hself' hp hcreator hnum' =>
    rw [hself, Option.some.injEq] at hself'
    subst hself'
    obtain rfl := hfree _ hnum'.mem _ hevent _ hp hhash
    rw [hnum'.unique hfree hnew]
    exact ⟨rfl, hcreator⟩

theorem Inserted.sound (h : g.Inserted hash event i g') (hs : g.Sound H S)
    (hfree : H.CollisionFree S) (hevent : event ∈ S) (hhash : H event = .ok hash)
    (hc : g.Checked hash event i) : g'.Sound H S where
  wf := h.wellFormed hs.wf hc (hs.fits hfree hevent hhash hc)
  exact := h.undecidedExact hs.exact hc
  cast := h.votesCast hs.wf hc (hs.fits hfree hevent hhash hc) hs.cast
  numbered := by
    intro x r hx
    obtain ⟨r', hr', hbare⟩ := get?_of_skeleton_eq h.advances.skeleton_eq hx
    rw [← show r'.event = r.event from (congrArg EventRecord.event hbare :),
      ← show r'.seq = r.seq from (congrArg EventRecord.seq hbare :)]
    rcases get?_place_cases hr' with ⟨rfl, rfl⟩ | hr'
    · exact ⟨hhash, hs.numbered_new hevent hc⟩
    · exact hs.numbered hr'

/-- In a sound state an event that passes the checks can be inserted up to panics. -/
theorem Sound.ready (hs : g.Sound H S) (hfree : H.CollisionFree S) (hevent : event ∈ S)
    (hhash : H event = .ok hash) (hc : g.Checked hash event i) :
    Ready (fun f => ∃ p, f = .panic p) 0 g hash event i where
  serves := ⟨hs.wf, .inl ⟨_, rfl⟩⟩
  exact := hs.exact
  covers := by
    intro n _ e he
    unfold rosterForRound at he
    split at he
    · cases he
    · exact ⟨_, (Except.error.inj he).symm⟩
  cast := hs.cast
  checked := hc
  fits := hs.fits hfree hevent hhash hc
  slot := .inl ⟨_, rfl⟩
  low_le_base := Nat.zero_le _
  low_le_next := Nat.zero_le _
  low_le_undecided := fun _ _ => Nat.zero_le _

theorem insert_eq_insertHashed (hhash : H event = .ok hash) (iter : IterOrder) :
    Hashgraph.insert H iter event = insertHashed iter hash event := by
  unfold Hashgraph.insert
  rw [hhash]

/-- An event that fails a check is rejected, and the graph stays. -/
theorem insert_rejects (hno : ∀ hash i, H event = .ok hash → ¬g.Checked hash event i)
    (iter : IterOrder) : ∃ c, Hashgraph.insert H iter event g = .error (.err c) g := by
  cases hhash : H event with
  | error reason =>
    refine ⟨.encodingFailed reason, ?_⟩
    unfold Hashgraph.insert
    rw [hhash]
    rfl
  | ok hash =>
    rw [insert_eq_insertHashed hhash iter]
    exact insertHashed_of_not_checked (fun i => hno hash i hhash) iter

/-- An insertion that returns has failed its checks and changed nothing, or has gone through. -/
theorem insert_cases (hs : g.Sound H S) (hfree : H.CollisionFree S) (hevent : event ∈ S)
    {iter : IterOrder} (h : Returned (Hashgraph.insert H iter event) g g') :
    ((∃ c, Hashgraph.insert H iter event g = .error (.err c) g) ∧ g' = g) ∨
      ∃ hash i, H event = .ok hash ∧ g.Checked hash event i ∧ g.Inserted hash event i g' ∧
        Hashgraph.insert H iter event g = .ok hash g' := by
  by_cases hchecked : ∃ hash i, H event = .ok hash ∧ g.Checked hash event i
  · obtain ⟨hash, i, hhash, hc⟩ := hchecked
    have hspec := insertHashed_spec (hs.ready hfree hevent hhash hc) iter
    rw [insert_eq_insertHashed hhash iter] at h ⊢
    rcases h with ⟨a, ha⟩ | ⟨c, hfail⟩
    · obtain ⟨rfl, hinserted⟩ := hspec.of_ok ha
      exact .inr ⟨a, i, hhash, hc, hinserted, ha⟩
    · obtain ⟨p, hp⟩ := hspec.of_error hfail
      cases hp
  · obtain ⟨c, heq⟩ := insert_rejects
      (fun hash i hhash hc => hchecked ⟨hash, i, hhash, hc⟩) iter
    exact .inl ⟨⟨c, heq⟩, h.eq_of_err heq⟩

/-- An insertion that is accepted has passed its checks. -/
theorem checked_of_insert_ok (hs : g.Sound H S) (hfree : H.CollisionFree S) (hevent : event ∈ S)
    {iter : IterOrder} (hok : Hashgraph.insert H iter event g = .ok hash g') :
    ∃ i, H event = .ok hash ∧ g.Checked hash event i ∧ g.Inserted hash event i g' := by
  rcases insert_cases hs hfree hevent (.inl ⟨_, hok⟩) with
    ⟨⟨c, hreject⟩, -⟩ | ⟨hash', i, hhash, hc, hins, hok'⟩
  · rw [hreject] at hok
    cases hok
  · obtain ⟨rfl, -⟩ := EStateM.Result.ok.inj (hok.symm.trans hok')
    exact ⟨i, hhash, hc, hins⟩

/-- After an insertion the new event is stored, and what was stored before. -/
theorem Inserted.isSome_iff (h : g.Inserted hash event i g') (x : EventHash) :
    (g'.get? x).isSome ↔ x = hash ∨ (g.get? x).isSome := by
  rw [isSome_get?_of_skeleton_eq h.advances.skeleton_eq, placed, get?_place]
  by_cases hx : x = hash
  · simp [hx]
  · rw [if_neg hx, or_iff_right hx]

end Insert

/-! ## Every state of a run is sound -/

section Runs

variable {H : Hasher} {S : Set Event} {P : Hashgraph → Op → Prop} {g g' : Hashgraph} {op : Op}

theorem get?_new (registry : MembershipRegistry) (x : EventHash) :
    (Hashgraph.new registry).get? x = none :=
  ExtTreeMap.getElem?_empty

/-- The members of a new graph are indexed by their position in the registry. -/
theorem memberIndexOf_new {registry : MembershipRegistry} {c : NodeId} {i : ℕ} :
    (Hashgraph.new registry).memberIndexOf c = some i ↔ registry.memberIds[i]? = some c := by
  have hnodup : registry.memberIds.Nodup := ExtTreeMap.nodup_keys
  have hdistinct : registry.memberIds.zipIdx.Pairwise fun a b => ¬compare a.1 b.1 = .eq := by
    refine List.Pairwise.imp (fun {a b} hab => ?_) (List.pairwise_map.mp
      (show (registry.memberIds.zipIdx.map Prod.fst).Nodup by simpa using hnodup))
    simpa using hab
  have hget {i : ℕ} (hi : registry.memberIds[i]? = some c) :
      (Hashgraph.new registry).memberIndexOf c = some i :=
    ExtTreeMap.getElem?_ofList_of_mem ReflCmp.compare_self hdistinct
      (List.mk_mem_zipIdx_iff_getElem?.mpr hi)
  refine ⟨fun h => ?_, hget⟩
  have hmem : c ∈ registry.memberIds := by
    have hmem : c ∈ indexMembers registry := by
      rw [← ExtTreeMap.isSome_getElem?_iff_mem]
      exact Option.isSome_of_eq_some h
    simpa [indexMembers, ExtTreeMap.mem_ofList] using hmem
  obtain ⟨j, hj⟩ := List.mem_iff_getElem?.mp hmem
  obtain rfl := Option.some.inj (h.symm.trans (hget hj))
  exact hj

theorem wellFormed_new (registry : MembershipRegistry) : (Hashgraph.new registry).WellFormed := by
  have hno {x : EventHash} {r : EventRecord} (hx : (Hashgraph.new registry).get? x = some r) :
      False := by
    rw [get?_new] at hx
    cases hx
  have hslots (c : NodeId) (s : ℕ) : (Hashgraph.new registry).eventForCreatorSeq c s = none :=
    ExtTreeMap.getElem?_empty
  have hlatest (c : NodeId) : (Hashgraph.new registry).latestEventBy c = none :=
    ExtTreeMap.getElem?_empty
  have hwitnesses (n : ℕ) : (Hashgraph.new registry).witnessesOfRound n = [] := by
    rw [witnessesOfRound, Hashgraph.new, ExtTreeMap.getElem?_empty]
    rfl
  refine ⟨⟨fun hx => (hno hx).elim, fun hi => ?_, List.length_replicate, fun hx => (hno hx).elim,
    fun hx => (hno hx).elim, fun hx => (hno hx).elim, fun hx => (hno hx).elim, fun hx => ?_,
    fun hx => ?_⟩, fun hx => (hno hx).elim, fun hx => ?_, fun hx => (hno hx).elim, fun n => ?_,
    fun hx => (hno hx).elim⟩
  · exact (List.getElem?_eq_some_iff.mp (memberIndexOf_new.mp hi)).1
  · rw [hslots] at hx
    cases hx
  · rw [hlatest] at hx
    cases hx
  · rw [hwitnesses] at hx
    cases hx
  · rw [hwitnesses]
    exact List.nodup_nil

theorem sound_new (registry : MembershipRegistry) : (Hashgraph.new registry).Sound H S := by
  have hfame (w : EventHash) : (Hashgraph.new registry).fameOf w = none := by
    rw [fameOf, get?_new]
    rfl
  refine ⟨wellFormed_new registry, fun w n => ?_, fun w s hw => ?_, fun {x r} hx => ?_⟩
  · rw [hfame]
    simp [Hashgraph.new]
  · rw [hfame] at hw
    cases hw
  · rw [get?_new] at hx
    cases hx

theorem Sound.widen (hs : g.Sound H S) {node : NodeId} (hnew : g.memberIndexOf node = none)
    (activationRound : ℕ) (registry : MembershipRegistry) :
    (g.widen node activationRound registry).Sound H S where
  wf := hs.wf.widen hnew
  exact := hs.exact.widen
  cast := hs.cast.widen
  numbered := by
    intro x r hx
    obtain ⟨r', hr', rfl⟩ := exists_of_get?_widen hx
    exact (hs.numbered hr' :)

theorem Sound.pruned (hs : g.Sound H S) {threshold : ℕ} {gone : Finset EventHash}
    (h : Pruned g g' threshold gone) : g'.Sound H S where
  wf := h.wellFormed hs.wf
  exact := h.undecidedExact hs.exact
  cast := h.votesCast hs.cast
  numbered := fun hx => hs.numbered (h.get?_iff.mp hx).1

/-- What an operation of a run can do to a sound graph. -/
inductive Op.Effect (H : Hasher) (g g' : Hashgraph) : Op → Prop
  | none {op : Op} : g' = g → Effect H g g' op
  | insert {iter : IterOrder} {event : Event} {hash : EventHash} {i : ℕ} : H event = .ok hash →
      g.Checked hash event i → g.Inserted hash event i g' → Effect H g g' (.insert iter event)
  | addMember {node : NodeId} {activationRound : ℕ} {registry : MembershipRegistry} :
      g.memberIndexOf node = none → g' = g.widen node activationRound registry →
      Effect H g g' (.addMember node activationRound registry)
  | prune {threshold : ℕ} : threshold < g.nextRoundToOrder →
      Pruned g g' threshold (g.prunedEvents threshold).toFinset → Effect H g g' (.prune threshold)

theorem Returned.of_holds {α : Type} {m : HashgraphM α} {Q : Hashgraph → Prop}
    (h : Returned m g g') (hm : Holds (fun _ => False) m g fun _ t => Q t) : Q g' := by
  rcases h with ⟨a, ha⟩ | ⟨c, hc⟩
  · exact hm.of_ok ha
  · exact (hm.of_error hc).elim

theorem Op.effect (hs : g.Sound H S) (hfree : H.CollisionFree S) (hadm : op.Admissible g)
    (hfrom : op.From S) (h : op.Leads H g g') : op.Effect H g g' := by
  cases op with
  | insert iter event =>
    rcases insert_cases hs hfree hfrom h with ⟨-, hsame⟩ | ⟨hash, i, hhash, hc, hinserted, -⟩
    · exact .none hsame
    · exact .insert hhash hc hinserted
  | addMember node activationRound registry =>
    have hret : Returned (Hashgraph.addMember node activationRound registry) g g' := h
    exact .addMember hadm (hret.of_holds (addMember_spec hadm))
  | prune threshold =>
    have hret : Returned (pruneBeforeRound threshold) g g' := h
    rcases hret.of_holds ((pruneBeforeRound_spec hs.wf.toConsistent hadm).mono
      fun _ _ h => h.imp (·.2.2) (·.2)) with hsame | hpruned
    · exact .none hsame
    · exact .prune hadm hpruned

theorem Sound.effect (hs : g.Sound H S) (hfree : H.CollisionFree S) (hfrom : op.From S)
    (h : op.Effect H g g') : g'.Sound H S := by
  cases h with
  | none hsame => exact hsame ▸ hs
  | insert hhash hc hinserted => exact hinserted.sound hs hfree hfrom hhash hc
  | addMember hnew hsame => exact hsame ▸ hs.widen hnew _ _
  | prune _ hpruned => exact hs.pruned hpruned

theorem orderOf_of_get? {x : EventHash} {r : EventRecord} (hx : g.get? x = some r) :
    g.orderOf x = (r.roundReceived, r.consensusTimestamp) := by
  simp [orderOf, Hashgraph.roundReceived, Hashgraph.consensusTimestamp, hx]

theorem orderOf_place {hash : EventHash} {event : Event} {i : ℕ} {b : Bool}
    (hfresh : g.get? hash = none) (x : EventHash) :
    (g.place hash event i b).orderOf x = g.orderOf x := by
  by_cases hx : x = hash
  · subst hx
    rw [orderOf_of_get? get?_place_self]
    simp [orderOf, Hashgraph.roundReceived, Hashgraph.consensusTimestamp, hfresh, newRecord,
      recordAt]
  · simp only [orderOf, Hashgraph.roundReceived, Hashgraph.consensusTimestamp, get?_place, if_neg hx]

theorem orderOf_widen {node : NodeId} {activationRound : ℕ} {registry : MembershipRegistry}
    (x : EventHash) : (g.widen node activationRound registry).orderOf x = g.orderOf x := by
  simp only [orderOf, Hashgraph.roundReceived, Hashgraph.consensusTimestamp, get?_widen]
  cases g.get? x <;> rfl

/-- An operation orders an event at most once, in one of the rounds it takes up for ordering. -/
theorem Op.Effect.stamped (h : op.Effect H g g') {x : EventHash} (hx : (g'.get? x).isSome) :
    Stamped g g' x := by
  cases h with
  | none hsame => exact hsame ▸ .inl rfl
  | @insert _ event hash i _ hc hinserted =>
    have hadvances := hinserted.advances
    have hplaced : Stamped g (g.placed hash event i) x := .inl (orderOf_place hc.fresh x)
    rw [isSome_get?_of_skeleton_eq hadvances.skeleton_eq] at hx
    exact hplaced.trans (hadvances.stamped x hx) nextRoundToOrder_place.ge hadvances.next_le
  | addMember _ hsame => exact hsame ▸ .inl (orderOf_widen x)
  | prune _ hpruned =>
    obtain ⟨r, hr⟩ := Option.isSome_iff_exists.mp hx
    refine .inl ?_
    rw [orderOf_of_get? hr, orderOf_of_get? (hpruned.get?_iff.mp hr).1]

theorem Op.Effect.next_le (h : op.Effect H g g') : g.nextRoundToOrder ≤ g'.nextRoundToOrder := by
  cases h with
  | none hsame => exact hsame ▸ le_rfl
  | insert _ _ hinserted => exact hinserted.next_le
  | addMember _ hsame => exact hsame ▸ le_rfl
  | prune _ hpruned => exact hpruned.next_eq.ge

/-- The members and their slots change only when a member is added. -/
theorem Op.Effect.members (h : op.Effect H g g') :
    (g'.memberIndex = g.memberIndex ∧ g'.memberCount = g.memberCount) ∨
      ∃ node activationRound registry, op = .addMember node activationRound registry ∧
        g.memberIndexOf node = Option.none ∧ g' = g.widen node activationRound registry := by
  cases h with
  | none hsame => exact .inl (hsame ▸ ⟨rfl, rfl⟩)
  | insert _ _ hinserted =>
    have hskel := hinserted.advances.skeleton_eq
    exact .inl ⟨(congrArg memberIndex hskel :).trans memberIndex_place,
      (congrArg memberCount hskel :).trans memberCount_place⟩
  | addMember hnew hsame => exact .inr ⟨_, _, _, rfl, hnew, hsame⟩
  | prune _ hpruned => exact .inl ⟨hpruned.memberIndex_eq, hpruned.memberCount_eq⟩

/-- The induction over the states of a run: what holds at the start and is kept by the effects of
the operations on sound states holds in every state. -/
theorem Reached.invariant {registry : MembershipRegistry} {I : Hashgraph → Prop}
    (hfree : H.CollisionFree S) (hP : ∀ g op, P g op → op.From S)
    (hnew : I (Hashgraph.new registry))
    (hstep : ∀ g g' op, g.Sound H S → I g → P g op → op.Effect H g g' → I g')
    (h : Reached H P registry g) : I g := by
  have hboth : g.Sound H S ∧ I g := by
    induction h with
    | new => exact ⟨sound_new registry, hnew⟩
    | step _ hadm hp hleads ih =>
      have heffect := Op.effect ih.1 hfree hadm (hP _ _ hp) hleads
      exact ⟨ih.1.effect hfree (hP _ _ hp) heffect, hstep _ _ _ ih.1 ih.2 hp heffect⟩
  exact hboth.2

theorem Reached.sound {registry : MembershipRegistry} (hfree : H.CollisionFree S)
    (hP : ∀ g op, P g op → op.From S) (h : Reached H P registry g) : g.Sound H S :=
  h.invariant hfree hP (sound_new registry) fun _ _ _ hs _ hp heffect =>
    hs.effect hfree (hP _ _ hp) heffect

end Runs

/-! ## Replaying a run -/

/-- The graph after a call that returned. -/
def returned? {α : Type} : EStateM.Result Fault Hashgraph α → Option Hashgraph
  | .ok _ g => some g
  | .error (.err _) g => some g
  | .error _ _ => none

instance (g : Hashgraph) (op : Op) : Decidable (op.Admissible g) :=
  match op with
  | .insert _ _ => .isTrue trivial
  | .addMember node _ _ => inferInstanceAs (Decidable (g.memberIndexOf node = none))
  | .prune threshold => inferInstanceAs (Decidable (threshold < g.nextRoundToOrder))

/-- The graph after an operation, `none` if it is not admissible or panics. -/
def Op.next? (H : Hasher) (g : Hashgraph) (op : Op) : Option Hashgraph :=
  if op.Admissible g then
    match op with
    | .insert iter event => returned? (Hashgraph.insert H iter event g)
    | .addMember node activationRound registry =>
      returned? (Hashgraph.addMember node activationRound registry g)
    | .prune threshold => returned? (pruneBeforeRound threshold g)
  else none

/-- The graph after a list of operations. -/
def replay (H : Hasher) (g : Hashgraph) (ops : List Op) : Option Hashgraph :=
  ops.foldlM (Op.next? H) g

section Replay

variable {H : Hasher} {P : Hashgraph → Op → Prop} {registry : MembershipRegistry}
  {g g' : Hashgraph} {op : Op} {ops : List Op}

theorem returned_of_returned? {α : Type} {m : HashgraphM α} (h : returned? (m g) = some g') :
    Returned m g g' := by
  unfold returned? at h
  split at h
  · rename_i a t hm
    obtain rfl := Option.some.inj h
    exact .inl ⟨a, hm⟩
  · rename_i c t hm
    obtain rfl := Option.some.inj h
    exact .inr ⟨c, hm⟩
  · cases h

theorem Op.leads_of_next? (h : op.next? H g = some g') : op.Admissible g ∧ op.Leads H g g' := by
  unfold Op.next? at h
  split at h
  · rename_i hadm
    refine ⟨hadm, ?_⟩
    cases op with
    | insert iter event => exact returned_of_returned? h
    | addMember node activationRound registry => exact returned_of_returned? h
    | prune threshold => exact returned_of_returned? h
  · cases h

theorem Reached.replay (hg : Reached H P registry g) (hops : ∀ op ∈ ops, ∀ t, P t op)
    (h : Hashgraph.replay H g ops = some g') : Reached H P registry g' := by
  induction ops generalizing g with
  | nil =>
    obtain rfl := Option.some.inj h
    exact hg
  | cons op ops ih =>
    rw [Hashgraph.replay, List.foldlM_cons] at h
    obtain ⟨t, ht, hrest⟩ := Option.bind_eq_some_iff.mp h
    obtain ⟨hadm, hleads⟩ := Op.leads_of_next? ht
    exact ih (.step hg hadm (hops op (by simp) g) hleads) (fun op hop => hops op (by simp [hop]))
      hrest

end Replay

/-! ## Plain events

Runs on given graphs use events with an empty payload and a zero signature, named by their
timestamps. -/

/-- The hash of a plain event is its timestamp. -/
def stampHash : Hasher := fun e => .ok e.timestamp

theorem collisionFree_stampHash {l : List Event} (hl : (l.map (·.timestamp)).Nodup) :
    stampHash.CollisionFree {e | e ∈ l} := by
  intro e he e' he' h hh hh'
  rw [stampHash, Except.ok.injEq] at hh hh'
  exact List.inj_on_of_nodup_map hl he he' (hh.trans hh'.symm)

/-- A plain event: its hash, its creator and its parents. -/
def plainEvent (hash : EventHash) (creator : NodeId) (selfParent otherParent : Option EventHash) :
    Event :=
  ⟨creator, selfParent, otherParent, hash, [], ⟨fun _ => 0⟩⟩

/-- The hash map of the candidates yields them in increasing order. -/
def inOrder : IterOrder := ⟨id, fun _ => .refl _⟩

/-- The insertion of a plain event. -/
def plainInsert (hash : EventHash) (creator : NodeId) (selfParent otherParent : Option EventHash) :
    Op :=
  .insert inOrder (plainEvent hash creator selfParent otherParent)

/-- The registry of the members below `n`. -/
def plainRegistry (n : ℕ) : MembershipRegistry :=
  (List.range n).foldl (fun registry node => registry.register node [] []) .new

/-- A replay of insertions gives a state of a run. -/
theorem exists_built {S : Set Event} (registry : MembershipRegistry) (events : List Event)
    (p : Hashgraph → Bool) (hevents : ∀ e ∈ events, e ∈ S)
    (h : (replay stampHash (.new registry) (events.map (.insert inOrder))).any p = true) :
    ∃ g, Reached stampHash (fun _ op => op.Inserts S) registry g ∧ p g = true := by
  obtain ⟨g, hg, hp⟩ := (Option.any_eq_true ..).mp h
  refine ⟨g, .replay .new (fun op hop _ => ?_) hg, hp⟩
  obtain ⟨e, he, rfl⟩ := List.mem_map.mp hop
  exact hevents e he

/-- A chain of plain events of member 0. -/
def soloChain (length : ℕ) : List Event :=
  (List.range length).map fun k => plainEvent (k + 1) 0 (if k = 0 then none else some k) none

theorem collisionFree_soloChain (length : ℕ) :
    stampHash.CollisionFree {e | e ∈ soloChain length} := by
  refine collisionFree_stampHash ?_
  rw [soloChain, List.map_map]
  exact (List.nodup_range).map fun a b h => by simpa [plainEvent] using h

end Hashgraph

end JKain
