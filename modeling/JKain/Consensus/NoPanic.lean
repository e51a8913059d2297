import JKain.Consensus.Run

/-!
# When an insertion returns

An insertion can panic in two places. It can ask for the roster of a round whose snapshot was
pruned, and it can find no first-seen timestamp for an event that a famous witness sees, after an
unflagged creator's event landed on an occupied slot of the first-seen index. In a run whose
insertions meet neither case every insertion returns.
-/

namespace JKain

open Std JKain.Lib

namespace Hashgraph

/-- There is a snapshot for the round. -/
def HasRoster (g : Hashgraph) (round : ℕ) : Prop := (g.rosterHistory.activeAt round).isSome

instance (g : Hashgraph) (round : ℕ) : Decidable (g.HasRoster round) :=
  inferInstanceAs (Decidable (_ = true))

/-- An insertion that does not reach below the retained snapshots: the base round of the event and
the rounds of the open elections have a roster. And its event does not land on an occupied slot,
unless its creator is a known forker or becomes one by it. -/
def Sheltered (H : Hasher) (g : Hashgraph) (event : Event) : Prop :=
  ∀ hash i, H event = .ok hash → g.Checked hash event i →
    g.HasRoster (g.newBase event) ∧
      (∀ (w : EventHash) (n : ℕ), g.undecidedWitnesses[w]? = some n → g.HasRoster n) ∧
      (g.eventForCreatorSeq event.creator (g.newSeq event) = none ∨ g.flagged i = true ∨
        (g.canonicalChild event.creator event.selfParent).any (· != hash) = true)

/-- The insertions of a run are sheltered. -/
def Op.Sheltered (H : Hasher) (g : Hashgraph) : Op → Prop
  | .insert _ event => g.Sheltered H event
  | _ => True

section Sheltered

variable {H : Hasher} {S : Set Event} {registry : MembershipRegistry} {g g' : Hashgraph}
  {event : Event} {hash : EventHash} {i : ℕ}

theorem HasRoster.mono {m n : ℕ} (hle : m ≤ n) (h : g.HasRoster m) : g.HasRoster n :=
  RosterHistory.isSome_activeAt_mono hle h

theorem covers_of_hasRoster {E : Fault → Prop} {n : ℕ} (h : g.HasRoster n) : Covers E g n := by
  obtain ⟨snapshot, hsnapshot⟩ := Option.isSome_iff_exists.mp h
  refine .of_eq (a := snapshot.2) ?_
  rw [rosterForRound, hsnapshot]

/-- What the states of a sheltered run satisfy beyond soundness. -/
structure Armed (H : Hasher) (S : Set Event) (g : Hashgraph) : Prop extends g.Sound H S where
  indexed : g.Indexed
  roster : g.HasRoster g.nextRoundToOrder

/-- A sheltered event lands on a free slot unless its creator is flagged. -/
theorem slot_of_sheltered (hg : g.Consistent) (hc : g.Checked hash event i)
    (hslot : g.eventForCreatorSeq event.creator (g.newSeq event) = none ∨ g.flagged i = true ∨
      (g.canonicalChild event.creator event.selfParent).any (· != hash) = true)
    (b : Bool) (hflag : (g.place hash event i b).flagged i = false) :
    g.eventForCreatorSeq event.creator (g.newSeq event) = none := by
  have hlt : i < g.knownForkers.length := by
    rw [hg.forkers_length]
    exact hg.index_lt hc.member
  rw [flagged_place hlt, Bool.or_eq_false_iff] at hflag
  rcases hslot with hfree | hflagged | hbranch
  · exact hfree
  · rw [hflagged] at hflag
    exact absurd hflag.1 (by simp)
  · rw [hbranch] at hflag
    exact absurd hflag.2 (by simp)

/-- In an armed state a sheltered insertion goes through. -/
theorem Armed.ready (h : g.Armed H S) (hfree : H.CollisionFree S) (hevent : event ∈ S)
    (hhash : H event = .ok hash) (hc : g.Checked hash event i) (hshelter : g.Sheltered H event) :
    ∃ low, Ready (fun _ => False) low g hash event i := by
  obtain ⟨hbase, hundecided, hslot⟩ := hshelter hash i hhash hc
  have hexists : ∃ n, g.HasRoster n := ⟨_, h.roster⟩
  refine ⟨Nat.find hexists, ⟨⟨h.wf, .inr h.indexed⟩, h.exact, fun n hn => ?_⟩, h.cast, hc,
    h.fits hfree hevent hhash hc, .inr (slot_of_sheltered h.wf.toConsistent hc hslot _),
    Nat.find_min' hexists hbase, Nat.find_min' hexists h.roster, fun w hw => ?_⟩
  · exact covers_of_hasRoster ((Nat.find_spec hexists).mono hn)
  · obtain ⟨r, hr, -⟩ := exists_witness_of_fameOf hw
    rw [roundOf_eq hr]
    exact Nat.find_min' hexists (hundecided w r.round ((h.exact w r.round).mpr ⟨hw, r, hr, rfl⟩))

theorem armed_new (registry : MembershipRegistry) : (Hashgraph.new registry).Armed H S where
  toSound := sound_new registry
  indexed := by
    intro x r i hx
    rw [get?_new] at hx
    cases hx
  roster := RosterHistory.isSome_activeAt_new registry

theorem Armed.effect (h : g.Armed H S) (hfree : H.CollisionFree S) {op : Op} (hfrom : op.From S)
    (hshelter : op.Sheltered H g) (heffect : op.Effect H g g') : g'.Armed H S := by
  refine ⟨h.toSound.effect hfree hfrom heffect, ?_, ?_⟩
  · cases heffect with
    | none hsame => exact hsame ▸ h.indexed
    | insert hhash hc hinserted =>
      obtain ⟨-, -, hslot⟩ := hshelter _ _ hhash hc
      exact (h.indexed.place h.wf.toConsistent hc _
        (slot_of_sheltered h.wf.toConsistent hc hslot _)).of_skeleton_eq
          hinserted.advances.skeleton_eq
    | addMember hnew hsame => exact hsame ▸ h.indexed.widen h.wf.toConsistent hnew
    | prune _ hpruned => exact hpruned.indexed h.indexed
  · cases heffect with
    | none hsame => exact hsame ▸ h.roster
    | insert _ _ hinserted =>
      rw [HasRoster, hinserted.rosterHistory_eq]
      exact h.roster.mono hinserted.next_le
    | addMember _ hsame =>
      subst hsame
      exact RosterHistory.isSome_activeAt_schedule _ _ h.roster
    | prune hlt hpruned =>
      rw [HasRoster, hpruned.roster_eq, hpruned.next_eq]
      exact RosterHistory.isSome_activeAt_pruneBefore hlt.le h.roster

/-- Every state of a sheltered run is armed. -/
theorem Reached.armed (hfree : H.CollisionFree S)
    (h : Reached H (fun g op => op.From S ∧ op.Sheltered H g) registry g) : g.Armed H S := by
  induction h with
  | new => exact armed_new registry
  | step _ hadm hp hleads ih =>
    exact ih.effect hfree hp.1 hp.2 (Op.effect ih.toSound hfree hadm hp.1 hleads)

/-- The next round to order always has a roster: a pruning keeps the snapshots from its threshold
on, and the one before them. -/
theorem Reached.hasRoster_next {P : Hashgraph → Op → Prop} (hfree : H.CollisionFree S)
    (hP : ∀ g op, P g op → op.From S) (h : Reached H P registry g) :
    g.HasRoster g.nextRoundToOrder := by
  refine h.invariant (I := fun g => g.HasRoster g.nextRoundToOrder) hfree hP
    (RosterHistory.isSome_activeAt_new registry) ?_
  intro g g' op _ hg _ heffect
  have hnext := RosterHistory.isSome_activeAt_mono heffect.next_le hg
  cases heffect with
  | none hsame => exact hsame ▸ hg
  | insert _ _ hinserted => rwa [HasRoster, hinserted.rosterHistory_eq]
  | addMember _ hsame =>
    subst hsame
    exact RosterHistory.isSome_activeAt_schedule _ _ hnext
  | prune hlt hpruned =>
    rw [HasRoster, hpruned.roster_eq]
    exact RosterHistory.isSome_activeAt_pruneBefore (by rw [hpruned.next_eq]; exact hlt.le) hnext

/-- A sheltered event that passes the checks is inserted. -/
theorem Armed.insert_ok (h : g.Armed H S) (hfree : H.CollisionFree S) (hevent : event ∈ S)
    (hhash : H event = .ok hash) (hc : g.Checked hash event i) (hshelter : g.Sheltered H event)
    (iter : IterOrder) :
    ∃ g', Hashgraph.insert H iter event g = .ok hash g' ∧ g.Inserted hash event i g' := by
  obtain ⟨low, hready⟩ := h.ready hfree hevent hhash hc hshelter
  obtain ⟨a, g', heq, rfl, hinserted⟩ := (insertHashed_spec hready iter).exists_ok
  exact ⟨g', by rw [insert_eq_insertHashed hhash, heq], hinserted⟩

end Sheltered

/-! ## The two panics -/

/-- A run of plain events in which inserting an event of a member panics. -/
def InsertPanics (p : Panic) : Prop :=
  ∃ (S : Set Event) (registry : MembershipRegistry) (g t : Hashgraph) (event : Event),
    stampHash.CollisionFree S ∧ Reached stampHash (fun _ op => op.From S) registry g ∧
      event ∈ S ∧ (g.memberIndexOf event.creator).isSome ∧
      Hashgraph.insert stampHash inOrder event g = .error (.panic p) t

/-- The inserted events of a list of operations. -/
def insertedEvents (ops : List Op) : List Event :=
  ops.filterMap fun op => match op with
    | .insert _ event => some event
    | _ => none

/-- Whether the operations can be replayed and the insertion of the event then panics. -/
def replayPanics (p : Panic) (registry : MembershipRegistry) (ops : List Op) (event : Event) :
    Bool :=
  (replay stampHash (Hashgraph.new registry) ops).any fun g =>
    (g.memberIndexOf event.creator).isSome &&
      match Hashgraph.insert stampHash inOrder event g with
      | .error (.panic q) _ => decide (q = p)
      | _ => false

theorem insertPanics_of_replayPanics {p : Panic} (registry : MembershipRegistry) (ops : List Op)
    (event : Event) (hnodup : ((event :: insertedEvents ops).map (·.timestamp)).Nodup)
    (h : replayPanics p registry ops event = true) : InsertPanics p := by
  rw [replayPanics, Option.any_eq_true] at h
  obtain ⟨g, hg, hpanic⟩ := h
  rw [Bool.and_eq_true] at hpanic
  obtain ⟨hmember, hinsert⟩ := hpanic
  have hreached : Reached stampHash (fun _ op => op.From {e | e ∈ event :: insertedEvents ops})
      registry g := by
    refine Reached.replay .new (fun op hop t => ?_) hg
    cases op with
    | insert iter e =>
      exact List.mem_cons_of_mem _ (List.mem_filterMap.mpr ⟨.insert iter e, hop, rfl⟩)
    | addMember _ _ _ => trivial
    | prune _ => trivial
  split at hinsert
  · rename_i q t heq
    obtain rfl := of_decide_eq_true hinsert
    exact ⟨_, registry, g, t, event, collisionFree_stampHash hnodup, hreached,
      List.mem_cons_self, hmember, heq⟩
  · cases hinsert

/-- Member 0 alone, member 1 from round 2 on, and a history of both that orders rounds 1 to 6. Round
3 is pruned, with it the snapshot of round 1, and member 2 joins for a late round. -/
def rosterGapRun : List Op :=
  [.addMember 1 1 (plainRegistry 2),
    plainInsert 1 0 none none, plainInsert 2 1 none (some 1), plainInsert 3 0 (some 1) (some 2),
    plainInsert 4 1 (some 2) (some 3), plainInsert 5 0 (some 3) (some 4),
    plainInsert 6 1 (some 4) (some 5), plainInsert 7 0 (some 5) (some 6),
    plainInsert 8 1 (some 6) (some 7), plainInsert 9 0 (some 7) (some 8),
    plainInsert 10 1 (some 8) (some 9), plainInsert 11 0 (some 9) (some 10),
    plainInsert 12 1 (some 10) (some 11), plainInsert 13 0 (some 11) (some 12),
    plainInsert 14 1 (some 12) (some 13),
    .prune 3, .addMember 2 20 (plainRegistry 3)]

/-- Member 0 alone: a chain, a pruning of its beginning, a second parentless event that takes a slot
the pruning freed, a branch off the retained part of the first chain, and a second pruning. -/
def slotClashRun : List Op :=
  [plainInsert 1 0 none none, plainInsert 2 0 (some 1) none, plainInsert 3 0 (some 2) none,
    plainInsert 4 0 (some 3) none, plainInsert 5 0 (some 4) none, .prune 3,
    plainInsert 6 0 none (some 5), plainInsert 7 0 (some 6) none, plainInsert 8 0 (some 5) none,
    plainInsert 9 0 (some 7) none, .prune 4,
    plainInsert 10 0 (some 9) none, plainInsert 11 0 (some 10) none,
    plainInsert 12 0 (some 11) none]

end Hashgraph

end JKain
