import JKain.Consensus.Descent
import JKain.Gossip.Sorting

/-!
# The ancestor flag of the duplicate filter

`delta_events_filtered` tells `should_filter` of every event of a delta whether it counts as an
ancestor of the node's newest event. It asks `is_ancestor(&hash, latest)`, which is whether the
newest event is an ancestor of the event. The flag is the intended one exactly for the events that
are not related to the newest event at all.
-/

namespace JKain

open Std JKain.Lib

open Hashgraph (Reached ForkFree)

section Flag

variable {H : Hasher} {S : Set Event} {registry members : MembershipRegistry} {g : Hashgraph}
  {order : DeltaOrder} {known : List (NodeId × ℕ)} {delta : List (EventHash × Event)}
  {x : EventHash} {e : Event}

/-- The events of a delta are stored. -/
theorem exists_get?_of_mem_delta (hs : g.Sound H S)
    (hdelta : deltaEvents order g known members = .ok delta) (hx : (x, e) ∈ delta) :
    ∃ r, g.get? x = some r ∧ r.event = e := by
  obtain ⟨collected, hcollected, hsorted⟩ := bind_eq_ok_iff.mp hdelta
  have he := (((topoSort_spec order collected).2 delta hsorted).2.1 x e).mp hx
  obtain ⟨r, hr, hevent, -⟩ := (collectDelta_collects hs hcollected).sound he
  exact ⟨r, hr, hevent⟩

/-- The flag says whether the event stems from the newest one. -/
theorem countsAsAncestor_iff_stems (hfree : H.CollisionFree S) (hforks : ForkFree S)
    (h : Reached H (fun _ op => op.From S) registry g) (selfId : NodeId) {r : EventRecord}
    (hx : g.get? x = some r) :
    ∃ b, countsAsAncestor g selfId x = .ok b ∧
      (b = true ↔ ∃ latest, g.latestEventBy selfId = some latest ∧ Stems H S x latest) := by
  rw [countsAsAncestor]
  cases hlatest : g.latestEventBy selfId with
  | none => exact ⟨false, rfl, by simp⟩
  | some latest =>
    have hs := h.sound hfree fun _ _ hop => hop
    obtain ⟨rz, hrz, -⟩ := hs.wf.latest hlatest
    obtain ⟨b, hb, hiff⟩ := Hashgraph.isAncestor_iff_stems hfree hforks h hx hrz
    refine ⟨b, congrArg unwrapOrFalse hb, hiff.trans ?_⟩
    constructor
    · intro hstems
      exact ⟨latest, rfl, hstems⟩
    · rintro ⟨z, hz, hstems⟩
      exact Option.some.inj hz ▸ hstems

/-- One event of another creator in the loop, given its flag. -/
theorem filterDelta_cons_of_flag {selfId : NodeId} {b : Bool} (hother : e.creator ≠ selfId)
    (hflag : countsAsAncestor g selfId x = .ok b) (config : SyncConfig) (targetPeer : NodeId)
    (clock : ℕ → ℕ) (k : ℕ) (events : List (EventHash × Event)) :
    filterDelta config g selfId targetPeer clock k ((x, e) :: events) = (do
      let filtered ← modifyGet (·.shouldFilter config x targetPeer false b (clock k))
      let out ← filterDelta config g selfId targetPeer clock (k + 1) events
      return if filtered then out else (x, e) :: out) := by
  rw [filterDelta, decide_eq_false hother]
  simp only [Bool.false_eq_true, if_false, hflag]
  rfl

/-- The flag that `should_filter` is given for an event of another creator is the intended one,
whether the event is an ancestor of the node's newest event, exactly if neither of the two events is
an ancestor of the other. -/
theorem ancestor_flag_right_iff_unrelated (hfree : H.CollisionFree S) (hforks : ForkFree S)
    (h : Reached H (fun _ op => op.From S) registry g)
    (hdelta : deltaEvents order g known members = .ok delta) (hx : (x, e) ∈ delta)
    {selfId : NodeId} (hother : e.creator ≠ selfId) :
    ∃ b, (∀ config targetPeer clock k events,
        filterDelta config g selfId targetPeer clock k ((x, e) :: events) = (do
          let filtered ← modifyGet (·.shouldFilter config x targetPeer false b (clock k))
          let out ← filterDelta config g selfId targetPeer clock (k + 1) events
          return if filtered then out else (x, e) :: out)) ∧
      ((b = true ↔ ∃ latest, g.latestEventBy selfId = some latest ∧ Stems H S latest x) ↔
        ∀ latest, g.latestEventBy selfId = some latest →
          ¬Stems H S latest x ∧ ¬Stems H S x latest) := by
  have hs := h.sound hfree fun _ _ hop => hop
  obtain ⟨r, hr, rfl⟩ := exists_get?_of_mem_delta hs hdelta hx
  obtain ⟨b, hflag, hiff⟩ := countsAsAncestor_iff_stems hfree hforks h selfId hr
  refine ⟨b, filterDelta_cons_of_flag hother hflag, ?_⟩
  rw [hiff]
  constructor
  · intro hright latest hlatest
    -- if one of the two stems from the other, each does, and they are one event
    have hboth : ¬(Stems H S x latest ∧ Stems H S latest x) := by
      rintro ⟨hxl, hlx⟩
      obtain rfl := Hashgraph.stems_antisymm hfree hforks h hr hxl hlx
      obtain ⟨rz, hrz, hcreator⟩ := hs.wf.latest hlatest
      rw [hr] at hrz
      exact hother (Option.some.inj hrz ▸ hcreator)
    have hsame {latest' : EventHash} (h' : g.latestEventBy selfId = some latest') :
        latest' = latest := Option.some.inj (h'.symm.trans hlatest)
    refine ⟨fun hlx => ?_, fun hxl => ?_⟩
    · obtain ⟨latest', h', hxl⟩ := hright.mpr ⟨latest, hlatest, hlx⟩
      exact hboth ⟨hsame h' ▸ hxl, hlx⟩
    · obtain ⟨latest', h', hlx⟩ := hright.mp ⟨latest, hlatest, hxl⟩
      exact hboth ⟨hxl, hsame h' ▸ hlx⟩
  · intro hunrelated
    refine iff_of_false ?_ ?_
    · rintro ⟨latest, hlatest, hxl⟩
      exact (hunrelated latest hlatest).2 hxl
    · rintro ⟨latest, hlatest, hlx⟩
      exact (hunrelated latest hlatest).1 hlx

end Flag

open Hashgraph (plainEvent plainRegistry stampHash inOrder exists_built collisionFree_stampHash
  forkFree_of_pairwise)

/-- The delta of the graph for a peer that has nothing. -/
def wholeDelta (g : Hashgraph) : Except DeltaError (List (EventHash × Event)) :=
  deltaEvents ⟨inOrder, inOrder, inOrder⟩ g [] (plainRegistry 2)

theorem exists_wholeDelta (events : List Event) (p : Hashgraph → Bool)
    (h : (Hashgraph.replay stampHash (.new (plainRegistry 2)) (events.map (.insert inOrder))).any
      (fun g => p g && (wholeDelta g).toOption.any fun delta =>
        events.all fun e => decide ((e.timestamp, e) ∈ delta)) = true) :
    ∃ g delta, Reached stampHash (fun _ op => op.From {e | e ∈ events}) (plainRegistry 2) g ∧
      wholeDelta g = .ok delta ∧ (∀ e ∈ events, (e.timestamp, e) ∈ delta) ∧ p g = true := by
  obtain ⟨g, hg, hp⟩ := exists_built (plainRegistry 2) events _ (fun _ he => he) h
  obtain ⟨hp, hdelta⟩ := Bool.and_eq_true_iff.mp hp
  obtain ⟨delta, hdelta, hmem⟩ := (Option.any_eq_true _ _).mp hdelta
  refine ⟨g, delta, hg.mono fun _ _ hop => hop.from, toOption_eq_some_iff.mp hdelta,
    fun e he => ?_, hp⟩
  exact of_decide_eq_true (List.all_eq_true.mp hmem e he)

/-- An event of each of two members. -/
def strangers : List Event := [plainEvent 1 1 none none, plainEvent 2 0 none none]

theorem ancestor_flag_right_iff_unrelated_strangers :
    ∃ g delta, Reached stampHash (fun _ op => op.From {e | e ∈ strangers}) (plainRegistry 2) g ∧
      wholeDelta g = .ok delta ∧ (1, plainEvent 1 1 none none) ∈ delta ∧
      ∃ b, (∀ config targetPeer clock k events,
          filterDelta config g 0 targetPeer clock k ((1, plainEvent 1 1 none none) :: events) = (do
            let filtered ← modifyGet (·.shouldFilter config 1 targetPeer false b (clock k))
            let out ← filterDelta config g 0 targetPeer clock (k + 1) events
            return if filtered then out else (1, plainEvent 1 1 none none) :: out)) ∧
        (b = true ↔ ∃ latest, g.latestEventBy 0 = some latest ∧
          Stems stampHash {e | e ∈ strangers} latest 1) := by
  obtain ⟨g, delta, hg, hdelta, hmem, hlatest⟩ := exists_wholeDelta strangers
    (fun g => decide (g.latestEventBy 0 = some 2)) (by decide +kernel)
  have hlatest := of_decide_eq_true hlatest
  have hfree : stampHash.CollisionFree {e | e ∈ strangers} := collisionFree_stampHash (by decide)
  have hroot {e : Event} (he : e ∈ strangers) {a b : EventHash} (ha : stampHash e = .ok a)
      (hstems : Stems stampHash {e | e ∈ strangers} a b) : a = b := by
    rcases hstems.cases hfree he ha with heq | ⟨p, hp, -⟩
    · exact heq
    · rcases List.mem_pair.mp he with rfl | rfl <;> exact absurd hp List.not_mem_nil
  have hx := hmem _ List.mem_cons_self
  have hother : (plainEvent 1 1 none none).creator ≠ 0 := by decide
  obtain ⟨b, hpassed, hright⟩ := ancestor_flag_right_iff_unrelated hfree
    (forkFree_of_pairwise (by decide)) hg hdelta hx hother
  refine ⟨g, delta, hg, hdelta, hx, b, hpassed, hright.mpr fun latest h => ?_⟩
  obtain rfl := Option.some.inj (h.symm.trans hlatest)
  refine ⟨fun hstems => ?_, fun hstems => ?_⟩
  · exact absurd (hroot (e := plainEvent 2 0 none none) (by decide) rfl hstems) (by decide)
  · exact absurd (hroot (e := plainEvent 1 1 none none) (by decide) rfl hstems) (by decide)

/-- An event of the second member, one of the first on top of it, and one of the second on top of
that. -/
def exchange : List Event :=
  [plainEvent 1 1 none none, plainEvent 2 0 none (some 1), plainEvent 3 1 (some 1) (some 2)]

/-- What the first member has noted of the events it sent to the second member. -/
def notedFlags (g : Hashgraph) : Option (List ((NodeId × ℕ) × (ℕ × Bool × Bool))) :=
  (outcome? (deltaEventsFiltered ⟨inOrder, inOrder, inOrder⟩ .default g [] (plainRegistry 2) 0 1
    (fun _ => 0) .empty)).map (·.2.sent.toList)

/-- The parent of the newest event is not taken for an ancestor, and its child is. -/
theorem ancestor_flag_reversed :
    ∃ g delta, Reached stampHash (fun _ op => op.From {e | e ∈ exchange}) (plainRegistry 2) g ∧
      ForkFree {e | e ∈ exchange} ∧ wholeDelta g = .ok delta ∧
      (∀ e ∈ exchange, (e.timestamp, e) ∈ delta) ∧ g.latestEventBy 0 = some 2 ∧
      Stems stampHash {e | e ∈ exchange} 2 1 ∧ ¬Stems stampHash {e | e ∈ exchange} 2 3 ∧
      notedFlags g = some [((1, 1), (0, false, false)), ((1, 2), (0, true, false)),
        ((1, 3), (0, false, true))] := by
  obtain ⟨g, delta, hg, hdelta, hmem, hnoted⟩ := exists_wholeDelta exchange
    (fun g => decide (g.latestEventBy 0 = some 2) && decide (notedFlags g =
      some [((1, 1), (0, false, false)), ((1, 2), (0, true, false)), ((1, 3), (0, false, true))]))
    (by decide +kernel)
  obtain ⟨hlatest, hnoted⟩ := Bool.and_eq_true_iff.mp hnoted
  have hlatest := of_decide_eq_true hlatest
  have hfree : stampHash.CollisionFree {e | e ∈ exchange} := collisionFree_stampHash (by decide)
  have hforks : ForkFree {e | e ∈ exchange} := forkFree_of_pairwise (by decide)
  refine ⟨g, delta, hg, hforks, hdelta, hmem, hlatest, ?_, fun hback => ?_,
    of_decide_eq_true hnoted⟩
  · exact .single ⟨plainEvent 2 0 none (some 1), by decide, rfl, by decide⟩
  · have hforth : Stems stampHash {e | e ∈ exchange} 3 2 :=
      .single ⟨plainEvent 3 1 (some 1) (some 2), by decide, rfl, by decide⟩
    obtain ⟨r, hr, -⟩ := (hg.sound hfree fun _ _ hop => hop).wf.latest hlatest
    exact absurd (Hashgraph.stems_antisymm hfree hforks hg hr hback hforth) (by decide)

end JKain
