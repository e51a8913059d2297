import JKain.Consensus.Equivocation

/-!
# Who counts in a quorum

The tests for supermajorities count members, or witnesses by their creators, against the size of the
roster of a round. The members come from the index, which every new member enters at once, whatever
the round its roster starts at. So the counted are in the roster only if the events of a member are
born late enough: `Op.Seated` asks that the creator of an accepted event is in the roster of the
round before the event's base round. A parentless event of a new member has base round 1.
-/

namespace JKain

open Std JKain.Lib

namespace Hashgraph

/-- The member is in the roster of the round. -/
def InRoster (g : Hashgraph) (n : ℕ) (c : NodeId) : Prop :=
  ∃ registry, g.rosterForRound n = .ok registry ∧ c ∈ registry.memberIds

/-- A member keeps its place in later rosters. -/
def Nested (g : Hashgraph) : Prop := ∀ m n c, m ≤ n → g.InRoster m c → g.InRoster n c

/-- The counted members are in the roster of the round, and not more than it has. -/
def Counts (g : Hashgraph) (n : ℕ) (members : Finset NodeId) : Prop :=
  (∀ c ∈ members, g.InRoster n c) ∧ members.card ≤ g.totalAt n

/-- The creators of the counted events are in the roster of the round, and the events are not more
than it has. -/
def Seats (g : Hashgraph) (n : ℕ) (events : List EventHash) : Prop :=
  (∀ w ∈ events, ∃ r, g.get? w = some r ∧ g.InRoster n r.event.creator) ∧
    events.length ≤ g.totalAt n

/-- An insertion that passes the checks is of an event by a member of the roster before the event's
base round, and the first on its self-parent. A new member is added to all later rosters. -/
def Op.Seated (H : Hasher) (g : Hashgraph) : Op → Prop
  | .insert _ event => ∀ hash i, H event = .ok hash → g.Checked hash event i →
      g.InRoster (max (g.newBase event - 1) 1) event.creator ∧
        g.canonicalChild event.creator event.selfParent = none
  | .addMember node activationRound registry =>
      (g.widen node activationRound registry).Nested ∧
        ∀ n c, g.InRoster n c → (g.widen node activationRound registry).InRoster n c
  | .prune _ => False

theorem Op.Seated.keepsEvents {H : Hasher} {g : Hashgraph} {op : Op} (h : op.Seated H g) :
    op.KeepsEvents := by
  cases op with
  | insert _ _ => trivial
  | addMember _ _ _ => trivial
  | prune _ => exact h

section Rosters

variable {g g' : Hashgraph} {n : ℕ} {c : NodeId}

theorem inRoster_congr (h : g'.rosterHistory = g.rosterHistory) :
    g'.InRoster n c ↔ g.InRoster n c := by
  rw [InRoster, rosterForRound, h, InRoster, rosterForRound]

/-- A set of members of a roster is not larger than the roster. -/
theorem counts_of_inRoster {members : Finset NodeId} (h : ∀ c ∈ members, g.InRoster n c) :
    g.Counts n members := by
  refine ⟨h, ?_⟩
  rcases members.eq_empty_or_nonempty with rfl | ⟨c, hc⟩
  · exact Nat.zero_le _
  · obtain ⟨registry, hregistry, -⟩ := h c hc
    have htotal : g.totalAt n = registry.memberIds.toFinset.card := by
      rw [totalAt, memberCountAtRound, hregistry, ← registry.len_eq]
      rfl
    rw [htotal]
    refine Finset.card_le_card fun c hc => ?_
    obtain ⟨registry', hregistry', hmem⟩ := h c hc
    obtain rfl := Except.ok.inj (hregistry.symm.trans hregistry')
    exact List.mem_toFinset.mpr hmem

/-- Events of distinct members of a roster are not more than the roster has. -/
theorem seats_of_inRoster {events : List EventHash} (hnodup : events.Nodup)
    (h : ∀ w ∈ events, ∃ r, g.get? w = some r ∧ g.InRoster n r.event.creator)
    (hdistinct : ∀ w ∈ events, ∀ w' ∈ events, ∀ r r', g.get? w = some r → g.get? w' = some r' →
      r.event.creator = r'.event.creator → w = w') : g.Seats n events := by
  refine ⟨h, ?_⟩
  have hcounts : g.Counts n (events.toFinset.image fun w =>
      (g.get? w).elim 0 (·.event.creator)) := by
    refine counts_of_inRoster fun c hc => ?_
    obtain ⟨w, hw, rfl⟩ := Finset.mem_image.mp hc
    obtain ⟨r, hr, hin⟩ := h w (List.mem_toFinset.mp hw)
    rw [hr]
    exact hin
  rw [← List.toFinset_card_of_nodup hnodup, ← Finset.card_image_of_injOn (f := fun w =>
    (g.get? w).elim 0 (·.event.creator))]
  · exact hcounts.2
  · intro w hw w' hw' hsame
    have hw := List.mem_toFinset.mp (Finset.mem_coe.mp hw)
    have hw' := List.mem_toFinset.mp (Finset.mem_coe.mp hw')
    obtain ⟨r, hr, -⟩ := h w hw
    obtain ⟨r', hr', -⟩ := h w' hw'
    have hsame : (g.get? w).elim 0 (·.event.creator) = (g.get? w').elim 0 (·.event.creator) := hsame
    rw [hr, hr'] at hsame
    exact hdistinct w hw w' hw' r r' hr hr' hsame

end Rosters

/-! ## What a run of seated operations keeps -/

/-- The creators of the stored events are in the rosters they have to be in, and none has forked. -/
structure Manned (g : Hashgraph) : Prop where
  nested : g.Nested
  seated : ∀ {x r}, g.get? x = some r →
    g.InRoster (max (g.newBase r.event - 1) 1) r.event.creator
  unforked : ∀ c, g.forkKnown c = false

section Runs

variable {H : Hasher} {S : Set Event} {registry : MembershipRegistry} {g g' : Hashgraph}
  {x y w hash : EventHash} {r : EventRecord} {event : Event} {i n : ℕ} {c : NodeId}

theorem inRoster_new :
    (Hashgraph.new registry).InRoster n c ↔ 1 ≤ n ∧ c ∈ registry.memberIds := by
  have hhistory : (Hashgraph.new registry).rosterHistory = RosterHistory.new registry := rfl
  rw [InRoster, rosterForRound, hhistory]
  by_cases hn : 1 ≤ n
  · simp [RosterHistory.activeAt_new _ hn, hn]
  · have hnone : (RosterHistory.new registry).activeAt n = none := by
      rw [← Option.not_isSome_iff_eq_none, RosterHistory.isSome_activeAt_iff]
      rintro ⟨k, hk, hmem⟩
      simp only [RosterHistory.new, ExtTreeMap.mem_insert, ExtTreeMap.not_mem_empty,
        or_false] at hmem
      have := Std.compare_eq_iff_eq.mp hmem
      omega
    simp [hnone, hn]

theorem manned_new (registry : MembershipRegistry) : (Hashgraph.new registry).Manned := by
  refine ⟨fun m n c hle hin => ?_, fun {x r} hx => ?_, fun c => ?_⟩
  · rw [inRoster_new] at hin ⊢
    exact ⟨hin.1.trans hle, hin.2⟩
  · rw [get?_new] at hx
    cases hx
  · rw [forkKnown]
    cases (Hashgraph.new registry).memberIndexOf c with
    | none => rfl
    | some j =>
      show ((List.replicate _ false)[j]?).getD false = false
      rw [List.getElem?_replicate]
      split <;> rfl

theorem Consistent.forkKnown_place_of_first (hg : g.Consistent) (hc : g.Checked hash event i)
    (hfirst : g.canonicalChild event.creator event.selfParent = none) (b : Bool) (c : NodeId) :
    (g.place hash event i b).forkKnown c = g.forkKnown c := by
  have hlt : i < g.knownForkers.length := by
    rw [hg.forkers_length]
    exact hg.index_lt hc.member
  have hflagged : (g.place hash event i b).flagged = g.flagged := by
    funext j
    rw [flagged_place hlt, hfirst]
    simp
  rw [forkKnown, hflagged, memberIndexOf, memberIndex_place, forkKnown, memberIndexOf]

theorem Manned.inserted (hm : g.Manned) (hg : g.Consistent) (hw : g.Whole)
    (hc : g.Checked hash event i) (hinserted : g.Inserted hash event i g')
    (hin : g.InRoster (max (g.newBase event - 1) 1) event.creator)
    (hfirst : g.canonicalChild event.creator event.selfParent = none) : g'.Manned := by
  have hroster {n : ℕ} {c : NodeId} : g'.InRoster n c ↔ g.InRoster n c :=
    inRoster_congr hinserted.rosterHistory_eq
  have hrests := rests_of_skeleton_eq hinserted.advances.skeleton_eq
  have hext := hc.extends_place (g.bumps hash event i)
  have hwhole := hw.place hg hc (g.bumps hash event i)
  refine ⟨fun m n c hle h => ?_, fun {x r'} hx => ?_, fun c => ?_⟩
  · rw [hroster] at h ⊢
    exact hm.nested m n c hle h
  · obtain ⟨r, hr, hsame⟩ := hrests.get?_back hx
    rw [show r'.event = r.event from (congrArg EventRecord.event hsame :), hroster,
      hrests.newBase_eq (hwhole.parents hr)]
    rcases get?_place_cases hr with ⟨-, rfl⟩ | hr
    · rw [show (g.newRecord event i (g.bumps hash event i)).event = event from rfl, placed,
        hext.newBase_eq hc.parents]
      exact hin
    · rw [placed, hext.newBase_eq (hw.parents hr)]
      exact hm.seated hr
  · rw [hrests.forked_eq, placed, hg.forkKnown_place_of_first hc hfirst]
    exact hm.unforked c

theorem Manned.effect {op : Op} (hm : g.Manned) (hg : g.Consistent) (hw : g.Whole)
    (hop : op.Seated H g) (h : op.Effect H g g') : g'.Manned := by
  cases h with
  | none hsame => exact hsame ▸ hm
  | insert hhash hc hinserted =>
    obtain ⟨hin, hfirst⟩ := hop _ _ hhash hc
    exact hm.inserted hg hw hc hinserted hin hfirst
  | @addMember node activationRound newRegistry hnew hsame =>
    subst hsame
    obtain ⟨hnested, hgrows⟩ := hop
    have hrests := hg.rests_widen hnew activationRound newRegistry
    refine ⟨hnested, fun {x r'} hx => ?_, fun c => ?_⟩
    · obtain ⟨r, hr, hsame⟩ := hrests.get?_back hx
      rw [show r'.event = r.event from (congrArg EventRecord.event hsame :),
        hrests.newBase_eq (hw.parents hr)]
      exact hgrows _ _ (hm.seated hr)
    · rw [hrests.forked_eq]
      exact hm.unforked c
  | prune _ _ => exact hop.elim

theorem Reached.manned (hfree : H.CollisionFree S)
    (h : Reached H (fun g op => op.From S ∧ op.Seated H g) registry g) : g.Whole ∧ g.Manned :=
  h.invariant (I := fun g => g.Whole ∧ g.Manned) hfree (fun _ _ hop => hop.1)
    ⟨whole_new registry, manned_new registry⟩ fun _ _ _ hs hg hop heffect =>
      ⟨heffect.whole hop.2.keepsEvents hs.wf.toConsistent hg.1,
        hg.2.effect hs.wf.toConsistent hg.1 hop.2 heffect⟩

/-! ## The tests -/

theorem Manned.inRoster (hm : g.Manned) (hx : g.get? x = some r)
    (hn : max (g.newBase r.event - 1) 1 ≤ n) : g.InRoster n r.event.creator :=
  hm.nested _ n _ hn (hm.seated hx)

theorem Manned.seats (hm : g.Manned) (hwf : g.WellFormed) (hw : g.Whole) {m : ℕ} (hle : n ≤ m) :
    g.Seats m (g.witnessesOfRound n) := by
  have hunforked (c : NodeId) : ¬g.ForkedBy c := by
    rintro ⟨a, b, ra, rb, hne, hra, hrb, hca, rfl, hself⟩
    have hknown := hw.forkKnown_of_siblings hra hrb hca hself hne
    rw [hm.unforked] at hknown
    cases hknown
  refine seats_of_inRoster (hwf.witness_nodup n) (fun w hwit => ?_) fun w hwit w' hwit' r r' hr hr'
    hcreator => hw.witness_unique hwf hwit hwit' hr hr' hcreator (hunforked _)
  obtain ⟨r, hr, hround, -⟩ := hwf.witness_sound hwit
  refine ⟨r, hr, hm.inRoster hr ?_⟩
  have hbase := hw.newBase_le_round hr
  have hpos := hwf.round_pos hr
  omega

/-- The members that carry the sight of a witness to an event of the next round. -/
theorem Manned.counts_carriers (hm : g.Manned) (hwf : g.WellFormed) (hw : g.Whole)
    (hy : g.get? y = some r) (hround : r.round = n + 1) (hwit : w ∈ g.witnessesOfRound n) :
    g.Counts n (g.carriers y w) := by
  obtain ⟨rw', hrw, hroundw, -⟩ := hwf.witness_sound hwit
  refine counts_of_inRoster fun c hc => ?_
  obtain ⟨u, s, hanc, ⟨ru, hru, rfl, -⟩, -⟩ := hw.exists_of_carries hwf.toConsistent hy hrw
    (Whole.mem_carriers.mp hc)
  refine hm.inRoster hru ?_
  have hbase := hw.newBase_le_of_anc hy hru hanc
  have hle := hw.newBase_le_round hy
  have hpos := hwf.round_pos hrw
  omega

theorem carries_core (g : Hashgraph) (x y : EventHash) (c : NodeId) :
    g.core.carries x y c = g.carries x y c := by
  rw [carries, carries, get?_core, Option.any_map]
  congr 1
  funext r
  show Option.any _ (g.core.memberIndexOf c) = _
  rw [memberIndexOf_core]
  congr 1
  funext i
  simp [memberCounts]

/-- The members that carry the sight of a witness to a new event, while its round is settled. -/
theorem Manned.counts_new (hm : g.Manned) (hwf : g.WellFormed) (hw : g.Whole)
    (hc : g.Checked hash event i) (hfit : g.Fits hash event)
    (hin : g.InRoster (max (g.newBase event - 1) 1) event.creator)
    (hwit : w ∈ g.witnessesOfRound (g.newBase event)) : g.Counts (g.newBase event)
      ((g.withEvent hash event i (g.recordAt event i (g.newBase event) false)).carriers hash w) := by
  have hmeets := hc.meets hw hwf.toConsistent hfit false
  have hpos : 0 < g.newBase event := newBase_pos hwf
  obtain ⟨rw', hrw, -, -⟩ := hwf.witness_sound hwit
  refine counts_of_inRoster fun c hmem => ?_
  rw [Whole.mem_carriers, ← carries_core, ← core_place (b := false) (g.newBase event) false,
    carries_core] at hmem
  obtain ⟨u, s, hanc, ⟨ru, hru, rfl, -⟩, -⟩ := hmeets.whole'.exists_of_carries hmeets.consistent'
    get?_place_self (hc.get?_place_of_some false hrw) hmem
  rcases get?_place_cases hru with ⟨rfl, rfl⟩ | hru'
  · -- The event counts for itself.
    exact hm.nested _ _ _ (by omega) hin
  · refine hm.inRoster hru' ?_
    have hext := hc.extends_place false
    have hbase := hmeets.whole'.newBase_le_of_anc get?_place_self hru hanc
    rw [hext.newBase_eq (hw.parents hru'), show (g.newRecord event i false).event = event from rfl,
      hext.newBase_eq hc.parents] at hbase
    omega

/-- A new member is added to all later rosters if its roster starts after all others and extends
them. -/
theorem Op.seated_addMember {node : NodeId} {activationRound : ℕ} (hnested : g.Nested)
    (habove : ∀ k ∈ g.rosterHistory.snapshots, k < activationRound + 1)
    (hgrows : ∀ n c, g.InRoster n c → c ∈ registry.memberIds) :
    (Op.addMember node activationRound registry).Seated H g := by
  have hiff (n : ℕ) (c : NodeId) : (g.widen node activationRound registry).InRoster n c ↔
      if activationRound + 1 ≤ n then c ∈ registry.memberIds else g.InRoster n c := by
    rw [InRoster, rosterForRound, show (g.widen node activationRound registry).rosterHistory =
      g.rosterHistory.schedule (activationRound + 1) registry from rfl,
      RosterHistory.activeAt_schedule habove]
    by_cases hn : activationRound + 1 ≤ n
    · simp [hn]
    · simp only [if_neg hn]
      rfl
  refine ⟨fun m n c hle hin => ?_, fun n c hin => ?_⟩
  · rw [hiff] at hin ⊢
    split at hin
    · rwa [if_pos (by omega)]
    · split
      · exact hgrows m c hin
      · exact hnested m n c hle hin
  · rw [hiff]
    split
    · exact hgrows n c hin
    · exact hin

/-- In runs of seated operations every supermajority test counts members of the roster whose size it
compares with, and not more than that roster has: the witnesses of a round against the roster of
that round (`finalize_round`) and of the next one (`vote_of`, `try_eager_decide`), the members that
carry the sight of a witness to a new event, and to a voter of the next round. -/
theorem quorums_count_roster_members (hfree : H.CollisionFree S)
    (h : Reached H (fun g op => op.From S ∧ op.Seated H g) registry g) :
    (∀ n, g.Seats n (g.witnessesOfRound n) ∧ g.Seats (n + 1) (g.witnessesOfRound n)) ∧
      (∀ iter hash event i, event ∈ S → H event = .ok hash → g.Checked hash event i →
        (Op.insert iter event).Seated H g → ∀ w ∈ g.witnessesOfRound (g.newBase event),
          g.Counts (g.newBase event) ((g.withEvent hash event i
            (g.recordAt event i (g.newBase event) false)).carriers hash w)) ∧
      ∀ y r n, g.get? y = some r → r.round = n + 1 → ∀ w ∈ g.witnessesOfRound n,
        g.Counts n (g.carriers y w) := by
  have hs := h.sound hfree fun _ _ hop => hop.1
  obtain ⟨hw, hm⟩ := h.manned hfree
  refine ⟨fun n => ⟨hm.seats hs.wf hw le_rfl, hm.seats hs.wf hw (Nat.le_succ n)⟩, ?_, ?_⟩
  · intro iter hash event i hevent hhash hc hop w hwit
    exact hm.counts_new hs.wf hw hc (hs.fits hfree hevent hhash hc) (hop hash i hhash hc).1 hwit
  · intro y r n hy hround w hwit
    exact hm.counts_carriers hs.wf hw hy hround hwit

end Runs

/-! ## A new member's first event -/

/-- Member 1 joins for round 6 on, and sends an event without parents. -/
def earlyJoin : List Op :=
  [plainInsert 1 0 none none, .addMember 1 5 (plainRegistry 2), plainInsert 2 1 none none,
    plainInsert 3 0 (some 1) (some 2)]

/-- The event is a witness of round 1, whose roster is member 0 alone. Both members then count
towards event 3 strongly seeing it, against a roster of one. -/
theorem new_member_counts_in_old_round :
    ∃ g r, Reached stampHash (fun _ op => op.From {e | e ∈ [plainEvent 1 0 none none,
        plainEvent 2 1 none none, plainEvent 3 0 (some 1) (some 2)]} ∧ op.KeepsEvents)
        (plainRegistry 1) g ∧
      2 ∈ g.witnessesOfRound 1 ∧ g.get? 2 = some r ∧ ¬g.InRoster 1 r.event.creator ∧
      g.carriers 3 2 = {0, 1} ∧ g.totalAt 1 = 1 := by
  have hrun : (replay stampHash (.new (plainRegistry 1)) earlyJoin).any (fun g =>
      decide (2 ∈ g.witnessesOfRound 1) && (g.get? 2).any (·.event.creator == 1) &&
        ((g.rosterForRound 1).toOption.any fun registry => decide (1 ∉ registry.memberIds)) &&
        decide (g.carriers 3 2 = {0, 1}) && decide (g.totalAt 1 = 1)) = true := by decide +kernel
  obtain ⟨g, hg, hvalues⟩ := (Option.any_eq_true ..).mp hrun
  simp only [Bool.and_eq_true, decide_eq_true_eq] at hvalues
  obtain ⟨⟨⟨⟨hwit, hget⟩, hroster⟩, hcarriers⟩, htotal⟩ := hvalues
  obtain ⟨r, hr, hcreator⟩ := (Option.any_eq_true ..).mp hget
  refine ⟨g, r, .replay .new (fun op hop _ => ?_) hg, hwit, hr, ?_, hcarriers, htotal⟩
  · simp only [earlyJoin, List.mem_cons, List.not_mem_nil, or_false] at hop
    rcases hop with rfl | rfl | rfl | rfl <;> simp [plainInsert, Op.From, Op.KeepsEvents]
  · rintro ⟨registry, hregistry, hmem⟩
    rw [hregistry] at hroster
    rw [beq_iff_eq.mp hcreator] at hmem
    exact of_decide_eq_true hroster hmem

/-- Member 1 joins for round 6 on, and member 0 sends its first event. -/
theorem quorums_count_roster_members_first :
    ∃ g, Reached stampHash (fun g op => op.From {e | e ∈ [plainEvent 1 0 none none]} ∧
        op.Seated stampHash g) (plainRegistry 1) g ∧
      g.memberCount = 2 ∧ g.witnessesOfRound 1 = [1] ∧ g.Seats 1 [1] := by
  have hjoin : (Op.addMember 1 5 (plainRegistry 2)).Seated stampHash (.new (plainRegistry 1)) := by
    refine Op.seated_addMember (manned_new _).nested (fun k hk => ?_) fun n c hin => ?_
    · simp only [Hashgraph.new, RosterHistory.new, ExtTreeMap.mem_insert, ExtTreeMap.not_mem_empty,
        or_false] at hk
      have := Std.compare_eq_iff_eq.mp hk
      omega
    · have hsub : ∀ c ∈ (plainRegistry 1).memberIds, c ∈ (plainRegistry 2).memberIds := by
        decide +kernel
      exact hsub c (inRoster_new.mp hin).2
  have hnone : (Hashgraph.new (plainRegistry 1)).memberIndexOf 1 = none := by decide +kernel
  have hfirst : Reached stampHash (fun g op => op.From {e | e ∈ [plainEvent 1 0 none none]} ∧
      op.Seated stampHash g) (plainRegistry 1)
        ((Hashgraph.new (plainRegistry 1)).widen 1 5 (plainRegistry 2)) := by
    have hleads : (Op.addMember 1 5 (plainRegistry 2)).Leads stampHash (.new (plainRegistry 1))
        ((Hashgraph.new (plainRegistry 1)).widen 1 5 (plainRegistry 2)) := by
      refine .inl ⟨(), ?_⟩
      show addMember 1 5 (plainRegistry 2) (.new (plainRegistry 1)) = _
      rw [addMember, get_bind, hnone]
      rfl
    have hadm : (Op.addMember 1 5 (plainRegistry 2)).Admissible (.new (plainRegistry 1)) := hnone
    exact .step .new hadm ⟨trivial, hjoin⟩ hleads
  have hrun : ((plainInsert 1 0 none none).next? stampHash
      ((Hashgraph.new (plainRegistry 1)).widen 1 5 (plainRegistry 2))).any (fun g =>
        decide (g.memberCount = 2) && decide (g.witnessesOfRound 1 = [1])) = true := by
    decide +kernel
  obtain ⟨g, hg, hvalues⟩ := (Option.any_eq_true ..).mp hrun
  rw [Bool.and_eq_true, decide_eq_true_eq, decide_eq_true_eq] at hvalues
  obtain ⟨hadm, hleads⟩ := Op.leads_of_next? hg
  have hreached := Reached.step hfirst hadm ⟨by simp [plainInsert, Op.From], fun hash i _ _ =>
    ⟨hjoin.2 1 0 (inRoster_new.mpr ⟨le_rfl, by decide +kernel⟩), ExtTreeMap.getElem?_empty⟩⟩ hleads
  have hseats := ((quorums_count_roster_members (collisionFree_stampHash (by decide)) hreached).1 1).1
  rw [hvalues.2] at hseats
  exact ⟨g, hreached, hvalues.1, hvalues.2, hseats⟩

end Hashgraph

end JKain
