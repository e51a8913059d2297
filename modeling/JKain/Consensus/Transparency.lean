import JKain.Consensus.Twins

/-!
# Runs with prunes beside runs without

`Paired` pairs a run of insertions with a run of the same insertions that is pruned in between. The
two end as twins, whatever the thresholds, so that a prune shows in nothing that consensus still
computes. A run with prunes into which no event comes back after it was inserted once is the second
run of such a pair; one into which a pruned event comes back is not, and orders that event again.
-/

namespace JKain

open Std

namespace Hashgraph

/-- A run of insertions, and the run of the same insertions with prunes in between; `top` is at
least every threshold. -/
inductive Paired (H : Hasher) (S : Set Event) (registry : MembershipRegistry) :
    ℕ → Hashgraph → Hashgraph → Prop
  | new : Paired H S registry 0 (Hashgraph.new registry) (Hashgraph.new registry)
  | insert {top : ℕ} {g g' t t' : Hashgraph} {iter iter' : IterOrder} {event : Event}
      {hash hash' : EventHash} : Paired H S registry top g g' → event ∈ S →
      Hashgraph.insert H iter event g = .ok hash t →
      Hashgraph.insert H iter' event g' = .ok hash' t' → Paired H S registry top t t'
  | prune {top threshold : ℕ} {g g' t' : Hashgraph} : Paired H S registry top g g' →
      threshold < g'.nextRoundToOrder → Returned (pruneBeforeRound threshold) g' t' →
      Paired H S registry (max top threshold) g t'

/-- What holds of the two graphs of a pair of runs. -/
structure Companions (H : Hasher) (S : Set Event) (registry : MembershipRegistry) (top : ℕ)
    (g g' : Hashgraph) : Prop where
  left : Reached H (fun _ op => op.Inserts S) registry g
  right : Reached H (fun _ op => op.Static S) registry g'
  twin : Twin registry g g'
  gone : ∀ {x}, (g.get? x).isSome → g'.get? x = none → ∃ n < top, g.roundReceived x = some n

section Step

variable {H : Hasher} {S : Set Event} {registry : MembershipRegistry} {g g' t t' : Hashgraph}
  {hash x : EventHash} {event : Event} {i top threshold : ℕ} {iter : IterOrder}

theorem Companions.sound (h : Companions H S registry top g g') (hfree : H.CollisionFree S) :
    g.Sound H S ∧ g'.Sound H S :=
  ⟨h.left.sound hfree fun _ _ hop => hop.from, h.right.sound hfree fun _ _ hop => hop.from⟩

/-- An event the pruned graph accepts and the other one does not hold is accepted by both. -/
theorem Companions.newcomer (h : Companions H S registry top g g') (hfree : H.CollisionFree S)
    (hforks : ForkFree S) (hevent : event ∈ S) (hhash : H event = .ok hash)
    (hc' : g'.Checked hash event i) (hfresh : g.get? hash = none) :
    Newcomer g g' hash event i := by
  obtain ⟨hs, hs'⟩ := h.sound hfree
  have htwin := h.twin
  have hclosing := h.left.closing hfree hforks
  obtain ⟨past, htraced⟩ := hclosing.traced
  obtain ⟨-, -, past', htraced'⟩ := h.right.traced hfree hforks
  have hc : g.Checked hash event i := by
    refine ⟨hfresh, (htwin.memberIndexOf_eq _).symm.trans hc'.member,
      fun p hp => htwin.isSome_left (hc'.parents p hp), fun {r} hself => ?_⟩
    obtain ⟨p, hp, hr⟩ := exists_selfParent_of_selfRecord hself
    obtain ⟨r', hr'⟩ := Option.isSome_iff_exists.mp
      (hc'.parents p (Event.mem_parents.mpr (.inl hp)))
    rw [← (htwin.record_eq hr hr').1]
    exact hc'.self_creator (by rw [selfRecord, hp, Option.bind_some, hr'])
  refine ⟨hc, hc', hs.fits hfree hevent hhash hc, hs'.fits hfree hevent hhash hc', ?_,
    htraced'.charted.canonicalChild_cases hforks hevent hhash,
    fun b => (htraced.place hfree hforks hs hevent hhash hc htwin.fixed.columns b).unflagged,
    fun b => (htraced'.place hfree hforks hs' hevent hhash hc' htwin.fixed'.columns b).unflagged,
    fun hn b => hclosing.lt_newRound hfree hforks hevent hhash hc hn b⟩
  rcases htwin.whole.slot_or_branch htwin.wf.toConsistent hc with hnone | hflag | hbranch
  · exact hnone
  · rw [htwin.clean] at hflag
    cases hflag
  · rcases htraced.charted.canonicalChild_cases hforks hevent hhash with hchild | hchild
    · rw [hchild] at hbranch
      cases hbranch
    · rw [hchild, Option.any_some, bne_self_eq_false] at hbranch
      cases hbranch

/-- The pruned graph inserts such an event without a panic. -/
theorem Companions.insert_ok (h : Companions H S registry top g g') (hfree : H.CollisionFree S)
    (hevent : event ∈ S) (hhash : H event = .ok hash) (hn : Newcomer g g' hash event i)
    (iter : IterOrder) :
    ∃ t', Hashgraph.insert H iter event g' = .ok hash t' ∧ g'.Inserted hash event i t' := by
  have htwin := h.twin
  have harmed : g'.Armed H S := by
    refine ⟨(h.sound hfree).2, fun x r' j hx hj hflag => ?_, h.right.hasRoster_next hfree
      fun _ _ hop => hop.from⟩
    obtain ⟨r, hr, -⟩ := htwin.record hx
    obtain ⟨hevent, hseq, -⟩ := htwin.record_eq hr hx
    rw [htwin.slot, hevent, hseq]
    refine ⟨?_, Option.isSome_of_eq_some hx⟩
    exact (htwin.whole.eventForCreatorSeq_iff htwin.wf.toConsistent htwin.clean).mpr
      (isEventAt_of_get? hr)
  refine harmed.insert_ok hfree hevent hhash hn.right (fun hash' i' hhash' hc => ?_) iter
  refine ⟨htwin.fixed'.hasRoster (newBase_pos htwin.wf'), fun w n hw => ?_, .inl ?_⟩
  · obtain ⟨-, r, hr, rfl⟩ := (htwin.exact' w n).mp hw
    exact htwin.fixed'.hasRoster (htwin.wf'.round_pos hr)
  · rw [htwin.newSeq_eq hn.right.parents]
    cases hslot : g'.eventForCreatorSeq event.creator (g.newSeq event) with
    | none => rfl
    | some y =>
      have hleft := (htwin.slot.mp hslot).1
      rw [hn.slot] at hleft
      cases hleft

/-- The same insertion into both graphs. -/
theorem Companions.insert (h : Companions H S registry top g g') (hfree : H.CollisionFree S)
    (hevent : event ∈ S) (hn : Newcomer g g' hash event i) (hins : g.Inserted hash event i t)
    (hins' : g'.Inserted hash event i t') {iter' : IterOrder}
    (hleads : Returned (Hashgraph.insert H iter event) g t)
    (hleads' : Returned (Hashgraph.insert H iter' event) g' t') :
    Companions H S registry top t t' := by
  have hadm : (Op.insert iter event).Admissible g := trivial
  have hadm' : (Op.insert iter' event).Admissible g' := trivial
  have heffect : (Op.insert iter event).Effect H g t :=
    Op.effect (h.sound hfree).1 hfree hadm hevent hleads
  refine ⟨h.left.step hadm hevent hleads, h.right.step hadm' hevent hleads',
    h.twin.insert hn hins hins', fun {x} hx hmissing => ?_⟩
  -- The same events are missing as before, and they keep their order.
  rw [← Option.not_isSome_iff_eq_none, hins'.isSome_iff, not_or,
    Option.not_isSome_iff_eq_none] at hmissing
  have hold := ((hins.isSome_iff x).mp hx).resolve_left hmissing.1
  obtain ⟨n, hlt, hrec⟩ := h.gone hold hmissing.2
  exact ⟨n, hlt, (congrArg Prod.fst (heffect.orderOf_eq trivial hrec)).trans hrec⟩

/-- A prune of the one graph. -/
theorem Companions.prune (h : Companions H S registry top g g') (hfree : H.CollisionFree S)
    (hforks : ForkFree S) (hlt : threshold < g'.nextRoundToOrder)
    (hleads : Returned (pruneBeforeRound threshold) g' t') :
    Companions H S registry (max top threshold) g t' := by
  have hadm : (Op.prune threshold).Admissible g' := hlt
  have hstatic : (Op.prune threshold).Static S := trivial
  have hright := h.right.step hadm hstatic hleads
  obtain ⟨hfix, hripe, -⟩ := h.right.traced hfree hforks
  obtain ⟨hfix', -, -⟩ := hright.traced hfree hforks
  cases Op.effect (h.sound hfree).2 hfree hadm hstatic.from hleads with
  | none hsame =>
    subst hsame
    refine ⟨h.left, hright, h.twin, fun hx hmissing => ?_⟩
    obtain ⟨n, hn, hrec⟩ := h.gone hx hmissing
    exact ⟨n, lt_max_of_lt_left hn, hrec⟩
  | prune _ hpruned =>
    refine ⟨h.left, hright, h.twin.prune (h.left.ordered hfree hforks)
      (h.left.watermarked hfree fun _ _ hop => hop.from) hripe hfix' hpruned,
      fun {x} hx hmissing => ?_⟩
    cases hx' : g'.get? x with
    | none =>
      obtain ⟨n, hn, hrec⟩ := h.gone hx hx'
      exact ⟨n, lt_max_of_lt_left hn, hrec⟩
    | some r' =>
      have hgone : x ∈ (g'.prunedEvents threshold).toFinset := by
        by_contra hkept
        rw [hpruned.get?_eq hkept, hx'] at hmissing
        cases hmissing
      obtain ⟨n, hn, hrec⟩ := received_of_mem_prunedEvents hgone
      refine ⟨n, lt_max_of_lt_right hn, ?_⟩
      exact (congrArg Prod.fst (h.twin.order (Option.isSome_of_eq_some hx'))).symm.trans hrec

theorem companions_new (registry : MembershipRegistry) :
    Companions H S registry 0 (Hashgraph.new registry) (Hashgraph.new registry) := by
  have hmissing {x : EventHash} (hx : ((Hashgraph.new registry).get? x).isSome) : False := by
    rw [get?_new] at hx
    cases hx
  have hclean (i : ℕ) : (Hashgraph.new registry).flagged i = false :=
    (traced_new (H := fun _ => .error "") (S := ∅) registry).unflagged i
  have hwitness (n : ℕ) : (Hashgraph.new registry).witnessesOfRound n = [] := by
    by_contra hne
    obtain ⟨w, hw⟩ := List.exists_mem_of_ne_nil _ hne
    obtain ⟨r, hr, -⟩ := (wellFormed_new registry).witness_sound hw
    exact hmissing (Option.isSome_of_eq_some hr)
  have hmark := watermarked_new registry
  refine ⟨.new, .new, ?_, fun hx => (hmissing hx).elim⟩
  exact {
    whole := whole_new registry
    wf := wellFormed_new registry
    wf' := wellFormed_new registry
    clean := hclean
    clean' := hclean
    fixed := ⟨rfl, rfl, rfl⟩
    fixed' := ⟨rfl, rfl, rfl⟩
    record := fun {x r'} hx => ⟨r', hx, rfl⟩
    lost := fun hz => (hmissing hz).elim
    slot := fun {c s x} => by
      refine ⟨fun hx => ⟨hx, ?_⟩, fun hx => hx.1⟩
      obtain ⟨r, hr, -⟩ := (wellFormed_new registry).indexed hx
      exact Option.isSome_of_eq_some hr
    latest := fun _ => rfl
    canonical := fun hx => (hmissing hx).elim
    witnesses := fun n => by rw [hwitness, List.filter_nil]
    highest := rfl
    exact := (sound_new (H := fun _ => .error "") (S := ∅) registry).exact
    exact' := (sound_new (H := fun _ => .error "") (S := ∅) registry).exact
    settled := fun n hn => by
      rw [isRoundDecided, Hashgraph.new] at hn
      simp at hn
    below := hmark.decided
    undecided := hmark.undecided
    fame := fun _ => rfl
    votes := fun _ => rfl
    order := fun _ => rfl
    decided := fun _ => rfl
    next := rfl }

/-- The two runs of a pair end as twins. -/
theorem Paired.companions (hfree : H.CollisionFree S) (hforks : ForkFree S)
    (h : Paired H S registry top g g') : Companions H S registry top g g' := by
  induction h with
  | new => exact companions_new registry
  | insert _ hevent hok hok' ih =>
    obtain ⟨hs, hs'⟩ := ih.sound hfree
    obtain ⟨i, hhash, hc, hins⟩ := checked_of_insert_ok hs hfree hevent hok
    obtain ⟨i', hhash', hc', hins'⟩ := checked_of_insert_ok hs' hfree hevent hok'
    obtain rfl := Except.ok.inj (hhash.symm.trans hhash')
    obtain rfl : i = i' := by
      rw [← Option.some.injEq, ← hc.member, ← hc'.member, ih.twin.memberIndexOf_eq]
    have hn := ih.newcomer hfree hforks hevent hhash hc' hc.fresh
    exact ih.insert hfree hevent hn hins hins' (.inl ⟨_, hok⟩) (.inl ⟨_, hok'⟩)
  | prune _ hlt hleads ih => exact ih.prune hfree hforks hlt hleads

/-- An event that extends its creator's newest one was not inserted before. -/
theorem Closing.fresh (h : Closing H S registry g) (hfree : H.CollisionFree S) (hevent : event ∈ S)
    (hhash : H event = .ok hash) (hnewest : event.selfParent = g.latestEventBy event.creator) :
    g.get? hash = none := by
  cases hr : g.get? hash with
  | none => rfl
  | some r =>
    obtain ⟨past, htraced⟩ := h.traced
    obtain ⟨hhash', hnum⟩ := h.sound.numbered hr
    obtain rfl := hfree r.event hnum.mem event hevent hash hhash' hhash
    obtain ⟨e, n, z, rz, he, hnum', hz, hrz, hle⟩ :=
      htraced.dated hash (htraced.stored (Option.isSome_of_eq_some hr))
    obtain rfl := hfree e hnum'.mem r.event hevent hash he hhash
    -- The newest event is its self-parent, one number below.
    have hseq := (h.sound.wf.self_parent hr (hnewest.trans hz) hrz).1
    have := hnum.unique hfree hnum'
    omega

/-- A call of `insert` on both graphs, with an event that extends its creator's newest one and whose
parents survive: both accept it or both reject it. -/
theorem Companions.call_cases (h : Companions H S registry top g g') (hfree : H.CollisionFree S)
    (hforks : ForkFree S) (hevent : event ∈ S)
    (hnewest : event.selfParent = g'.latestEventBy event.creator)
    (hparents : ∀ p ∈ event.parents, (g'.get? p).isSome) (iter iter' : IterOrder) :
    (∃ hash t t', Hashgraph.insert H iter event g = .ok hash t ∧
        Hashgraph.insert H iter' event g' = .ok hash t' ∧ Companions H S registry top t t' ∧
        (t'.get? hash).isSome) ∨
      ∃ c c', Hashgraph.insert H iter event g = .error (.err c) g ∧
        Hashgraph.insert H iter' event g' = .error (.err c') g' := by
  by_cases hchecked : ∃ hash i, H event = .ok hash ∧ g'.Checked hash event i
  · obtain ⟨hash, i, hhash, hc'⟩ := hchecked
    have hfresh := (h.left.closing hfree hforks).fresh hfree hevent hhash
      (hnewest.trans (h.twin.latest _))
    have hn := h.newcomer hfree hforks hevent hhash hc' hfresh
    obtain ⟨t, hok, hins⟩ := h.left.insert_ok hfree hevent hhash hn.left iter
    obtain ⟨t', hok', hins'⟩ := h.insert_ok hfree hevent hhash hn iter'
    refine .inl ⟨hash, t, t', hok, hok',
      h.insert hfree hevent hn hins hins' (.inl ⟨_, hok⟩) (.inl ⟨_, hok'⟩), ?_⟩
    exact (hins'.isSome_iff hash).mpr (.inl rfl)
  · have hno' (hash : EventHash) (i : ℕ) (hhash : H event = .ok hash) :
        ¬g'.Checked hash event i := fun hc' => hchecked ⟨hash, i, hhash, hc'⟩
    have hno (hash : EventHash) (i : ℕ) (hhash : H event = .ok hash) :
        ¬g.Checked hash event i := by
      -- The parents survive, so that the pruned graph makes the same checks.
      intro hc
      refine hno' hash i hhash ⟨?_, (h.twin.memberIndexOf_eq _).trans hc.member, hparents,
        fun {r'} hself => ?_⟩
      · rw [← Option.not_isSome_iff_eq_none]
        intro hstored
        have hleft := h.twin.isSome_left hstored
        rw [hc.fresh] at hleft
        cases hleft
      · obtain ⟨p, hp, hr'⟩ := exists_selfParent_of_selfRecord hself
        obtain ⟨r, hr, -⟩ := h.twin.record hr'
        rw [(h.twin.record_eq hr hr').1]
        exact hc.self_creator (by rw [selfRecord, hp, Option.bind_some, hr])
    obtain ⟨c, hreject⟩ := insert_rejects hno iter
    obtain ⟨c', hreject'⟩ := insert_rejects hno' iter'
    exact .inr ⟨c, c', hreject, hreject'⟩

end Step

/-! ## What a prune shows in -/

/-- What consensus computes agrees in a graph and in one of the same events that was pruned below
`top`. -/
structure Agree (top : ℕ) (g g' : Hashgraph) : Prop where
  record : ∀ {x r'}, g'.get? x = some r' → ∃ r, g.get? x = some r ∧ r'.event = r.event ∧
    r'.seq = r.seq ∧ r'.ancestorSeqs = r.ancestorSeqs ∧ r'.round = r.round ∧
    r'.isWitness = r.isWitness
  /-- What is missing was received before `top`. -/
  missing : ∀ {x}, (g.get? x).isSome → g'.get? x = none → ∃ n < top, g.roundReceived x = some n
  fame : ∀ {w}, (g'.get? w).isSome → g'.fameOf w = g.fameOf w
  decided : ∀ n, g'.isRoundDecided n = g.isRoundDecided n
  received : ∀ {x}, (g'.get? x).isSome → g'.roundReceived x = g.roundReceived x
  timestamp : ∀ {x}, (g'.get? x).isSome → g'.consensusTimestamp x = g.consensusTimestamp x
  order : ∀ {n}, top ≤ n → g'.consensusOrder n = g.consensusOrder n

/-- Calls of `insert` on both graphs, with events that extend their creator's newest event and whose
parents survive in the second graph. -/
inductive Continued (H : Hasher) (S : Set Event) (g g' : Hashgraph) : Hashgraph → Hashgraph → Prop
  | refl : Continued H S g g' g g'
  | call {t t' u u' : Hashgraph} {iter iter' : IterOrder} {event : Event} :
      Continued H S g g' t t' → event ∈ S → event.selfParent = t'.latestEventBy event.creator →
      (∀ p ∈ event.parents, (t'.get? p).isSome) → Returned (Hashgraph.insert H iter event) t u →
      Returned (Hashgraph.insert H iter' event) t' u' → Continued H S g g' u u'

section Agree

variable {H : Hasher} {S : Set Event} {registry : MembershipRegistry} {g g' t t' : Hashgraph}
  {top : ℕ}

theorem Companions.agree (h : Companions H S registry top g g') : Agree top g g' := by
  have hstored {x : EventHash} {n : ℕ} (hx : g'.roundReceived x = some n) :
      (g'.get? x).isSome := by
    obtain ⟨r, hr, -⟩ := Option.bind_eq_some_iff.mp hx
    exact Option.isSome_of_eq_some hr
  refine ⟨fun {x r'} hx => ?_, h.gone, h.twin.fame, h.twin.decided,
    fun hx => congrArg Prod.fst (h.twin.order hx), fun hx => congrArg Prod.snd (h.twin.order hx),
    fun {n} hn => consensusOrder_congr (fun x => ⟨fun hx => ?_, fun hx => ?_⟩) fun {x} hx => ?_⟩
  · obtain ⟨r, hr, -⟩ := h.twin.record hx
    exact ⟨r, hr, h.twin.record_eq hr hx⟩
  · exact (congrArg Prod.fst (h.twin.order (hstored hx))).symm.trans hx
  all_goals
    -- An event received from `top` on is not missing.
    have hx' : (g'.get? x).isSome := by
      rw [Option.isSome_iff_ne_none]
      intro hmissing
      obtain ⟨r, hr, -⟩ := Option.bind_eq_some_iff.mp hx
      obtain ⟨m, hm, hrec⟩ := h.gone (Option.isSome_of_eq_some hr) hmissing
      rw [hx, Option.some.injEq] at hrec
      omega
  · exact (congrArg Prod.fst (h.twin.order hx')).trans hx
  · obtain ⟨r, r', hr, hr'⟩ := h.twin.exists_records hx'
    rw [orderKey, orderKey, hr, hr', Option.map_some, Option.map_some, (h.twin.record_eq hr hr').1,
      show g'.consensusTimestamp x = g.consensusTimestamp x from
        congrArg Prod.snd (h.twin.order hx')]

/-- A continuation of two companions ends in companions. -/
theorem Companions.continued (h : Companions H S registry top g g') (hfree : H.CollisionFree S)
    (hforks : ForkFree S) (hcont : Continued H S g g' t t') :
    Companions H S registry top t t' := by
  induction hcont with
  | refl => exact h
  | @call t t' u u' iter iter' event _ hevent hnewest hparents hleads hleads' ih =>
    rcases ih.call_cases hfree hforks hevent hnewest hparents iter iter' with
      ⟨hash, v, v', hok, hok', hnext, -⟩ | ⟨c, c', hreject, hreject'⟩
    · rw [hleads.eq_of_ok hok, hleads'.eq_of_ok hok']
      exact hnext
    · rw [hleads.eq_of_err hreject, hleads'.eq_of_err hreject']
      exact ih

/-- Pruning is transparent to consensus: after a run of insertions and the same run with prunes in
between, and after every continuation of both, the two graphs agree on the events that are left, on
the decided rounds and on the order from the largest threshold on; and the next event that extends
its creator's newest one and whose parents survive is accepted by both, with the same number, row,
round and witness flag, or rejected by both. -/
theorem pruning_transparent (hfree : H.CollisionFree S) (hforks : ForkFree S)
    (h : Paired H S registry top g g') (hcont : Continued H S g g' t t') :
    Agree top t t' ∧ ∀ event ∈ S, event.selfParent = t'.latestEventBy event.creator →
      (∀ p ∈ event.parents, (t'.get? p).isSome) → ∀ iter iter',
        (∃ hash u u', Hashgraph.insert H iter event t = .ok hash u ∧
            Hashgraph.insert H iter' event t' = .ok hash u' ∧ (u'.get? hash).isSome ∧
            Agree top u u') ∨
          ∃ c c', Hashgraph.insert H iter event t = .error (.err c) t ∧
            Hashgraph.insert H iter' event t' = .error (.err c') t' := by
  have hcompanions := (h.companions hfree hforks).continued hfree hforks hcont
  refine ⟨hcompanions.agree, fun event hevent hnewest hparents iter iter' => ?_⟩
  rcases hcompanions.call_cases hfree hforks hevent hnewest hparents iter iter' with
    ⟨hash, u, u', hok, hok', hnext, hstored⟩ | hreject
  · exact .inl ⟨hash, u, u', hok, hok', hstored, hnext.agree⟩
  · exact .inr hreject

/-- Both graphs after an insertion that both accept. -/
def insertBoth (H : Hasher) (iter : IterOrder) (gs : Hashgraph × Hashgraph) (event : Event) :
    Option (Hashgraph × Hashgraph) :=
  match Hashgraph.insert H iter event gs.1, Hashgraph.insert H iter event gs.2 with
  | .ok _ t, .ok _ t' => some (t, t')
  | _, _ => none

theorem insert_of_insertBoth {iter : IterOrder} {gs ts : Hashgraph × Hashgraph} {event : Event}
    (h : insertBoth H iter gs event = some ts) :
    (∃ hash, Hashgraph.insert H iter event gs.1 = .ok hash ts.1) ∧
      ∃ hash, Hashgraph.insert H iter event gs.2 = .ok hash ts.2 := by
  unfold insertBoth at h
  split at h
  · rename_i hash t hash' t' hok hok'
    obtain rfl := Option.some.inj h
    exact ⟨⟨hash, hok⟩, hash', hok'⟩
  · cases h

theorem Paired.insertBoth {iter : IterOrder} {gs ts : Hashgraph × Hashgraph} {events : List Event}
    (h : Paired H S registry top gs.1 gs.2) (hevents : ∀ e ∈ events, e ∈ S)
    (hrun : events.foldlM (insertBoth H iter) gs = some ts) :
    Paired H S registry top ts.1 ts.2 := by
  induction events generalizing gs with
  | nil =>
    obtain rfl := Option.some.inj hrun
    exact h
  | cons e events ih =>
    rw [List.foldlM_cons] at hrun
    obtain ⟨us, hus, hrest⟩ := Option.bind_eq_some_iff.mp hrun
    obtain ⟨⟨hash, hok⟩, hash', hok'⟩ := insert_of_insertBoth hus
    exact ih (h.insert (hevents e (by simp)) hok hok') (fun e he => hevents e (by simp [he])) hrest

/-- Both graphs after the insertions, a prune of the second one, and the insertions after that. -/
def pruneBetween (H : Hasher) (registry : MembershipRegistry) (threshold : ℕ)
    (before after : List Event) :
    Option ((Hashgraph × Hashgraph) × (Hashgraph × Hashgraph)) := do
  let gs ← before.foldlM (insertBoth H inOrder) (.new registry, .new registry)
  let g' ← (Op.prune threshold).next? H gs.2
  let ts ← after.foldlM (insertBoth H inOrder) (gs.1, g')
  return ((gs.1, g'), ts)

theorem paired_of_pruneBetween {threshold : ℕ} {before after : List Event}
    {s : (Hashgraph × Hashgraph) × (Hashgraph × Hashgraph)}
    (h : pruneBetween H registry threshold before after = some s)
    (hbefore : ∀ e ∈ before, e ∈ S) :
    Paired H S registry threshold s.1.1 s.1.2 ∧
      after.foldlM (insertBoth H inOrder) s.1 = some s.2 := by
  obtain ⟨gs, hgs, hrest⟩ := Option.bind_eq_some_iff.mp h
  obtain ⟨g', hg', hrest⟩ := Option.bind_eq_some_iff.mp hrest
  obtain ⟨ts, hts, hs⟩ := Option.bind_eq_some_iff.mp hrest
  obtain rfl := Option.some.inj hs
  obtain ⟨hlt, hleads⟩ := Op.leads_of_next? hg'
  have hpaired : Paired H S registry 0 gs.1 gs.2 := Paired.new.insertBoth hbefore hgs
  refine ⟨?_, hts⟩
  rw [← Nat.zero_max threshold]
  exact hpaired.prune hlt hleads

/-- The theorem at a chain of five events whose first one is pruned, continued by the sixth. -/
theorem pruning_transparent_chain :
    ∃ g g' t t', Paired stampHash {e | e ∈ soloChain 6} (plainRegistry 1) 3 g g' ∧
      g'.get? 1 = none ∧ Continued stampHash {e | e ∈ soloChain 6} g g' t t' ∧
      t'.roundReceived 4 = some 4 ∧ Agree 3 t t' := by
  have hrun : ((pruneBetween stampHash (plainRegistry 1) 3 (soloChain 5)
      [plainEvent 6 0 (some 5) none]).any fun s => (s.1.2.get? 1).isNone &&
        s.1.2.latestEventBy 0 == some 5 && (s.1.2.get? 5).isSome &&
        s.2.2.roundReceived 4 == some 4) = true := by
    decide +kernel
  obtain ⟨s, hs, hfacts⟩ := (Option.any_eq_true ..).mp hrun
  simp only [Bool.and_eq_true, beq_iff_eq, Option.isNone_iff_eq_none] at hfacts
  obtain ⟨⟨⟨hgone, hlatest⟩, hparent⟩, hreceived⟩ := hfacts
  obtain ⟨hpaired, hafter⟩ := paired_of_pruneBetween (S := {e | e ∈ soloChain 6}) hs (by decide)
  rw [List.foldlM_cons] at hafter
  obtain ⟨ts, hts, hlast⟩ := Option.bind_eq_some_iff.mp hafter
  rw [Option.some.inj hlast] at hts
  obtain ⟨hok, hok'⟩ := insert_of_insertBoth hts
  have hcont : Continued stampHash {e | e ∈ soloChain 6} s.1.1 s.1.2 s.2.1 s.2.2 :=
    .call .refl (by decide) hlatest.symm (by simpa [plainEvent, Event.parents] using hparent)
      (.inl hok) (.inl hok')
  exact ⟨s.1.1, s.1.2, s.2.1, s.2.2, hpaired, hgone, hcont, hreceived,
    (pruning_transparent (collisionFree_soloChain 6) (forkFree_of_pairwise (by decide)) hpaired
      hcont).1⟩

end Agree

/-! ## Runs into which no event comes back -/

/-- The states of runs with prunes, with the hashes inserted so far: an accepted event was not
inserted before. -/
inductive Unrepeated (H : Hasher) (S : Set Event) (registry : MembershipRegistry) :
    Finset EventHash → Hashgraph → Prop
  | new : Unrepeated H S registry ∅ (Hashgraph.new registry)
  | insert {past : Finset EventHash} {g g' : Hashgraph} {iter : IterOrder} {event : Event}
      {hash : EventHash} : Unrepeated H S registry past g → event ∈ S → hash ∉ past →
      Hashgraph.insert H iter event g = .ok hash g' → Unrepeated H S registry (past ∪ {hash}) g'
  | reject {past : Finset EventHash} {g g' : Hashgraph} {iter : IterOrder} {event : Event}
      {c : ConsensusError} : Unrepeated H S registry past g → event ∈ S →
      Hashgraph.insert H iter event g = .error (.err c) g' → Unrepeated H S registry past g'
  | prune {past : Finset EventHash} {g g' : Hashgraph} {threshold : ℕ} :
      Unrepeated H S registry past g → threshold < g.nextRoundToOrder →
      Returned (pruneBeforeRound threshold) g g' → Unrepeated H S registry past g'

section Unrepeated

variable {H : Hasher} {S : Set Event} {registry : MembershipRegistry} {past : Finset EventHash}
  {g g' : Hashgraph} {top : ℕ}

/-- A run into which no event comes back is the pruned run of a pair, beside the run that kept all
the events inserted so far. -/
theorem Unrepeated.paired (hfree : H.CollisionFree S) (hforks : ForkFree S)
    (h : Unrepeated H S registry past g') :
    ∃ top g, Paired H S registry top g g' ∧ ∀ x, (g.get? x).isSome ↔ x ∈ past := by
  induction h with
  | new => exact ⟨0, _, .new, fun x => by simp [get?_new]⟩
  | @insert past g' t' iter event hash _ hevent hpast hok' ih =>
    obtain ⟨top, g, hpaired, hstored⟩ := ih
    have hcompanions := hpaired.companions hfree hforks
    obtain ⟨i, hhash, hc', -⟩ :=
      checked_of_insert_ok (hcompanions.sound hfree).2 hfree hevent hok'
    have hfresh : g.get? hash = none := by
      rw [← Option.not_isSome_iff_eq_none, hstored]
      exact hpast
    have hn := hcompanions.newcomer hfree hforks hevent hhash hc' hfresh
    obtain ⟨t, hleft, hins⟩ := hcompanions.left.insert_ok hfree hevent hhash hn.left iter
    refine ⟨top, t, hpaired.insert hevent hleft hok', fun x => ?_⟩
    rw [hins.isSome_iff, hstored, Finset.mem_union, Finset.mem_singleton, or_comm]
  | reject _ hevent hfail ih =>
    obtain ⟨top, g, hpaired, hstored⟩ := ih
    have hs' := ((hpaired.companions hfree hforks).sound hfree).2
    rcases insert_cases hs' hfree hevent (.inr ⟨_, hfail⟩) with ⟨-, rfl⟩ | ⟨_, _, _, _, _, hok⟩
    · exact ⟨top, g, hpaired, hstored⟩
    · rw [hfail] at hok
      cases hok
  | prune _ hlt hleads ih =>
    obtain ⟨top, g, hpaired, hstored⟩ := ih
    exact ⟨_, g, hpaired.prune hlt hleads, hstored⟩

/-- The pruned run of a pair inserts every event once. -/
theorem Paired.unrepeated (hfree : H.CollisionFree S) (hforks : ForkFree S)
    (h : Paired H S registry top g g') :
    ∃ past, Unrepeated H S registry past g' ∧ ∀ x, (g.get? x).isSome ↔ x ∈ past := by
  induction h with
  | new => exact ⟨∅, .new, fun x => by simp [get?_new]⟩
  | @insert top g g' t t' iter iter' event hash hash' hpaired hevent hok hok' ih =>
    obtain ⟨past, hrun, hstored⟩ := ih
    obtain ⟨hs, hs'⟩ := (hpaired.companions hfree hforks).sound hfree
    obtain ⟨i, hhash, hc, hins⟩ := checked_of_insert_ok hs hfree hevent hok
    obtain ⟨i', hhash', -, -⟩ := checked_of_insert_ok hs' hfree hevent hok'
    obtain rfl := Except.ok.inj (hhash.symm.trans hhash')
    refine ⟨past ∪ {hash}, hrun.insert hevent ?_ hok', fun x => ?_⟩
    · rw [← hstored, hc.fresh]
      exact Bool.false_ne_true
    · rw [hins.isSome_iff, hstored, Finset.mem_union, Finset.mem_singleton, or_comm]
  | prune _ hlt hleads ih =>
    obtain ⟨past, hrun, hstored⟩ := ih
    exact ⟨past, hrun.prune hlt hleads, hstored⟩

/-- The order means what it is defined to mean, in every run with prunes into which no event comes
back: beside the graph of the run there is the graph of all the events inserted so far, the two agree
on what consensus computes, and the order of an event is the one defined over the ancestry in the
latter. The next insertion returns, so that no assertion fails, unless it brings back an event. -/
theorem order_meets_definition (hfree : H.CollisionFree S) (hforks : ForkFree S)
    (h : Unrepeated H S registry past g') :
    (∃ top g, Reached H (fun _ op => op.Inserts S) registry g ∧
      (∀ x, (g.get? x).isSome ↔ x ∈ past) ∧ Agree top g g' ∧
      ∀ x n, g'.roundReceived x = some n →
        ∃ t, g'.consensusTimestamp x = some t ∧ g.ReceivedAs x n t) ∧
      ∀ event ∈ S, (∀ hash, H event = .ok hash → hash ∈ past → (g'.get? hash).isSome) →
        ∀ iter, ∃ t', Returned (Hashgraph.insert H iter event) g' t' := by
  obtain ⟨top, g, hpaired, hstored⟩ := h.paired hfree hforks
  have hcompanions := hpaired.companions hfree hforks
  refine ⟨⟨top, g, hcompanions.left, hstored, hcompanions.agree, fun x n hx => ?_⟩,
    fun event hevent hback iter => ?_⟩
  · obtain ⟨r', hr', -⟩ := Option.bind_eq_some_iff.mp hx
    have hx' : (g'.get? x).isSome := Option.isSome_of_eq_some hr'
    rw [hcompanions.agree.received hx'] at hx
    rw [hcompanions.agree.timestamp hx']
    exact (hcompanions.left.ordered hfree hforks).received hx
  · by_cases hchecked : ∃ hash i, H event = .ok hash ∧ g'.Checked hash event i
    · obtain ⟨hash, i, hhash, hc'⟩ := hchecked
      -- An event that passes the checks is not stored, so it was not inserted before.
      have hfresh : g.get? hash = none := by
        rw [← Option.not_isSome_iff_eq_none, hstored]
        intro hpast
        have hheld := hback hash hhash hpast
        rw [hc'.fresh] at hheld
        cases hheld
      have hn := hcompanions.newcomer hfree hforks hevent hhash hc' hfresh
      obtain ⟨t', hok', -⟩ := hcompanions.insert_ok hfree hevent hhash hn iter
      exact ⟨t', .inl ⟨hash, hok'⟩⟩
    · obtain ⟨c, hreject⟩ := insert_rejects
        (fun hash i hhash hc' => hchecked ⟨hash, i, hhash, hc'⟩) iter
      exact ⟨g', .inr ⟨c, hreject⟩⟩

/-- The theorem at a chain of five events whose first one is pruned, continued by the sixth. -/
theorem order_meets_definition_chain :
    ∃ past g', Unrepeated stampHash {e | e ∈ soloChain 6} (plainRegistry 1) past g' ∧
      g'.get? 1 = none ∧ g'.roundReceived 4 = some 4 ∧ ∃ top g, Agree top g g' ∧
      ∃ t, g'.consensusTimestamp 4 = some t ∧ g.ReceivedAs 4 4 t := by
  have hrun : ((pruneBetween stampHash (plainRegistry 1) 3 (soloChain 5)
      [plainEvent 6 0 (some 5) none]).any fun s => (s.2.2.get? 1).isNone &&
        s.2.2.roundReceived 4 == some 4) = true := by
    decide +kernel
  obtain ⟨s, hs, hfacts⟩ := (Option.any_eq_true ..).mp hrun
  simp only [Bool.and_eq_true, beq_iff_eq, Option.isNone_iff_eq_none] at hfacts
  obtain ⟨hpaired, hafter⟩ := paired_of_pruneBetween (S := {e | e ∈ soloChain 6}) hs (by decide)
  have hfree := collisionFree_soloChain 6
  have hforks : ForkFree {e | e ∈ soloChain 6} := forkFree_of_pairwise (by decide)
  obtain ⟨past, hunrepeated, -⟩ :=
    (hpaired.insertBoth (by decide) hafter).unrepeated hfree hforks
  obtain ⟨⟨top, g, -, -, hagree, horder⟩, -⟩ := order_meets_definition hfree hforks hunrepeated
  exact ⟨past, s.2.2, hunrepeated, hfacts.1, hfacts.2, top, g, hagree, horder 4 4 hfacts.2⟩

/-- A pruned event that is inserted again is ordered again, in a later round: the first of five
events is pruned and comes back before the sixth. Round 2 is decided and its only famous witness has
the event as an ancestor, but the event is received in round 4. -/
theorem received_late_after_repeat :
    stampHash.CollisionFree {e | e ∈ soloChain 6} ∧ ForkFree {e | e ∈ soloChain 6} ∧
      ∃ g, Reached stampHash (fun _ op => op.Static {e | e ∈ soloChain 6}) (plainRegistry 1) g ∧
        g.roundReceived 1 = some 4 ∧ g.isRoundDecided 2 = true ∧ g.famousOf 2 = [2] ∧
        g.famousWitnessesOfRound 2 = [2] ∧ g.Anc 2 1 ∧ ¬∃ t, g.ReceivedAs 1 4 t := by
  refine ⟨collisionFree_soloChain 6, forkFree_of_pairwise (by decide), ?_⟩
  have hrun : ((replay stampHash (.new (plainRegistry 1))
      ((soloChain 5).map (.insert inOrder) ++ [.prune 3, plainInsert 1 0 none none,
        plainInsert 6 0 (some 5) none])).any fun g => g.roundReceived 1 == some 4 &&
          g.isRoundDecided 2 && g.famousOf 2 == [2] && g.famousWitnessesOfRound 2 == [2] &&
          g.parentsOf 2 == [1]) = true := by
    decide +kernel
  obtain ⟨g, hg, hfacts⟩ := (Option.any_eq_true ..).mp hrun
  simp only [Bool.and_eq_true, beq_iff_eq] at hfacts
  obtain ⟨⟨⟨⟨hreceived, hdecided⟩, hfamous⟩, hcanonical⟩, hparents⟩ := hfacts
  have hanc : g.Anc 2 1 := Relation.ReflTransGen.single (by rw [hparents]; simp)
  refine ⟨g, .replay .new (fun op hop _ => ?_) hg, hreceived, hdecided, hfamous, hcanonical, hanc,
    ?_⟩
  · rcases List.mem_append.mp hop with hop | hop
    · obtain ⟨e, he, rfl⟩ := List.mem_map.mp hop
      exact (by decide : ∀ e ∈ soloChain 5, e ∈ soloChain 6) e he
    · simp only [List.mem_cons, List.not_mem_nil, or_false] at hop
      rcases hop with rfl | rfl | rfl
      · trivial
      · exact (by decide : plainEvent 1 0 none none ∈ soloChain 6)
      · exact (by decide : plainEvent 6 0 (some 5) none ∈ soloChain 6)
  · rintro ⟨t, hrec⟩
    obtain ⟨w, hw, hno⟩ := hrec.first 2 (by decide) (by rw [hfamous]; simp)
    rw [hfamous, List.mem_singleton] at hw
    exact hno (hw ▸ hanc)

end Unrepeated

end Hashgraph

end JKain
