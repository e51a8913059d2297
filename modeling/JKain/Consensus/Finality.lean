import JKain.Consensus.Lineage

/-!
# Decided rounds are final

Over a set of events without forks and a static registry, as long as nothing is pruned. A graph from
which nothing was pruned holds everything its events stem from, so that a new event comes after its
creator's newest one and is of a later round than every decided round. Nothing an insertion does
reaches a decided round any more: its witnesses, their fame and the order of its events stay.
-/

namespace JKain

open Std

namespace Hashgraph

/-- One call of `insert` with an event of `S`. -/
def InsertStep (H : Hasher) (S : Set Event) (g g' : Hashgraph) : Prop :=
  ∃ iter event, event ∈ S ∧ Returned (Hashgraph.insert H iter event) g g'

/-- `g'` is reached from `g` by insertions of events of `S`. -/
def Later (H : Hasher) (S : Set Event) : Hashgraph → Hashgraph → Prop :=
  Relation.ReflTransGen (InsertStep H S)

/-- The orders of the rounds that were ordered, one after the other. -/
def totalOrder (g : Hashgraph) : List EventHash :=
  (List.range' 1 (g.nextRoundToOrder - 1)).flatMap g.consensusOrder

/-- What `g'` keeps of the rounds that are decided in `g`, and of its order. -/
structure Keeps (g g' : Hashgraph) : Prop where
  decided : ∀ {r}, g.isRoundDecided r = true → g'.isRoundDecided r = true
  witnesses : ∀ {r n}, g.isRoundDecided r = true → n ≤ r →
    g'.witnessesOfRound n = g.witnessesOfRound n
  fame : ∀ {r w}, g.isRoundDecided r = true → w ∈ g.witnessesOfRound r → g'.fameOf w = g.fameOf w
  log : g.orderLog <+: g'.orderLog
  received : ∀ {x n}, g.roundReceived x = some n → g'.orderOf x = g.orderOf x
  order : ∀ {n}, n < g.nextRoundToOrder → g'.consensusOrder n = g.consensusOrder n
  next_le : g.nextRoundToOrder ≤ g'.nextRoundToOrder

theorem Keeps.refl (g : Hashgraph) : Keeps g g where
  decided := id
  witnesses _ _ := rfl
  fame _ _ := rfl
  log := List.prefix_rfl
  received _ := rfl
  order _ := rfl
  next_le := le_rfl

theorem Keeps.trans {g g' g'' : Hashgraph} (h : Keeps g g') (h' : Keeps g' g'') :
    Keeps g g'' where
  decided hr := h'.decided (h.decided hr)
  witnesses hr hn := (h'.witnesses (h.decided hr) hn).trans (h.witnesses hr hn)
  fame hr hw := (h'.fame (h.decided hr) (h.witnesses hr le_rfl ▸ hw)).trans (h.fame hr hw)
  log := h.log.trans h'.log
  received {x n} hx := by
    have hx' : g'.roundReceived x = some n := (congrArg Prod.fst (h.received hx)).trans hx
    exact (h'.received hx').trans (h.received hx)
  order hn := (h'.order (hn.trans_le h.next_le)).trans (h.order hn)
  next_le := h.next_le.trans h'.next_le

/-- What comes to the total order comes behind what is there. -/
theorem Keeps.totalOrder_prefix {g g' : Hashgraph} (h : Keeps g g') :
    g.totalOrder <+: g'.totalOrder := by
  have hle := h.next_le
  have hsplit : List.range' 1 (g'.nextRoundToOrder - 1) =
      List.range' 1 (g.nextRoundToOrder - 1) ++ List.range' (1 + (g.nextRoundToOrder - 1))
        (g'.nextRoundToOrder - 1 - (g.nextRoundToOrder - 1)) := by
    rw [List.range'_append_1]
    congr 1
    omega
  rw [totalOrder, totalOrder, hsplit, List.flatMap_append]
  have hsame : (List.range' 1 (g.nextRoundToOrder - 1)).flatMap g'.consensusOrder =
      (List.range' 1 (g.nextRoundToOrder - 1)).flatMap g.consensusOrder := by
    refine List.flatMap_congr fun n hn => h.order ?_
    have := List.mem_range'_1.mp hn
    omega
  rw [hsame]
  exact List.prefix_append _ _

section Insert

variable {H : Hasher} {S : Set Event} {past : Finset EventHash} {registry : MembershipRegistry}
  {g g' : Hashgraph} {hash x y : EventHash} {event : Event} {i n : ℕ} {op : Op}

/-- Nothing was pruned: what a stored event stems from is stored. -/
theorem Whole.stored_of_stems (hw : g.Whole) (hs : g.Sound H S) (hfree : H.CollisionFree S)
    (hx : (g.get? x).isSome) (h : Stems H S x y) : (g.get? y).isSome := by
  induction h with
  | refl => exact hx
  | tail _ hlink ih =>
    obtain ⟨e, he, ha, hp⟩ := hlink
    obtain ⟨r, hr⟩ := Option.isSome_iff_exists.mp ih
    obtain ⟨hhash, hnum⟩ := hs.numbered hr
    obtain rfl := hfree e he r.event hnum.mem _ ha hhash
    exact hw.parents hr _ hp

/-- A new event is of a later round than every decided one. -/
theorem Ripe.lt_newRound (hripe : g.Ripe registry) (h : g.Traced H S past) (hw : g.Whole)
    (hfix : FixedRegistry registry g) (hfree : H.CollisionFree S) (hforks : ForkFree S)
    (hs : g.Sound H S) (hevent : event ∈ S) (hhash : H event = .ok hash)
    (hc : g.Checked hash event i) (hn : g.isRoundDecided n = true) (b : Bool) :
    n < g.newRound event b := by
  have hmember : event.creator ∈ registry.memberIds := by
    have hi := hc.member
    rw [memberIndexOf, hfix.memberIndex_eq] at hi
    exact List.mem_of_getElem? (memberIndexOf_new.mp hi)
  obtain ⟨z, rz, hz, hrz, hlt⟩ := hripe.ahead hn _ hmember
  have hnewer : rz.seq < g.newSeq event := by
    -- Otherwise the newest event stems from the new one, which would be stored.
    by_contra hle
    obtain ⟨r, hr, hcreator⟩ := hs.wf.latest hz
    obtain rfl := Option.some.inj (hrz.symm.trans hr)
    have hstems := (hs.numbered hrz).2.stems hforks (hs.numbered_new hevent hc) hcreator.symm
      (Nat.le_of_not_lt hle) (hs.numbered hrz).1 hhash
    have hstored := hw.stored_of_stems hs hfree (Option.isSome_of_eq_some hrz) hstems
    rw [hc.fresh] at hstored
    cases hstored
  calc n < rz.round := hlt
    _ ≤ g.newBase event := h.round_le_newBase hfree hforks hs hevent hhash hc hz hrz hnewer
    _ ≤ _ := newBase_le_newRound g event b

/-- An insertion puts no witness into a decided round. -/
theorem witnessesOfRound_placed (hlt : ∀ b, n < g.newRound event b) {m : ℕ} (hm : m ≤ n) :
    (g.placed hash event i).witnessesOfRound m = g.witnessesOfRound m := by
  have := hlt (g.bumps hash event i)
  rw [placed, witnessesOfRound_place, if_neg]
  rintro ⟨-, rfl⟩
  omega

theorem DecidedSettled.placed (hsettled : g.DecidedSettled)
    (hlt : ∀ {n}, g.isRoundDecided n = true → ∀ b, n < g.newRound event b) :
    (g.placed hash event i).DecidedSettled := by
  intro n hn w hw
  rw [isRoundDecided, Hashgraph.placed, fullyDecidedRounds_place, ← isRoundDecided] at hn
  rw [Hashgraph.placed, undecidedWitnesses_place] at hw
  split at hw
  · have := hlt hn (g.bumps hash event i)
    rw [Option.some.injEq] at hw
    omega
  · exact hsettled n hn w hw

/-- An operation that prunes nothing keeps the stored events. -/
theorem Op.Effect.exists_record (h : op.Effect H g g') (hkeeps : op.KeepsEvents) {r : EventRecord}
    (hr : g.get? x = some r) : ∃ r', g'.get? x = some r' ∧ r'.event = r.event := by
  cases h with
  | none hsame => exact ⟨r, hsame ▸ hr, rfl⟩
  | @insert _ event hash i _ hc hinserted =>
    obtain ⟨r', hr', hbare⟩ := get?_of_skeleton_eq hinserted.advances.skeleton_eq.symm
      (hc.get?_place_of_some (g.bumps hash event i) hr)
    exact ⟨r', hr', (congrArg EventRecord.event hbare :)⟩
  | addMember _ hsame =>
    rw [hsame, get?_widen, hr]
    exact ⟨_, rfl, rfl⟩
  | prune _ _ => exact hkeeps.elim

/-- What an operation that prunes nothing leaves of an order that was set. -/
theorem Op.Effect.orderOf_eq (h : op.Effect H g g') (hkeeps : op.KeepsEvents)
    (hx : g.roundReceived x = some n) : g'.orderOf x = g.orderOf x := by
  obtain ⟨r, hr, -⟩ := Option.bind_eq_some_iff.mp hx
  obtain ⟨r', hr', -⟩ := h.exists_record hkeeps hr
  rcases h.stamped (Option.isSome_of_eq_some hr') with hsame | ⟨hnone, -⟩
  · exact hsame
  · rw [hnone] at hx
    cases hx

/-- What an operation that prunes nothing leaves of the order of a round that was ordered. -/
theorem Op.Effect.consensusOrder_eq (h : op.Effect H g g') (hkeeps : op.KeepsEvents)
    (hn : n < g.nextRoundToOrder) : g'.consensusOrder n = g.consensusOrder n := by
  refine consensusOrder_congr (fun x => ⟨fun hx => ?_, fun hx => ?_⟩) fun {x} hx => ?_
  · rcases h.received hx with hold | ⟨hle, -⟩
    · exact hold
    · omega
  · exact (congrArg Prod.fst (h.orderOf_eq hkeeps hx)).trans hx
  · obtain ⟨r, hr, -⟩ := Option.bind_eq_some_iff.mp hx
    obtain ⟨r', hr', hevent⟩ := h.exists_record hkeeps hr
    rw [orderKey, orderKey, hr, hr', Option.map_some, Option.map_some, hevent,
      show g'.consensusTimestamp x = g.consensusTimestamp x from
        congrArg Prod.snd (h.orderOf_eq hkeeps hx)]

/-- An insertion keeps what is decided. -/
theorem Inserted.keeps (hinserted : g.Inserted hash event i g') (hs : g.Sound H S)
    (hhash : H event = .ok hash) (hc : g.Checked hash event i) (hsettled : g.DecidedSettled)
    (hlt : ∀ {n}, g.isRoundDecided n = true → ∀ b, n < g.newRound event b) : Keeps g g' := by
  have hadvances := hinserted.advances
  have heffect : (Op.insert inOrder event).Effect H g g' := .insert hhash hc hinserted
  have hdecided {n : ℕ} (hn : g.isRoundDecided n = true) :
      (g.placed hash event i).isRoundDecided n = true := by
    rwa [isRoundDecided, placed, fullyDecidedRounds_place, ← isRoundDecided]
  refine ⟨fun hr => hadvances.decided_kept (hdecided hr), fun {r n} hr hn => ?_,
    fun {r w} hr hw => ?_, ?_, fun hx => heffect.orderOf_eq trivial hx,
    fun hn => heffect.consensusOrder_eq trivial hn, heffect.next_le⟩
  · rw [witnessesOfRound_of_skeleton_eq hadvances.skeleton_eq,
      witnessesOfRound_placed (hlt hr) hn]
  · -- The witness was there, with a final decision.
    obtain ⟨status, hstatus, hfinal⟩ := (hsettled r hr).exists_fame hs.wf hs.exact hw
    obtain ⟨rw', hrw', -⟩ := hs.wf.witness_sound hw
    have hplaced : (g.placed hash event i).fameOf w = some status := by
      rw [placed, fameOf_place, if_neg (hc.ne hrw'), hstatus]
    rw [hadvances.fame_kept hplaced hfinal, hstatus]
  · rw [hadvances.log_eq, show (g.placed hash event i).orderLog = g.orderLog from orderLog_place]
    exact List.prefix_append _ _

end Insert

/-! ## Runs -/

section Run

variable {H : Hasher} {S : Set Event} {registry : MembershipRegistry} {g g' : Hashgraph} {op : Op}
  {x : EventHash}

/-- Where insertions keep what is decided. -/
structure Closing (H : Hasher) (S : Set Event) (registry : MembershipRegistry) (g : Hashgraph) :
    Prop where
  sound : g.Sound H S
  whole : g.Whole
  fixed : FixedRegistry registry g
  ripe : g.Ripe registry
  traced : ∃ past, g.Traced H S past
  settled : g.DecidedSettled

theorem Closing.lt_newRound (h : Closing H S registry g) (hfree : H.CollisionFree S)
    (hforks : ForkFree S) {event : Event} {hash : EventHash} {i : ℕ} (hevent : event ∈ S)
    (hhash : H event = .ok hash) (hc : g.Checked hash event i) {n : ℕ}
    (hn : g.isRoundDecided n = true) (b : Bool) : n < g.newRound event b := by
  obtain ⟨past, htraced⟩ := h.traced
  exact h.ripe.lt_newRound htraced h.whole h.fixed hfree hforks h.sound hevent hhash hc hn b

theorem Reached.closing (hfree : H.CollisionFree S) (hforks : ForkFree S)
    (hg : Reached H (fun _ op => op.Inserts S) registry g) : Closing H S registry g := by
  have hkeeps (g : Hashgraph) (op : Op) (hop : op.Inserts S) : op.From S ∧ op.KeepsEvents :=
    ⟨hop.from, hop.keepsEvents⟩
  have hsettled {t : Hashgraph} (ht : Reached H (fun _ op => op.Inserts S) registry t) :
      t.DecidedSettled → Closing H S registry t := by
    intro hsettled
    obtain ⟨hfix, hripe, htraced⟩ := ht.static.traced hfree hforks
    exact ⟨ht.sound hfree fun _ _ hop => hop.from, ht.whole hfree hkeeps, hfix, hripe, htraced,
      hsettled⟩
  induction hg with
  | new =>
    refine hsettled .new fun n hn => ?_
    rw [isRoundDecided, Hashgraph.new] at hn
    simp at hn
  | @step t t' op ht hadm hop hleads ih =>
    refine hsettled (ht.step hadm hop hleads) ?_
    cases op.effect ih.sound hfree hadm hop.from hleads with
    | none hsame => exact hsame ▸ ih.settled
    | insert hhash hc hinserted =>
      exact hinserted.advances.decidedSettled (ih.settled.placed fun hn b =>
        ih.lt_newRound hfree hforks hop hhash hc hn b)
    | addMember _ _ => exact hop.elim
    | prune _ _ => exact hop.elim

theorem InsertStep.keeps (hfree : H.CollisionFree S) (hforks : ForkFree S)
    (hg : Reached H (fun _ op => op.Inserts S) registry g) (h : InsertStep H S g g') :
    Reached H (fun _ op => op.Inserts S) registry g' ∧ Keeps g g' := by
  obtain ⟨iter, event, hevent, hleads⟩ := h
  have hclosing := hg.closing hfree hforks
  have hadmissible : (Op.insert iter event).Admissible g := trivial
  refine ⟨hg.step hadmissible hevent hleads, ?_⟩
  rcases insert_cases hclosing.sound hfree hevent hleads with
    ⟨-, rfl⟩ | ⟨hash, i, hhash, hc, hinserted, -⟩
  · exact .refl _
  · exact hinserted.keeps hclosing.sound hhash hc hclosing.settled fun hn b =>
      hclosing.lt_newRound hfree hforks hevent hhash hc hn b

theorem Later.keeps (hfree : H.CollisionFree S) (hforks : ForkFree S)
    (hg : Reached H (fun _ op => op.Inserts S) registry g) (h : Later H S g g') :
    Reached H (fun _ op => op.Inserts S) registry g' ∧ Keeps g g' := by
  induction h with
  | refl => exact ⟨hg, .refl g⟩
  | tail _ hstep ih =>
    obtain ⟨hreached, hkeeps⟩ := ih
    obtain ⟨hreached', hkeeps'⟩ := hstep.keeps hfree hforks hreached
    exact ⟨hreached', hkeeps.trans hkeeps'⟩

/-- The consensus timestamp is set together with the round an event is received in. -/
theorem Reached.isSome_roundReceived {P : Hashgraph → Op → Prop} (hfree : H.CollisionFree S)
    (hP : ∀ g op, P g op → op.From S) (hg : Reached H P registry g) {t : Timestamp}
    (ht : g.consensusTimestamp x = some t) : (g.roundReceived x).isSome := by
  revert x t
  refine hg.invariant (I := fun g => ∀ {x t}, g.consensusTimestamp x = some t →
    (g.roundReceived x).isSome) hfree hP (fun {x t} ht => ?_) fun g g' op _ ih _ heffect x t ht => ?_
  · rw [consensusTimestamp, get?_new] at ht
    cases ht
  · obtain ⟨r, hr, -⟩ := Option.bind_eq_some_iff.mp ht
    rcases heffect.stamped (Option.isSome_of_eq_some hr) with hsame | ⟨-, n, t', -, -, hnew⟩
    · rw [show g'.roundReceived x = g.roundReceived x from congrArg Prod.fst hsame]
      exact ih ((congrArg Prod.snd hsame).symm.trans ht)
    · exact Option.isSome_of_eq_some (congrArg Prod.fst hnew)

/-- Decided rounds are closed and the total order only grows: nothing that is inserted later gives a
decided round, or one before it, another witness, or changes the fame of its witnesses; the rounds
are ordered once each, in increasing order; what is received stays received, with its timestamp; and
the total order is continued. -/
theorem decided_rounds_final (hfree : H.CollisionFree S) (hforks : ForkFree S)
    (hg : Reached H (fun _ op => op.Inserts S) registry g) (h : Later H S g g') :
    (∀ r, g.isRoundDecided r = true → g'.isRoundDecided r = true ∧
        (∀ n ≤ r, g'.witnessesOfRound n = g.witnessesOfRound n) ∧
        ∀ w ∈ g.witnessesOfRound r, g'.fameOf w = g.fameOf w) ∧
      g'.orderLog = List.range' 1 (g'.nextRoundToOrder - 1) ∧ g.orderLog <+: g'.orderLog ∧
      (∀ x n, g.roundReceived x = some n → g'.roundReceived x = some n) ∧
      (∀ x t, g.consensusTimestamp x = some t → g'.consensusTimestamp x = some t) ∧
      g.totalOrder <+: g'.totalOrder := by
  have hfrom (g : Hashgraph) (op : Op) (hop : op.Inserts S) : op.From S := hop.from
  obtain ⟨hg', hkeeps⟩ := h.keeps hfree hforks hg
  refine ⟨fun r hr => ⟨hkeeps.decided hr, fun n hn => hkeeps.witnesses hr hn,
    fun w hw => hkeeps.fame hr hw⟩, (hg'.watermarked hfree hfrom).log_eq, hkeeps.log,
    fun x n hx => ?_, fun x t ht => ?_, hkeeps.totalOrder_prefix⟩
  · exact (congrArg Prod.fst (hkeeps.received hx)).trans hx
  · obtain ⟨n, hn⟩ := Option.isSome_iff_exists.mp (hg.isSome_roundReceived hfree hfrom ht)
    exact (congrArg Prod.snd (hkeeps.received hn)).trans ht

end Run

/-- Member 0 alone: its fifth event orders another round behind the one that is ordered already. -/
theorem decided_rounds_final_solo :
    ∃ g g', Reached stampHash (fun _ op => op.Inserts {e | e ∈ soloChain 5}) (plainRegistry 1) g ∧
      Later stampHash {e | e ∈ soloChain 5} g g' ∧ g.isRoundDecided 1 = true ∧
      g.totalOrder <+: g'.totalOrder ∧ g.totalOrder ≠ g'.totalOrder := by
  obtain ⟨g, hg, hp⟩ := exists_built (S := {e | e ∈ soloChain 5}) (plainRegistry 1) (soloChain 4)
    (fun g => g.isRoundDecided 1 && (returned? (Hashgraph.insert stampHash inOrder
      (plainEvent 5 0 (some 4) none) g)).any fun g' : Hashgraph =>
        decide (g.totalOrder ≠ g'.totalOrder))
    (by decide) (by decide +kernel)
  rw [Bool.and_eq_true, Option.any_eq_true] at hp
  obtain ⟨hdecided, g', hg', hne⟩ := hp
  have hlater : Later stampHash {e | e ∈ soloChain 5} g g' :=
    .single ⟨inOrder, plainEvent 5 0 (some 4) none, by decide, returned_of_returned? hg'⟩
  have hfinal := decided_rounds_final (collisionFree_soloChain 5)
    (forkFree_of_pairwise (by decide)) hg hlater
  exact ⟨g, g', hg, hlater, hdecided, hfinal.2.2.2.2.2, of_decide_eq_true hne⟩

end Hashgraph

end JKain
