import JKain.Gossip.Duplicates
import JKain.Gossip.Serving

/-!
# Sync rounds of honest nodes

Several nodes under one registry run their sync rounds at the same time. A round sends a summary,
gets a response that the peer builds from the graph it has by then, and takes the events of the
response in one by one; in between the node's own events, pushed events and the rounds with other
peers change its graph.

Whatever the interleaving, no node forks and no response holds an event that its receiver cannot
insert. With the duplicate filter on, this rests on responses that are not lost. The nodes neither
prune nor reconnect.
-/

namespace JKain

open Std JKain.Lib

namespace Cluster

/-- What all nodes have in common. -/
structure Setup where
  H : Hasher
  config : SyncConfig
  registry : MembershipRegistry

/-- How far a sync round is. `asked` keeps the graph that the request summarises, and `receiving`
the graph that the response was built from, which no step reads. -/
inductive Link
  | idle
  | asked (snapshot : Hashgraph)
  | receiving (events : List Event) (served : Hashgraph)
  | blocked (left : ℕ)
  | failed

/-- The sync rounds of a node with one peer, and what the peer remembers to have offered it. -/
structure Exchange where
  link : Link
  dedup : DedupState

/-- What may happen next. A push is the arrival of an `Event` frame. -/
inductive Action
  | ask (node peer : NodeId)
  | serve (node peer : NodeId) (moment : Moment)
  | take (node peer : NodeId) (iter : IterOrder)
  | lose (node peer : NodeId)
  | readParents (node peer : NodeId)
  | createOwn (node : NodeId) (iter : IterOrder) (timestamp : Timestamp)
      (payload : List Transaction) (signature : Signature)
  | push (node : NodeId) (iter : IterOrder) (event : Event)

end Cluster

/-- The graphs of the nodes, their sync rounds by node and peer, the parents that a node has read for
its next own event (the driver's lock admits one task at a time), the events that were signed and
those of them that their creators inserted. -/
structure Cluster where
  graph : NodeId → Hashgraph
  exchange : NodeId × NodeId → Cluster.Exchange
  parents : NodeId → Option (Option EventHash × Option EventHash)
  signed : List Event
  created : List Event

namespace Cluster

open Hashgraph (ForkFree Reached)

section Model

variable (u : Setup)

def new : Cluster where
  graph _ := .new u.registry
  exchange _ := ⟨.idle, .empty⟩
  parents _ := none
  signed := []
  created := []

def setExchange (c : Cluster) (node peer : NodeId) (exchange : Exchange) : Cluster :=
  { c with exchange := Function.update c.exchange (node, peer) exchange }

def setGraph (c : Cluster) (node : NodeId) (g : Hashgraph) : Cluster :=
  { c with graph := Function.update c.graph node g }

/-- The round ended without the events of the response. -/
def Link.broken : Link → Bool
  | .blocked _ => true
  | .failed => true
  | _ => false

/-- The round has gone through a response that was built from a graph with that event. -/
def Link.brought (x : EventHash) : Link → Bool
  | .receiving [] served => (served.get? x).isSome
  | _ => false

/-- What the requester makes of the frame it is answered with. -/
def Link.ofReply (served : Hashgraph) : Option Reply → Link
  | some (.syncResponse events) => .receiving events served
  | some .behind => .failed
  | none => .failed

/-- What the loop of `exchange_delta` does after an insertion, with the events behind it. -/
def Link.afterInsert (rest : List Event) (served : Hashgraph) :
    EStateM.Result Fault Hashgraph EventHash → Link
  | .ok _ _ => .receiving rest served
  | .error (.err (.alreadyPresent _)) _ => .receiving rest served
  | .error (.err (.missingParent _)) _ => .blocked (1 + rest.length)
  | .error _ _ => .failed

/-- `insert_own_event` on the parents that were read before. -/
def createOwn (c : Cluster) (node : NodeId) (iter : IterOrder) (event : Event) : Cluster :=
  let c := { c with parents := Function.update c.parents node none, signed := event :: c.signed }
  match Hashgraph.insert u.H iter event (c.graph node) with
  | .ok _ g => { c.setGraph node g with created := event :: c.created }
  | .error _ g => c.setGraph node g

/-- One step of `exchange_delta`, `handle_inbound`, `create_own_event` or `insert_own_event`. Each
holds the lock of one graph. -/
def step (c : Cluster) : Action → Cluster
  | .ask node peer =>
    match c.exchange (node, peer) with
    | ⟨.idle, dedup⟩ => c.setExchange node peer ⟨.asked (c.graph node), dedup⟩
    | _ => c
  | .serve node peer moment =>
    match c.exchange (node, peer) with
    | ⟨.asked snapshot, dedup⟩ =>
      let reply := answer u.config peer (c.graph peer) u.registry moment node
        (knownSummary snapshot u.registry) dedup
      c.setExchange node peer ⟨.ofReply (c.graph peer) reply.1, reply.2⟩
    | _ => c
  | .take node peer iter =>
    match c.exchange (node, peer) with
    | ⟨.receiving [] _, dedup⟩ => c.setExchange node peer ⟨.idle, dedup⟩
    | ⟨.receiving (event :: rest) served, dedup⟩ =>
      let result := Hashgraph.insert u.H iter event (c.graph node)
      (c.setGraph node (finalState result)).setExchange node peer
        ⟨.afterInsert rest served result, dedup⟩
    | _ => c
  | .lose node peer => c.setExchange node peer ⟨.idle, (c.exchange (node, peer)).dedup⟩
  | .readParents node peer =>
    -- A round that was cancelled after this leaves parents that the next one replaces.
    let latest := (c.graph node).latestEventBy
    { c with parents := Function.update c.parents node (some (latest node, latest peer)) }
  | .createOwn node iter timestamp payload signature =>
    match c.parents node with
    | some (selfParent, otherParent) =>
      c.createOwn u node iter ⟨node, selfParent, otherParent, timestamp, payload, signature⟩
    | none => c
  | .push node iter event =>
    c.setGraph node (finalState (Hashgraph.insert u.H iter event (c.graph node)))

/-- What an honest network delivers: pushed events are events of honest nodes, and where the filter
remembers what it offered, a response is not lost. -/
def Allowed (c : Cluster) : Action → Prop
  | .push _ _ event => event ∈ c.created
  | .lose node peer => u.config.filterLikelyDuplicates = true →
      ∀ events served, (c.exchange (node, peer)).link ≠ .receiving events served
  | _ => True

inductive Runs : Cluster → Prop
  | new : Runs (new u)
  | step {c : Cluster} {action : Action} : Runs c → c.Allowed u action →
      Runs (c.step u action)

end Model

/-! ## A sync round -/

section Round

variable {u : Setup} {S S' : Set Event} {s r : Hashgraph} {known known' : Set EventHash}
  {event : Event} {events : List Event}

/-- A graph that was built from events of `S`. -/
abbrev Built (u : Setup) (S : Set Event) (g : Hashgraph) : Prop :=
  Reached u.H (fun _ op => op.Inserts S) u.registry g

/-- What a graph holds. -/
def held (g : Hashgraph) : Set EventHash := {x | (g.get? x).isSome}

/-- What is still to come. -/
def onWay (u : Setup) (events : List Event) : Set EventHash := {x | ∃ e ∈ events, u.H e = .ok x}

theorem union_onWay_nil : known ∪ onWay u [] = known := by simp [onWay]

/-- A receiver that holds `known` can insert the events in their order, skipping those it has. -/
def Delivers (u : Setup) (S : Set Event) : Set EventHash → List Event → Prop
  | _, [] => True
  | known, e :: events => e ∈ S ∧ ∃ x, u.H e = .ok x ∧ (∀ p ∈ e.parents, p ∈ known) ∧
      Delivers u S (known ∪ {x}) events

theorem Delivers.mono (hS : S ⊆ S') (hknown : known ⊆ known') (h : Delivers u S known events) :
    Delivers u S' known' events := by
  induction events generalizing known known' with
  | nil => trivial
  | cons e events ih =>
    obtain ⟨he, x, hhash, hparents, hrest⟩ := h
    exact ⟨hS he, x, hhash, fun p hp => hknown (hparents p hp),
      ih (Set.union_subset_union_left _ hknown) hrest⟩

theorem delivers_of_feeds {delta : List (EventHash × Event)} (h : Feeds known delta)
    (hdelta : ∀ x e, (x, e) ∈ delta → u.H e = .ok x ∧ e ∈ S) :
    Delivers u S known (delta.map (·.2)) := by
  induction delta generalizing known with
  | nil => trivial
  | cons head delta ih =>
    obtain ⟨hhash, hmem⟩ := hdelta head.1 head.2 List.mem_cons_self
    exact ⟨hmem, head.1, hhash, h.1.2,
      ih h.2 fun x e hx => hdelta x e (List.mem_cons_of_mem _ hx)⟩

/-- Everything that was offered to the node, and is still remembered, is in `known`. -/
def Offered (u : Setup) (node : NodeId) (known : Set EventHash) (dedup : DedupState) : Prop :=
  u.config.filterLikelyDuplicates = true → ∀ ⦃x⦄, (dedup.sent[(node, x)]?).isSome → x ∈ known

section Offered

variable {node : NodeId} {dedup : DedupState} {x : EventHash}

theorem Offered.mono (h : Offered u node known dedup) (hknown : known ⊆ known') :
    Offered u node known' dedup :=
  fun hfilter _ hx => hknown (h hfilter hx)

theorem Offered.shouldFilter (h : Offered u node known dedup) (hx : x ∈ known)
    (isSelf isAncestor : Bool) (now : ℕ) :
    Offered u node known (dedup.shouldFilter u.config x node isSelf isAncestor now).2 := by
  have hrecord (entry : ℕ × Bool × Bool) :
      Offered u node known ⟨dedup.sent.insert (node, x) entry⟩ := by
    intro hfilter y hy
    rw [ExtTreeMap.getElem?_insert] at hy
    split at hy
    · rename_i heq
      exact (Prod.mk.inj (Std.compare_eq_iff_eq.mp heq)).2 ▸ hx
    · exact h hfilter hy
  unfold DedupState.shouldFilter
  split
  · exact h
  · split
    · split
      · exact h
      · exact hrecord _
    · exact hrecord _

/-- The filter remembers only events of the delta. -/
theorem Offered.filterDelta {delta : List (EventHash × Event)} (h : Offered u node known dedup)
    (hdelta : ∀ x ∈ delta.map (·.1), x ∈ known) (g : Hashgraph) (selfId : NodeId) (clock : ℕ → ℕ)
    (k : ℕ) : Offered u node known
      (finalState (JKain.filterDelta u.config g selfId node clock k delta dedup)) := by
  induction delta generalizing k dedup with
  | nil => exact h
  | cons head delta ih =>
    rw [JKain.filterDelta]
    generalize (if decide (head.2.creator = selfId) = true then Except.ok false
      else countsAsAncestor g selfId head.1) = flag
    cases flag with
    | error _ => exact h
    | ok isAncestor =>
      rw [fromExcept_ok_bind]
      refine finalState_bind (fun _ d hfilter => ?_) fun _ _ hfilter => by cases hfilter
      have hd : Offered u node known d := by
        injection hfilter with _ hd
        exact hd ▸ h.shouldFilter (hdelta _ List.mem_cons_self) _ isAncestor (clock k)
      have hnext := ih hd (fun x hx => hdelta x (List.mem_cons_of_mem _ hx)) (k + 1)
      exact finalState_bind (fun _ _ hrest => by rw [hrest] at hnext; exact hnext)
        fun _ _ hrest => by rw [hrest] at hnext; exact hnext

theorem Offered.pruneExpired (h : Offered u node known dedup) (now : ℕ) :
    Offered u node known (dedup.pruneExpired u.config now) := by
  intro hfilter x hx
  rw [DedupState.pruneExpired, ExtTreeMap.getElem?_filter'] at hx
  exact h hfilter (Option.isSome_of_isSome_filter _ _ hx)

end Offered

variable (hfree : u.H.CollisionFree S) (hr : Built u S r)

include hfree hr

/-- A stored event has its hash, a number and a member as its creator. -/
theorem Built.stored {x : EventHash} {record : EventRecord} (hx : r.get? x = some record) :
    u.H record.event = .ok x ∧ (∃ n, Numbered u.H S record.event n) ∧
      record.event.creator ∈ u.registry.memberIds := by
  have hsound := hr.sound hfree fun _ _ hop => hop.from
  obtain ⟨i, hi⟩ := hsound.wf.member hx
  rw [Hashgraph.memberIndexOf, (hr.fixedRegistry hfree).memberIndex_eq] at hi
  exact ⟨(hsound.numbered hx).1, ⟨_, (hsound.numbered hx).2⟩,
    List.mem_of_getElem? (Hashgraph.memberIndexOf_new.mp hi)⟩

/-- The response to a summary delivers, and with what the summary covers it is all that the peer
holds. -/
theorem answer_delivers (hforks : ForkFree S) (hs : Built u S s) {node : NodeId}
    {dedup : DedupState} (hoffered : Offered u node (held r) dedup) (peer : NodeId)
    (moment : Moment) :
    ∃ events dedup', answer u.config peer s u.registry moment node (knownSummary r u.registry)
        dedup = (some (.syncResponse events), dedup') ∧
      Delivers u S (held r) events ∧ held s ⊆ held r ∪ onWay u events ∧
      Offered u node (held r ∪ onWay u events) dedup' := by
  have hsound := hs.sound hfree fun _ _ hop => hop.from
  obtain ⟨collected, hcollected⟩ := collectDelta_returns
    (hs.whole hfree fun _ _ hop => hop.fromKeeps) hsound.wf.toConsistent moment.order.creators
    (knownSummary r u.registry) u.registry
  obtain ⟨delta, hdelta, hstored, hfeeds, htaken⟩ :=
    delta_taken hfree hforks hs.static hr moment.order hcollected
  have hsent (x : EventHash) (e : Event) (hx : (x, e) ∈ delta) :
      u.H e = .ok x ∧ (∃ n, Numbered u.H S e n) ∧ e.creator ∈ u.registry.memberIds := by
    obtain ⟨record, hrecord, rfl⟩ := exists_get?_of_mem_delta hsound hdelta hx
    exact Built.stored hfree hs hrecord
  have honWay {x : EventHash} (hx : x ∈ delta.map (·.1)) : x ∈ onWay u (delta.map (·.2)) := by
    obtain ⟨p, hp, rfl⟩ := List.mem_map.mp hx
    exact ⟨p.2, List.mem_map_of_mem hp, (hsent p.1 p.2 hp).1⟩
  have hall : held s ⊆ held r ∪ onWay u (delta.map (·.2)) := by
    intro x hx
    obtain ⟨r', happly, hholds⟩ := htaken fun _ => moment.iter
    obtain ⟨r'', happly', -, hstored'⟩ := applyDelta_ok hfree hr hsent hfeeds fun _ => moment.iter
    rw [happly'] at happly
    cases happly
    exact ((hstored' x).mp (hholds x hx)).imp_right honWay
  have hoffered' : Offered u node (held r ∪ onWay u (delta.map (·.2))) dedup :=
    hoffered.mono Set.subset_union_left
  suffices h : ∃ dedup', deltaEventsFiltered moment.order u.config s (knownSummary r u.registry)
      u.registry peer node moment.clock dedup = .ok (.ok delta) dedup' ∧
        Offered u node (held r ∪ onWay u (delta.map (·.2))) dedup' by
    obtain ⟨dedup', hfiltered, hoffered''⟩ := h
    refine ⟨delta.map (·.2), dedup', ?_, delivers_of_feeds hfeeds fun x e hx => ?_, hall,
      hoffered''⟩
    · simp only [answer, hfiltered]
    · obtain ⟨hhash, ⟨n, hnum⟩, -⟩ := hsent x e hx
      exact ⟨hhash, hnum.mem⟩
  unfold deltaEventsFiltered
  rw [hdelta]
  cases hfilter : u.config.filterLikelyDuplicates with
  | false => exact ⟨dedup, rfl, hoffered'⟩
  | true =>
    -- What is remembered is covered by the summary, and the delta holds nothing of that.
    obtain ⟨dedup', hkept⟩ : ∃ dedup', filterDelta u.config s peer node moment.clock 0 delta dedup =
        .ok delta dedup' :=
      filterDelta_keeps hsound.wf.toConsistent peer hstored hfeeds.nodup (fun x hx entry hentry =>
        absurd (hoffered hfilter (Option.isSome_of_eq_some hentry)) (hfeeds.not_held hx)) 0
    have hnext := hoffered'.filterDelta (fun x hx => .inr (honWay hx)) s peer moment.clock 0
    rw [hkept] at hnext
    refine ⟨_, ?_, hnext.pruneExpired (moment.clock delta.length)⟩
    simp only [Bool.not_true, Bool.false_eq_true, if_false]
    rw [bind_eq_of_ok hkept]
    rfl

/-- The insertion of an honest event fails and changes nothing, or it adds the event. -/
theorem insert_outcome (hevent : event ∈ S) (iter : IterOrder) :
    (∃ c, Hashgraph.insert u.H iter event r = .error (.err c) r) ∨
      ∃ x r', u.H event = .ok x ∧ Hashgraph.insert u.H iter event r = .ok x r' ∧
        Built u S r' ∧ held r' = held r ∪ {x} := by
  by_cases hchecked : ∃ x i, u.H event = .ok x ∧ r.Checked x event i
  · obtain ⟨x, i, hhash, hc⟩ := hchecked
    obtain ⟨r', hinsert, hinserted⟩ := hr.insert_ok hfree hevent hhash hc iter
    have hadm : (Hashgraph.Op.insert iter event).Admissible r := trivial
    exact .inr ⟨x, r', hhash, hinsert, hr.step hadm hevent (.inl ⟨x, hinsert⟩),
      Set.ext fun y => (hinserted.isSome_iff y).trans or_comm⟩
  · exact .inl (Hashgraph.insert_rejects (fun x i hhash hc => hchecked ⟨x, i, hhash, hc⟩) iter)

/-- What an insertion of an honest event leaves of the graph. -/
theorem insert_grows (hevent : event ∈ S) (iter : IterOrder) :
    Built u S (finalState (Hashgraph.insert u.H iter event r)) ∧
      held r ⊆ held (finalState (Hashgraph.insert u.H iter event r)) := by
  rcases insert_outcome hfree hr hevent iter with ⟨c, herror⟩ | ⟨x, r', -, hok, hr', hstored⟩
  · rw [herror]
    exact ⟨hr, subset_rfl⟩
  · rw [hok]
    exact ⟨hr', hstored.symm ▸ Set.subset_union_left⟩

/-- An event whose parents are there is stored afterwards, and the round goes on. -/
theorem insert_take {x : EventHash} {n : ℕ} (hhash : u.H event = .ok x)
    (hnum : Numbered u.H S event n) (hmember : event.creator ∈ u.registry.memberIds)
    (hparents : ∀ p ∈ event.parents, p ∈ held r) (iter : IterOrder) (rest : List Event)
    (served : Hashgraph) :
    Link.afterInsert rest served (Hashgraph.insert u.H iter event r) = .receiving rest served ∧
      x ∈ held (finalState (Hashgraph.insert u.H iter event r)) := by
  cases hx : (r.get? x).isSome with
  | true =>
    have hpresent : Hashgraph.insert u.H iter event r = .error (.err (.alreadyPresent x)) r := by
      rw [Hashgraph.insert_eq_insertHashed hhash, Hashgraph.insertHashed, get_bind,
        Hashgraph.checkEvent, if_pos hx]
      rfl
    rw [hpresent]
    exact ⟨rfl, hx⟩
  | false =>
    obtain ⟨i, hc⟩ := (hr.sound hfree fun _ _ hop => hop.from).checked hfree (hr.fixedRegistry hfree)
      hhash hnum hmember (Option.isSome_eq_false_iff.mp hx |> Option.isNone_iff_eq_none.mp) hparents
    obtain ⟨r', hinsert, hinserted⟩ := hr.insert_ok hfree hnum.mem hhash hc iter
    rw [hinsert]
    exact ⟨rfl, (hinserted.isSome_iff x).mpr (.inl rfl)⟩

end Round

/-! ## All rounds together -/

section Healthy

variable {u : Setup} {S S' : Set Event} {c : Cluster} {g g' : Hashgraph} {node peer : NodeId}
  {event : Event} {exchange : Exchange}

/-- The round can go on: what was asked and what is on its way fits the node's graph `g`. -/
inductive Exchange.Fine (u : Setup) (S : Set Event) (node : NodeId) (g : Hashgraph) :
    Exchange → Prop
  | idle {dedup : DedupState} : Offered u node (held g) dedup → Fine u S node g ⟨.idle, dedup⟩
  | asked {snapshot : Hashgraph} {dedup : DedupState} : Built u S snapshot →
      held snapshot ⊆ held g → Offered u node (held snapshot) dedup →
      Fine u S node g ⟨.asked snapshot, dedup⟩
  | receiving {events : List Event} {served : Hashgraph} {dedup : DedupState} :
      Delivers u S (held g) events → held served ⊆ held g ∪ onWay u events →
      Offered u node (held g ∪ onWay u events) dedup →
      Fine u S node g ⟨.receiving events served, dedup⟩

theorem built_mono (hS : S ⊆ S') (h : Built u S g) : Built u S' g := by
  refine h.mono fun _ op hop => ?_
  cases op with
  | insert _ _ => exact hS hop
  | addMember _ _ _ => exact hop
  | prune _ => exact hop

theorem Exchange.Fine.mono (hS : S ⊆ S') (hg : held g ⊆ held g') (h : exchange.Fine u S node g) :
    exchange.Fine u S' node g' := by
  cases h with
  | idle h => exact .idle (h.mono hg)
  | asked hr hsub h => exact .asked (built_mono hS hr) (hsub.trans hg) h
  | @receiving events _ _ hdelivers hall h =>
    have hunion := Set.union_subset_union_left (onWay u events) hg
    exact .receiving (hdelivers.mono hS hg) (hall.trans hunion) (h.mono hunion)

/-- What every step keeps. A node that has read the parents of its next event has no event on that
self-parent yet. -/
structure Healthy (u : Setup) (c : Cluster) : Prop where
  signed : c.created ⊆ c.signed
  built : ∀ node, Built u {e | e ∈ c.created} (c.graph node)
  own : ∀ e ∈ c.created, ∃ x, u.H e = .ok x ∧ x ∈ held (c.graph e.creator)
  forkFree : ForkFree {e | e ∈ c.created}
  next : ∀ e ∈ c.created, ∀ parents ∈ c.parents e.creator, e.selfParent ≠ parents.1
  fine : ∀ node peer, (c.exchange (node, peer)).Fine u {e | e ∈ c.created} node (c.graph node)

namespace Healthy

theorem new : (new u).Healthy u where
  signed := List.Subset.refl _
  built _ := .new
  own e he := absurd he List.not_mem_nil
  forkFree e he := absurd he List.not_mem_nil
  next e he := absurd he List.not_mem_nil
  fine _ _ := .idle fun _ x hx => by
    rw [DedupState.empty, ExtTreeMap.getElem?_empty] at hx
    cases hx

theorem graph_setGraph (n : NodeId) :
    (c.setGraph node g).graph n = if n = node then g else c.graph n :=
  Function.update_apply ..

theorem held_setGraph (hg : held (c.graph node) ⊆ held g) (n : NodeId) :
    held (c.graph n) ⊆ held ((c.setGraph node g).graph n) := by
  rw [graph_setGraph]
  split
  · rename_i heq
    exact heq ▸ hg
  · exact subset_rfl

theorem setGraph (h : c.Healthy u) (hr : Built u {e | e ∈ c.created} g)
    (hg : held (c.graph node) ⊆ held g) : (c.setGraph node g).Healthy u where
  signed := h.signed
  built n := by
    rw [graph_setGraph]
    split
    · exact hr
    · exact h.built n
  own e he := by
    obtain ⟨x, hhash, hx⟩ := h.own e he
    exact ⟨x, hhash, held_setGraph hg _ hx⟩
  forkFree := h.forkFree
  next := h.next
  fine n p := (h.fine n p).mono subset_rfl (held_setGraph hg n)

theorem setExchange (h : c.Healthy u)
    (hfine : exchange.Fine u {e | e ∈ c.created} node (c.graph node)) :
    (c.setExchange node peer exchange).Healthy u where
  __ := h
  fine n p := by
    simp only [Cluster.setExchange, Function.update_apply]
    split
    · rename_i heq
      cases heq
      exact hfine
    · exact h.fine n p

section Steps

variable (hfree : u.H.CollisionFree {e | e ∈ c.created})

include hfree

theorem numbered (h : c.Healthy u) (hevent : event ∈ c.created) :
    ∃ x n, u.H event = .ok x ∧ x ∈ held (c.graph event.creator) ∧
      Numbered u.H {e | e ∈ c.created} event n ∧ event.creator ∈ u.registry.memberIds := by
  obtain ⟨x, hhash, hx⟩ := h.own event hevent
  obtain ⟨record, hrecord⟩ := Option.isSome_iff_exists.mp hx
  obtain ⟨hhash', ⟨n, hnum⟩, hmember⟩ := Built.stored hfree (h.built _) hrecord
  obtain rfl := hfree _ hnum.mem _ hevent x hhash' hhash
  exact ⟨x, n, hhash, hx, hnum, hmember⟩

/-- No event has its creator's newest event as its self-parent: it would come after the newest. -/
theorem selfParent_ne_latest (h : c.Healthy u) (hevent : event ∈ c.created) :
    event.selfParent ≠ (c.graph event.creator).latestEventBy event.creator := by
  intro hself
  obtain ⟨x, n, hhash, hx, hnum, hmember⟩ := h.numbered hfree hevent
  have hr := h.built event.creator
  have hsound := hr.sound hfree fun _ _ hop => hop.from
  obtain ⟨hfix, -, past, htraced⟩ := hr.static.traced hfree h.forkFree
  have hle := htraced.le_frontier hfree hsound hfix hhash hnum hx
  cases hnum with
  | root _ hroot =>
    rw [frontierOf_knownSummary, if_pos hmember, ← hself, hroot] at hle
    exact absurd hle (Nat.not_le.mpr Nat.one_pos)
  | @child _ p z m _ hchild hp _ hnum =>
    obtain ⟨rz, hrz, -⟩ := hsound.wf.latest (hself.symm.trans hchild)
    obtain ⟨hhashz, hnumz⟩ := hsound.numbered hrz
    obtain rfl := hfree _ hnumz.mem _ hnum.mem z hhashz hp
    rw [frontierOf_of_latest hmember (hself.symm.trans hchild) hrz, hnum.unique hfree hnumz] at hle
    omega

theorem readParents (h : c.Healthy u) : (c.step u (.readParents node peer)).Healthy u where
  __ := h
  next e he parents hparents := by
    simp only [Cluster.step, Function.update_apply] at hparents
    split at hparents
    · rename_i heq
      cases hparents
      exact heq ▸ h.selfParent_ne_latest hfree he
    · exact h.next e he parents hparents

theorem take (h : c.Healthy u) (iter : IterOrder) :
    (c.step u (.take node peer iter)).Healthy u := by
  have hfine := h.fine node peer
  generalize hlink : c.exchange (node, peer) = exchange at hfine
  cases hfine with
  | idle _ => simpa only [step, hlink] using h
  | asked _ _ _ => simpa only [step, hlink] using h
  | @receiving events served _ hdelivers hall hoffered =>
    cases events with
    | nil =>
      simp only [step, hlink]
      rw [union_onWay_nil] at hoffered
      exact h.setExchange (.idle hoffered)
    | cons event rest =>
      obtain ⟨hevent, x, hhash, hparents, hrest⟩ := hdelivers
      obtain ⟨x', n, hhash', -, hnum, hmember⟩ := h.numbered hfree hevent
      obtain ⟨hnext, hx⟩ := insert_take hfree (h.built node) hhash hnum hmember hparents iter rest
        served
      obtain ⟨hr, hgrows⟩ := insert_grows hfree (h.built node) hevent iter
      have hheld : held (c.graph node) ∪ onWay u (event :: rest) ⊆
          held (finalState (Hashgraph.insert u.H iter event (c.graph node))) ∪ onWay u rest := by
        rintro y (hy | ⟨e, he, hhashy⟩)
        · exact .inl (hgrows hy)
        · rcases List.mem_cons.mp he with rfl | he
          · rw [hhash, Except.ok.injEq] at hhashy
            exact .inl (hhashy ▸ hx)
          · exact .inr ⟨e, he, hhashy⟩
      simp only [step, hlink, hnext]
      refine (h.setGraph hr hgrows).setExchange ?_
      rw [graph_setGraph, if_pos rfl]
      exact .receiving (hrest.mono subset_rfl (Set.union_subset hgrows
        (Set.singleton_subset_iff.mpr hx))) (hall.trans hheld) (hoffered.mono hheld)

end Steps

/-- A node that inserts an event on the parents it has read starts no branch. -/
theorem createOwn (h : c.Healthy u) (hfree : u.H.CollisionFree {e | e ∈ event :: c.signed})
    {parents : Option EventHash × Option EventHash} (hparents : c.parents node = some parents)
    (hcreator : event.creator = node) (hself : event.selfParent = parents.1) (iter : IterOrder) :
    (c.createOwn u node iter event).Healthy u := by
  subst hcreator
  have hsub : {e | e ∈ c.created} ⊆ {e | e ∈ event :: c.created} :=
    fun _ => List.mem_cons_of_mem event
  have hcleared (e : Event) (he : e ∈ event :: c.created) (p : Option EventHash × Option EventHash)
      (hp : p ∈ Function.update c.parents event.creator none e.creator) : e.selfParent ≠ p.1 := by
    rw [Function.update_apply] at hp
    split at hp
    · cases hp
    · refine h.next e ((List.mem_cons.mp he).resolve_left ?_) p hp
      rintro rfl
      contradiction
  unfold Cluster.createOwn
  rcases insert_outcome (S := {e | e ∈ event :: c.created})
      (hfree.mono (List.cons_subset_cons event h.signed)) (built_mono hsub (h.built event.creator))
      List.mem_cons_self iter with ⟨_, herror⟩ | ⟨x, g, hhash, hok, hr, hstored⟩
  · simp only [herror]
    have h₁ : Healthy u { c with
        parents := Function.update c.parents event.creator none, signed := event :: c.signed } :=
      { h with
        signed := fun _ he => List.mem_cons_of_mem event (h.signed he)
        next := fun e he => hcleared e (hsub he) }
    exact h₁.setGraph (h.built _) subset_rfl
  · simp only [hok]
    have hheld := held_setGraph (c := c) (g := g) (hstored.symm ▸ Set.subset_union_left)
    have hnew {e : Event} (he : e ∈ c.created) (hcreator : e.creator = event.creator) :
        e.selfParent ≠ event.selfParent := hself ▸ h.next e he parents (hcreator ▸ hparents)
    exact
      { signed := List.cons_subset_cons event h.signed
        built := fun n => by
          refine (graph_setGraph (c := c) n).symm ▸ ?_
          split
          · exact hr
          · exact built_mono hsub (h.built n)
        own := fun e he => by
          rcases List.mem_cons.mp he with rfl | he
          · exact ⟨x, hhash, (graph_setGraph (c := c) _).symm ▸ (if_pos rfl).symm ▸
              hstored.symm ▸ .inr rfl⟩
          · obtain ⟨y, hhashy, hy⟩ := h.own e he
            exact ⟨y, hhashy, hheld _ hy⟩
        forkFree := fun e he e' he' hcreator hsame => by
          rcases List.mem_cons.mp he with rfl | hold <;> rcases List.mem_cons.mp he' with rfl | hold'
          · rfl
          · exact absurd hsame.symm (hnew hold' hcreator.symm)
          · exact absurd hsame (hnew hold hcreator)
          · exact h.forkFree e hold e' hold' hcreator hsame
        next := hcleared
        fine := fun n p => (h.fine n p).mono hsub (hheld n) }

theorem signed_createOwn (iter : IterOrder) :
    (c.createOwn u node iter event).signed = event :: c.signed := by
  simp only [Cluster.createOwn]
  split <;> rfl

theorem signed_step (action : Action) : c.signed ⊆ (c.step u action).signed := by
  cases action with
  | createOwn node iter timestamp payload signature =>
    simp only [Cluster.step]
    split
    · exact signed_createOwn iter ▸ List.subset_cons_self ..
    · exact List.Subset.refl _
  | ask _ _ | serve _ _ _ | take _ _ _ =>
    simp only [Cluster.step]
    split <;> exact List.Subset.refl _
  | lose _ _ | readParents _ _ | push _ _ _ => exact List.Subset.refl _

theorem step (h : c.Healthy u) {action : Action}
    (hfree : u.H.CollisionFree {e | e ∈ (c.step u action).signed})
    (hallowed : c.Allowed u action) : (c.step u action).Healthy u := by
  have hfree' : u.H.CollisionFree {e | e ∈ c.created} :=
    hfree.mono fun _ he => signed_step action (h.signed he)
  cases action with
  | take node peer iter => exact h.take hfree' iter
  | readParents node peer => exact h.readParents hfree'
  | push node iter event =>
    obtain ⟨hr, hgrows⟩ := insert_grows hfree' (h.built node) hallowed iter
    exact h.setGraph hr hgrows
  | createOwn node iter timestamp payload signature =>
    cases hparents : c.parents node with
    | none => simpa only [Cluster.step, hparents] using h
    | some parents =>
      have hcreate : c.step u (.createOwn node iter timestamp payload signature) =
          c.createOwn u node iter ⟨node, parents.1, parents.2, timestamp, payload, signature⟩ := by
        simp only [Cluster.step, hparents]
      rw [hcreate, signed_createOwn] at hfree
      exact hcreate ▸ h.createOwn hfree hparents rfl rfl iter
  | ask node peer =>
    have hfine := h.fine node peer
    generalize hlink : c.exchange (node, peer) = exchange at hfine
    cases hfine <;> simp only [Cluster.step, hlink]
    case idle hoffered => exact h.setExchange (.asked (h.built node) subset_rfl hoffered)
    all_goals exact h
  | serve node peer moment =>
    have hfine := h.fine node peer
    generalize hlink : c.exchange (node, peer) = exchange at hfine
    cases hfine <;> simp only [Cluster.step, hlink]
    case asked hr hsub hoffered =>
      obtain ⟨events, dedup', hanswer, hdelivers, hall, hoffered'⟩ := answer_delivers hfree' hr
        h.forkFree (h.built peer) hoffered peer moment
      simp only [hanswer]
      have hunion := Set.union_subset_union_left (onWay u events) hsub
      exact h.setExchange (.receiving (hdelivers.mono subset_rfl hsub) (hall.trans hunion)
        (hoffered'.mono hunion))
    all_goals exact h
  | lose node peer =>
    refine h.setExchange (.idle fun hfilter x hx => ?_)
    have hfine := h.fine node peer
    have hkept := hallowed hfilter
    generalize c.exchange (node, peer) = exchange at hfine hx hkept
    cases hfine with
    | idle hoffered => exact hoffered hfilter hx
    | asked _ hsub hoffered => exact hsub (hoffered hfilter hx)
    | receiving _ _ _ => exact absurd rfl (hkept _ _)

end Healthy

theorem Runs.healthy (h : Runs u c) (hfree : u.H.CollisionFree {e | e ∈ c.signed}) :
    c.Healthy u := by
  induction h with
  | new => exact .new
  | @step c action _ hallowed ih =>
    exact (ih (hfree.mono fun _ he => Healthy.signed_step action he)).step hfree hallowed

/-- In every interleaving of the rounds, each response is taken in to its end, and the node then
holds what its peer held when it answered. -/
theorem sync_rounds_complete (hrun : Runs u c) (hfree : u.H.CollisionFree {e | e ∈ c.signed})
    (node peer : NodeId) :
    (c.exchange (node, peer)).link.broken = false ∧
      ∀ x, (c.exchange (node, peer)).link.brought x = true → ((c.graph node).get? x).isSome := by
  have hfine := (hrun.healthy hfree).fine node peer
  generalize c.exchange (node, peer) = exchange at hfine ⊢
  cases hfine with
  | idle _ => exact ⟨rfl, fun _ hx => by cases hx⟩
  | asked _ _ _ => exact ⟨rfl, fun _ hx => by cases hx⟩
  | @receiving events served _ _ hall _ =>
    refine ⟨rfl, fun x hx => ?_⟩
    cases events with
    | nil =>
      rw [union_onWay_nil] at hall
      exact hall hx
    | cons _ _ => cases hx

open Hashgraph (plainRegistry stampHash inOrder collisionFree_stampHash)

def twoNodes : Setup := ⟨stampHash, .default, plainRegistry 2⟩

/-- Node 1 asks node 0, which creates two events before it answers. -/
def lateAnswer : Cluster :=
  [.ask 1 0, .readParents 0 1, .createOwn 0 inOrder 1 [] ⟨fun _ => 0⟩, .readParents 0 1,
    .createOwn 0 inOrder 2 [] ⟨fun _ => 0⟩,
    .serve 1 0 ⟨⟨inOrder, inOrder, inOrder⟩, inOrder, fun _ => 0⟩, .take 1 0 inOrder,
    .take 1 0 inOrder].foldl (Cluster.step twoNodes) (new twoNodes)

theorem runs_lateAnswer : Runs twoNodes lateAnswer := by
  simp only [lateAnswer, List.foldl_cons, List.foldl_nil]
  iterate 8 refine .step ?_ (by trivial)
  exact .new

theorem sync_rounds_complete_lateAnswer :
    (lateAnswer.exchange (1, 0)).link.broken = false ∧
      (lateAnswer.exchange (1, 0)).link.brought 2 = true ∧
      ((lateAnswer.graph 1).get? 2).isSome :=
  have hbrought : (lateAnswer.exchange (1, 0)).link.brought 2 = true := by decide +kernel
  have h := sync_rounds_complete runs_lateAnswer (collisionFree_stampHash (by decide +kernel)) 1 0
  ⟨h.1, hbrought, h.2 2 hbrought⟩

/-- Honest nodes never fork, and two nodes that hold an event give it the same number and round. -/
theorem honest_nodes_agree (hrun : Runs u c) (hfree : u.H.CollisionFree {e | e ∈ c.signed}) :
    ForkFree {e | e ∈ c.created} ∧ ∀ node node' x r r', (c.graph node).get? x = some r →
      (c.graph node').get? x = some r' → r.event = r'.event ∧ r.seq = r'.seq ∧
        r.round = r'.round ∧ r.isWitness = r'.isWitness := by
  have h := hrun.healthy hfree
  have hfree' : u.H.CollisionFree {e | e ∈ c.created} := hfree.mono h.signed
  refine ⟨h.forkFree, fun node node' x r r' hr hr' => ?_⟩
  have hmeets := (h.built node).meets_of_inserts hfree' (h.built node')
  exact ⟨hmeets.event_eq hr hr', hmeets.seq_eq hr hr', (h.built node).sameRound hfree'
    (h.built node') ⟨Option.isSome_of_eq_some hr, Option.isSome_of_eq_some hr'⟩ r r' hr hr'⟩

theorem honest_nodes_agree_lateAnswer :
    lateAnswer.created.length = 2 ∧ ForkFree {e | e ∈ lateAnswer.created} :=
  ⟨by decide +kernel,
    (honest_nodes_agree runs_lateAnswer (collisionFree_stampHash (by decide +kernel))).1⟩

end Healthy

end Cluster

end JKain
