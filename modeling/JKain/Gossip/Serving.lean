import JKain.Gossip.FrontierSpec

/-!
# Serving peers

`handle_inbound` answers the sync requests of a connection with filtered deltas. What was offered
lately is remembered under the peer that a request names, not under the connection it came from.

An event that was offered and is not known to have arrived is withheld for a while, its children are
not: the filter keeps a delta whole only where what it withholds has arrived.
-/

namespace JKain

open Std JKain.Lib

/-! ## The filter -/

section Filter

variable {H : Hasher} {S : Set Event} {registry : MembershipRegistry} {s r : Hashgraph}
  {config : SyncConfig} {selfId targetPeer : NodeId} {clock : ℕ → ℕ}

open Hashgraph (ForkFree Reached)

/-- What was offered to the peer within the largest threshold has arrived at its graph. -/
def DedupState.Arrived (config : SyncConfig) (r : Hashgraph) (targetPeer : NodeId)
    (clock : ℕ → ℕ) (dedup : DedupState) : Prop :=
  ∀ x entry, dedup.sent[(targetPeer, x)]? = some entry →
    (r.get? x).isSome ∨ ∀ k, config.largest ≤ clock k - entry.1

theorem DedupState.threshold_le (isSelf isAncestor : Bool) (entry : ℕ × Bool × Bool) :
    DedupState.threshold config isSelf isAncestor entry ≤ config.largest := by
  unfold DedupState.threshold SyncConfig.largest
  split
  · exact Nat.le_max_right _ _
  · split
    · exact (Nat.le_max_right _ _).trans (Nat.le_max_left _ _)
    · exact (Nat.le_max_left _ _).trans (Nat.le_max_left _ _)

/-- An event without a fresh entry is kept, and only its own entry changes. -/
theorem DedupState.shouldFilter_eq {dedup : DedupState} {x : EventHash} {now : ℕ}
    (h : ∀ entry, dedup.sent[(targetPeer, x)]? = some entry → config.largest ≤ now - entry.1)
    (isSelf isAncestor : Bool) : ∃ dedup', dedup.shouldFilter config x targetPeer isSelf isAncestor
      now = (false, dedup') ∧ ∀ y, y ≠ x →
        dedup'.sent[(targetPeer, y)]? = dedup.sent[(targetPeer, y)]? := by
  have hother (y : EventHash) (hy : y ≠ x) : (dedup.sent.insert (targetPeer, x)
      (now, isSelf, isAncestor))[(targetPeer, y)]? = dedup.sent[(targetPeer, y)]? := by
    rw [ExtTreeMap.getElem?_insert, if_neg]
    intro heq
    exact hy (Prod.mk.inj (Std.compare_eq_iff_eq.mp heq)).2.symm
  unfold DedupState.shouldFilter
  split
  · exact ⟨dedup, rfl, fun _ _ => rfl⟩
  · cases hentry : dedup.sent[(targetPeer, x)]? with
    | none => exact ⟨_, rfl, hother⟩
    | some entry =>
      have hold := (DedupState.threshold_le isSelf isAncestor entry).trans (h entry hentry)
      simp only [if_neg (Nat.not_lt.mpr hold)]
      exact ⟨_, rfl, hother⟩

theorem countsAsAncestor_eq {g : Hashgraph} (hg : g.Consistent) {x : EventHash}
    (hx : (g.get? x).isSome) : ∃ b, countsAsAncestor g selfId x = .ok b := by
  unfold countsAsAncestor
  cases hlatest : g.latestEventBy selfId with
  | none => exact ⟨false, rfl⟩
  | some latest =>
    obtain ⟨record, hrecord⟩ := Option.isSome_iff_exists.mp hx
    obtain ⟨record', hrecord', -⟩ := hg.latest hlatest
    have hsafe := (hg.isAncestor_safe (E := fun _ => False) hrecord hrecord').returns.eq_ok
    exact ⟨_, congrArg unwrapOrFalse hsafe⟩

/-- Nothing is dropped from a delta whose events have no fresh entries. -/
theorem filterDelta_keeps {g : Hashgraph} (hg : g.Consistent) (selfId : NodeId) {delta : List (EventHash × Event)}
    (hstored : ∀ x e, (x, e) ∈ delta → (g.get? x).isSome) (hnodup : (delta.map (·.1)).Nodup)
    {dedup : DedupState} (hold : ∀ x ∈ delta.map (·.1), ∀ entry,
      dedup.sent[(targetPeer, x)]? = some entry → ∀ k, config.largest ≤ clock k - entry.1) (k : ℕ) :
    ∃ dedup', filterDelta config g selfId targetPeer clock k delta dedup = .ok delta dedup' := by
  induction delta generalizing dedup k with
  | nil => exact ⟨dedup, rfl⟩
  | cons head delta ih =>
    obtain ⟨x, e⟩ := head
    rw [List.map_cons, List.nodup_cons] at hnodup
    obtain ⟨b, hb⟩ : ∃ b, (if decide (e.creator = selfId) = true then .ok false
        else countsAsAncestor g selfId x) = .ok b := by
      split
      · exact ⟨false, rfl⟩
      · exact countsAsAncestor_eq hg (hstored x e List.mem_cons_self)
    obtain ⟨dedup', hkept, hother⟩ := DedupState.shouldFilter_eq
      (fun entry hentry => hold x List.mem_cons_self entry hentry k)
      (decide (e.creator = selfId)) b
    have hold' (y : EventHash) (hy : y ∈ delta.map (·.1)) (entry : ℕ × Bool × Bool)
        (hentry : dedup'.sent[(targetPeer, y)]? = some entry) :
        ∀ k, config.largest ≤ clock k - entry.1 := by
      rw [hother y fun heq => hnodup.1 (heq ▸ hy)] at hentry
      exact hold y (List.mem_cons_of_mem _ hy) entry hentry
    obtain ⟨dedup'', hrest⟩ := ih (fun y e' hy => hstored y e' (List.mem_cons_of_mem _ hy))
      hnodup.2 hold' (k + 1)
    have hancestor : (fromExcept (.ok b) : EStateM Fault DedupState Bool) dedup = .ok b dedup := rfl
    have hentered : (modifyGet (·.shouldFilter config x targetPeer (decide (e.creator = selfId)) b
        (clock k)) : EStateM Fault DedupState Bool) dedup = .ok false dedup' :=
      congrArg (fun p : Bool × DedupState => EStateM.Result.ok p.1 p.2) hkept
    refine ⟨dedup'', ?_⟩
    rw [filterDelta, hb, bind_eq_of_ok hancestor, bind_eq_of_ok hentered, bind_eq_of_ok hrest]
    rfl

theorem Feeds.not_held {held : EventHash → Prop} {delta : List (EventHash × Event)}
    (h : Feeds held delta) {x : EventHash} (hx : x ∈ delta.map (·.1)) : ¬held x := by
  induction delta generalizing held with
  | nil => cases hx
  | cons head delta ih =>
    rcases List.mem_cons.mp hx with rfl | hx
    · exact h.1.1
    · exact fun hheld => ih h.2 hx (.inl hheld)

theorem Feeds.nodup {held : EventHash → Prop} {delta : List (EventHash × Event)}
    (h : Feeds held delta) : (delta.map (·.1)).Nodup := by
  induction delta generalizing held with
  | nil => exact .nil
  | cons head delta ih =>
    exact .cons (fun hx => h.2.not_held hx (.inr rfl)) (ih h.2)

open Hashgraph (plainEvent plainRegistry stampHash inOrder collisionFree_stampHash
  forkFree_of_pairwise)

/-- Two events of member 1, who is neither the responder nor the requester. -/
def relayed : List Event := [plainEvent 1 1 none none, plainEvent 2 1 (some 1) none]

end Filter

/-! ## Connections -/

/-- The frames that `handle_inbound` tells apart. On any other frame, which belongs to another
protocol or is a response nobody asked for, it closes the connection. -/
inductive Frame
  | syncRequest (sender : NodeId) (known : List (NodeId × ℕ))
  | event (event : Event)
  | checkpointSig
  | other

/-- The frames `handle_inbound` sends. -/
inductive Reply
  | syncResponse (events : List Event)
  | behind
  deriving DecidableEq

/-- What the program does not determine about the handling of a frame: the iteration orders and the
readings of the clock. -/
structure Moment where
  order : DeltaOrder
  iter : IterOrder
  clock : ℕ → ℕ

/-- The parts of a node that `handle_inbound` works on. -/
structure Server where
  hashgraph : Hashgraph
  registry : MembershipRegistry
  dedupState : ExtTreeMap NodeId DedupState

/-- What happens to a node: a frame arrives on the connection of a peer, or another task leaves the
graph and the registry as given. -/
inductive Input
  | frame (peer : NodeId) (moment : Moment) (frame : Frame)
  | task (hashgraph : Hashgraph) (registry : MembershipRegistry)

section Serving

variable (H : Hasher) (verified : MembershipRegistry → Event → Bool) (config : SyncConfig)
  (nodeId : NodeId)

/-- The reply to a sync request and the entries after it. A panic would end the connection's task
without a reply. -/
def answer (g : Hashgraph) (registry : MembershipRegistry) (moment : Moment) (sender : NodeId)
    (known : List (NodeId × ℕ)) (dedup : DedupState) : Option Reply × DedupState :=
  match deltaEventsFiltered moment.order config g known registry nodeId sender moment.clock
      dedup with
  | .ok (.ok events) dedup => (some (.syncResponse (events.map (·.2))), dedup)
  | .ok (.error _) dedup => (some .behind, dedup)
  | .error _ dedup => (none, dedup)

namespace Server

/-- The entries of a peer: `dedup_map.entry(from).or_default()`. -/
def dedupOf (server : Server) (peer : NodeId) : DedupState :=
  server.dedupState[peer]?.getD .empty

/-- One turn of the loop of `handle_inbound`. What the acceptance of a checkpoint does to the graph
is left to `Input.task`. -/
def handleInbound (server : Server) (moment : Moment) : Frame → Option Reply × Server
  | .syncRequest sender known =>
    let (reply, dedup) := answer config nodeId server.hashgraph server.registry moment sender known
      (server.dedupOf sender)
    (reply, { server with dedupState := server.dedupState.insert sender dedup })
  | .event event =>
    if verified server.registry event then
      match Hashgraph.insert H moment.iter event server.hashgraph with
      | .ok _ g => (none, { server with hashgraph := g })
      | .error _ g => (none, { server with hashgraph := g })
    else (none, server)
  | .checkpointSig => (none, server)
  | .other => (none, server)

def step (server : Server) : Input → Server
  | .frame _ moment frame => (server.handleInbound H verified config nodeId moment frame).2
  | .task hashgraph registry => { server with hashgraph, registry }

/-- The replies on the connection of a peer, one for each of its frames. -/
def replies (peer : NodeId) : Server → List Input → List (Option Reply)
  | _, [] => []
  | server, input :: inputs =>
    let rest := replies peer (server.step H verified config nodeId input) inputs
    match input with
    | .frame peer' moment frame =>
      if peer' = peer then (server.handleInbound H verified config nodeId moment frame).1 :: rest
      else rest
    | .task _ _ => rest

/-- What the frames of a peer meet: the graph and the registry at their turn. -/
def views (peer : NodeId) :
    Server → List Input → List (Hashgraph × MembershipRegistry × Moment × Frame)
  | _, [] => []
  | server, input :: inputs =>
    let rest := views peer (server.step H verified config nodeId input) inputs
    match input with
    | .frame peer' moment frame =>
      if peer' = peer then (server.hashgraph, server.registry, moment, frame) :: rest else rest
    | .task _ _ => rest

end Server

/-- The replies to a peer from what its frames meet, with the peer's own entries only. -/
def repliesTo : DedupState → List (Hashgraph × MembershipRegistry × Moment × Frame) →
    List (Option Reply)
  | _, [] => []
  | dedup, (g, registry, moment, .syncRequest sender known) :: views =>
    (answer config nodeId g registry moment sender known dedup).1 ::
      repliesTo (answer config nodeId g registry moment sender known dedup).2 views
  | dedup, (_, _, _, .event _) :: views => none :: repliesTo dedup views
  | dedup, (_, _, _, .checkpointSig) :: views => none :: repliesTo dedup views
  | dedup, (_, _, _, .other) :: views => none :: repliesTo dedup views

/-- The peer names itself in its sync requests, and nobody else names it. -/
def Input.NamesOnly (peer : NodeId) : Input → Prop
  | .frame peer' _ (.syncRequest sender _) => sender = peer ↔ peer' = peer
  | _ => True

section Views

variable {H verified config nodeId} {peer : NodeId} {server : Server} {inputs inputs' : List Input}

theorem Server.dedupOf_insert (sender : NodeId) (dedup : DedupState) :
    Server.dedupOf { server with dedupState := server.dedupState.insert sender dedup } peer =
      if sender = peer then dedup else server.dedupOf peer := by
  unfold Server.dedupOf
  rw [ExtTreeMap.getElem?_insert]
  by_cases h : sender = peer
  · rw [if_pos (Std.compare_eq_iff_eq.mpr h), if_pos h, Option.getD_some]
  · rw [if_neg (fun heq => h (Std.compare_eq_iff_eq.mp heq)), if_neg h]

/-- A frame other than a sync request gets no reply and leaves the entries alone. -/
theorem Server.handleInbound_silent (server : Server) (peer : NodeId) (moment : Moment)
    {frame : Frame} (h : ∀ sender known, frame ≠ .syncRequest sender known) :
    (server.handleInbound H verified config nodeId moment frame).1 = none ∧
      (server.handleInbound H verified config nodeId moment frame).2.dedupOf peer =
        server.dedupOf peer := by
  cases frame with
  | syncRequest sender known => exact absurd rfl (h sender known)
  | checkpointSig => exact ⟨rfl, rfl⟩
  | other => exact ⟨rfl, rfl⟩
  | event event =>
    rw [Server.handleInbound]
    split
    · cases Hashgraph.insert H moment.iter event server.hashgraph with
      | ok _ g => exact ⟨rfl, rfl⟩
      | error _ g => exact ⟨rfl, rfl⟩
    · exact ⟨rfl, rfl⟩

theorem repliesTo_silent {g : Hashgraph} {registry : MembershipRegistry} {moment : Moment}
    {frame : Frame} (h : ∀ sender known, frame ≠ .syncRequest sender known) (dedup : DedupState)
    (views : List (Hashgraph × MembershipRegistry × Moment × Frame)) :
    repliesTo config nodeId dedup ((g, registry, moment, frame) :: views) =
      none :: repliesTo config nodeId dedup views := by
  cases frame with
  | syncRequest sender known => exact absurd rfl (h sender known)
  | event _ => rfl
  | checkpointSig => rfl
  | other => rfl

/-- The replies to a peer that only itself names are determined by what its frames meet. -/
theorem Server.replies_eq (h : ∀ input ∈ inputs, input.NamesOnly peer) :
    server.replies H verified config nodeId peer inputs = repliesTo config nodeId
      (server.dedupOf peer) (server.views H verified config nodeId peer inputs) := by
  induction inputs generalizing server with
  | nil => rfl
  | cons input inputs ih =>
    have hnamed := h input List.mem_cons_self
    have hrest (server : Server) := @ih server fun i hi => h i (List.mem_cons_of_mem _ hi)
    cases input with
    | task g registry => exact hrest _
    | frame peer' moment frame =>
      rw [Server.replies, Server.views, hrest]
      by_cases hrequest : ∃ sender known, frame = .syncRequest sender known
      · obtain ⟨sender, known, rfl⟩ := hrequest
        have hnamed : sender = peer ↔ peer' = peer := hnamed
        have hdedup : (server.step H verified config nodeId
            (.frame peer' moment (.syncRequest sender known))).dedupOf peer =
              if sender = peer then (answer config nodeId server.hashgraph server.registry moment
                sender known (server.dedupOf sender)).2 else server.dedupOf peer :=
          server.dedupOf_insert sender _
        rw [hdedup]
        by_cases hpeer : peer' = peer
        · obtain rfl := hnamed.mpr hpeer
          simp only [if_pos hpeer, if_true]
          rfl
        · simp only [if_neg hpeer, if_neg fun heq => hpeer (hnamed.mp heq)]
      · obtain ⟨hnone, hdedup⟩ := server.handleInbound_silent peer moment
          fun sender known heq => hrequest ⟨sender, known, heq⟩
        rw [Server.step, hdedup]
        by_cases hpeer : peer' = peer
        · simp only [if_pos hpeer, hnone]
          rw [repliesTo_silent fun sender known heq => hrequest ⟨sender, known, heq⟩]
        · simp only [if_neg hpeer]

/-- Other peers do not change the replies to a peer that they do not name in requests of their own:
two histories in which its frames meet the same graphs and registries at the same times give it the
same replies. -/
theorem replies_independent_of_other_peers (h : ∀ input ∈ inputs, input.NamesOnly peer)
    (h' : ∀ input ∈ inputs', input.NamesOnly peer)
    (hviews : server.views H verified config nodeId peer inputs =
      server.views H verified config nodeId peer inputs') :
    server.replies H verified config nodeId peer inputs =
      server.replies H verified config nodeId peer inputs' := by
  rw [Server.replies_eq h, Server.replies_eq h', hviews]

open Hashgraph (Reached plainEvent plainRegistry stampHash inOrder)

/-- The handling of a frame at a given time. -/
def atTime (now : ℕ) : Moment := ⟨⟨inOrder, inOrder, inOrder⟩, inOrder, fun _ => now⟩

/-- Peer 2 asks a second after peer 1 has asked. -/
theorem replies_independent_of_other_peers_second :
    ∃ g, Reached stampHash (fun _ op => op.Inserts {e | e ∈ relayed}) (plainRegistry 3) g ∧
      Server.replies stampHash (fun _ _ => true) .default 0 2 ⟨g, plainRegistry 3, ∅⟩
          [.frame 1 (atTime 0) (.syncRequest 1 []),
            .frame 2 (atTime 1000000000) (.syncRequest 2 [])] =
        Server.replies stampHash (fun _ _ => true) .default 0 2 ⟨g, plainRegistry 3, ∅⟩
          [.frame 2 (atTime 1000000000) (.syncRequest 2 [])] := by
  obtain ⟨g, hg, -⟩ := Hashgraph.exists_built (S := {e | e ∈ relayed}) (plainRegistry 3) relayed
    (fun _ => true) (fun _ => id) (by decide +kernel)
  refine ⟨g, hg, replies_independent_of_other_peers (fun input hinput => ?_)
    (fun input hinput => ?_) rfl⟩
  · rcases List.mem_cons.mp hinput with rfl | hinput
    · exact iff_of_false (by decide) (by decide)
    · exact List.mem_singleton.mp hinput ▸ Iff.rfl
  · exact List.mem_singleton.mp hinput ▸ Iff.rfl

/-- Peer 1 asks in the name of peer 2. A second later peer 2 asks and is not sent what peer 1 was
offered; without the frame of peer 1 it is. -/
theorem reply_withheld_by_other_peer :
    ∃ g, Reached stampHash (fun _ op => op.Inserts {e | e ∈ relayed}) (plainRegistry 3) g ∧
      Server.views stampHash (fun _ _ => true) .default 0 2 ⟨g, plainRegistry 3, ∅⟩
          [.frame 1 (atTime 0) (.syncRequest 2 []),
            .frame 2 (atTime 1000000000) (.syncRequest 2 [])] =
        Server.views stampHash (fun _ _ => true) .default 0 2 ⟨g, plainRegistry 3, ∅⟩
          [.frame 2 (atTime 1000000000) (.syncRequest 2 [])] ∧
      Server.replies stampHash (fun _ _ => true) .default 0 2 ⟨g, plainRegistry 3, ∅⟩
          [.frame 1 (atTime 0) (.syncRequest 2 []),
            .frame 2 (atTime 1000000000) (.syncRequest 2 [])] = [some (.syncResponse [])] ∧
      Server.replies stampHash (fun _ _ => true) .default 0 2 ⟨g, plainRegistry 3, ∅⟩
          [.frame 2 (atTime 1000000000) (.syncRequest 2 [])] = [some (.syncResponse relayed)] := by
  obtain ⟨g, hg, hrun⟩ := Hashgraph.exists_built (S := {e | e ∈ relayed}) (plainRegistry 3) relayed
    (fun g => decide (Server.replies stampHash (fun _ _ => true) .default 0 2
          ⟨g, plainRegistry 3, ∅⟩ [.frame 1 (atTime 0) (.syncRequest 2 []),
            .frame 2 (atTime 1000000000) (.syncRequest 2 [])] = [some (.syncResponse [])]) &&
      decide (Server.replies stampHash (fun _ _ => true) .default 0 2 ⟨g, plainRegistry 3, ∅⟩
        [.frame 2 (atTime 1000000000) (.syncRequest 2 [])] = [some (.syncResponse relayed)]))
    (fun _ => id) (by decide +kernel)
  rw [Bool.and_eq_true, decide_eq_true_eq, decide_eq_true_eq] at hrun
  exact ⟨g, hg, rfl, hrun.1, hrun.2⟩

end Views

end Serving

end JKain
