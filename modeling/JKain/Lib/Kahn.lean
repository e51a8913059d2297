import Mathlib.Data.List.Nodup
import Mathlib.Data.List.Perm.Subperm
import Mathlib.Data.Finset.Card
import Mathlib.Logic.Function.Basic
import Mathlib.Data.Set.Finite.List

/-!
# Topological sorting

Kahn's algorithm: the nodes whose parents are all emitted wait in a queue; emitting one lowers the
number of missing parents of its children, and a child without any left joins the queue. Parents
outside the given nodes do not count. The result is in an order where parents come first, and it
holds all nodes unless their parent links have a cycle.
-/

namespace JKain.Lib

variable {κ : Type} [DecidableEq κ]

/-- The number of parent links of a node into the given nodes. -/
def indegree (parents : κ → List κ) (nodes : List κ) (c : κ) : ℕ :=
  (parents c).countP (· ∈ nodes)

/-- The children of a node, once for each link, in the order of the given nodes. -/
def childLinks (parents : κ → List κ) (nodes : List κ) (p : κ) : List κ :=
  nodes.flatMap fun c => List.replicate ((parents c).count p) c

/-- Lowers the number of a child and queues the child if it gets to zero; a number that is zero
already would underflow. -/
def relax (state : (κ → ℕ) × List κ) (child : κ) : Option ((κ → ℕ) × List κ) :=
  match state.1 child with
  | 0 => none
  | degree + 1 => some (Function.update state.1 child degree,
      if degree = 0 then state.2 ++ [child] else state.2)

/-- Emits the nodes of the queue until it is empty; `none` if the fuel runs out before or a number
underflows. -/
def drain (children : κ → List κ) : ℕ → (κ → ℕ) → List κ → Option (List κ)
  | _, _, [] => some []
  | 0, _, _ :: _ => none
  | fuel + 1, degrees, node :: queue => do
    let (degrees, queue) ← (children node).foldlM relax (degrees, queue)
    let rest ← drain children fuel degrees queue
    return node :: rest

/-- Kahn's algorithm; `start` lists the nodes in the order in which those without parents are
queued. -/
def kahn (parents : κ → List κ) (nodes start : List κ) : Option (List κ) :=
  drain (childLinks parents nodes) nodes.length (indegree parents nodes)
    (start.filter (indegree parents nodes · = 0))

/-- The nodes of the list are distinct from those done and from each other, and each comes after its
parents among the given nodes. -/
def ParentsFirst (parents : κ → List κ) (nodes : List κ) : List κ → List κ → Prop
  | _, [] => True
  | done, x :: l => (x ∈ nodes ∧ x ∉ done ∧ ∀ p ∈ parents x, p ∈ nodes → p ∈ done) ∧
      ParentsFirst parents nodes (x :: done) l

section ParentsFirst

omit [DecidableEq κ]

variable {parents : κ → List κ} {nodes done l : List κ}

theorem ParentsFirst.mem (h : ParentsFirst parents nodes done l) {x : κ} (hx : x ∈ l) :
    x ∈ nodes ∧ x ∉ done := by
  induction l generalizing done with
  | nil => cases hx
  | cons y l ih =>
    rcases List.mem_cons.mp hx with rfl | hx
    · exact ⟨h.1.1, h.1.2.1⟩
    · obtain ⟨hmem, hdone⟩ := ih h.2 hx
      exact ⟨hmem, fun hx' => hdone (List.mem_cons_of_mem y hx')⟩

/-- Only which nodes are given matters. -/
theorem ParentsFirst.congr {nodes' : List κ} (h : ParentsFirst parents nodes done l)
    (hnodes : ∀ x, x ∈ nodes ↔ x ∈ nodes') : ParentsFirst parents nodes' done l := by
  induction l generalizing done with
  | nil => trivial
  | cons x l ih =>
    obtain ⟨⟨hx, hdone, hparents⟩, hrest⟩ := h
    exact ⟨⟨(hnodes x).mp hx, hdone, fun p hp hmem => hparents p hp ((hnodes p).mpr hmem)⟩,
      ih hrest⟩

theorem ParentsFirst.nodup (h : ParentsFirst parents nodes done l) : l.Nodup := by
  induction l generalizing done with
  | nil => exact .nil
  | cons x l ih => exact .cons (fun hx => (h.2.mem hx).2 List.mem_cons_self) (ih h.2)

end ParentsFirst

/-! ## The children of one node -/

section Relax

variable {degrees degrees' : κ → ℕ} {queue queue' : List κ}

/-- What lowering the numbers of a list of children does, as long as none underflows: those whose
number was the number of their links join the queue. -/
structure Relaxed (degrees : κ → ℕ) (queue children : List κ) (degrees' : κ → ℕ)
    (queue' : List κ) : Prop where
  degrees_eq : ∀ c, degrees' c = degrees c - children.count c
  queue_iff : ∀ c, c ∈ queue' ↔ c ∈ queue ∨ (c ∈ children ∧ degrees c = children.count c)
  nodup : queue.Nodup → (∀ c ∈ queue, c ∉ children) → queue'.Nodup

theorem Relaxed.cons {x : κ} {d : ℕ} {children : List κ} (hd : degrees x = d + 1)
    (hle : children.count x ≤ d)
    (h : Relaxed (Function.update degrees x d) (if d = 0 then queue ++ [x] else queue) children
      degrees' queue') : Relaxed degrees queue (x :: children) degrees' queue' where
  degrees_eq c := by
    rw [h.degrees_eq c]
    by_cases hc : c = x
    · subst hc
      rw [Function.update_self, List.count_cons_self, hd]
      omega
    · rw [Function.update_of_ne hc, List.count_cons_of_ne (Ne.symm hc)]
  queue_iff c := by
    rw [h.queue_iff c]
    by_cases hc : c = x
    · subst hc
      rw [Function.update_self, List.count_cons_self, hd]
      by_cases hd0 : d = 0
      · simp [hd0, show children.count c = 0 by omega]
      · have hmem : d = children.count c → c ∈ children := fun heq =>
          List.count_pos_iff.mp (by omega)
        simp only [if_neg hd0, List.mem_cons, true_or, true_and, Nat.add_right_cancel_iff]
        exact or_congr_right ⟨fun hboth => hboth.2, fun heq => ⟨hmem heq, heq⟩⟩
    · rw [Function.update_of_ne hc, List.count_cons_of_ne (Ne.symm hc)]
      split
      · simp [hc]
      · simp [hc]
  nodup hqueue hdisjoint := by
    have hx : x ∉ queue := fun hx => hdisjoint x hx List.mem_cons_self
    have hrest : ∀ c ∈ queue, c ∉ children := fun c hc hmem =>
      hdisjoint c hc (List.mem_cons_of_mem x hmem)
    refine h.nodup ?_ fun c hc hmem => ?_
    · split
      · exact List.nodup_append.mpr ⟨hqueue, List.nodup_singleton x, fun a ha b hb hab => by
          rw [List.mem_singleton.mp hb] at hab
          exact hx (hab ▸ ha)⟩
      · exact hqueue
    · split at hc
      · rename_i hd0
        rcases List.mem_append.mp hc with hc | hc
        · exact hrest c hc hmem
        · rw [List.mem_singleton.mp hc] at hmem
          have := List.count_pos_iff.mpr hmem
          omega
      · exact hrest c hc hmem

theorem foldlM_relax (queue children : List κ) (hle : ∀ c, children.count c ≤ degrees c) :
    ∃ degrees' queue', children.foldlM relax (degrees, queue) = some (degrees', queue') ∧
      Relaxed degrees queue children degrees' queue' := by
  induction children generalizing degrees queue with
  | nil =>
    refine ⟨degrees, queue, rfl, ⟨fun _ => rfl, fun c => ?_, fun hqueue _ => hqueue⟩⟩
    simp
  | cons x children ih =>
    -- The first child has a link left, so that its number does not underflow.
    have hx := hle x
    rw [List.count_cons_self] at hx
    obtain ⟨d, hd⟩ : ∃ d, degrees x = d + 1 := ⟨degrees x - 1, by omega⟩
    have hrest : ∀ c, children.count c ≤ Function.update degrees x d c := by
      intro c
      by_cases hc : c = x
      · subst hc
        rw [Function.update_self]
        omega
      · rw [Function.update_of_ne hc]
        exact List.count_cons_of_ne (Ne.symm hc) ▸ hle c
    obtain ⟨degrees', queue', heq, hrelaxed⟩ :=
      ih (if d = 0 then queue ++ [x] else queue) hrest
    refine ⟨degrees', queue', ?_, hrelaxed.cons hd (by omega)⟩
    have hstep : relax (degrees, queue) x =
        some (Function.update degrees x d, if d = 0 then queue ++ [x] else queue) := by
      simp only [relax, hd]
    rw [List.foldlM_cons, hstep]
    exact heq

end Relax

/-! ## The loop -/

section Drain

variable {parents : κ → List κ} {nodes done : List κ} {degrees : κ → ℕ} {queue : List κ}

theorem count_childLinks (hnodes : nodes.Nodup) (p c : κ) :
    (childLinks parents nodes p).count c = if c ∈ nodes then (parents c).count p else 0 := by
  induction nodes with
  | nil => simp [childLinks]
  | cons x nodes ih =>
    obtain ⟨hx, hrest⟩ := List.nodup_cons.mp hnodes
    have hcons : childLinks parents (x :: nodes) p =
        List.replicate ((parents x).count p) x ++ childLinks parents nodes p := rfl
    rw [hcons, List.count_append, ih hrest, List.count_replicate]
    by_cases hc : c = x
    · subst hc
      simp [hx]
    · simp [hc, Ne.symm hc]

/-- What holds before each turn: the numbers count the links to nodes that are not emitted, and the
nodes without such a link that are not emitted are those in the queue. -/
structure Waiting (parents : κ → List κ) (nodes done : List κ) (degrees : κ → ℕ)
    (queue : List κ) : Prop where
  degrees_eq : ∀ c ∈ nodes, degrees c = (parents c).countP fun p => p ∈ nodes ∧ p ∉ done
  queue_iff : ∀ c, c ∈ queue ↔ c ∈ nodes ∧ c ∉ done ∧ degrees c = 0
  done_zero : ∀ c ∈ done, degrees c = 0
  nodup : queue.Nodup

theorem countP_done_cons {x : κ} (hx : x ∈ nodes) (hdone : x ∉ done) (l : List κ) :
    (l.countP fun p => p ∈ nodes ∧ p ∉ done) =
      (l.countP fun p => p ∈ nodes ∧ p ∉ x :: done) + l.count x := by
  induction l with
  | nil => rfl
  | cons a l ih =>
    rw [List.countP_cons, List.countP_cons, ih]
    by_cases ha : a = x
    · subst ha
      simp only [hx, hdone, List.count_cons_self, List.mem_cons, true_or, not_true_eq_false,
        not_false_eq_true, and_self, and_false, decide_true, decide_false, if_true,
        Bool.false_eq_true, if_false]
      omega
    · simp only [List.count_cons_of_ne ha, List.mem_cons, ha, false_or]
      omega

/-- One turn of the loop. -/
theorem Waiting.emit {x : κ} (hnodes : nodes.Nodup)
    (h : Waiting parents nodes done degrees (x :: queue)) :
    ∃ degrees' queue', (childLinks parents nodes x).foldlM relax (degrees, queue) =
        some (degrees', queue') ∧ Waiting parents nodes (x :: done) degrees' queue' := by
  obtain ⟨hx, hdone, hzero⟩ := (h.queue_iff x).mp List.mem_cons_self
  obtain ⟨hxqueue, hqueue⟩ := List.nodup_cons.mp h.nodup
  have hlinks (c : κ) (hc : c ∈ nodes) : degrees c =
      ((parents c).countP fun p => p ∈ nodes ∧ p ∉ x :: done) +
        (childLinks parents nodes x).count c := by
    rw [h.degrees_eq c hc, countP_done_cons hx hdone, count_childLinks hnodes, if_pos hc]
  have hle (c : κ) : (childLinks parents nodes x).count c ≤ degrees c := by
    by_cases hc : c ∈ nodes
    · have := hlinks c hc
      omega
    · rw [count_childLinks hnodes, if_neg hc]
      exact Nat.zero_le _
  obtain ⟨degrees', queue', heq, hrelaxed⟩ := foldlM_relax queue _ hle
  -- A child with a link left was neither emitted nor queued before.
  have hopen (c : κ) (hc : c ∈ childLinks parents nodes x) : 0 < degrees c :=
    (List.count_pos_iff.mpr hc).trans_le (hle c)
  refine ⟨degrees', queue', heq, ⟨fun c hc => ?_, fun c => ?_, fun c hc => ?_, ?_⟩⟩
  · rw [hrelaxed.degrees_eq c, hlinks c hc]
    omega
  · rw [hrelaxed.queue_iff c, hrelaxed.degrees_eq c]
    constructor
    · rintro (hc | ⟨hc, hcount⟩)
      · obtain ⟨hmem, hcdone, hczero⟩ := (h.queue_iff c).mp (List.mem_cons_of_mem x hc)
        refine ⟨hmem, fun hc' => ?_, by omega⟩
        rcases List.mem_cons.mp hc' with rfl | hc'
        · exact hxqueue hc
        · exact hcdone hc'
      · have hpos := hopen c hc
        refine ⟨?_, fun hc' => ?_, by omega⟩
        · by_contra hmem
          rw [count_childLinks hnodes, if_neg hmem] at hcount
          omega
        · rcases List.mem_cons.mp hc' with rfl | hc'
          · omega
          · have := h.done_zero c hc'
            omega
    · rintro ⟨hmem, hcdone, hczero⟩
      have hcle := hle c
      by_cases hcount : (childLinks parents nodes x).count c = 0
      · have hcqueue : c ∈ x :: queue :=
          (h.queue_iff c).mpr ⟨hmem, fun hc => hcdone (List.mem_cons_of_mem x hc), by omega⟩
        rcases List.mem_cons.mp hcqueue with rfl | hc
        · exact absurd List.mem_cons_self hcdone
        · exact .inl hc
      · exact .inr ⟨List.count_pos_iff.mp (Nat.pos_of_ne_zero hcount), by omega⟩
  · rw [hrelaxed.degrees_eq c]
    rcases List.mem_cons.mp hc with rfl | hc
    · omega
    · have := h.done_zero c hc
      omega
  · refine hrelaxed.nodup hqueue fun c hc hmem => ?_
    have := hopen c hmem
    have := ((h.queue_iff c).mp (List.mem_cons_of_mem x hc)).2.2
    omega

/-- With the queue empty, every node that is left has a parent that is left. -/
theorem Waiting.stuck (h : Waiting parents nodes done degrees []) {c : κ} (hc : c ∈ nodes)
    (hdone : c ∉ done) : ∃ p ∈ parents c, p ∈ nodes ∧ p ∉ done := by
  have hpos : 0 < degrees c := by
    by_contra hzero
    exact List.not_mem_nil ((h.queue_iff c).mpr ⟨hc, hdone, by omega⟩)
  rw [h.degrees_eq c hc, List.countP_pos_iff] at hpos
  obtain ⟨p, hp, hleft⟩ := hpos
  exact ⟨p, hp, of_decide_eq_true hleft⟩

/-- The loop emits nodes in an order where parents come first, until every node that is left has a
parent that is left. -/
theorem Waiting.drain (hnodes : nodes.Nodup) {fuel : ℕ}
    (hfuel : (nodes.filter (· ∉ done)).length ≤ fuel)
    (h : Waiting parents nodes done degrees queue) :
    ∃ l, drain (childLinks parents nodes) fuel degrees queue = some l ∧
      ParentsFirst parents nodes done l ∧
      ∀ c ∈ nodes, c ∉ done → c ∉ l → ∃ p ∈ parents c, p ∈ nodes ∧ p ∉ done ∧ p ∉ l := by
  induction fuel generalizing done degrees queue with
  | zero =>
    cases queue with
    | nil =>
      refine ⟨[], rfl, trivial, fun c hc hdone _ => ?_⟩
      obtain ⟨p, hp, hmem, hleft⟩ := h.stuck hc hdone
      exact ⟨p, hp, hmem, hleft, List.not_mem_nil⟩
    | cons x queue =>
      obtain ⟨hx, hdone, -⟩ := (h.queue_iff x).mp List.mem_cons_self
      have hmem : x ∈ nodes.filter (· ∉ done) := List.mem_filter.mpr ⟨hx, by simpa using hdone⟩
      rw [List.length_eq_zero_iff.mp (Nat.le_zero.mp hfuel)] at hmem
      cases hmem
  | succ fuel ih =>
    cases queue with
    | nil =>
      refine ⟨[], rfl, trivial, fun c hc hdone _ => ?_⟩
      obtain ⟨p, hp, hmem, hleft⟩ := h.stuck hc hdone
      exact ⟨p, hp, hmem, hleft, List.not_mem_nil⟩
    | cons x queue =>
      obtain ⟨hx, hdone, hzero⟩ := (h.queue_iff x).mp List.mem_cons_self
      obtain ⟨degrees', queue', heq, hwaiting⟩ := h.emit hnodes
      have hless : (nodes.filter (· ∉ x :: done)).length < (nodes.filter (· ∉ done)).length := by
        have hmem : x ∈ nodes.filter (· ∉ done) := List.mem_filter.mpr ⟨hx, by simpa using hdone⟩
        have hsub : nodes.filter (· ∉ x :: done) = (nodes.filter (· ∉ done)).filter (· ≠ x) := by
          rw [List.filter_filter]
          refine List.filter_congr fun c _ => ?_
          simp [not_or]
        rw [hsub]
        exact List.length_filter_lt_length_iff_exists.mpr ⟨x, hmem, by simp⟩
      obtain ⟨l, hl, hfirst, hleft⟩ := ih (by omega) hwaiting
      refine ⟨x :: l, ?_, ⟨⟨hx, hdone, fun p hp hmem => ?_⟩, hfirst⟩, fun c hc hcdone hcl => ?_⟩
      · rw [Lib.drain, heq]
        simp only [Option.bind_eq_bind, Option.bind_some, hl]
        rfl
      · by_contra hpdone
        rw [h.degrees_eq x hx, List.countP_eq_zero] at hzero
        exact hzero p hp (decide_eq_true ⟨hmem, hpdone⟩)
      · obtain ⟨hcx, hcl⟩ := not_or.mp (List.mem_cons.not.mp hcl)
        obtain ⟨p, hp, hmem, hpdone, hpl⟩ := hleft c hc (by simp [hcx, hcdone]) hcl
        obtain ⟨hpx, hpdone⟩ := not_or.mp (List.mem_cons.not.mp hpdone)
        exact ⟨p, hp, hmem, hpdone, by simp [hpx, hpl]⟩

end Drain

/-- Kahn's algorithm returns the nodes with parents first; it leaves nodes out only if each of them
has a parent that is left out. -/
theorem kahn_spec (parents : κ → List κ) {nodes start : List κ} (hnodes : nodes.Nodup)
    (hstart : start.Perm nodes) :
    ∃ l, kahn parents nodes start = some l ∧ ParentsFirst parents nodes [] l ∧
      ∀ c ∈ nodes, c ∉ l → ∃ p ∈ parents c, p ∈ nodes ∧ p ∉ l := by
  have hwaiting : Waiting parents nodes [] (indegree parents nodes)
      (start.filter (indegree parents nodes · = 0)) := by
    refine ⟨fun c _ => ?_, fun c => ?_, fun c hc => ?_, (hstart.nodup_iff.mpr hnodes).filter _⟩
    · rw [indegree]
      refine List.countP_congr fun p _ => ?_
      simp
    · rw [List.mem_filter, hstart.mem_iff, decide_eq_true_eq]
      simp
    · cases hc
  obtain ⟨l, hl, hfirst, hleft⟩ :=
    hwaiting.drain hnodes (List.length_filter_le (fun c => decide (c ∉ [])) nodes)
  refine ⟨l, hl, hfirst, fun c hc hcl => ?_⟩
  obtain ⟨p, hp, hmem, -, hpl⟩ := hleft c hc List.not_mem_nil hcl
  exact ⟨p, hp, hmem, hpl⟩

/-! ## Cycles -/

/-- The parent links among the given nodes have no cycle. -/
def Acyclic (parents : κ → List κ) (nodes : List κ) : Prop :=
  ∀ x, ¬Relation.TransGen (fun p c => p ∈ nodes ∧ c ∈ nodes ∧ p ∈ parents c) x x

section Acyclic

omit [DecidableEq κ]

variable {parents : κ → List κ} {nodes done l : List κ}

theorem acyclic_of_rank (rank : κ → ℕ)
    (hrank : ∀ c ∈ nodes, ∀ p ∈ parents c, p ∈ nodes → rank p < rank c) :
    Acyclic parents nodes := by
  intro x hx
  have hlt : ∀ {a b}, Relation.TransGen (fun p c => p ∈ nodes ∧ c ∈ nodes ∧ p ∈ parents c) a b →
      rank a < rank b := by
    intro a b h
    induction h with
    | single hlink => exact hrank _ hlink.2.1 _ hlink.2.2 hlink.1
    | tail _ hlink ih => exact ih.trans (hrank _ hlink.2.1 _ hlink.2.2 hlink.1)
  exact (hlt hx).false

/-- If every node that is left out has a parent that is left out, none is. -/
theorem Acyclic.mem_of_stuck (h : Acyclic parents nodes)
    (hstuck : ∀ c ∈ nodes, c ∉ l → ∃ p ∈ parents c, p ∈ nodes ∧ p ∉ l) : ∀ c ∈ nodes, c ∈ l := by
  let links : {x // x ∈ nodes} → {x // x ∈ nodes} → Prop := fun p c => p.1 ∈ parents c.1
  have hlift : ∀ {a b}, Relation.TransGen links a b →
      Relation.TransGen (fun p c => p ∈ nodes ∧ c ∈ nodes ∧ p ∈ parents c) a.1 b.1 := fun hab =>
    hab.lift Subtype.val fun p c hlink => ⟨p.2, c.2, hlink⟩
  have : Finite {x // x ∈ nodes} := nodes.finite_toSet
  have : Std.Irrefl (Relation.TransGen links) := ⟨fun a ha => h a.1 (hlift ha)⟩
  have hwf := Finite.wellFounded_of_trans_of_irrefl (Relation.TransGen links)
  intro c hc
  -- a node that is left out has a parent that is left out, which is below it
  induction hx : (⟨c, hc⟩ : {x // x ∈ nodes}) using hwf.induction generalizing c with
  | _ x ih =>
    subst hx
    by_contra hleft
    obtain ⟨p, hp, hmem, hpleft⟩ := hstuck c hc hleft
    exact hpleft (ih ⟨p, hmem⟩ (.single hp) p hmem rfl)

/-- Each node of the list comes after its parents. -/
theorem ParentsFirst.before (h : ParentsFirst parents nodes done l) {before after : List κ} {x : κ}
    (hl : l = before ++ x :: after) {p : κ} (hp : p ∈ parents x) (hmem : p ∈ nodes) :
    p ∈ done ∨ p ∈ before := by
  induction before generalizing done l with
  | nil =>
    rw [hl] at h
    exact .inl (h.1.2.2 p hp hmem)
  | cons y before ih =>
    rw [hl] at h
    rcases ih h.2 rfl with hdone | hbefore
    · rcases List.mem_cons.mp hdone with rfl | hdone
      · exact .inr List.mem_cons_self
      · exact .inl hdone
    · exact .inr (List.mem_cons_of_mem y hbefore)

end Acyclic

theorem ParentsFirst.acyclic {parents : κ → List κ} {nodes l : List κ}
    (h : ParentsFirst parents nodes [] l) (hall : ∀ c ∈ nodes, c ∈ l) :
    Acyclic parents nodes := by
  refine acyclic_of_rank (l.idxOf ·) fun c hc p hp hmem => ?_
  obtain ⟨before, after, hl⟩ := List.append_of_mem (hall c hc)
  have hbefore : p ∈ before := (h.before hl hp hmem).resolve_left List.not_mem_nil
  have hnodup := h.nodup
  rw [hl] at hnodup
  have hc' : c ∉ before := fun hc' =>
    (List.disjoint_of_nodup_append hnodup) hc' List.mem_cons_self
  rw [hl, List.idxOf_append_of_mem hbefore, List.idxOf_append_of_notMem hc', List.idxOf_cons_self]
  exact List.idxOf_lt_length_of_mem hbefore

/-- Kahn's algorithm emits as many nodes as there are exactly if there is no cycle, and then all of
them. -/
theorem kahn_length_iff (parents : κ → List κ) {nodes start : List κ} (hnodes : nodes.Nodup)
    (hstart : start.Perm nodes) :
    ∃ l, kahn parents nodes start = some l ∧ ParentsFirst parents nodes [] l ∧
      (l.length = nodes.length ↔ Acyclic parents nodes) ∧
      (l.length = nodes.length → l.Perm nodes) := by
  obtain ⟨l, hl, hfirst, hleft⟩ := kahn_spec parents hnodes hstart
  have hsub : l.Subperm nodes := hfirst.nodup.subperm fun x hx => (hfirst.mem hx).1
  have hperm : l.length = nodes.length → l.Perm nodes := fun hlen =>
    hsub.perm_of_length_le hlen.ge
  refine ⟨l, hl, hfirst, ⟨fun hlen => ?_, fun hacyclic => ?_⟩, hperm⟩
  · exact hfirst.acyclic fun c hc => (hperm hlen).mem_iff.mpr hc
  · have hall := hacyclic.mem_of_stuck hleft
    exact le_antisymm hsub.length_le (hnodes.subperm hall).length_le

end JKain.Lib
