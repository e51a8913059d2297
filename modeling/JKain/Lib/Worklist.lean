import Mathlib.Data.Finset.Card
import Mathlib.Logic.Relation

/-!
# Breadth-first traversal with a visited set

`bfs` pops nodes from the front of a queue, skips those already visited, and expands the others,
appending their successors at the back. An expansion either ends the traversal with an answer or
yields a new accumulator and the successors.
-/

namespace JKain.Lib

variable {κ α ρ : Type} [DecidableEq κ]

/-- How a traversal ended: with an answer, with the queue empty, or out of fuel. -/
inductive Search (ρ α : Type)
  | found (r : ρ)
  | exhausted (acc : α)
  | outOfFuel

/-- Breadth-first traversal. `early` is asked about each popped node before the visited test,
`expand` about each node popped for the first time. -/
def bfs (early : κ → Option ρ) (expand : α → κ → Except ρ (α × List κ)) :
    ℕ → List κ → Finset κ → α → Search ρ α
  | 0, _, _, _ => .outOfFuel
  | _ + 1, [], _, acc => .exhausted acc
  | fuel + 1, current :: queue, visited, acc =>
    match early current with
    | some r => .found r
    | none =>
      if current ∈ visited then bfs early expand fuel queue visited acc
      else
        match expand acc current with
        | .error r => .found r
        | .ok (acc', next) => bfs early expand fuel (queue ++ next) (insert current visited) acc'

/-! ## The induction rule

A traversal is bounded by a finite set `S` outside which nodes have no successors: each node of `S`
is expanded once and queues at most `d` others, so that the queue empties. -/

/-- Expansions of nodes of `S` yield at most `d` successors, all other expansions none. -/
def Bounded (S : Finset κ) (d : ℕ) (expand : α → κ → Except ρ (α × List κ)) : Prop :=
  ∀ acc c acc' next, expand acc c = .ok (acc', next) →
    next.length ≤ d ∧ (c ∉ S → next = [])

/-- The pops a traversal can still make. -/
def work (S : Finset κ) (d : ℕ) (queue : List κ) (visited : Finset κ) : ℕ :=
  queue.length + d * (S \ visited).card

theorem work_expand_lt {S : Finset κ} {d : ℕ} {c : κ} {queue next : List κ} {visited : Finset κ}
    (hc : c ∉ visited) (hlen : next.length ≤ d) (hout : c ∉ S → next = []) :
    work S d (queue ++ next) (insert c visited) < work S d (c :: queue) visited := by
  by_cases hS : c ∈ S
  · have hmem : c ∈ S \ visited := Finset.mem_sdiff.mpr ⟨hS, hc⟩
    have hcard : (S \ insert c visited).card + 1 = (S \ visited).card := by
      rw [Finset.sdiff_insert, Finset.card_erase_add_one hmem]
    simp only [work, List.length_append, List.length_cons]
    rw [← hcard, Nat.mul_add]
    omega
  · have hcard : (S \ insert c visited).card ≤ (S \ visited).card :=
      Finset.card_le_card (Finset.sdiff_subset_sdiff le_rfl (Finset.subset_insert c visited))
    have hmul := Nat.mul_le_mul_left d hcard
    simp only [work, hout hS, List.append_nil, List.length_cons]
    omega

/-- What holds of the queue, the visited set and the accumulator at every pop, and implies the
conclusion wherever the traversal can end, gives the conclusion. Enough fuel is part of the rule. -/
theorem bfs_induction {early : κ → Option ρ} {expand : α → κ → Except ρ (α × List κ)}
    {S : Finset κ} {d : ℕ} (hS : Bounded S d expand)
    {I : List κ → Finset κ → α → Prop} {P : Search ρ α → Prop}
    (exhausted : ∀ visited acc, I [] visited acc → P (.exhausted acc))
    (answer : ∀ c queue visited acc r, I (c :: queue) visited acc → early c = some r →
      P (.found r))
    (skip : ∀ c queue visited acc, I (c :: queue) visited acc → early c = none → c ∈ visited →
      I queue visited acc)
    (stop : ∀ c queue visited acc r, I (c :: queue) visited acc → early c = none → c ∉ visited →
      expand acc c = .error r → P (.found r))
    (step : ∀ c queue visited acc acc' next, I (c :: queue) visited acc → early c = none →
      c ∉ visited → expand acc c = .ok (acc', next) →
      I (queue ++ next) (insert c visited) acc')
    {fuel : ℕ} {queue : List κ} {visited : Finset κ} {acc : α}
    (hfuel : work S d queue visited < fuel) (hI : I queue visited acc) :
    P (bfs early expand fuel queue visited acc) := by
  induction fuel generalizing queue visited acc with
  | zero => omega
  | succ fuel ih =>
    cases queue with
    | nil => exact exhausted visited acc hI
    | cons c queue =>
      simp only [bfs]
      cases he : early c with
      | some r => exact answer c queue visited acc r hI he
      | none =>
        by_cases hv : c ∈ visited
        · have hless : work S d queue visited < fuel := by
            simp only [work, List.length_cons] at hfuel ⊢
            omega
          simpa only [hv, if_true] using ih hless (skip c queue visited acc hI he hv)
        · simp only [hv, if_false]
          cases hx : expand acc c with
          | error r => exact stop c queue visited acc r hI he hv hx
          | ok result =>
            obtain ⟨acc', next⟩ := result
            obtain ⟨hlen, hout⟩ := hS acc c acc' next hx
            have hless : work S d (queue ++ next) (insert c visited) <
                work S d (c :: queue) visited := work_expand_lt hv hlen hout
            exact ih (by omega) (step c queue visited acc acc' next hI he hv hx)

/-! ## Independence of what is not met -/

/-- A traversal reads its expansion only on a set that holds the queue and is closed under
successors. -/
theorem bfs_congr {early : κ → Option ρ} {expand expand' : α → κ → Except ρ (α × List κ)}
    {R : Set κ} (hsame : ∀ c ∈ R, ∀ acc, expand' acc c = expand acc c)
    (hclosed : ∀ c ∈ R, ∀ acc acc' next, expand acc c = .ok (acc', next) → ∀ b ∈ next, b ∈ R)
    {fuel : ℕ} {queue : List κ} {visited : Finset κ} {acc : α} (hqueue : ∀ c ∈ queue, c ∈ R) :
    bfs early expand' fuel queue visited acc = bfs early expand fuel queue visited acc := by
  induction fuel generalizing queue visited acc with
  | zero => rfl
  | succ fuel ih =>
    cases queue with
    | nil => rfl
    | cons c queue =>
      have hc : c ∈ R := hqueue c (by simp)
      have hrest : ∀ b ∈ queue, b ∈ R := fun b hb => hqueue b (by simp [hb])
      simp only [bfs, hsame c hc]
      cases early c with
      | some r => rfl
      | none =>
        by_cases hv : c ∈ visited
        · simpa only [hv, if_true] using ih hrest
        · simp only [hv, if_false]
          cases hx : expand acc c with
          | error r => rfl
          | ok result =>
            obtain ⟨acc', next⟩ := result
            refine ih fun b hb => ?_
            rcases List.mem_append.mp hb with hb | hb
            · exact hrest b hb
            · exact hclosed c hc acc acc' next hx b hb

/-- More fuel does not change a traversal that ended. -/
theorem bfs_add_fuel {early : κ → Option ρ} {expand : α → κ → Except ρ (α × List κ)} {fuel : ℕ}
    {queue : List κ} {visited : Finset κ} {acc : α}
    (h : bfs early expand fuel queue visited acc ≠ .outOfFuel) (k : ℕ) :
    bfs early expand (fuel + k) queue visited acc = bfs early expand fuel queue visited acc := by
  induction fuel generalizing queue visited acc with
  | zero => exact absurd rfl h
  | succ fuel ih =>
    rw [Nat.add_right_comm]
    cases queue with
    | nil => rfl
    | cons c queue =>
      simp only [bfs] at h ⊢
      cases he : early c with
      | some r => rfl
      | none =>
        simp only [he] at h
        by_cases hv : c ∈ visited
        · simp only [hv, if_true] at h ⊢
          exact ih h
        · simp only [hv, if_false] at h ⊢
          cases hx : expand acc c with
          | error r => rfl
          | ok result =>
            rw [hx] at h
            exact ih h

/-! ## Traversals and reachability -/

/-- `b` is reached from `a` along successors. -/
def Reach (succ : κ → List κ) : κ → κ → Prop := Relation.ReflTransGen fun a b => b ∈ succ a

/-- The state of a traversal from `start`: all it has met is reachable, and the successors of the
visited nodes have been met. -/
structure Frontier (succ : κ → List κ) (start : κ) (queue : List κ) (visited : Finset κ) :
    Prop where
  start_met : start ∈ visited ∨ start ∈ queue
  visited_reach : ∀ c ∈ visited, Reach succ start c
  queue_reach : ∀ c ∈ queue, Reach succ start c
  succ_met : ∀ c ∈ visited, ∀ b ∈ succ c, b ∈ visited ∨ b ∈ queue

namespace Frontier

variable {succ : κ → List κ} {start c : κ} {queue : List κ} {visited : Finset κ}

omit [DecidableEq κ] in
theorem init (succ : κ → List κ) (start : κ) : Frontier succ start [start] ∅ where
  start_met := .inr (by simp)
  visited_reach := by simp
  queue_reach := by
    intro c hc
    rw [List.mem_singleton.mp hc]
    exact .refl
  succ_met := by simp

omit [DecidableEq κ] in
/-- Dropping a visited node from the queue. -/
theorem skip (h : Frontier succ start (c :: queue) visited) (hc : c ∈ visited) :
    Frontier succ start queue visited where
  start_met := by
    rcases h.start_met with hs | hs
    · exact .inl hs
    · rcases List.mem_cons.mp hs with rfl | hs
      · exact .inl hc
      · exact .inr hs
  visited_reach := h.visited_reach
  queue_reach := fun b hb => h.queue_reach b (List.mem_cons_of_mem c hb)
  succ_met := by
    intro a ha b hb
    rcases h.succ_met a ha b hb with hv | hq
    · exact .inl hv
    · rcases List.mem_cons.mp hq with rfl | hq
      · exact .inl hc
      · exact .inr hq

/-- Visiting a node and queueing its successors. -/
theorem step (h : Frontier succ start (c :: queue) visited) :
    Frontier succ start (queue ++ succ c) (insert c visited) where
  start_met := by
    have hs := h.start_met
    simp only [List.mem_cons, Finset.mem_insert, List.mem_append] at hs ⊢
    tauto
  visited_reach := by
    intro a ha
    rcases Finset.mem_insert.mp ha with rfl | ha
    · exact h.queue_reach a (by simp)
    · exact h.visited_reach a ha
  queue_reach := by
    intro a ha
    rcases List.mem_append.mp ha with ha | ha
    · exact h.queue_reach a (List.mem_cons_of_mem c ha)
    · exact (h.queue_reach c (by simp)).tail ha
  succ_met := by
    intro a ha b hb
    rcases Finset.mem_insert.mp ha with rfl | ha
    · exact .inr (List.mem_append_right queue hb)
    · have hmet := h.succ_met a ha b hb
      simp only [List.mem_cons, Finset.mem_insert, List.mem_append] at hmet ⊢
      tauto

omit [DecidableEq κ] in
/-- Once the queue is empty, the visited nodes are the reachable ones. -/
theorem mem_visited_iff (h : Frontier succ start [] visited) :
    c ∈ visited ↔ Reach succ start c := by
  refine ⟨h.visited_reach c, fun hreach => ?_⟩
  induction hreach with
  | refl => simpa using h.start_met
  | tail _ hedge ih => simpa using h.succ_met _ ih _ hedge

end Frontier

end JKain.Lib
