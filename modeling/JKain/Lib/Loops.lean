import JKain.Lib.Holds
import Mathlib.Data.List.Sort
import Mathlib.Order.Interval.Finset.Nat

/-!
# Loops that may fail

Counting and binary search where the test itself may stop with a fault, and what they compute when
it does not.
-/

namespace JKain.Lib

variable {ε α : Type}

/-- Counts the elements that pass a test, stopping at the first test that fails. -/
def countM (p : α → Except ε Bool) : List α → Except ε ℕ
  | [] => .ok 0
  | a :: l => do
    let b ← p a
    let n ← countM p l
    return if b then n + 1 else n

/-- Keeps the elements that pass a test, stopping at the first test that fails. -/
def keepM (p : α → Except ε Bool) : List α → Except ε (List α)
  | [] => .ok []
  | a :: l => do
    let b ← p a
    let l' ← keepM p l
    return if b then a :: l' else l'

/-- Whether every element passes a test; the elements after the first that does not are not
tested. -/
def everyM (p : α → Except ε Bool) : List α → Except ε Bool
  | [] => .ok true
  | a :: l => do
    let b ← p a
    if b then everyM p l else return false

/-- Binary search for the least number of `[low, high]` that passes a test which stays passed,
`high` passing: `while low < high`, with the length of the interval as fuel. -/
def lowerBoundM (p : ℕ → Except ε Bool) : ℕ → ℕ → ℕ → Except ε ℕ
  | 0, low, _ => .ok low
  | fuel + 1, low, high =>
    if low < high then do
      let mid := low + (high - low) / 2
      let b ← p mid
      if b then lowerBoundM p fuel low mid else lowerBoundM p fuel (mid + 1) high
    else .ok low

section Returns

variable {E : ε → Prop} {p : α → Except ε Bool} {f : α → Bool} {l : List α}

theorem countM_returns (h : ∀ a ∈ l, Returns E (p a) (f a)) :
    Returns E (countM p l) (l.countP f) := by
  induction l with
  | nil => exact .of_eq rfl
  | cons a l ih =>
    refine (h a (by simp)).bind ((ih fun b hb => h b (by simp [hb])).bind (.of_eq ?_))
    cases hf : f a <;> simp [hf, pure, Except.pure]

theorem countM_safe (h : ∀ a ∈ l, Safe E (p a)) : Safe E (countM p l) :=
  (countM_returns fun a ha => (h a ha).returns).safe

theorem keepM_returns (h : ∀ a ∈ l, Returns E (p a) (f a)) :
    Returns E (keepM p l) (l.filter f) := by
  induction l with
  | nil => exact .of_eq rfl
  | cons a l ih =>
    refine (h a (by simp)).bind ((ih fun b hb => h b (by simp [hb])).bind (.of_eq ?_))
    cases hf : f a <;> simp [hf, pure, Except.pure]

theorem everyM_returns (h : ∀ a ∈ l, Returns E (p a) (f a)) :
    Returns E (everyM p l) (l.all f) := by
  induction l with
  | nil => exact .of_eq rfl
  | cons a l ih =>
    refine (h a (by simp)).bind ?_
    cases hf : f a with
    | true => simpa [hf] using ih fun b hb => h b (by simp [hb])
    | false => exact .of_eq (by simp [hf, pure, Except.pure])

theorem eq_true_of_everyM (h : everyM p l = .ok true) {a : α} (ha : a ∈ l) : p a = .ok true := by
  induction l with
  | nil => cases ha
  | cons b l ih =>
    cases hb : p b with
    | error e =>
      simp only [everyM, hb] at h
      cases h
    | ok v =>
      cases v with
      | false =>
        simp only [everyM, hb] at h
        cases h
      | true =>
        rcases List.mem_cons.mp ha with rfl | ha
        · exact hb
        · simp only [everyM, hb] at h
          exact ih h ha

theorem mapM_returns {β : Type} {q : α → Except ε β} {k : α → β}
    (h : ∀ a ∈ l, Returns E (q a) (k a)) : Returns E (l.mapM q) (l.map k) := by
  induction l with
  | nil => exact .of_eq rfl
  | cons a l ih =>
    rw [List.mapM_cons]
    exact (h a (by simp)).bind ((ih fun b hb => h b (by simp [hb])).bind (.of_eq rfl))

/-- The search ends at a number that passes the test, or at the upper end. If the test stays passed,
no number below passes it. -/
theorem lowerBoundM_returns {p : ℕ → Except ε Bool} {f : ℕ → Bool} {low high : ℕ}
    (fuel : ℕ) (h : ∀ i, low ≤ i → i < high → Returns E (p i) (f i)) (hle : low ≤ high) :
    ∃ m, Returns E (lowerBoundM p fuel low high) m ∧ low ≤ m ∧ m ≤ high ∧
      (high - low ≤ fuel → m < high → f m = true) ∧
      ((∀ i j, low ≤ i → i ≤ j → j < high → f i = true → f j = true) →
        ∀ i, low ≤ i → i < m → f i = false) := by
  induction fuel generalizing low high with
  | zero => exact ⟨low, .of_eq rfl, le_rfl, hle, by omega, by omega⟩
  | succ fuel ih =>
    by_cases hlt : low < high
    · obtain ⟨mid, hmid⟩ : ∃ mid, mid = low + (high - low) / 2 := ⟨_, rfl⟩
      have hstep : lowerBoundM p (fuel + 1) low high = (do
          let b ← p mid
          if b then lowerBoundM p fuel low mid else lowerBoundM p fuel (mid + 1) high) := by
        rw [lowerBoundM, if_pos hlt, hmid]
      have htest := h mid (by omega) (by omega)
      rw [hstep]
      cases hf : f mid with
      | true =>
        obtain ⟨m, hm, hlow, hhigh, hpass, hleast⟩ :=
          ih (fun i hi hi' => h i hi (by omega)) (show low ≤ mid by omega)
        refine ⟨m, htest.bind (by simpa [hf] using hm), hlow, by omega, fun hfuel _ => ?_,
          fun hmono => hleast fun i j hi hij hj => hmono i j hi hij (by omega)⟩
        by_cases hm' : m < mid
        · exact hpass (by omega) hm'
        · rw [show m = mid by omega, hf]
      | false =>
        obtain ⟨m, hm, hlow, hhigh, hpass, hleast⟩ :=
          ih (fun i hi hi' => h i (by omega) hi') (show mid + 1 ≤ high by omega)
        refine ⟨m, htest.bind (by simpa [hf] using hm), by omega, hhigh,
          fun hfuel => hpass (by omega), fun hmono i hi hi' => ?_⟩
        by_cases hi'' : i ≤ mid
        · -- A number up to the middle that passed would make the middle pass.
          by_contra hpassed
          have := hmono i mid hi hi'' (by omega) (by simpa using hpassed)
          rw [hf] at this
          cases this
        · exact hleast (fun i j hi hij hj => hmono i j (by omega) hij hj) i (by omega) hi'
    · exact ⟨low, .of_eq (by rw [lowerBoundM, if_neg hlt]), le_rfl, hle, by omega, by omega⟩

theorem mapM_congr {β : Type} {q q' : α → Except ε β} {l : List α} (h : ∀ a ∈ l, q a = q' a) :
    l.mapM q = l.mapM q' := by
  induction l with
  | nil => rfl
  | cons a l ih =>
    rw [List.mapM_cons, List.mapM_cons, h a (by simp), ih fun b hb => h b (by simp [hb])]

theorem mapM_safe {β : Type} {q : α → Except ε β} (h : ∀ a ∈ l, Safe E (q a)) :
    Safe E (l.mapM q) := by
  induction l with
  | nil => exact .ok _
  | cons a l ih =>
    rw [List.mapM_cons]
    exact (h a (by simp)).bind fun _ _ =>
      (ih fun b hb => h b (by simp [hb])).bind fun _ _ => .ok _

end Returns

end JKain.Lib
