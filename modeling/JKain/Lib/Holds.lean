import Mathlib.Init

/-!
# Pre- and postconditions for programs with state and faults

`EStateM ε σ` runs a program that reads and writes a state `σ` and may stop with a fault `ε`, the
state at the fault being kept. `Holds E m s Q` is the weakest precondition of such a program for
the postcondition `Q`, where the faults in `E` are tolerated and every other fault is refused:
`E := fun _ => False` states total correctness, a larger `E` states correctness up to the faults
it names.
-/

namespace JKain.Lib

variable {ε σ α β : Type}

/-- Started in `s`, `m` ends in a value and a state related by `Q`, or stops with a fault of
`E`. -/
def Holds (E : ε → Prop) (m : EStateM ε σ α) (s : σ) (Q : α → σ → Prop) : Prop :=
  match m s with
  | .ok a t => Q a t
  | .error e _ => E e

/-- Runs a computation that only reads: the state passes through. -/
def fromExcept (x : Except ε α) : EStateM ε σ α := fun s =>
  match x with
  | .ok a => .ok a s
  | .error e => .error e s

/-- The value and the state of a run that ends without an error. -/
def outcome? : EStateM.Result ε σ α → Option (α × σ)
  | .ok a s => some (a, s)
  | .error _ _ => none

theorem eq_ok_of_outcome? {result : EStateM.Result ε σ α} {p : α × σ}
    (h : outcome? result = some p) : result = .ok p.1 p.2 := by
  cases result with
  | ok a s => rw [← Option.some.inj h]
  | error e s => cases h

/-- The state a run ends in, with a value or with a fault. -/
def finalState : EStateM.Result ε σ α → σ
  | .ok _ s => s
  | .error _ s => s

/-- A program ends where its first part stops with a fault, or else where the rest of it ends. -/
theorem finalState_bind {m : EStateM ε σ β} {f : β → EStateM ε σ α} {s : σ} {P : σ → Prop}
    (hok : ∀ b t, m s = .ok b t → P (finalState (f b t)))
    (herror : ∀ e t, m s = .error e t → P t) : P (finalState ((m >>= f) s)) := by
  simp only [bind, EStateM.bind]
  cases hm : m s with
  | ok b t => exact hok b t hm
  | error e t => exact herror e t hm

/-- A program whose first part returns goes on from there. -/
theorem bind_eq_of_ok {m : EStateM ε σ β} {f : β → EStateM ε σ α} {b : β} {s t : σ}
    (h : m s = .ok b t) : (m >>= f) s = f b t := by
  simp only [bind, EStateM.bind, h]

/-- A program behind a read is started if the read succeeds. -/
theorem fromExcept_ok_bind {f : β → EStateM ε σ α} {b : β} {s : σ} :
    ((fromExcept (.ok b) : EStateM ε σ β) >>= f) s = f b s := rfl

theorem fromExcept_error_bind {f : β → EStateM ε σ α} {e : ε} {s : σ} :
    ((fromExcept (.error e) : EStateM ε σ β) >>= f) s = .error e s := rfl

theorem get_bind {f : σ → EStateM ε σ α} {s : σ} : ((get : EStateM ε σ σ) >>= f) s = f s s := rfl

theorem bind_eq_of_error {m : EStateM ε σ β} {f : β → EStateM ε σ α} {e : ε} {s t : σ}
    (h : m s = .error e t) : (m >>= f) s = .error e t := by
  simp only [bind, EStateM.bind, h]

/-- The state at a fault is kept for the handler. -/
theorem tryCatch_eq_of_error {m : EStateM ε σ α} {handler : ε → EStateM ε σ α} {e : ε} {s t : σ}
    (h : m s = .error e t) : tryCatch m handler s = handler e t := by
  show EStateM.tryCatch m handler s = handler e t
  delta EStateM.tryCatch
  simp only [h]
  rfl

theorem tryCatch_eq_of_ok {m : EStateM ε σ α} {handler : ε → EStateM ε σ α} {a : α} {s t : σ}
    (h : m s = .ok a t) : tryCatch m handler s = .ok a t := by
  show EStateM.tryCatch m handler s = .ok a t
  delta EStateM.tryCatch
  simp only [h]

namespace Holds

variable {E : ε → Prop} {s : σ} {Q Q' : α → σ → Prop}

@[simp] theorem pure_iff {a : α} : Holds E (pure a) s Q ↔ Q a s := Iff.rfl

@[simp] theorem bind_iff {m : EStateM ε σ β} {f : β → EStateM ε σ α} :
    Holds E (m >>= f) s Q ↔ Holds E m s fun b t => Holds E (f b) t Q := by
  simp only [Holds, bind, EStateM.bind]
  cases m s <;> rfl

@[simp] theorem get_iff {Q : σ → σ → Prop} : Holds E (get : EStateM ε σ σ) s Q ↔ Q s s := Iff.rfl

@[simp] theorem modify_iff {f : σ → σ} {Q : PUnit → σ → Prop} :
    Holds E (modify f : EStateM ε σ PUnit) s Q ↔ Q ⟨⟩ (f s) := Iff.rfl

@[simp] theorem throw_iff {e : ε} : Holds E (throw e : EStateM ε σ α) s Q ↔ E e := Iff.rfl

@[simp] theorem fromExcept_ok {a : α} : Holds E (fromExcept (.ok a)) s Q ↔ Q a s := Iff.rfl

@[simp] theorem fromExcept_error {e : ε} :
    Holds E (fromExcept (.error e) : EStateM ε σ α) s Q ↔ E e := Iff.rfl

theorem ite_iff {c : Prop} [Decidable c] {m m' : EStateM ε σ α} :
    Holds E (if c then m else m') s Q ↔ (c → Holds E m s Q) ∧ (¬c → Holds E m' s Q) := by
  by_cases h : c <;> simp [h]

/-- A weaker postcondition. -/
theorem mono {m : EStateM ε σ α} (h : Holds E m s Q) (hQ : ∀ a t, Q a t → Q' a t) :
    Holds E m s Q' := by
  simp only [Holds] at h ⊢
  cases hm : m s with
  | ok a t => rw [hm] at h; exact hQ a t h
  | error e t => rw [hm] at h; exact h

/-- The value and state of a run that returned. -/
theorem of_ok {m : EStateM ε σ α} (h : Holds E m s Q) {a : α} {t : σ} (hm : m s = .ok a t) :
    Q a t := by
  simpa only [Holds, hm] using h

/-- The fault of a run that stopped. -/
theorem of_error {m : EStateM ε σ α} (h : Holds E m s Q) {e : ε} {t : σ} (hm : m s = .error e t) :
    E e := by
  simpa only [Holds, hm] using h

/-- A run without tolerated faults returns. -/
theorem exists_ok {m : EStateM ε σ α} (h : Holds (fun _ => False) m s Q) :
    ∃ a t, m s = .ok a t ∧ Q a t := by
  cases hm : m s with
  | ok a t => exact ⟨a, t, rfl, h.of_ok hm⟩
  | error e t => exact (h.of_error hm).elim

/-- The loop rule for an invariant that speaks of the elements still to come. -/
theorem forM_list_rest {l : List β} {f : β → EStateM ε σ PUnit} {I : List β → σ → Prop}
    (hf : ∀ b rest t, I (b :: rest) t → Holds E (f b) t fun _ t' => I rest t') (hs : I l s) :
    Holds E (l.forM f) s fun _ t => I [] t := by
  induction l generalizing s with
  | nil => exact hs
  | cons b l ih =>
    rw [List.forM_eq_forM, List.forM_cons, bind_iff]
    exact (hf b l s hs).mono fun _ t ht => ih ht

end Holds

/-! ## Computations that only read -/

/-- `x` returns `a`, or stops with a fault of `E`. -/
def Returns (E : ε → Prop) (x : Except ε α) (a : α) : Prop :=
  match x with
  | .ok b => b = a
  | .error e => E e

namespace Returns

variable {E : ε → Prop} {x : Except ε α} {a : α}

theorem of_eq (h : x = .ok a) : Returns E x a := by
  rw [h]
  exact rfl

theorem of_error {e : ε} (h : x = .error e) (he : E e) : Returns E x a := by
  rw [h]
  exact he

theorem bind {f : α → Except ε β} {b : β} (hx : Returns E x a) (hf : Returns E (f a) b) :
    Returns E (x >>= f) b := by
  cases x with
  | ok a' =>
    obtain rfl : a' = a := hx
    exact hf
  | error e => exact hx

theorem eq_ok (h : Returns (fun _ => False) x a) : x = .ok a := by
  cases x with
  | ok b => exact congrArg Except.ok h
  | error e => exact h.elim

end Returns

/-- `x` stops with faults of `E` only. -/
def Safe (E : ε → Prop) (x : Except ε α) : Prop := ∀ e, x = .error e → E e

/-- The answer of a test, `false` if it stopped. -/
def truth : Except ε Bool → Bool
  | .ok b => b
  | .error _ => false

@[simp] theorem truth_ok (b : Bool) : truth (.ok b : Except ε Bool) = b := rfl

theorem truth_eq_true_iff {x : Except ε Bool} : truth x = true ↔ x = .ok true := by
  cases x <;> simp [truth]

namespace Safe

variable {E : ε → Prop}

theorem ok (a : α) : Safe E (.ok a : Except ε α) := by
  intro e h
  cases h

theorem pure (a : α) : Safe E (pure a : Except ε α) := ok a

theorem of_eq {x : Except ε α} {a : α} (h : x = .ok a) : Safe E x := by
  rw [h]
  exact ok a

theorem error {e : ε} (h : E e) : Safe E (.error e : Except ε α) := by
  intro e' he
  cases he
  exact h

theorem bind {x : Except ε α} {f : α → Except ε β} (hx : Safe E x)
    (hf : ∀ a, x = .ok a → Safe E (f a)) : Safe E (x >>= f) := by
  cases x with
  | ok a => exact hf a rfl
  | error e => exact error (hx e rfl)

theorem returns {x : Except ε Bool} (h : Safe E x) : Returns E x (truth x) := by
  cases x with
  | ok b => exact rfl
  | error e => exact h e rfl

end Safe

theorem Returns.safe {E : ε → Prop} {x : Except ε α} {a : α} (h : Returns E x a) : Safe E x := by
  cases x with
  | ok b => exact Safe.ok b
  | error e => exact Safe.error h

/-- Reading a value inside a program. -/
theorem Holds.of_returns {E : ε → Prop} {x : Except ε α} {a : α} {s : σ} {Q : α → σ → Prop}
    (hx : Returns E x a) (hQ : Q a s) : Holds E (fromExcept x) s Q := by
  cases x with
  | ok b =>
    obtain rfl : b = a := hx
    exact hQ
  | error e => exact hx

end JKain.Lib
