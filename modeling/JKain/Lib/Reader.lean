import Mathlib.Init

/-!
# Readers and what they read

A reader takes values off the front of its input and stops with the first error. `Reads m input a`
says that `m` takes exactly `input` off the front, whatever follows, and returns `a`; `Ensures m P`
says that every value `m` returns satisfies `P`. Both follow the binds of a reader, so the round
trip of a format is put together from those of its fields. `Format m R` says that `m` reads exactly
the inputs that `R` relates to a value: they are read back, and nothing else is accepted.
-/

namespace JKain.Lib

variable {σ ε α β : Type}

/-- The reader takes exactly this input and returns this value. -/
def Reads (m : StateT (List σ) (Except ε) α) (input : List σ) (a : α) : Prop :=
  ∀ rest, m (input ++ rest) = .ok (a, rest)

/-- Whatever the reader returns satisfies the predicate. -/
def Ensures (m : StateT (List σ) (Except ε) α) (P : α → Prop) : Prop :=
  ∀ input a rest, m input = .ok (a, rest) → P a

namespace Reads

variable {m : StateT (List σ) (Except ε) α} {f : α → StateT (List σ) (Except ε) β}

theorem pure (a : α) : Reads (Pure.pure a : StateT (List σ) (Except ε) α) [] a := fun _ => rfl

theorem bind {input input' : List σ} {a : α} {b : β} (hm : Reads m input a)
    (hf : Reads (f a) input' b) : Reads (m >>= f) (input ++ input') b := by
  intro rest
  rw [List.append_assoc]
  simp only [Bind.bind, StateT.bind, hm (input' ++ rest), Except.bind]
  exact hf rest

/-- A first part that takes nothing, such as a check. -/
theorem bind_nil {input : List σ} {a : α} {b : β} (hm : Reads m [] a)
    (hf : Reads (f a) input b) : Reads (m >>= f) input b := bind hm hf

/-- A last part that takes nothing. -/
theorem bind_last {input : List σ} {a : α} {b : β} (hm : Reads m input a)
    (hf : Reads (f a) [] b) : Reads (m >>= f) input b := by
  have hbind := bind hm hf
  rwa [List.append_nil] at hbind

/-- A look at what is left of the input, behind which nothing depends on the rest. -/
theorem get_bind {f : List σ → StateT (List σ) (Except ε) β} {input : List σ} {b : β}
    (hf : ∀ rest, f (input ++ rest) (input ++ rest) = .ok (b, rest)) :
    Reads (get >>= f) input b := hf

/-- What a reader takes off determines the value and where it ends: no encoding is the beginning of
another. -/
theorem unique {input input' rest rest' : List σ} {a a' : α} (h : Reads m input a)
    (h' : Reads m input' a') (heq : input ++ rest = input' ++ rest') : a = a' ∧ rest = rest' := by
  have hboth := (h rest).symm.trans ((congrArg m heq).trans (h' rest'))
  exact Prod.mk.inj (Except.ok.inj hboth)

/-- An encoding that a reader inverts is injective. -/
theorem eq_of_eq {input : List σ} {a a' : α} (h : Reads m input a) (h' : Reads m input a') :
    a = a' :=
  (Prod.mk.inj (Except.ok.inj ((h []).symm.trans (h' [])))).1

end Reads

namespace Ensures

variable {m : StateT (List σ) (Except ε) α} {f : α → StateT (List σ) (Except ε) β}
  {P : α → Prop} {Q : β → Prop}

theorem pure {a : α} (h : P a) : Ensures (Pure.pure a : StateT (List σ) (Except ε) α) P := by
  intro input a' rest hrun
  cases hrun
  exact h

theorem bind (hm : Ensures m P) (hf : ∀ a, P a → Ensures (f a) Q) : Ensures (m >>= f) Q := by
  intro input b rest hrun
  simp only [Bind.bind, StateT.bind, Except.bind] at hrun
  cases hfirst : m input with
  | error e => rw [hfirst] at hrun; cases hrun
  | ok p =>
    rw [hfirst] at hrun
    exact hf p.1 (hm input p.1 p.2 hfirst) p.2 b rest hrun

theorem throw {e : ε} : Ensures (throwThe ε e : StateT (List σ) (Except ε) α) P := by
  intro input a rest hrun
  cases hrun

theorem true : Ensures m fun _ => True := fun _ _ _ _ => trivial

theorem ite {c : Prop} [Decidable c] {m' : StateT (List σ) (Except ε) α} (hm : c → Ensures m P)
    (hm' : ¬c → Ensures m' P) : Ensures (if c then m else m') P := by
  by_cases hc : c
  · rw [if_pos hc]; exact hm hc
  · rw [if_neg hc]; exact hm' hc

end Ensures

/-- Whatever the reader returns stands for the input it took. -/
def Parses (m : StateT (List σ) (Except ε) α) (R : α → List σ → Prop) : Prop :=
  ∀ input a rest, m input = .ok (a, rest) → ∃ taken, input = taken ++ rest ∧ R a taken

namespace Parses

variable {m : StateT (List σ) (Except ε) α} {f : α → StateT (List σ) (Except ε) β}
  {R : α → List σ → Prop} {S : α → β → List σ → Prop}

theorem pure (a : α) :
    Parses (Pure.pure a : StateT (List σ) (Except ε) α) fun b taken => b = a ∧ taken = [] := by
  intro input b rest hrun
  cases hrun
  exact ⟨[], rfl, rfl, rfl⟩

theorem throw (e : ε) :
    Parses (throwThe ε e : StateT (List σ) (Except ε) α) fun _ _ => False := by
  intro input b rest hrun
  cases hrun

theorem mono {R' : α → List σ → Prop} (h : Parses m R) (himp : ∀ a taken, R a taken → R' a taken) :
    Parses m R' := by
  intro input a rest hrun
  obtain ⟨taken, hinput, hR⟩ := h input a rest hrun
  exact ⟨taken, hinput, himp a taken hR⟩

/-- A look at the input takes nothing. -/
theorem get : Parses (MonadState.get : StateT (List σ) (Except ε) (List σ)) fun _ taken =>
    taken = [] := by
  intro input a rest hrun
  cases hrun
  exact ⟨[], rfl, rfl⟩

/-- What the second reader takes is put behind what the first one took. -/
theorem andThen {T : β → List σ → Prop} (hm : Parses m R)
    (hf : ∀ a first, R a first → Parses (f a) fun b second => T b (first ++ second)) :
    Parses (m >>= f) T := by
  intro input b rest hrun
  simp only [Bind.bind, StateT.bind, Except.bind] at hrun
  cases hfirst : m input with
  | error e => rw [hfirst] at hrun; cases hrun
  | ok p =>
    rw [hfirst] at hrun
    obtain ⟨first, hinput, hR⟩ := hm input p.1 p.2 hfirst
    obtain ⟨second, hinput', hT⟩ := hf p.1 first hR p.2 b rest hrun
    refine ⟨first ++ second, ?_, hT⟩
    rw [hinput, hinput', List.append_assoc]

theorem bind (hm : Parses m R) (hf : ∀ a, Parses (f a) (S a)) :
    Parses (m >>= f) fun b taken =>
      ∃ a first second, R a first ∧ S a b second ∧ taken = first ++ second :=
  hm.andThen fun a first hR => (hf a).mono fun _ second hS => ⟨a, first, second, hR, hS, rfl⟩

end Parses

/-- The reader takes exactly the inputs that stand for a value. -/
structure Format (m : StateT (List σ) (Except ε) α) (R : α → List σ → Prop) : Prop where
  reads : ∀ {a taken}, R a taken → Reads m taken a
  parses : Parses m R

namespace Format

variable {m : StateT (List σ) (Except ε) α} {f : α → StateT (List σ) (Except ε) β}
  {R R' : α → List σ → Prop} {S : α → β → List σ → Prop}

theorem congr (h : Format m R) (heq : ∀ a taken, R' a taken ↔ R a taken) : Format m R' where
  reads hR := h.reads ((heq _ _).mp hR)
  parses input a rest hrun := by
    obtain ⟨taken, hinput, hR⟩ := h.parses input a rest hrun
    exact ⟨taken, hinput, (heq _ _).mpr hR⟩

theorem pure (a : α) :
    Format (Pure.pure a : StateT (List σ) (Except ε) α) fun b taken => b = a ∧ taken = [] where
  reads := by
    rintro _ _ ⟨rfl, rfl⟩
    exact Reads.pure _
  parses := .pure a

theorem throw (e : ε) :
    Format (throwThe ε e : StateT (List σ) (Except ε) α) fun _ _ => False where
  reads hR := hR.elim
  parses := .throw e

theorem bind (hm : Format m R) (hf : ∀ a, Format (f a) (S a)) :
    Format (m >>= f) fun b taken =>
      ∃ a first second, R a first ∧ S a b second ∧ taken = first ++ second where
  reads := by
    rintro b _ ⟨a, first, second, hR, hS, rfl⟩
    exact (hm.reads hR).bind ((hf a).reads hS)
  parses := hm.parses.bind fun a => (hf a).parses

theorem ite {p : Prop} [Decidable p] {m' : StateT (List σ) (Except ε) α} (hm : Format m R)
    (hm' : Format m' R') :
    Format (if p then m else m') fun a taken => if p then R a taken else R' a taken := by
  by_cases hp : p
  · simpa only [if_pos hp] using hm
  · simpa only [if_neg hp] using hm'

end Format

end JKain.Lib
