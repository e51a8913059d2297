import Mathlib.Data.List.Forall2

/-!
# Programs that stop at the first failed check

A verifier in `Except ε` is a sequence of checks. Such a program returns exactly if each of its parts
does; the lemmas here turn the run of the program into the list of its conditions.
-/

namespace JKain.Lib

variable {α β ε : Type}

/-- Stops with the error unless the condition holds. -/
def check (condition : Prop) [Decidable condition] (error : ε) : Except ε Unit :=
  if condition then .ok () else .error error

@[simp]
theorem check_eq_ok_iff {condition : Prop} [Decidable condition] {error : ε} {u : Unit} :
    check condition error = .ok u ↔ condition := by
  by_cases h : condition <;> simp [check, h]

theorem bind_eq_ok_iff {x : Except ε α} {f : α → Except ε β} {b : β} :
    (x >>= f) = .ok b ↔ ∃ a, x = .ok a ∧ f a = .ok b := by
  cases x with
  | ok a => exact ⟨fun h => ⟨a, rfl, h⟩, fun ⟨a', ha, h⟩ => Except.ok.inj ha ▸ h⟩
  | error e =>
    constructor
    · intro h
      cases h
    · rintro ⟨a, ha, -⟩
      cases ha

/-- A check in front of a program is a condition in front of its result. -/
theorem check_bind_eq_ok_iff {condition : Prop} [Decidable condition] {error : ε}
    {f : Unit → Except ε β} {b : β} :
    (check condition error >>= f) = .ok b ↔ condition ∧ f () = .ok b := by
  rw [bind_eq_ok_iff]
  constructor
  · rintro ⟨u, hcheck, hf⟩
    exact ⟨check_eq_ok_iff.mp hcheck, hf⟩
  · rintro ⟨hcondition, hf⟩
    exact ⟨(), check_eq_ok_iff.mpr hcondition, hf⟩

/-- A loop of checks returns if each of them does. -/
theorem forM_eq_ok_iff {f : α → Except ε Unit} {l : List α} {u : Unit} :
    forM l f = .ok u ↔ ∀ a ∈ l, f a = .ok () := by
  induction l with
  | nil => exact ⟨fun _ _ ha => absurd ha List.not_mem_nil, fun _ => rfl⟩
  | cons a l ih =>
    rw [List.forM_cons, bind_eq_ok_iff, List.forall_mem_cons, ← ih]
    exact ⟨fun ⟨_, ha, hl⟩ => ⟨ha, hl⟩, fun ⟨ha, hl⟩ => ⟨(), ha, hl⟩⟩

theorem mapM_eq_ok_iff {f : α → Except ε β} {l : List α} {parts : List β} :
    l.mapM f = .ok parts ↔ List.Forall₂ (fun a t => f a = .ok t) l parts := by
  induction l generalizing parts with
  | nil =>
    rw [List.mapM_nil, List.forall₂_nil_left_iff]
    exact ⟨fun h => (Except.ok.inj h).symm, fun h => congrArg Except.ok h.symm⟩
  | cons a l ih =>
    rw [List.mapM_cons, bind_eq_ok_iff, List.forall₂_cons_left_iff]
    constructor
    · rintro ⟨t, ha, hrest⟩
      obtain ⟨rest, hl, hparts⟩ := bind_eq_ok_iff.mp hrest
      exact ⟨t, rest, ha, ih.mp hl, (Except.ok.inj hparts).symm⟩
    · rintro ⟨t, rest, ha, hl, rfl⟩
      exact ⟨t, ha, bind_eq_ok_iff.mpr ⟨rest, ih.mpr hl, rfl⟩⟩

/-- If the loop returns, each of its steps does. -/
theorem exists_of_mapM_eq_ok {f : α → Except ε β} {l : List α} {parts : List β}
    (h : l.mapM f = .ok parts) {a : α} (ha : a ∈ l) : ∃ b, f a = .ok b := by
  have hsteps := mapM_eq_ok_iff.mp h
  induction hsteps with
  | nil => exact absurd ha List.not_mem_nil
  | cons hstep hrest ih =>
    rcases List.mem_cons.mp ha with rfl | ha
    · exact ⟨_, hstep⟩
    · exact ih (mapM_eq_ok_iff.mpr hrest) ha

/-- A loop none of whose steps fails. -/
theorem mapM_eq_pure_map {m : Type → Type} [Monad m] [LawfulMonad m] {f : α → m β} {g : α → β}
    {l : List α} (h : ∀ a ∈ l, f a = pure (g a)) : l.mapM f = pure (l.map g) := by
  induction l with
  | nil => rw [List.mapM_nil, List.map_nil]
  | cons a l ih =>
    obtain ⟨ha, hl⟩ := List.forall_mem_cons.mp h
    rw [List.mapM_cons, ha, ih hl, pure_bind, pure_bind, List.map_cons]

/-- Conversions that can be undone, and whose results have a property. -/
theorem mapM_undo {f : α → Option β} {g : β → α} {P : β → Prop}
    (hf : ∀ a b, f a = some b → g b = a ∧ P b) {l : List α} {parts : List β}
    (h : l.mapM f = some parts) : parts.map g = l ∧ ∀ b ∈ parts, P b := by
  induction l generalizing parts with
  | nil =>
    obtain rfl := Option.some.inj h
    exact ⟨rfl, fun b hb => absurd hb List.not_mem_nil⟩
  | cons a l ih =>
    rw [List.mapM_cons, Option.bind_eq_bind, Option.bind_eq_some_iff] at h
    obtain ⟨b, hb, hrest⟩ := h
    rw [Option.bind_eq_bind, Option.bind_eq_some_iff] at hrest
    obtain ⟨rest, hl, hparts⟩ := hrest
    obtain rfl := Option.some.inj hparts
    obtain ⟨hundo, hP⟩ := hf a b hb
    obtain ⟨hrest, hall⟩ := ih hl
    exact ⟨by rw [List.map_cons, hundo, hrest], List.forall_mem_cons.mpr ⟨hP, hall⟩⟩

/-- What each step of a fold keeps, the fold keeps. -/
theorem foldlM_keeps {f : β → α → Except ε β} {P : β → Prop}
    (hstep : ∀ b a b', P b → f b a = .ok b' → P b') {l : List α} {b b' : β} (hb : P b)
    (h : l.foldlM f b = .ok b') : P b' := by
  induction l generalizing b with
  | nil => exact Except.ok.inj h ▸ hb
  | cons a l ih =>
    rw [List.foldlM_cons, bind_eq_ok_iff] at h
    obtain ⟨b₁, hstep₁, hrest⟩ := h
    exact ih (hstep b a b₁ hb hstep₁) hrest

/-- The same for a fold that ends where a step gives nothing. -/
theorem foldlM_keeps_of_mem {f : β → α → Option β} {P : β → Prop} {l : List α}
    (hstep : ∀ b, ∀ a ∈ l, ∀ b', P b → f b a = some b' → P b') {b b' : β} (hb : P b)
    (h : l.foldlM f b = some b') : P b' := by
  induction l generalizing b with
  | nil => exact Option.some.inj h ▸ hb
  | cons a l ih =>
    rw [List.foldlM_cons, Option.bind_eq_bind, Option.bind_eq_some_iff] at h
    obtain ⟨b₁, hstep₁, hrest⟩ := h
    exact ih (fun b a' ha' => hstep b a' (List.mem_cons_of_mem _ ha'))
      (hstep b a List.mem_cons_self b₁ hb hstep₁) hrest

theorem mapError_eq_ok_iff {α ε ε' : Type} {x : Except ε α} {f : ε → ε'} {a : α} :
    x.mapError f = .ok a ↔ x = .ok a := by
  cases x <;> simp [Except.mapError]

theorem toOption_eq_some_iff {x : Except ε α} {a : α} : x.toOption = some a ↔ x = .ok a := by
  cases x with
  | ok b => exact ⟨fun h => congrArg Except.ok (Option.some.inj h), fun h => by rw [h]; rfl⟩
  | error e => exact ⟨nofun, nofun⟩

/-- A step that is made under a condition. -/
theorem guarded_eq_some_iff {condition : Bool} {x : Except ε α} {a : α} :
    (if condition then x.toOption else none) = some a ↔ condition = true ∧ x = .ok a := by
  cases condition with
  | true => exact ⟨fun h => ⟨rfl, toOption_eq_some_iff.mp h⟩, fun h => toOption_eq_some_iff.mpr h.2⟩
  | false => exact ⟨nofun, fun h => absurd h.1 Bool.false_ne_true⟩

end JKain.Lib
