import JKain.Executor.CodecSpec

/-!
# The formats of fields

Each reader of a field takes exactly the bytes that its writer makes of a value. The formats of
records, events and operations are put together from these.
-/

namespace JKain

open Lib

section Lists

variable {α β : Type}

theorem forall₂_and_eq_iff {P : α → Prop} {g : α → β} {l : List α} {parts : List β} :
    List.Forall₂ (fun a t => P a ∧ t = g a) l parts ↔ (∀ a ∈ l, P a) ∧ parts = l.map g := by
  induction l generalizing parts with
  | nil => simp
  | cons a l ih =>
    rw [List.forall₂_cons_left_iff, List.forall_mem_cons, List.map_cons]
    constructor
    · rintro ⟨t, rest, ⟨ha, rfl⟩, hrest, rfl⟩
      obtain ⟨hl, rfl⟩ := ih.mp hrest
      exact ⟨⟨ha, hl⟩, rfl⟩
    · rintro ⟨⟨ha, hl⟩, rfl⟩
      exact ⟨g a, l.map g, ⟨ha, rfl⟩, ih.mpr ⟨hl, rfl⟩, rfl⟩

end Lists

-- The substitutions below would otherwise evaluate the encodings of numbers.
attribute [local irreducible] beBytes

theorem Signature.asBytes_ofBytes {bytes : List UInt8} (h : bytes.length = 64) :
    (Signature.ofBytes bytes).asBytes = bytes := by
  refine List.ext_getElem (by rw [Signature.asBytes, List.length_ofFn, h]) fun i hi hi' => ?_
  simp only [Signature.asBytes, Signature.ofBytes, List.getElem_ofFn, List.getElem?_eq_getElem hi',
    Option.getD_some]

@[simp]
theorem Signature.length_asBytes (signature : Signature) : signature.asBytes.length = 64 :=
  List.length_ofFn

theorem Signature.ofBytes_asBytes (signature : Signature) :
    Signature.ofBytes signature.asBytes = signature := by
  obtain ⟨bytes⟩ := signature
  refine congrArg Signature.mk (funext fun i => ?_)
  rw [Signature.asBytes, List.getElem?_ofFn, dif_pos i.isLt, Option.getD_some]

/-! ## Fields -/

theorem takeExact_format {ε : Type} (error : ε) (len : ℕ) :
    Format (takeExact error len) fun bytes taken => bytes.length = len ∧ taken = bytes where
  reads := by
    rintro bytes _ ⟨hlen, rfl⟩
    exact takeExact_reads hlen
  parses input bytes rest hrun := by
    rw [takeExact] at hrun
    split at hrun
    · rename_i hle
      obtain ⟨rfl, rfl⟩ := Prod.mk.inj (Except.ok.inj hrun)
      exact ⟨_, (List.take_append_drop len input).symm, List.length_take_of_le hle, rfl⟩
    · cases hrun

theorem takeNat_format {ε : Type} (error : ε) (width : ℕ) :
    Format (takeNat error width) fun n taken => n < 256 ^ width ∧ taken = beBytes width n where
  reads := by
    rintro n _ ⟨hn, rfl⟩
    exact takeNat_reads hn
  parses := by
    have hformat := (takeExact_format error width).bind fun bytes => .pure (fromBe bytes)
    refine (hformat.congr ?_).parses
    rintro n taken
    constructor
    · rintro ⟨hn, rfl⟩
      exact ⟨_, _, [], ⟨length_beBytes width n, rfl⟩, ⟨(fromBe_beBytes hn).symm, rfl⟩,
        (List.append_nil _).symm⟩
    · rintro ⟨bytes, first, second, ⟨rfl, rfl⟩, ⟨rfl, rfl⟩, rfl⟩
      rw [List.append_nil, beBytes_fromBe]
      exact ⟨fromBe_lt _, rfl⟩

theorem takeByte_format {ε : Type} (error : ε) :
    Format (takeByte error) fun byte taken => taken = [byte] where
  reads := by
    rintro byte _ rfl
    exact takeByte_reads byte
  parses input byte rest hrun := by
    cases input with
    | nil => cases hrun
    | cons first input =>
      obtain ⟨rfl, rfl⟩ := Prod.mk.inj (Except.ok.inj hrun)
      exact ⟨[first], rfl, rfl⟩

theorem takeBytes_format {ε : Type} (error : ε) :
    Format (takeBytes error) fun bytes taken =>
      bytes.length < 2 ^ 32 ∧ taken = beBytes 4 bytes.length ++ bytes := by
  refine ((takeNat_format error 4).bind fun len => takeExact_format error len).congr ?_
  rintro bytes taken
  constructor
  · rintro ⟨hlen, rfl⟩
    exact ⟨_, _, _, ⟨hlen, rfl⟩, ⟨rfl, rfl⟩, rfl⟩
  · rintro ⟨len, first, second, ⟨hlen, rfl⟩, ⟨rfl, rfl⟩, rfl⟩
    exact ⟨hlen, rfl⟩

theorem require_format {ε : Type} (condition : Bool) (error : ε) :
    Format (require condition error) fun _ taken => condition = true ∧ taken = [] where
  reads := by
    rintro _ _ ⟨hcondition, rfl⟩
    exact require_reads hcondition
  parses input a rest hrun := by
    rw [require] at hrun
    split at hrun
    · rename_i hcondition
      obtain ⟨-, rfl⟩ := Prod.mk.inj (Except.ok.inj hrun)
      exact ⟨[], rfl, hcondition, rfl⟩
    · cases hrun

section Optional

variable {α : Type} {R : α → List UInt8 → Prop}

/-- The encodings of an optional value behind a tag. -/
def Tagged (R : α → List UInt8 → Prop) : Option α → List UInt8 → Prop
  | none, taken => taken = [0x00]
  | some a, taken => ∃ bytes, R a bytes ∧ taken = 0x01 :: bytes

/-- A tag and then nothing, a value, or a refusal. -/
theorem tagged_format {ε : Type} {value : Reader ε α} (h : Format value R) (error : ε)
    (refusal : UInt8 → ε) :
    Format (do
      let tag ← takeByte error
      if tag = 0x00 then return none
      else if tag = 0x01 then do
        let a ← value
        return some a
      else throw (refusal tag)) (Tagged R) := by
  have hpresent := h.bind fun a => Format.pure (some a)
  refine ((takeByte_format error).bind fun tag => (Format.pure none).ite
    (hpresent.ite (.throw (refusal tag)))).congr ?_
  intro a taken
  constructor
  · cases a with
    | none =>
      rintro rfl
      exact ⟨0x00, [0x00], [], rfl, ⟨rfl, rfl⟩, rfl⟩
    | some a =>
      rintro ⟨bytes, hR, rfl⟩
      exact ⟨0x01, [0x01], bytes, rfl, ⟨a, bytes, [], hR, ⟨rfl, rfl⟩, (List.append_nil _).symm⟩,
        rfl⟩
  · rintro ⟨tag, first, second, rfl, hsecond, rfl⟩
    split_ifs at hsecond with hzero hone
    · obtain ⟨rfl, rfl⟩ := hsecond
      rw [hzero]
      rfl
    · obtain ⟨b, bytes, rest, hR, ⟨rfl, rfl⟩, rfl⟩ := hsecond
      rw [hone]
      exact ⟨bytes, hR, by rw [List.append_nil]; rfl⟩

end Optional

/-! ## Lists -/

section Counted

variable {α : Type} {R : α → List UInt8 → Prop}

theorem takeMany_format {ε : Type} {entry : Reader ε α} (h : Format entry R) (count : ℕ) :
    Format (takeMany entry count) fun l taken =>
      ∃ parts, List.Forall₂ R l parts ∧ l.length = count ∧ taken = parts.flatten := by
  induction count with
  | zero =>
    refine (Format.pure []).congr fun l taken => ?_
    constructor
    · rintro ⟨parts, hparts, hlen, rfl⟩
      obtain rfl := List.eq_nil_of_length_eq_zero hlen
      rw [List.forall₂_nil_left_iff.mp hparts]
      exact ⟨rfl, rfl⟩
    · rintro ⟨rfl, rfl⟩
      exact ⟨[], .nil, rfl, rfl⟩
  | succ count ih =>
    refine (h.bind fun a => ih.bind fun rest => .pure (a :: rest)).congr fun l taken => ?_
    constructor
    · rintro ⟨parts, hparts, hlen, rfl⟩
      cases hparts with
      | nil => cases hlen
      | cons ha hrest =>
        exact ⟨_, _, _, ha, ⟨_, _, [], ⟨_, hrest, Nat.succ.inj hlen, rfl⟩, ⟨rfl, rfl⟩,
          (List.append_nil _).symm⟩, rfl⟩
    · rintro ⟨a, first, _, ha, ⟨rest, _, _, ⟨parts, hparts, hlen, rfl⟩, ⟨rfl, rfl⟩, rfl⟩, rfl⟩
      exact ⟨first :: parts, .cons ha hparts, congrArg (· + 1) hlen,
        by rw [List.append_nil, List.flatten_cons]⟩

theorem mul_le_length_flatten {size : ℕ} (hsize : ∀ a bytes, R a bytes → size ≤ bytes.length)
    {l : List α} {parts : List (List UInt8)} (h : List.Forall₂ R l parts) :
    l.length * size ≤ parts.flatten.length := by
  induction h with
  | nil => exact (Nat.zero_mul size).le
  | cons ha hrest ih =>
    have hfirst := hsize _ _ ha
    rw [List.length_cons, List.flatten_cons, List.length_append, Nat.succ_mul]
    omega

end Counted

/-! ## Whole records -/

theorem Lib.Parses.of_decodeAll {ε α : Type} {m : Reader ε α} {R : α → List UInt8 → Prop}
    (h : Parses m R) {bytes : List UInt8} {a : α} (hsome : decodeAll m bytes = some a) :
    R a bytes := by
  unfold decodeAll at hsome
  split at hsome
  · rename_i a' hrun
    obtain rfl := Option.some.inj hsome
    obtain ⟨taken, rfl, hR⟩ := h bytes a' [] hrun
    rwa [List.append_nil]
  · cases hsome

/-- A reader of a format that has to take up all the bytes accepts the encodings. -/
theorem decodeAll_eq_some_iff {ε α : Type} {m : Reader ε α} {R : α → List UInt8 → Prop}
    (h : Format m R) {bytes : List UInt8} {a : α} : decodeAll m bytes = some a ↔ R a bytes :=
  ⟨h.parses.of_decodeAll, fun hR => decodeAll_of_reads (h.reads hR)⟩

end JKain
