import Mathlib.Data.List.Sort
import Std.Data.ExtTreeMap.Lemmas

/-!
# Maps and their sorted entries

A map is the same thing as the list of its entries in strictly increasing order of their keys.
-/

namespace JKain.Lib

open Std

section Sorted

variable {α β : Type} [Ord α] [TransOrd α] {l l' : List (α × β)}

/-- The keys of the entries increase strictly. -/
def SortedEntries (l : List (α × β)) : Prop := l.Pairwise fun e e' => compare e.1 e'.1 = .lt

theorem sortedEntries_toList (m : ExtTreeMap α β) : SortedEntries m.toList := m.ordered_keys_toList

/-- Sorted entries are determined by which they are. -/
theorem SortedEntries.eq_of_mem_iff (h : SortedEntries l) (h' : SortedEntries l')
    (hmem : ∀ e, e ∈ l ↔ e ∈ l') : l = l' := by
  have : Std.Irrefl fun e e' : α × β => compare e.1 e'.1 = .lt :=
    ⟨fun e hlt => OrientedCmp.not_lt_of_lt hlt hlt⟩
  have : Std.Antisymm fun e e' : α × β => compare e.1 e'.1 = .lt :=
    ⟨fun _ _ hlt hlt' => absurd hlt' (OrientedCmp.not_lt_of_lt hlt)⟩
  exact List.Pairwise.eq_of_mem_iff h h' hmem

/-- Entries are sorted if each is below the next. -/
theorem sortedEntries_cons_iff {e : α × β} :
    SortedEntries (e :: l) ↔ (∀ e' ∈ l.head?, compare e.1 e'.1 = .lt) ∧ SortedEntries l := by
  constructor
  · intro h
    obtain ⟨hhead, htail⟩ := List.pairwise_cons.mp h
    exact ⟨fun e' he' => hhead e' (List.mem_of_mem_head? he'), htail⟩
  · rintro ⟨hhead, htail⟩
    refine List.pairwise_cons.mpr ⟨fun e' he' => ?_, htail⟩
    cases l with
    | nil => cases he'
    | cons first rest =>
      have hfirst := hhead first rfl
      rcases List.mem_cons.mp he' with rfl | he'
      · exact hfirst
      · exact TransCmp.lt_trans hfirst ((List.pairwise_cons.mp htail).1 e' he')

/-- The map with the entries of a list added, where later ones overwrite earlier ones. -/
def insertAll (m : ExtTreeMap α β) (l : List (α × β)) : ExtTreeMap α β :=
  l.foldl (fun m e => m.insert e.1 e.2) m

end Sorted

variable {α β : Type} [Ord α] [TransOrd α] [LawfulEqOrd α] {l : List (α × β)}

theorem getElem?_insertAll_iff (h : SortedEntries l) (m : ExtTreeMap α β) {k : α} {v : β} :
    (insertAll m l)[k]? = some v ↔ (k, v) ∈ l ∨ (∀ e ∈ l, e.1 ≠ k) ∧ m[k]? = some v := by
  induction l generalizing m with
  | nil => simp [insertAll]
  | cons e l ih =>
    obtain ⟨hbelow, hl⟩ := List.pairwise_cons.mp h
    obtain ⟨k₀, v₀⟩ := e
    have hne : ∀ e ∈ l, e.1 ≠ k₀ := fun e he heq => by
      have hlt := hbelow e he
      rw [heq, compare_self] at hlt
      cases hlt
    rw [insertAll, List.foldl_cons, ← insertAll, ih hl, ExtTreeMap.getElem?_insert]
    by_cases hk : k₀ = k
    · subst hk
      rw [if_pos compare_self]
      constructor
      · rintro (hmem | ⟨-, hv⟩)
        · exact absurd rfl (hne _ hmem)
        · obtain rfl := Option.some.inj hv
          exact .inl List.mem_cons_self
      · rintro (hmem | ⟨hall, -⟩)
        · rcases List.mem_cons.mp hmem with heq | hmem
          · exact .inr ⟨hne, by rw [(Prod.mk.inj heq).2]⟩
          · exact absurd rfl (hne _ hmem)
        · exact absurd rfl (hall _ List.mem_cons_self)
    · rw [if_neg fun heq => hk (Std.compare_eq_iff_eq.mp heq), List.mem_cons, List.forall_mem_cons]
      have hhead : (k, v) ≠ (k₀, v₀) := fun heq => hk (Prod.mk.inj heq).1.symm
      tauto

/-- A map is put together again from its entries. -/
theorem insertAll_toList (m : ExtTreeMap α β) : insertAll ∅ m.toList = m := by
  refine ExtTreeMap.ext_getElem? fun k => Option.ext fun v => ?_
  rw [getElem?_insertAll_iff (sortedEntries_toList m), ExtTreeMap.mem_toList_iff_getElem?_eq_some,
    ExtTreeMap.getElem?_empty]
  simp

/-- Sorted entries are those of the map put together from them. -/
theorem toList_insertAll (h : SortedEntries l) : (insertAll ∅ l).toList = l := by
  refine (sortedEntries_toList _).eq_of_mem_iff h fun ⟨k, v⟩ => ?_
  rw [ExtTreeMap.mem_toList_iff_getElem?_eq_some, getElem?_insertAll_iff h,
    ExtTreeMap.getElem?_empty]
  simp

/-- Every entry of the map is one of those added, or one that was there. -/
theorem mem_of_getElem?_insertAll {m : ExtTreeMap α β} {k : α} {v : β}
    (h : (insertAll m l)[k]? = some v) : (k, v) ∈ l ∨ m[k]? = some v := by
  induction l generalizing m with
  | nil => exact .inr h
  | cons e l ih =>
    rcases ih h with hmem | hold
    · exact .inl (List.mem_cons_of_mem e hmem)
    · rw [ExtTreeMap.getElem?_insert] at hold
      split at hold
      · rename_i heq
        obtain rfl := Std.compare_eq_iff_eq.mp heq
        obtain rfl := Option.some.inj hold
        exact .inl List.mem_cons_self
      · exact .inr hold

omit [LawfulEqOrd α] in
theorem ofList_eq_insertAll (l : List (α × β)) : ExtTreeMap.ofList l = insertAll ∅ l := by
  have hmany (m : ExtTreeMap α β) : m.insertMany l = insertAll m l := by
    induction l generalizing m with
    | nil => exact ExtTreeMap.insertMany_nil
    | cons e l ih =>
      rw [ExtTreeMap.insertMany_cons, ih]
      rfl
  rw [ExtTreeMap.ofList_eq_insertMany_empty, hmany]

theorem sortedEntries_iff_pairwise_lt {l : List (ℕ × β)} :
    SortedEntries l ↔ l.Pairwise fun e e' => e.1 < e'.1 := by
  simp only [SortedEntries, Nat.compare_eq_lt]

end JKain.Lib
