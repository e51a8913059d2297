import Mathlib.Data.Finset.Card

/-!
# Layered elections

A question is put to layers of voters. The first layer answers directly. Every later voter hears the
votes of a supermajority of the layer before it and follows their majority, except that in a coin
layer a voter without a supermajority on one side votes by its own coin. A voter that hears a
supermajority on one side decides.

A decision outside a coin layer makes the layers after it unanimous.
-/

namespace JKain.Lib

variable {V : Type}

/-- How many voters of `S` vote `b`. -/
def votesFor (f : V → Bool) (S : Finset V) (b : Bool) : ℕ := (S.filter (f · = b)).card

/-- The vote of the majority, `true` on a tie. -/
def majority (f : V → Bool) (S : Finset V) : Bool := decide (votesFor f S false ≤ votesFor f S true)

section Counting

variable {f : V → Bool} {S L : Finset V} {b : Bool} {n : ℕ}

theorem votesFor_add_votesFor_not (f : V → Bool) (S : Finset V) (b : Bool) :
    votesFor f S b + votesFor f S (!b) = S.card := by
  have hnot : (S.filter fun v => f v = !b) = S.filter fun v => ¬f v = b := by
    refine Finset.filter_congr fun v _ => ?_
    cases f v <;> cases b <;> simp
  rw [votesFor, votesFor, hnot, Finset.card_filter_add_card_filter_not]

theorem votesFor_congr {f' : V → Bool} (h : ∀ v ∈ S, f v = f' v) (b : Bool) :
    votesFor f S b = votesFor f' S b := by
  rw [votesFor, votesFor, Finset.filter_congr fun v hv => by rw [h v hv]]

theorem majority_congr {f' : V → Bool} (h : ∀ v ∈ S, f v = f' v) : majority f S = majority f' S := by
  rw [majority, majority, votesFor_congr h, votesFor_congr h]

theorem votesFor_mono (h : S ⊆ L) : votesFor f S b ≤ votesFor f L b :=
  Finset.card_le_card (Finset.filter_subset_filter _ h)

theorem majority_eq_of_lt (h : votesFor f S (!b) < votesFor f S b) : majority f S = b := by
  cases b
  · simpa [majority] using h
  · simpa [majority] using h.le

/-- A supermajority of a layer is the majority of every quorum of the layer. -/
theorem majority_eq_of_super (hL : L.card ≤ n) (hsuper : 2 * n < 3 * votesFor f L b) (hS : S ⊆ L)
    (hquorum : 2 * n < 3 * S.card) : majority f S = b := by
  have hlayer := votesFor_add_votesFor_not f L b
  have hpart := votesFor_add_votesFor_not f S b
  have hrest : votesFor f S (!b) ≤ votesFor f L (!b) := votesFor_mono hS
  exact majority_eq_of_lt (by omega)

theorem votesFor_eq_card (h : ∀ v ∈ S, f v = b) : votesFor f S b = S.card := by
  rw [votesFor, Finset.filter_true_of_mem h]

/-- Two quorums of a set have more than a third of it in common. -/
theorem card_lt_three_mul_card_inter [DecidableEq V] {A B M : Finset V} (hA : A ⊆ M) (hB : B ⊆ M)
    (hqA : 2 * M.card < 3 * A.card) (hqB : 2 * M.card < 3 * B.card) :
    M.card < 3 * (A ∩ B).card := by
  have hunion : (A ∪ B).card ≤ M.card := Finset.card_le_card (Finset.union_subset hA hB)
  have hsum := Finset.card_union_add_card_inter A B
  omega

/-- Two quorums of a set have a member in common outside any third of the set. -/
theorem exists_common_of_quorums [DecidableEq V] {A B M F : Finset V} (hA : A ⊆ M) (hB : B ⊆ M)
    (hqA : 2 * M.card < 3 * A.card) (hqB : 2 * M.card < 3 * B.card) (hF : 3 * F.card < M.card) :
    ∃ v ∈ A, v ∈ B ∧ v ∉ F := by
  have hinter := card_lt_three_mul_card_inter hA hB hqA hqB
  obtain ⟨v, hv, hvF⟩ := Finset.exists_mem_notMem_of_card_lt_card
    (show F.card < (A ∩ B).card by omega)
  exact ⟨v, (Finset.mem_inter.mp hv).1, (Finset.mem_inter.mp hv).2, hvF⟩

end Counting

/-- The layers of an election, and for each voter the votes it hears. Layer `d + 1` hears layer
`d`. -/
structure Election (V : Type) where
  layer : ℕ → Finset V
  below : V → Finset V
  direct : V → Bool
  coin : V → Bool
  isCoin : ℕ → Bool
  total : ℕ
  card_layer_le : ∀ d, (layer d).card ≤ total
  below_subset : ∀ d, ∀ y ∈ layer (d + 1), below y ⊆ layer d
  quorum_below : ∀ d, ∀ y ∈ layer (d + 1), 2 * total < 3 * (below y).card

namespace Election

variable (E : Election V)

/-- The vote of a voter of layer `d`. -/
def vote : ℕ → V → Bool
  | 0, y => E.direct y
  | d + 1, y =>
    let v := majority (vote d) (E.below y)
    if E.isCoin (d + 1) ∧ ¬2 * E.total < 3 * votesFor (vote d) (E.below y) v then E.coin y else v

/-- The voter `y` of layer `d + 1` hears a supermajority for `b`. -/
def Decides (d : ℕ) (y : V) (b : Bool) : Prop :=
  y ∈ E.layer (d + 1) ∧ 2 * E.total < 3 * votesFor (E.vote d) (E.below y) b

/-- All voters of layer `d` vote `b`. -/
def Unanimous (d : ℕ) (b : Bool) : Prop := ∀ y ∈ E.layer d, E.vote d y = b

variable {E} {d d' : ℕ} {y : V} {b : Bool}

theorem card_below_le (hy : y ∈ E.layer (d + 1)) : (E.below y).card ≤ E.total :=
  (Finset.card_le_card (E.below_subset d y hy)).trans (E.card_layer_le d)

theorem Decides.majority_eq (h : E.Decides d y b) : majority (E.vote d) (E.below y) = b :=
  majority_eq_of_super (card_below_le h.1) h.2 subset_rfl (E.quorum_below d y h.1)

/-- A voter that decides votes as it decides, in a coin layer too. -/
theorem Decides.vote_eq (h : E.Decides d y b) : E.vote (d + 1) y = b := by
  have hmaj := h.majority_eq
  simp only [vote, hmaj, h.2, not_true_eq_false, and_false, if_false]

/-- A supermajority of a layer makes the next layer unanimous, unless that is a coin layer. -/
theorem unanimous_succ_of_super (hcoin : E.isCoin (d + 1) = false)
    (hsuper : 2 * E.total < 3 * votesFor (E.vote d) (E.layer d) b) : E.Unanimous (d + 1) b := by
  intro y hy
  have hmaj : majority (E.vote d) (E.below y) = b :=
    majority_eq_of_super (E.card_layer_le d) hsuper (E.below_subset d y hy) (E.quorum_below d y hy)
  simp only [vote, hmaj, hcoin, Bool.false_eq_true, false_and, if_false]

theorem Decides.layer_super (h : E.Decides d y b) :
    2 * E.total < 3 * votesFor (E.vote d) (E.layer d) b := by
  have hmono : votesFor (E.vote d) (E.below y) b ≤ votesFor (E.vote d) (E.layer d) b :=
    votesFor_mono (E.below_subset d y h.1)
  have := h.2
  omega

/-- Every voter above a unanimous layer decides with it. -/
theorem Unanimous.decides (h : E.Unanimous d b) (hy : y ∈ E.layer (d + 1)) : E.Decides d y b := by
  refine ⟨hy, ?_⟩
  rw [votesFor_eq_card fun v hv => h v (E.below_subset d y hy hv)]
  exact E.quorum_below d y hy

/-- Unanimity is kept by all later layers, coin layers included. -/
theorem Unanimous.of_le (h : E.Unanimous d b) (hle : d ≤ d') : E.Unanimous d' b := by
  induction d', hle using Nat.le_induction with
  | base => exact h
  | succ d' _ ih => exact fun y hy => (ih.decides hy).vote_eq

end Election

end JKain.Lib
