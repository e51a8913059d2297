import JKain.Lib.HashTree
import Mathlib.Data.Nat.Bitwise
import Mathlib.Logic.Function.Basic

/-!
# Folds over all paths of a binary tree

A complete binary tree has a leaf for every path of a given length. The fold of its leaves is
defined from the root down; it is recomputed from the leaf up when one leaf changes, since the nodes
that are not above the leaf keep their values. A node at height `h` is numbered by its path, the
quotient of the paths below it by `2 ^ h`.
-/

namespace JKain.Lib

variable {α β M δ : Type}

/-- The value of the node with number `p` at a height. -/
def foldTree (combine : β → β → β) (leaf : ℕ → β) : ℕ → ℕ → β
  | 0, p => leaf p
  | height + 1, p =>
    combine (foldTree combine leaf height (2 * p)) (foldTree combine leaf height (2 * p + 1))

variable {combine : β → β → β} {leaf leaf' : ℕ → β} {height p q path : ℕ}

/-- The nodes over a path are numbered by its quotients. -/
theorem div_two_pow_succ (path height : ℕ) : path / 2 ^ (height + 1) = path / 2 ^ height / 2 := by
  rw [pow_succ, Nat.div_div_eq_div_mul]

/-- Only the leaves below a node matter for its value. -/
theorem foldTree_congr (h : ∀ q, q / 2 ^ height = p → leaf q = leaf' q) :
    foldTree combine leaf height p = foldTree combine leaf' height p := by
  induction height generalizing p with
  | zero => exact h p (by simp)
  | succ height ih =>
    rw [foldTree, foldTree, ih fun q hq => h q ?_, ih fun q hq => h q ?_]
    · rw [div_two_pow_succ, hq]
      omega
    · rw [div_two_pow_succ, hq]
      omega

/-- A changed leaf does not matter for nodes that are not above it. -/
theorem foldTree_eq_of_off_path (h : ∀ q, q ≠ path → leaf q = leaf' q)
    (hp : p ≠ path / 2 ^ height) :
    foldTree combine leaf height p = foldTree combine leaf' height p :=
  foldTree_congr fun q hq => h q fun heq => hp (by rw [← hq, heq])

/-- A node is the combination of one of its children with the sibling of it. -/
theorem foldTree_succ_div_two (q height : ℕ) :
    foldTree combine leaf (height + 1) (q / 2) =
      if q % 2 = 1 then
        combine (foldTree combine leaf height (q ^^^ 1)) (foldTree combine leaf height q)
      else combine (foldTree combine leaf height q) (foldTree combine leaf height (q ^^^ 1)) := by
  rcases Nat.even_or_odd' q with ⟨i, rfl | rfl⟩
  · rw [if_neg (by omega), Nat.xor_one_of_even (even_two_mul i), foldTree,
      Nat.mul_div_cancel_left i (by decide)]
  · rw [if_pos (by omega), Nat.xor_one_of_odd (odd_two_mul_add_one i), foldTree,
      show (2 * i + 1) / 2 = i by omega, Nat.add_sub_cancel]

/-! ## Trees of hashes -/

namespace HashTree

variable {S : HashScheme α M δ} {D : Set M} {leaf : ℕ → HashTree α}

theorem mem_leaves_foldTree {a : α} :
    a ∈ (foldTree HashTree.combine leaf height p).leaves ↔
      ∃ q, q / 2 ^ height = p ∧ a ∈ (leaf q).leaves := by
  induction height generalizing p with
  | zero => simp [foldTree]
  | succ height ih =>
    rw [foldTree, leaves_combine, List.mem_append, ih, ih]
    constructor
    · rintro (⟨q, hq, ha⟩ | ⟨q, hq, ha⟩)
      · exact ⟨q, by rw [div_two_pow_succ, hq]; omega, ha⟩
      · exact ⟨q, by rw [div_two_pow_succ, hq]; omega, ha⟩
    · rintro ⟨q, hq, ha⟩
      rw [div_two_pow_succ] at hq
      rcases Nat.even_or_odd' (q / 2 ^ height) with ⟨i, hi | hi⟩
      · exact .inl ⟨q, by omega, ha⟩
      · exact .inr ⟨q, by omega, ha⟩

/-- The hash of a node over all paths, from the roots of the leaves. -/
def foldRoots [DecidableEq δ] (S : HashScheme α M δ) (leaf : ℕ → HashTree α) (height p : ℕ) : δ :=
  foldTree (fun d d' => S.hash (S.combineMsg d d')) (fun q => (leaf q).root S) height p

/-- If no two of the strings hashed for leaves and nodes collide, the tree over all paths hashes
them and no others, and its root is the fold of the roots of the leaves. -/
theorem messages_and_root_foldTree [DecidableEq δ] (hS : S.Separated) (hD : Set.InjOn S.hash D)
    (hempty : S.emptyMsg ∈ D) (hleaf : ∀ q, (leaf q).messages S ⊆ D)
    (hnodes : ∀ h < height, ∀ p,
      S.combineMsg (foldRoots S leaf h (2 * p)) (foldRoots S leaf h (2 * p + 1)) ∈ D) :
    (foldTree HashTree.combine leaf height p).messages S ⊆ D ∧
      (foldTree HashTree.combine leaf height p).root S = foldRoots S leaf height p := by
  induction height generalizing p with
  | zero => exact ⟨hleaf p, rfl⟩
  | succ height ih =>
    have hbelow := fun h (hh : h < height) => hnodes h (hh.trans (Nat.lt_succ_self height))
    obtain ⟨hl, hlroot⟩ := @ih (2 * p) hbelow
    obtain ⟨hr, hrroot⟩ := @ih (2 * p + 1) hbelow
    have hmessage := message_combine hS hD hempty hl hr
    rw [hlroot, hrroot] at hmessage
    rw [foldTree]
    constructor
    · refine messages_combine_subset hl hr ?_
      rw [hmessage]
      exact hnodes height (Nat.lt_succ_self height) p
    · rw [root, hmessage]
      rfl

end HashTree

end JKain.Lib
