import Mathlib.Data.Set.Function

/-!
# Trees that are committed to by a hash

A tree is hashed bottom up: every node is a message made of the digests of its subtrees, and its
digest is the hash of that message. If messages of different kinds can be told apart and the hash
has no collision among the messages of two trees, then trees with one root are one tree. No more is
asked of the hash: a function to a finite type is not injective.
-/

namespace JKain.Lib

variable {α M δ : Type}

/-- How the nodes of a tree become messages, and how messages are hashed. -/
structure HashScheme (α M δ : Type) where
  hash : M → δ
  emptyMsg : M
  leafMsg : α → M
  singleMsg : δ → M
  nodeMsg : δ → δ → M

/-- Messages of different kinds are different, and a message determines what it is made of. -/
structure HashScheme.Separated (S : HashScheme α M δ) : Prop where
  leaf_ne_empty : ∀ a, S.leafMsg a ≠ S.emptyMsg
  single_ne_empty : ∀ d, S.singleMsg d ≠ S.emptyMsg
  node_ne_empty : ∀ d d', S.nodeMsg d d' ≠ S.emptyMsg
  leaf_ne_single : ∀ a d, S.leafMsg a ≠ S.singleMsg d
  leaf_ne_node : ∀ a d d', S.leafMsg a ≠ S.nodeMsg d d'
  single_ne_node : ∀ d d' d'', S.singleMsg d ≠ S.nodeMsg d' d''
  leaf_inj : ∀ {a a'}, S.leafMsg a = S.leafMsg a' → a = a'
  single_inj : ∀ {m m'}, S.singleMsg (S.hash m) = S.singleMsg (S.hash m') → S.hash m = S.hash m'
  node_inj : ∀ {m n m' n'}, S.nodeMsg (S.hash m) (S.hash n) = S.nodeMsg (S.hash m') (S.hash n') →
    S.hash m = S.hash m' ∧ S.hash n = S.hash n'

/-- A tree with entries at its leaves; a subtree without a sibling is a `single` one. -/
inductive HashTree (α : Type)
  | empty
  | leaf (a : α)
  | single (t : HashTree α)
  | node (l r : HashTree α)

namespace HashTree

/-- The message of the topmost node. -/
def message (S : HashScheme α M δ) : HashTree α → M
  | empty => S.emptyMsg
  | leaf a => S.leafMsg a
  | single t => S.singleMsg (S.hash (t.message S))
  | node l r => S.nodeMsg (S.hash (l.message S)) (S.hash (r.message S))

/-- The digest of the tree. -/
def root (S : HashScheme α M δ) (t : HashTree α) : δ := S.hash (t.message S)

/-- The messages of all nodes. -/
def messages (S : HashScheme α M δ) : HashTree α → Set M
  | empty => {S.emptyMsg}
  | leaf a => {S.leafMsg a}
  | single t => insert ((single t).message S) (t.messages S)
  | node l r => insert ((node l r).message S) (l.messages S ∪ r.messages S)

/-- The entries from left to right. -/
def leaves : HashTree α → List α
  | empty => []
  | leaf a => [a]
  | single t => t.leaves
  | node l r => l.leaves ++ r.leaves

/-- Puts two trees under one node; an empty tree takes no place. -/
def combine : HashTree α → HashTree α → HashTree α
  | empty, empty => empty
  | empty, r => single r
  | l, empty => single l
  | l, r => node l r

variable {S : HashScheme α M δ} {D : Set M} {t t' l r : HashTree α}

theorem message_mem_messages (t : HashTree α) : t.message S ∈ t.messages S := by
  cases t with
  | empty => exact rfl
  | leaf a => exact rfl
  | single t => exact Set.mem_insert _ _
  | node l r => exact Set.mem_insert _ _

theorem combine_cases (l r : HashTree α) :
    l = empty ∧ r = empty ∧ combine l r = empty ∨ l = empty ∧ r ≠ empty ∧ combine l r = single r ∨
      l ≠ empty ∧ r = empty ∧ combine l r = single l ∨
      l ≠ empty ∧ r ≠ empty ∧ combine l r = node l r := by
  cases l <;> cases r <;> simp [combine]

theorem leaves_combine (l r : HashTree α) : (combine l r).leaves = l.leaves ++ r.leaves := by
  rcases combine_cases l r with ⟨rfl, rfl, heq⟩ | ⟨rfl, -, heq⟩ | ⟨-, rfl, heq⟩ | ⟨-, -, heq⟩ <;>
    simp [heq, leaves]

/-- Only the empty tree has the message of the empty tree. -/
theorem message_eq_emptyMsg_iff (hS : S.Separated) : t.message S = S.emptyMsg ↔ t = empty := by
  cases t with
  | empty => exact iff_of_true rfl rfl
  | leaf a => exact iff_of_false (hS.leaf_ne_empty a) (fun h => nomatch h)
  | single t => exact iff_of_false (hS.single_ne_empty _) (fun h => nomatch h)
  | node l r => exact iff_of_false (hS.node_ne_empty _ _) (fun h => nomatch h)

theorem root_eq_hash_emptyMsg_iff (hS : S.Separated) (hD : Set.InjOn S.hash D)
    (hempty : S.emptyMsg ∈ D) (ht : t.messages S ⊆ D) :
    t.root S = S.hash S.emptyMsg ↔ t = empty := by
  rw [root, hD.eq_iff (ht t.message_mem_messages) hempty, message_eq_emptyMsg_iff hS]

/-- Trees with one message are one tree, as long as the hash has no collision among the messages of
both. -/
theorem eq_of_message_eq (hS : S.Separated) (hD : Set.InjOn S.hash D) (ht : t.messages S ⊆ D)
    (ht' : t'.messages S ⊆ D) (h : t.message S = t'.message S) : t = t' := by
  induction t generalizing t' with
  | empty => exact ((message_eq_emptyMsg_iff hS).mp h.symm).symm
  | leaf a =>
    cases t' with
    | empty => exact absurd h (hS.leaf_ne_empty a)
    | leaf a' => exact congrArg leaf (hS.leaf_inj h)
    | single t' => exact absurd h (hS.leaf_ne_single a _)
    | node l r => exact absurd h (hS.leaf_ne_node a _ _)
  | single t ih =>
    cases t' with
    | empty => exact absurd h (hS.single_ne_empty _)
    | leaf a' => exact absurd h.symm (hS.leaf_ne_single a' _)
    | single t' =>
      have hsub := (Set.insert_subset_iff.mp ht).2
      have hsub' := (Set.insert_subset_iff.mp ht').2
      refine congrArg single (ih hsub hsub' ?_)
      exact hD (hsub t.message_mem_messages) (hsub' t'.message_mem_messages) (hS.single_inj h)
    | node l r => exact absurd h (hS.single_ne_node _ _ _)
  | node l r ihl ihr =>
    cases t' with
    | empty => exact absurd h (hS.node_ne_empty _ _)
    | leaf a' => exact absurd h.symm (hS.leaf_ne_node a' _ _)
    | single t' => exact absurd h.symm (hS.single_ne_node _ _ _)
    | node l' r' =>
      obtain ⟨hl, hr⟩ := Set.union_subset_iff.mp (Set.insert_subset_iff.mp ht).2
      obtain ⟨hl', hr'⟩ := Set.union_subset_iff.mp (Set.insert_subset_iff.mp ht').2
      obtain ⟨hleft, hright⟩ := hS.node_inj h
      have hleft := hD (hl l.message_mem_messages) (hl' l'.message_mem_messages) hleft
      have hright := hD (hr r.message_mem_messages) (hr' r'.message_mem_messages) hright
      rw [ihl hl hl' hleft, ihr hr hr' hright]

/-- Trees with one root are one tree. -/
theorem eq_of_root_eq (hS : S.Separated) (hD : Set.InjOn S.hash D) (ht : t.messages S ⊆ D)
    (ht' : t'.messages S ⊆ D) (h : t.root S = t'.root S) : t = t' :=
  eq_of_message_eq hS hD ht ht' (hD (ht t.message_mem_messages) (ht' t'.message_mem_messages) h)

/-- The messages of a combined tree are those of its parts and its own. -/
theorem messages_combine_subset (hl : l.messages S ⊆ D) (hr : r.messages S ⊆ D)
    (h : (combine l r).message S ∈ D) : (combine l r).messages S ⊆ D := by
  rcases combine_cases l r with ⟨rfl, rfl, heq⟩ | ⟨rfl, -, heq⟩ | ⟨-, rfl, heq⟩ | ⟨-, -, heq⟩
  · exact hr
  · rw [heq] at h ⊢
    exact Set.insert_subset h hr
  · rw [heq] at h ⊢
    exact Set.insert_subset h hl
  · rw [heq] at h ⊢
    exact Set.insert_subset h (Set.union_subset hl hr)

/-! ## Levels of trees -/

/-- One level of trees: neighbours are put under one node. -/
def combineTrees : List (HashTree α) → List (HashTree α)
  | l :: r :: rest => l.combine r :: combineTrees rest
  | _ => []

/-- The trees of a level, with all their messages in `D`. -/
def Within (S : HashScheme α M δ) (D : Set M) (ts : List (HashTree α)) : Prop :=
  ∀ t ∈ ts, t.messages S ⊆ D

variable {ts : List (HashTree α)}

theorem length_combineTrees {k : ℕ} (h : ts.length = 2 * k) : (combineTrees ts).length = k := by
  induction ts using combineTrees.induct generalizing k with
  | case1 l r rest ih =>
    rw [List.length_cons, List.length_cons] at h
    rw [combineTrees, List.length_cons, ih (show rest.length = 2 * (k - 1) by omega)]
    omega
  | case2 ts hshort =>
    match ts, hshort with
    | [], _ =>
      rw [List.length_nil] at h
      exact (show (0 : ℕ) = k by omega)
    | [t], _ =>
      rw [List.length_singleton] at h
      omega
    | l :: r :: rest, hshort => exact absurd rfl (hshort l r rest)

theorem leaves_combineTrees {k : ℕ} (h : ts.length = 2 * k) :
    (combineTrees ts).flatMap leaves = ts.flatMap leaves := by
  induction ts using combineTrees.induct generalizing k with
  | case1 l r rest ih =>
    rw [List.length_cons, List.length_cons] at h
    rw [combineTrees, List.flatMap_cons, List.flatMap_cons, List.flatMap_cons,
      ih (show rest.length = 2 * (k - 1) by omega), leaves_combine, List.append_assoc]
  | case2 ts hshort =>
    match ts, hshort with
    | [], _ => rfl
    | [t], _ =>
      rw [List.length_singleton] at h
      omega
    | l :: r :: rest, hshort => exact absurd rfl (hshort l r rest)

end HashTree

/-! ## Paths to the root -/

namespace HashScheme

/-- A node determines either of its digests, whatever stands at the place of the other. -/
structure Splits (S : HashScheme α M δ) : Prop extends S.Separated where
  node_left : ∀ {m m' d d'}, S.nodeMsg (S.hash m) d = S.nodeMsg (S.hash m') d' →
    S.hash m = S.hash m'
  node_right : ∀ {m m' d d'}, S.nodeMsg d (S.hash m) = S.nodeMsg d' (S.hash m') →
    S.hash m = S.hash m'

variable [DecidableEq δ] (S : HashScheme α M δ)

/-- The message over two digests; the digest of the empty tree takes no place. -/
def combineMsg (d d' : δ) : M :=
  if d = S.hash S.emptyMsg then
    if d' = S.hash S.emptyMsg then S.emptyMsg else S.singleMsg d'
  else if d' = S.hash S.emptyMsg then S.singleMsg d
  else S.nodeMsg d d'

/-- The message over the digest of `m` and a sibling on the right or on the left. -/
def stepMsg (m : M) (step : δ × Bool) : M :=
  if step.2 then S.combineMsg (S.hash m) step.1 else S.combineMsg step.1 (S.hash m)

/-- The message at the end of a path of siblings. -/
def climbMsg (m : M) (path : List (δ × Bool)) : M := path.foldl S.stepMsg m

/-- The messages along a path of siblings. -/
def climbMsgs (m : M) : List (δ × Bool) → List M
  | [] => [m]
  | step :: path => m :: climbMsgs (S.stepMsg m step) path

variable {S}

/-- Over a tree that is not empty a step is a node with the digest on one of its sides. -/
theorem stepMsg_cases {m : M} (hm : S.hash m ≠ S.hash S.emptyMsg) (step : δ × Bool) :
    S.stepMsg m step = S.singleMsg (S.hash m) ∨ S.stepMsg m step = S.nodeMsg (S.hash m) step.1 ∨
      S.stepMsg m step = S.nodeMsg step.1 (S.hash m) := by
  rw [stepMsg, combineMsg, combineMsg, if_neg hm, if_neg hm]
  split <;> split <;> simp

theorem stepMsg_ne_emptyMsg (hS : S.Separated) {m : M} (hm : S.hash m ≠ S.hash S.emptyMsg)
    (step : δ × Bool) : S.stepMsg m step ≠ S.emptyMsg := by
  rcases stepMsg_cases hm step with heq | heq | heq <;> rw [heq]
  · exact hS.single_ne_empty _
  · exact hS.node_ne_empty _ _
  · exact hS.node_ne_empty _ _

end HashScheme

namespace HashTree

variable {S : HashScheme α M δ} {D : Set M} {t : HashTree α}

/-- Leaf messages are hashed only for the entries. -/
theorem mem_leaves_of_leafMsg_mem (hS : S.Separated) {a : α} (h : S.leafMsg a ∈ t.messages S) :
    a ∈ t.leaves := by
  induction t with
  | empty => exact absurd h (hS.leaf_ne_empty a)
  | leaf b => exact List.mem_singleton.mpr (hS.leaf_inj h)
  | single t ih =>
    rcases Set.mem_insert_iff.mp h with h | h
    · exact absurd h (hS.leaf_ne_single a _)
    · exact ih h
  | node l r ihl ihr =>
    rcases Set.mem_insert_iff.mp h with h | h | h
    · exact absurd h (hS.leaf_ne_node a _ _)
    · exact List.mem_append_left _ (ihl h)
    · exact List.mem_append_right _ (ihr h)

theorem mem_messages_of_hash_eq (hD : Set.InjOn S.hash D) (ht : t.messages S ⊆ D) {m : M}
    (hm : m ∈ D) (h : S.hash m = S.hash (t.message S)) : m ∈ t.messages S :=
  hD hm (ht t.message_mem_messages) h ▸ t.message_mem_messages

variable [DecidableEq δ]

/-- A message below a message of the tree is one of the tree, too: the sibling beside it is
arbitrary, but a node with this digest on one of its sides is a node over this message. -/
theorem mem_messages_of_stepMsg_mem (hS : S.Splits) (hD : Set.InjOn S.hash D)
    (ht : t.messages S ⊆ D) {m : M} (hm : m ∈ D) (hne : S.hash m ≠ S.hash S.emptyMsg)
    {step : δ × Bool} (h : S.stepMsg m step ∈ t.messages S) : m ∈ t.messages S := by
  have hcases := HashScheme.stepMsg_cases hne step
  induction t with
  | empty => exact absurd h (HashScheme.stepMsg_ne_emptyMsg hS.toSeparated hne step)
  | leaf a =>
    rw [Set.mem_singleton_iff.mp h] at hcases
    rcases hcases with heq | heq | heq
    · exact absurd heq (hS.leaf_ne_single a _)
    · exact absurd heq (hS.leaf_ne_node a _ _)
    · exact absurd heq (hS.leaf_ne_node a _ _)
  | single t ih =>
    have hsub := (Set.insert_subset_iff.mp ht).2
    rcases Set.mem_insert_iff.mp h with h | h
    · rw [h] at hcases
      rcases hcases with heq | heq | heq
      · exact Set.mem_insert_of_mem _
          (mem_messages_of_hash_eq hD hsub hm (hS.single_inj heq).symm)
      · exact absurd heq (hS.single_ne_node _ _ _)
      · exact absurd heq (hS.single_ne_node _ _ _)
    · exact Set.mem_insert_of_mem _ (ih hsub h)
  | node l r ihl ihr =>
    obtain ⟨hl, hr⟩ := Set.union_subset_iff.mp (Set.insert_subset_iff.mp ht).2
    rcases Set.mem_insert_iff.mp h with h | h | h
    · rw [h] at hcases
      rcases hcases with heq | heq | heq
      · exact absurd heq.symm (hS.single_ne_node _ _ _)
      · exact Set.mem_insert_of_mem _ (Set.mem_union_left _
          (mem_messages_of_hash_eq hD hl hm (hS.node_left heq).symm))
      · exact Set.mem_insert_of_mem _ (Set.mem_union_right _
          (mem_messages_of_hash_eq hD hr hm (hS.node_right heq).symm))
    · exact Set.mem_insert_of_mem _ (Set.mem_union_left _ (ihl hl h))
    · exact Set.mem_insert_of_mem _ (Set.mem_union_right _ (ihr hr h))

/-- A path that ends with the root of a tree starts with a message of the tree, whatever siblings it
goes past. -/
theorem mem_messages_of_climbMsg (hS : S.Splits) (hD : Set.InjOn S.hash D)
    (hempty : S.emptyMsg ∈ D) (ht : t.messages S ⊆ D) {path : List (δ × Bool)} {m : M}
    (hm : m ≠ S.emptyMsg) (hpath : ∀ m' ∈ S.climbMsgs m path, m' ∈ D)
    (h : S.hash (S.climbMsg m path) = t.root S) : m ∈ t.messages S := by
  induction path generalizing m with
  | nil => exact mem_messages_of_hash_eq hD ht (hpath m List.mem_cons_self) h
  | cons step path ih =>
    obtain ⟨hmD, hrest⟩ := List.forall_mem_cons.mp hpath
    have hne : S.hash m ≠ S.hash S.emptyMsg := fun heq => hm (hD hmD hempty heq)
    have hstep := ih (HashScheme.stepMsg_ne_emptyMsg hS.toSeparated hne step) hrest h
    exact mem_messages_of_stepMsg_mem hS hD ht hmD hne hstep

/-- A combined tree is hashed over the roots of its parts. -/
theorem message_combine (hS : S.Separated) (hD : Set.InjOn S.hash D) (hempty : S.emptyMsg ∈ D)
    {l r : HashTree α} (hl : l.messages S ⊆ D) (hr : r.messages S ⊆ D) :
    (l.combine r).message S = S.combineMsg (l.root S) (r.root S) := by
  have hleft := root_eq_hash_emptyMsg_iff hS hD hempty hl
  have hright := root_eq_hash_emptyMsg_iff hS hD hempty hr
  rw [HashScheme.combineMsg]
  rcases combine_cases l r with ⟨hl, hr, heq⟩ | ⟨hl, hr, heq⟩ | ⟨hl, hr, heq⟩ | ⟨hl, hr, heq⟩
  · rw [heq, if_pos (hleft.mpr hl), if_pos (hright.mpr hr)]
    rfl
  · rw [heq, if_pos (hleft.mpr hl), if_neg (mt hright.mp hr)]
    rfl
  · rw [heq, if_neg (mt hleft.mp hl), if_pos (hright.mpr hr)]
    rfl
  · rw [heq, if_neg (mt hleft.mp hl), if_neg (mt hright.mp hr)]
    rfl

end HashTree

end JKain.Lib
