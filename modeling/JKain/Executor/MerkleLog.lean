import JKain.Executor.CodecSpec
import Mathlib.Data.Set.Function

/-!
# Appending to the log of an identity's actors

A root actor stores the RFC 6962 root of its sub-actors' leaf hashes and how many there are, not the
leaves. A mint comes with the next root, a consistency proof from the old root to it and an
inclusion proof of the new leaf at the last place. As long as no two of the strings that are hashed
on the way collide, the two proofs leave one choice for the next root: the root of the old leaves
with the new one behind them.
-/

namespace JKain

/-! ## Where the tree is split -/

theorem largestPow2Below_spec {n : ℕ} (h : 2 ≤ n) :
    ∃ j, largestPow2Below n = 2 ^ j ∧ 2 ^ j < n ∧ n ≤ 2 ^ (j + 1) := by
  have hne : n ≠ 0 := by omega
  have hlow : 2 ^ Nat.log2 n ≤ n := Nat.log2_self_le hne
  have hhigh : n < 2 ^ (Nat.log2 n + 1) := Nat.lt_log2_self
  rw [largestPow2Below]
  split
  · rename_i hpow
    obtain ⟨j, hj⟩ : ∃ j, Nat.log2 n = j + 1 := by
      refine Nat.exists_eq_succ_of_ne_zero fun hzero => ?_
      rw [hzero, pow_zero] at hpow
      omega
    rw [hj, pow_succ] at hpow ⊢
    refine ⟨j, by omega, ?_, by omega⟩
    have hpos : 0 < 2 ^ j := Nat.two_pow_pos j
    omega
  · rename_i hpow
    exact ⟨Nat.log2 n, rfl, by omega, hhigh.le⟩

theorem largestPow2Below_eq {n j : ℕ} (hlow : 2 ^ j < n) (hhigh : n ≤ 2 ^ (j + 1)) :
    largestPow2Below n = 2 ^ j := by
  have hpos : 0 < 2 ^ j := Nat.two_pow_pos j
  obtain ⟨i, heq, hlow', hhigh'⟩ := largestPow2Below_spec (n := n) (by omega)
  -- Two different exponents would leave no room for `n` between their powers.
  have hij : ∀ {a b : ℕ}, 2 ^ b < n → n ≤ 2 ^ (a + 1) → b ≤ a := fun {a b} hb ha =>
    Nat.le_of_lt_succ ((Nat.pow_lt_pow_iff_right (by decide)).mp (hb.trans_le ha))
  rw [heq, le_antisymm (hij hlow' hhigh) (hij hlow hhigh')]

theorem largestPow2Below_pos {n : ℕ} (h : 2 ≤ n) : 0 < largestPow2Below n := by
  obtain ⟨j, heq, -, -⟩ := largestPow2Below_spec h
  rw [heq]
  exact Nat.two_pow_pos j

theorem largestPow2Below_lt {n : ℕ} (h : 2 ≤ n) : largestPow2Below n < n := by
  obtain ⟨j, heq, hlow, -⟩ := largestPow2Below_spec h
  rw [heq]
  exact hlow

/-- Two trees of sizes on the same side of the larger one's split are split at the same place. -/
theorem largestPow2Below_stable {m n : ℕ} (h : largestPow2Below n < m) (hle : m ≤ n) :
    largestPow2Below m = largestPow2Below n := by
  rcases Nat.lt_or_ge n 2 with hsmall | hn
  · obtain rfl : m = n := by omega
    rfl
  · obtain ⟨j, heq, -, hhigh⟩ := largestPow2Below_spec hn
    rw [heq] at h ⊢
    exact largestPow2Below_eq h (hle.trans hhigh)

/-! ## The root of a list of leaves -/

section Root

variable (sha : Sha256)

/-- The string hashed for a node. -/
def nodeInput (left right : Digest) : List UInt8 :=
  0x01 :: (digestBytes left ++ digestBytes right)

/-- `mth`. -/
def mth : List Digest → Digest
  | [] => emptyRoot
  | [leaf] => leaf
  | a :: b :: rest =>
    let k := largestPow2Below (a :: b :: rest).length
    nodeHash sha (mth ((a :: b :: rest).take k)) (mth ((a :: b :: rest).drop k))
termination_by leaves => leaves.length
decreasing_by
  · have hlt := largestPow2Below_lt (n := (a :: b :: rest).length) (by simp)
    simp only [List.length_take]
    omega
  · have hpos := largestPow2Below_pos (n := (a :: b :: rest).length) (by simp)
    simp only [List.length_drop]
    simp only [List.length_cons] at hpos ⊢
    omega

/-- The strings hashed for the root of a list of leaves. -/
def mthInputs : List Digest → List (List UInt8)
  | [] => []
  | [_] => []
  | a :: b :: rest =>
    let k := largestPow2Below (a :: b :: rest).length
    nodeInput (mth sha ((a :: b :: rest).take k)) (mth sha ((a :: b :: rest).drop k)) ::
      (mthInputs ((a :: b :: rest).take k) ++ mthInputs ((a :: b :: rest).drop k))
termination_by leaves => leaves.length
decreasing_by
  · have hlt := largestPow2Below_lt (n := (a :: b :: rest).length) (by simp)
    simp only [List.length_take]
    omega
  · have hpos := largestPow2Below_pos (n := (a :: b :: rest).length) (by simp)
    simp only [List.length_drop]
    simp only [List.length_cons] at hpos ⊢
    omega

variable {sha}

theorem mth_nil : mth sha [] = emptyRoot := by rw [mth]

theorem mth_singleton (leaf : Digest) : mth sha [leaf] = leaf := by rw [mth]

theorem mth_split {leaves : List Digest} (h : 2 ≤ leaves.length) :
    mth sha leaves = nodeHash sha (mth sha (leaves.take (largestPow2Below leaves.length)))
      (mth sha (leaves.drop (largestPow2Below leaves.length))) := by
  match leaves, h with
  | a :: b :: rest, _ => rw [mth]

theorem mthInputs_split {leaves : List Digest} (h : 2 ≤ leaves.length) :
    mthInputs sha leaves =
      nodeInput (mth sha (leaves.take (largestPow2Below leaves.length)))
        (mth sha (leaves.drop (largestPow2Below leaves.length))) ::
      (mthInputs sha (leaves.take (largestPow2Below leaves.length)) ++
        mthInputs sha (leaves.drop (largestPow2Below leaves.length))) := by
  match leaves, h with
  | a :: b :: rest, _ => rw [mthInputs]

variable (sha) in
/-- One more leaf on a tree that is full: the old tree becomes the left half. -/
theorem mth_append_full {leaves : List Digest} (h : leaves ≠ [])
    (hfull : largestPow2Below (leaves.length + 1) = leaves.length) (leaf : Digest) :
    mth sha (leaves ++ [leaf]) = nodeHash sha (mth sha leaves) leaf ∧
      mthInputs sha (leaves ++ [leaf]) =
        nodeInput (mth sha leaves) leaf :: (mthInputs sha leaves ++ []) := by
  have hpos : 0 < leaves.length := List.length_pos_iff.mpr h
  have hlen : (leaves ++ [leaf]).length = leaves.length + 1 := List.length_append
  rw [mth_split (by omega), mthInputs_split (by omega), hlen, hfull, List.take_left,
    List.drop_left, mth_singleton, mthInputs]
  exact ⟨rfl, rfl⟩

variable (sha) in
/-- One more leaf on a tree that is not full: it goes into the right part. -/
theorem mth_append_partial {leaves : List Digest} {k : ℕ} (hk : 0 < k)
    (hsplit : largestPow2Below (leaves.length + 1) = k) (hlt : k < leaves.length) (leaf : Digest) :
    mth sha (leaves ++ [leaf]) =
        nodeHash sha (mth sha (leaves.take k)) (mth sha (leaves.drop k ++ [leaf])) ∧
      mthInputs sha (leaves ++ [leaf]) =
        nodeInput (mth sha (leaves.take k)) (mth sha (leaves.drop k ++ [leaf])) ::
          (mthInputs sha (leaves.take k) ++ mthInputs sha (leaves.drop k ++ [leaf])) := by
  have hlen : (leaves ++ [leaf]).length = leaves.length + 1 := List.length_append
  rw [mth_split (by omega), mthInputs_split (by omega), hlen, hsplit,
    List.take_append_of_le_length hlt.le, List.drop_append_of_le_length hlt.le]
  exact ⟨rfl, rfl⟩

theorem mth_lt {bound : ℕ} (hsha : ∀ bytes, sha bytes < bound) (hempty : emptyRoot < bound)
    {leaves : List Digest} (h : ∀ leaf ∈ leaves, leaf < bound) : mth sha leaves < bound := by
  match leaves with
  | [] => rw [mth_nil]; exact hempty
  | [leaf] => rw [mth_singleton]; exact h leaf List.mem_cons_self
  | a :: b :: rest => rw [mth_split (by simp)]; exact hsha _

end Root

/-! ## What the two proofs hash -/

section Inputs

variable (sha : Sha256)

/-- The strings `inclusion_rec` hashes. -/
def inclusionInputs (leaf : Digest) : ℕ → ℕ → ℕ → List Digest → List (List UInt8)
  | 0, _, _, _ => []
  | fuel + 1, m, n, nodes =>
    if n = 1 then []
    else if m ≥ n then []
    else
      let k := largestPow2Below n
      if m < k then
        inclusionInputs leaf fuel m k nodes ++
          match inclusionRec sha leaf fuel m k nodes with
          | some (left, sibling :: _) => [nodeInput left sibling]
          | _ => []
      else
        inclusionInputs leaf fuel (m - k) (n - k) nodes ++
          match inclusionRec sha leaf fuel (m - k) (n - k) nodes with
          | some (right, sibling :: _) => [nodeInput sibling right]
          | _ => []

/-- The strings `verify_inclusion` hashes. -/
def verifyInclusionInputs (leaf : Digest) (inclusion : InclusionProof) : List (List UInt8) :=
  if inclusion.leafCount = 0 || inclusion.leafIndex ≥ inclusion.leafCount then []
  else inclusionInputs sha leaf (Nat.log2 inclusion.leafCount + 2) inclusion.leafIndex
    inclusion.leafCount inclusion.nodes

/-- The strings `consistency_rec` hashes. -/
def consistencyInputs (knownOld : Digest) :
    ℕ → ℕ → ℕ → Bool → List Digest → List (List UInt8)
  | 0, _, _, _, _ => []
  | fuel + 1, m, n, b, nodes =>
    if m = n then []
    else if m > n then []
    else
      let k := largestPow2Below n
      if m ≤ k then
        consistencyInputs knownOld fuel m k b nodes ++
          match consistencyRec sha knownOld fuel m k b nodes with
          | some ((_, leftNew), sibling :: _) => [nodeInput leftNew sibling]
          | _ => []
      else
        consistencyInputs knownOld fuel (m - k) (n - k) false nodes ++
          match consistencyRec sha knownOld fuel (m - k) (n - k) false nodes with
          | some ((oldSide, rightNew), sibling :: _) =>
            [nodeInput sibling oldSide, nodeInput sibling rightNew]
          | _ => []

/-- The strings `verify_consistency` hashes. -/
def verifyConsistencyInputs (oldRoot : Digest) (consistency : ConsistencyProof) :
    List (List UInt8) :=
  let m := consistency.oldLeafCount
  let n := consistency.newLeafCount
  if m > n then []
  else if m = 0 then []
  else if m = n then []
  else consistencyInputs sha oldRoot (Nat.log2 n + 2) m n true consistency.nodes

variable {sha} {leaf knownOld : Digest} {fuel m : ℕ} {nodes rest : List Digest}

/-- Folding in the last leaf of at least two ends with a node whose right part it is in. -/
theorem inclusionRec_last {w : Digest} (hm : 0 < m)
    (h : inclusionRec sha leaf fuel m (m + 1) nodes = some (w, rest)) :
    ∃ fuel' sibling right,
      inclusionRec sha leaf fuel' (m - largestPow2Below (m + 1))
          (m - largestPow2Below (m + 1) + 1) nodes = some (right, sibling :: rest) ∧
      w = nodeHash sha sibling right ∧
      inclusionInputs sha leaf fuel m (m + 1) nodes =
        inclusionInputs sha leaf fuel' (m - largestPow2Below (m + 1))
          (m - largestPow2Below (m + 1) + 1) nodes ++ [nodeInput sibling right] := by
  have hlt : largestPow2Below (m + 1) < m + 1 := largestPow2Below_lt (by omega)
  have hsize : m + 1 - largestPow2Below (m + 1) = m - largestPow2Below (m + 1) + 1 := by omega
  cases fuel with
  | zero => cases h
  | succ fuel =>
    have hone : m + 1 ≠ 1 := by omega
    have hge : ¬m ≥ m + 1 := by omega
    have hright : ¬m < largestPow2Below (m + 1) := by omega
    simp only [inclusionRec, hone, hge, hright, if_false, hsize] at h
    simp only [inclusionInputs, hone, hge, hright, if_false, hsize]
    rcases hrec : inclusionRec sha leaf fuel (m - largestPow2Below (m + 1))
        (m - largestPow2Below (m + 1) + 1) nodes with _ | ⟨right, _ | ⟨sibling, rest'⟩⟩
    · rw [hrec] at h
      cases h
    · rw [hrec] at h
      cases h
    · rw [hrec] at h
      obtain ⟨rfl, rfl⟩ := Prod.mk.inj (Option.some.inj h)
      exact ⟨fuel, sibling, right, hrec, rfl, rfl⟩

/-- One more leaf on a full tree: the old tree is the left half of the new one. -/
theorem consistencyRec_full {b : Bool} {o w : Digest}
    (hfull : largestPow2Below (m + 1) = m)
    (h : consistencyRec sha knownOld fuel m (m + 1) b nodes = some ((o, w), rest)) :
    ∃ sibling, w = nodeHash sha o sibling ∧ (b = true → o = knownOld) ∧
      (b = false → o ∈ nodes) ∧ sibling ∈ nodes ∧
      nodeInput o sibling ∈ consistencyInputs sha knownOld fuel m (m + 1) b nodes := by
  cases fuel with
  | zero => cases h
  | succ fuel =>
    have hne : m ≠ m + 1 := by omega
    have hgt : ¬m > m + 1 := by omega
    simp only [consistencyRec, hne, hgt, hfull, le_refl, if_true, if_false] at h
    simp only [consistencyInputs, hne, hgt, hfull, le_refl, if_true, if_false]
    rcases hrec : consistencyRec sha knownOld fuel m m b nodes with
      _ | ⟨⟨oldSide, leftNew⟩, _ | ⟨sibling, rest'⟩⟩
    · rw [hrec] at h
      cases h
    · rw [hrec] at h
      cases h
    · rw [hrec] at h
      obtain ⟨hpair, rfl⟩ := Prod.mk.inj (Option.some.inj h)
      obtain ⟨rfl, rfl⟩ := Prod.mk.inj hpair
      cases fuel with
      | zero => cases hrec
      | succ fuel =>
        simp only [consistencyRec, if_true] at hrec
        cases b with
        | true =>
          rw [if_pos rfl, Option.some.injEq, Prod.mk.injEq, Prod.mk.injEq] at hrec
          obtain ⟨⟨rfl, rfl⟩, rfl⟩ := hrec
          exact ⟨sibling, rfl, fun _ => rfl, fun hb => absurd hb (by decide),
            List.mem_cons_self, by simp⟩
        | false =>
          cases nodes with
          | nil => cases hrec
          | cons head tail =>
            simp only [Bool.false_eq_true, if_false, Option.some.injEq, Prod.mk.injEq] at hrec
            obtain ⟨⟨rfl, rfl⟩, rfl⟩ := hrec
            exact ⟨sibling, rfl, fun hb => absurd hb (by decide), fun _ => List.mem_cons_self,
              List.mem_cons_of_mem _ List.mem_cons_self, by simp⟩

/-- One more leaf on a tree that is not full: both trees have the same left part. -/
theorem consistencyRec_partial {b : Bool} {o w : Digest}
    (hlt : largestPow2Below (m + 1) < m)
    (h : consistencyRec sha knownOld fuel m (m + 1) b nodes = some ((o, w), rest)) :
    ∃ fuel' sibling oldSide rightNew,
      consistencyRec sha knownOld fuel' (m - largestPow2Below (m + 1))
          (m - largestPow2Below (m + 1) + 1) false nodes =
        some ((oldSide, rightNew), sibling :: rest) ∧
      o = nodeHash sha sibling oldSide ∧ w = nodeHash sha sibling rightNew ∧
      consistencyInputs sha knownOld fuel m (m + 1) b nodes =
        consistencyInputs sha knownOld fuel' (m - largestPow2Below (m + 1))
          (m - largestPow2Below (m + 1) + 1) false nodes ++
          [nodeInput sibling oldSide, nodeInput sibling rightNew] := by
  have hsize : m + 1 - largestPow2Below (m + 1) = m - largestPow2Below (m + 1) + 1 := by omega
  cases fuel with
  | zero => cases h
  | succ fuel =>
    have hne : m ≠ m + 1 := by omega
    have hgt : ¬m > m + 1 := by omega
    have hright : ¬m ≤ largestPow2Below (m + 1) := by omega
    simp only [consistencyRec, hne, hgt, hright, if_false, hsize] at h
    simp only [consistencyInputs, hne, hgt, hright, if_false, hsize]
    rcases hrec : consistencyRec sha knownOld fuel (m - largestPow2Below (m + 1))
        (m - largestPow2Below (m + 1) + 1) false nodes with
      _ | ⟨⟨oldSide, rightNew⟩, _ | ⟨sibling, rest'⟩⟩
    · rw [hrec] at h
      cases h
    · rw [hrec] at h
      cases h
    · rw [hrec] at h
      obtain ⟨hpair, rfl⟩ := Prod.mk.inj (Option.some.inj h)
      obtain ⟨rfl, rfl⟩ := Prod.mk.inj hpair
      exact ⟨fuel, sibling, oldSide, rightNew, hrec, rfl, rfl, rfl⟩

end Inputs

/-! ## Soundness of the two proofs together -/

section Append

variable {sha : Sha256} {leaf knownOld : Digest} {T : Set (List UInt8)}

theorem inclusionRec_lt (hsha : ∀ bytes, sha bytes < 256 ^ 32) (hleaf : leaf < 256 ^ 32)
    {fuel m n : ℕ} {nodes rest : List Digest} {w : Digest}
    (hnodes : ∀ node ∈ nodes, node < 256 ^ 32)
    (h : inclusionRec sha leaf fuel m n nodes = some (w, rest)) :
    w < 256 ^ 32 ∧ ∀ node ∈ rest, node < 256 ^ 32 := by
  induction fuel generalizing m n w rest with
  | zero => cases h
  | succ fuel ih =>
    simp only [inclusionRec] at h
    split_ifs at h
    · obtain ⟨rfl, rfl⟩ := Prod.mk.inj (Option.some.inj h)
      exact ⟨hleaf, hnodes⟩
    -- The two descents end with the hash of a node and use up its sibling.
    all_goals
      split at h
      · rename_i hrec
        obtain ⟨rfl, rfl⟩ := Prod.mk.inj (Option.some.inj h)
        exact ⟨hsha _, fun node hnode => (ih hrec).2 node (List.mem_cons_of_mem _ hnode)⟩
      · cases h

theorem consistencyRec_lt (hsha : ∀ bytes, sha bytes < 256 ^ 32) (hold : knownOld < 256 ^ 32)
    {fuel m n : ℕ} {b : Bool} {nodes rest : List Digest} {o w : Digest}
    (hnodes : ∀ node ∈ nodes, node < 256 ^ 32)
    (h : consistencyRec sha knownOld fuel m n b nodes = some ((o, w), rest)) :
    (o < 256 ^ 32 ∧ w < 256 ^ 32) ∧ ∀ node ∈ rest, node < 256 ^ 32 := by
  induction fuel generalizing m n b o w rest with
  | zero => cases h
  | succ fuel ih =>
    simp only [consistencyRec] at h
    split_ifs at h
    · obtain ⟨hpair, rfl⟩ := Prod.mk.inj (Option.some.inj h)
      obtain ⟨rfl, rfl⟩ := Prod.mk.inj hpair
      exact ⟨⟨hold, hold⟩, hnodes⟩
    · cases nodes with
      | nil => cases h
      | cons head tail =>
        obtain ⟨hpair, rfl⟩ := Prod.mk.inj (Option.some.inj h)
        obtain ⟨rfl, rfl⟩ := Prod.mk.inj hpair
        have hhead := hnodes head List.mem_cons_self
        exact ⟨⟨hhead, hhead⟩, fun node hnode => hnodes node (List.mem_cons_of_mem _ hnode)⟩
    · split at h
      · rename_i hrec
        obtain ⟨hpair, rfl⟩ := Prod.mk.inj (Option.some.inj h)
        obtain ⟨rfl, rfl⟩ := Prod.mk.inj hpair
        exact ⟨⟨(ih hrec).1.1, hsha _⟩,
          fun node hnode => (ih hrec).2 node (List.mem_cons_of_mem _ hnode)⟩
      · cases h
    · split at h
      · rename_i hrec
        obtain ⟨hpair, rfl⟩ := Prod.mk.inj (Option.some.inj h)
        obtain ⟨rfl, rfl⟩ := Prod.mk.inj hpair
        exact ⟨⟨hsha _, hsha _⟩,
          fun node hnode => (ih hrec).2 node (List.mem_cons_of_mem _ hnode)⟩
      · cases h

/-- Nodes without colliding strings are determined by their hashes. -/
theorem nodeHash_inj (hfree : Set.InjOn sha T) {l r l' r' : Digest} (hl : l < 256 ^ 32)
    (hr : r < 256 ^ 32) (hl' : l' < 256 ^ 32) (hr' : r' < 256 ^ 32) (hT : nodeInput l r ∈ T)
    (hT' : nodeInput l' r' ∈ T) (heq : nodeHash sha l r = nodeHash sha l' r') :
    l = l' ∧ r = r' := by
  have hinput := (List.cons.inj (hfree hT hT' heq)).2
  obtain ⟨hleft, hright⟩ := List.append_inj hinput (by simp)
  exact ⟨beBytes_injOn hl hl' hleft, beBytes_injOn hr hr' hright⟩

/-- The descent of both proofs at once: if the old side is the root of the old leaves and the two
new sides agree, they are the root of the leaves with the new one. -/
theorem mth_of_recs (hfree : Set.InjOn sha T) (hsha : ∀ bytes, sha bytes < 256 ^ 32)
    (hleaf : leaf < 256 ^ 32) (hold : knownOld < 256 ^ 32)
    {leaves : List Digest} (hne : leaves ≠ []) (hleaves : ∀ d ∈ leaves, d < 256 ^ 32)
    (htree : ∀ bytes ∈ mthInputs sha leaves, bytes ∈ T) {fuel fuel' : ℕ} {b : Bool}
    {nodes nodes' rest rest' : List Digest} {w : Digest}
    (hnodes : ∀ node ∈ nodes, node < 256 ^ 32) (hnodes' : ∀ node ∈ nodes', node < 256 ^ 32)
    (hconsistency : consistencyRec sha knownOld fuel leaves.length (leaves.length + 1) b nodes =
      some ((mth sha leaves, w), rest))
    (hinclusion : inclusionRec sha leaf fuel' leaves.length (leaves.length + 1) nodes' =
      some (w, rest'))
    (hT : ∀ bytes ∈ consistencyInputs sha knownOld fuel leaves.length (leaves.length + 1) b nodes,
      bytes ∈ T)
    (hT' : ∀ bytes ∈ inclusionInputs sha leaf fuel' leaves.length (leaves.length + 1) nodes',
      bytes ∈ T) :
    w = mth sha (leaves ++ [leaf]) ∧ ∀ bytes ∈ mthInputs sha (leaves ++ [leaf]), bytes ∈ T := by
  induction hlen : leaves.length using Nat.strong_induction_on
    generalizing leaves fuel fuel' b rest rest' w with
  | _ m ih =>
    rw [hlen] at hconsistency hinclusion hT hT'
    have hm : 0 < m := hlen ▸ List.length_pos_iff.mpr hne
    obtain ⟨fuel₁, sibling', right, hrec', hw', hinputs'⟩ := inclusionRec_last hm hinclusion
    obtain ⟨hright, hsibling'⟩ := inclusionRec_lt hsha hleaf hnodes' hrec'
    have hmth : mth sha leaves < 256 ^ 32 := mth_lt hsha emptyRoot_lt hleaves
    have hnode' : nodeInput sibling' right ∈ T := hT' _ (by rw [hinputs']; simp)
    have hk : largestPow2Below (m + 1) < m + 1 := largestPow2Below_lt (by omega)
    rcases Nat.lt_or_ge (largestPow2Below (m + 1)) m with hlt | hge
    · -- The new leaf goes into the right part, which the induction hypothesis is about.
      have hpos : 0 < largestPow2Below (m + 1) := largestPow2Below_pos (by omega)
      have hsplit : largestPow2Below leaves.length = largestPow2Below (m + 1) := by
        rw [hlen]
        exact largestPow2Below_stable hlt (by omega)
      obtain ⟨fuel₂, sibling, oldSide, rightNew, hrec, ho, hw, hinputs⟩ :=
        consistencyRec_partial hlt hconsistency
      generalize hkdef : largestPow2Below (m + 1) = k at *
      obtain ⟨⟨holdSide, hrightNew⟩, hsibling⟩ := consistencyRec_lt hsha hold hnodes hrec
      have hsib := hsibling sibling List.mem_cons_self
      have hsib' := hsibling' sibling' List.mem_cons_self
      rw [mthInputs_split (by omega), hsplit] at htree
      rw [mth_split (by omega), hsplit] at ho
      have hleft : mth sha (leaves.take k) < 256 ^ 32 :=
        mth_lt hsha emptyRoot_lt fun d hd => hleaves d (List.mem_of_mem_take hd)
      have hrest : mth sha (leaves.drop k) < 256 ^ 32 :=
        mth_lt hsha emptyRoot_lt fun d hd => hleaves d (List.mem_of_mem_drop hd)
      obtain ⟨hleftEq, holdEq⟩ := nodeHash_inj hfree hleft hrest hsib holdSide
        (htree _ List.mem_cons_self) (hT _ (by rw [hinputs]; simp)) ho
      obtain ⟨-, hrightEq⟩ := nodeHash_inj hfree hsib hrightNew hsib' hright
        (hT _ (by rw [hinputs]; simp)) hnode' (hw.symm.trans hw')
      have hdrop : (leaves.drop k).length = m - k := by rw [List.length_drop, hlen]
      have hdropNe : leaves.drop k ≠ [] := List.ne_nil_of_length_pos (by omega)
      obtain ⟨hmthRight, hinputsRight⟩ := ih (m - k) (by omega) hdropNe
        (fun d hd => hleaves d (List.mem_of_mem_drop hd))
        (fun bytes hbytes => htree bytes
          (List.mem_cons_of_mem _ (List.mem_append_right _ hbytes)))
        (by rw [hdrop, holdEq]; exact hrec) (by rw [hdrop, hrightEq]; exact hrec')
        (by rw [hdrop]; exact fun bytes hbytes => hT bytes (by rw [hinputs]; simp [hbytes]))
        (by rw [hdrop]; exact fun bytes hbytes => hT' bytes (by rw [hinputs']; simp [hbytes])) hdrop
      have hsplit' : largestPow2Below (leaves.length + 1) = k := by rw [hlen, hkdef]
      obtain ⟨hroot, hrootInputs⟩ :=
        mth_append_partial sha hpos hsplit' (by omega) leaf
      rw [← hmthRight, hleftEq] at hroot hrootInputs
      refine ⟨hw.trans hroot.symm, fun bytes hbytes => ?_⟩
      rw [hrootInputs] at hbytes
      rcases List.mem_cons.mp hbytes with rfl | hbytes
      · exact hT _ (by rw [hinputs]; simp)
      · rcases List.mem_append.mp hbytes with hbytes | hbytes
        · exact htree bytes (List.mem_cons_of_mem _ (List.mem_append_left _ hbytes))
        · exact hinputsRight bytes hbytes
    · -- The old tree is full and becomes the left half; the new leaf is the right one.
      have hfull : largestPow2Below (m + 1) = m := by omega
      obtain ⟨sibling, hw, -, -, hsibling, hinput⟩ := consistencyRec_full hfull hconsistency
      rw [hfull, Nat.sub_self] at hrec'
      have hrightLeaf : right = leaf := by
        cases fuel₁ with
        | zero => cases hrec'
        | succ fuel =>
          simp only [inclusionRec, zero_add, if_true, Option.some.injEq, Prod.mk.injEq] at hrec'
          exact hrec'.1.symm
      obtain ⟨-, hsibEq⟩ := nodeHash_inj hfree hmth (hnodes sibling hsibling)
        (hsibling' sibling' List.mem_cons_self) hright (hT _ hinput) hnode' (hw.symm.trans hw')
      obtain ⟨hroot, hrootInputs⟩ := mth_append_full sha hne (hlen ▸ hfull) leaf
      rw [hsibEq, hrightLeaf] at hw hinput
      refine ⟨hw.trans hroot.symm, fun bytes hbytes => ?_⟩
      rw [hrootInputs, List.append_nil] at hbytes
      rcases List.mem_cons.mp hbytes with rfl | hbytes
      · exact hT _ hinput
      · exact htree bytes hbytes

/-- A root that both proofs of a mint accept is the root of the leaves with the new one behind
them, and every string hashed for it was hashed before or by one of the proofs. -/
theorem newRoot_eq_mth (hfree : Set.InjOn sha T) (hsha : ∀ bytes, sha bytes < 256 ^ 32)
    (hleaf : leaf < 256 ^ 32) {leaves : List Digest} (hleaves : ∀ d ∈ leaves, d < 256 ^ 32)
    (htree : ∀ bytes ∈ mthInputs sha leaves, bytes ∈ T) {inclusion : InclusionProof}
    {consistency : ConsistencyProof} {newRoot : Digest}
    (hnodes : ∀ node ∈ consistency.nodes, node < 256 ^ 32)
    (hnodes' : ∀ node ∈ inclusion.nodes, node < 256 ^ 32)
    (hindex : inclusion.leafIndex = leaves.length)
    (hcount : inclusion.leafCount = leaves.length + 1)
    (hinclusion : verifyInclusion sha leaf inclusion newRoot = true)
    (hold : consistency.oldLeafCount = leaves.length)
    (hnew : consistency.newLeafCount = leaves.length + 1)
    (hconsistency : verifyConsistency sha (mth sha leaves) consistency newRoot = true)
    (hT : ∀ bytes ∈ verifyConsistencyInputs sha (mth sha leaves) consistency, bytes ∈ T)
    (hT' : ∀ bytes ∈ verifyInclusionInputs sha leaf inclusion, bytes ∈ T) :
    newRoot = mth sha (leaves ++ [leaf]) ∧
      ∀ bytes ∈ mthInputs sha (leaves ++ [leaf]), bytes ∈ T := by
  have hguard : ¬(decide (leaves.length + 1 = 0) ||
      decide (leaves.length ≥ leaves.length + 1)) = true := by simp
  rw [verifyInclusion, hindex, hcount, if_neg hguard] at hinclusion
  rw [verifyInclusionInputs, hindex, hcount, if_neg hguard] at hT'
  split at hinclusion
  · rename_i folded hrec'
    obtain rfl := eq_of_beq hinclusion
    by_cases hempty : leaves = []
    · subst hempty
      -- The only leaf is the root; the consistency proof says nothing.
      simp only [List.length_nil, zero_add, inclusionRec, if_true, Option.some.injEq,
        Prod.mk.injEq] at hrec'
      rw [List.nil_append, mth_singleton, mthInputs]
      exact ⟨hrec'.1.symm, fun bytes hbytes => absurd hbytes List.not_mem_nil⟩
    · have hpos : 0 < leaves.length := List.length_pos_iff.mpr hempty
      have hgt : ¬leaves.length > leaves.length + 1 := by omega
      have hzero : leaves.length ≠ 0 := by omega
      have hne : leaves.length ≠ leaves.length + 1 := by omega
      simp only [verifyConsistency, hold, hnew, hgt, hzero, hne, if_false] at hconsistency
      simp only [verifyConsistencyInputs, hold, hnew, hgt, hzero, hne, if_false] at hT
      split at hconsistency
      · rename_i calcOld calcNew hrec
        rw [Bool.and_eq_true] at hconsistency
        obtain rfl := eq_of_beq hconsistency.1
        obtain rfl := eq_of_beq hconsistency.2
        exact mth_of_recs hfree hsha hleaf (mth_lt hsha emptyRoot_lt hleaves) hempty hleaves htree
          hnodes hnodes' hrec hrec' hT hT'
      · cases hconsistency
  · cases hinclusion

end Append

end JKain
