import JKain.Executor.MerkleLog

/-!
# Proofs of the actor log

The prover of an inclusion or a consistency proof and its verifier walk down the same splits of the
tree. So a proof that was built is accepted. An accepted proof is arbitrary otherwise, but node for
node the digests it folds are those of the trees whose roots it was accepted against: the shape of a
tree depends on the number of its leaves only.
-/

namespace JKain

/-! ## Building proofs -/

section Prove

variable (sha : Sha256)

/-- `inclusion_path`. -/
def inclusionPath (m : ℕ) (leaves : List Digest) : List Digest :=
  if _h : leaves.length ≤ 1 then []
  else
    let k := largestPow2Below leaves.length
    if m < k then inclusionPath m (leaves.take k) ++ [mth sha (leaves.drop k)]
    else inclusionPath (m - k) (leaves.drop k) ++ [mth sha (leaves.take k)]
termination_by leaves.length
decreasing_by
  · have hlt := largestPow2Below_lt (n := leaves.length) (by omega)
    rw [List.length_take]
    omega
  · have hpos := largestPow2Below_pos (n := leaves.length) (by omega)
    rw [List.length_drop]
    omega

/-- `prove_inclusion`. -/
def proveInclusion (leaves : List Digest) (index : ℕ) : Option InclusionProof :=
  if index ≥ leaves.length then none
  else some ⟨index, leaves.length, inclusionPath sha index leaves⟩

/-- `consistency_subproof`. It is called with `0 < m ≤ n`, so a tree that is split has two leaves. -/
def consistencySubproof (m : ℕ) (leaves : List Digest) (b : Bool) : List Digest :=
  if m = leaves.length then (if b then [] else [mth sha leaves])
  else if _h : leaves.length ≤ 1 then []
  else
    let k := largestPow2Below leaves.length
    if m ≤ k then consistencySubproof m (leaves.take k) b ++ [mth sha (leaves.drop k)]
    else consistencySubproof (m - k) (leaves.drop k) false ++ [mth sha (leaves.take k)]
termination_by leaves.length
decreasing_by
  · have hlt := largestPow2Below_lt (n := leaves.length) (by omega)
    rw [List.length_take]
    omega
  · have hpos := largestPow2Below_pos (n := leaves.length) (by omega)
    rw [List.length_drop]
    omega

/-- `prove_consistency`. -/
def proveConsistency (leaves : List Digest) (oldCount : ℕ) : Option ConsistencyProof :=
  if oldCount > leaves.length then none
  else
    let nodes :=
      if oldCount > 0 ∧ oldCount < leaves.length then consistencySubproof sha oldCount leaves true
      else []
    some ⟨oldCount, leaves.length, nodes⟩

end Prove

variable {sha : Sha256} {leaf knownOld : Digest}

/-! ## Proofs that were built are accepted -/

/-- Both parts of a tree fit into half of a power of two that the tree fits into. -/
theorem largestPow2Below_halves {n j : ℕ} (h : 2 ≤ n) (hle : n ≤ 2 ^ (j + 1)) :
    largestPow2Below n ≤ 2 ^ j ∧ n - largestPow2Below n ≤ 2 ^ j := by
  obtain ⟨i, heq, hlow, hhigh⟩ := largestPow2Below_spec h
  have hij : i ≤ j := Nat.le_of_lt_succ ((Nat.pow_lt_pow_iff_right (by decide)).mp
    (hlow.trans_le hle))
  have hpow : 2 ^ i ≤ 2 ^ j := Nat.pow_le_pow_right (by decide) hij
  rw [heq]
  rw [pow_succ] at hhigh
  exact ⟨hpow, by omega⟩

/-- The verifier folds the path of a leaf to the root and leaves what follows it. -/
theorem inclusionRec_inclusionPath {leaves : List Digest} {j fuel m : ℕ} {rest : List Digest}
    (hle : leaves.length ≤ 2 ^ j) (hfuel : j < fuel) (hm : leaves[m]? = some leaf) :
    inclusionRec sha leaf fuel m leaves.length (inclusionPath sha m leaves ++ rest) =
      some (mth sha leaves, rest) := by
  have hlt : m < leaves.length := (List.getElem?_eq_some_iff.mp hm).1
  induction fuel generalizing leaves j m rest with
  | zero => exact absurd hfuel (Nat.not_lt_zero j)
  | succ fuel ih =>
    by_cases hone : leaves.length = 1
    · obtain ⟨d, rfl⟩ := List.length_eq_one_iff.mp hone
      obtain rfl : m = 0 := by simpa using hlt
      obtain rfl := Option.some.inj hm
      rw [inclusionPath, dif_pos (by simp), mth_singleton]
      rfl
    have htwo : 2 ≤ leaves.length := by omega
    obtain ⟨j, rfl⟩ : ∃ i, j = i + 1 := by
      refine Nat.exists_eq_succ_of_ne_zero fun hzero => ?_
      rw [hzero, pow_zero] at hle
      omega
    obtain ⟨hleft, hright⟩ := largestPow2Below_halves htwo hle
    have hklt := largestPow2Below_lt htwo
    rw [inclusionPath, dif_neg (by omega), inclusionRec, if_neg hone, if_neg (by omega),
      mth_split htwo]
    generalize hk : largestPow2Below leaves.length = k at hleft hright hklt
    have htake : (leaves.take k).length = k := by rw [List.length_take]; omega
    have hdrop : (leaves.drop k).length = leaves.length - k := List.length_drop
    by_cases hmk : m < k
    · have hrec : inclusionRec sha leaf fuel m (leaves.take k).length
          (inclusionPath sha m (leaves.take k) ++ mth sha (leaves.drop k) :: rest) = _ :=
        ih (by rw [htake]; exact hleft) (by omega) (by rw [List.getElem?_take_of_lt hmk, hm])
          (by rw [htake]; exact hmk)
      rw [htake] at hrec
      simp only [hmk, if_true, List.append_assoc, List.singleton_append, hrec]
    · have hindex : (leaves.drop k)[m - k]? = some leaf := by
        rw [List.getElem?_drop, ← hm]
        congr 1
        omega
      have hrec : inclusionRec sha leaf fuel (m - k) (leaves.drop k).length
          (inclusionPath sha (m - k) (leaves.drop k) ++ mth sha (leaves.take k) :: rest) = _ :=
        ih (by rw [hdrop]; exact hright) (by omega) hindex (by rw [hdrop]; omega)
      rw [hdrop] at hrec
      simp only [hmk, if_false, List.append_assoc, List.singleton_append, hrec]

/-- The fuel of the verifiers is enough for a tree of this size. -/
theorem le_two_pow_log2_succ (n : ℕ) : n ≤ 2 ^ (Nat.log2 n + 1) := Nat.lt_log2_self.le

theorem verifyInclusion_proveInclusion {leaves : List Digest} {index : ℕ}
    (h : leaves[index]? = some leaf) :
    ∃ inclusion, proveInclusion sha leaves index = some inclusion ∧
      verifyInclusion sha leaf inclusion (mth sha leaves) = true := by
  have hlt : index < leaves.length := (List.getElem?_eq_some_iff.mp h).1
  refine ⟨_, by rw [proveInclusion, if_neg (by omega)], ?_⟩
  have hrec : inclusionRec sha leaf (Nat.log2 leaves.length + 2) index leaves.length
      (inclusionPath sha index leaves ++ []) = _ :=
    inclusionRec_inclusionPath (le_two_pow_log2_succ leaves.length) (Nat.lt_succ_self _) h
  rw [List.append_nil] at hrec
  have hrange : ¬(decide (leaves.length = 0) || decide (index ≥ leaves.length)) = true := by
    rw [Bool.or_eq_true, decide_eq_true_eq, decide_eq_true_eq]
    omega
  rw [verifyInclusion, if_neg hrange, hrec, beq_iff_eq]

/-- The old side and the new side of a tree, rebuilt from a subproof. The root of the old tree is known
on the way down to the left only. -/
theorem consistencyRec_consistencySubproof {leaves : List Digest} {j fuel m : ℕ} {b : Bool}
    {rest : List Digest} (hle : leaves.length ≤ 2 ^ j) (hfuel : j < fuel) (hpos : 0 < m)
    (hm : m ≤ leaves.length) (hb : b = true → knownOld = mth sha (leaves.take m)) :
    consistencyRec sha knownOld fuel m leaves.length b
        (consistencySubproof sha m leaves b ++ rest) =
      some ((mth sha (leaves.take m), mth sha leaves), rest) := by
  induction fuel generalizing leaves j m b rest with
  | zero => exact absurd hfuel (Nat.not_lt_zero j)
  | succ fuel ih =>
    by_cases hfull : m = leaves.length
    · subst hfull
      rw [List.take_length] at hb ⊢
      rw [consistencySubproof, if_pos rfl]
      cases b with
      | true => simp [consistencyRec, hb rfl]
      | false => simp [consistencyRec]
    have htwo : 2 ≤ leaves.length := by omega
    obtain ⟨j, rfl⟩ : ∃ i, j = i + 1 := by
      refine Nat.exists_eq_succ_of_ne_zero fun hzero => ?_
      rw [hzero, pow_zero] at hle
      omega
    obtain ⟨hleft, hright⟩ := largestPow2Below_halves htwo hle
    have hklt := largestPow2Below_lt htwo
    have hkpos := largestPow2Below_pos htwo
    have hstable := fun h => largestPow2Below_stable (m := m) (n := leaves.length) h hm
    have hgt : ¬m > leaves.length := by omega
    rw [consistencySubproof, if_neg hfull, dif_neg (by omega), mth_split htwo]
    simp only [consistencyRec, hfull, hgt, if_false]
    generalize hk : largestPow2Below leaves.length = k at hleft hright hklt hkpos hstable
    have htake : (leaves.take k).length = k := by rw [List.length_take]; omega
    have hdrop : (leaves.drop k).length = leaves.length - k := List.length_drop
    by_cases hmk : m ≤ k
    · have hpre : (leaves.take k).take m = leaves.take m := by
        rw [List.take_take, Nat.min_eq_left hmk]
      have hrec : consistencyRec sha knownOld fuel m (leaves.take k).length b
          (consistencySubproof sha m (leaves.take k) b ++ mth sha (leaves.drop k) :: rest) = _ :=
        ih (by rw [htake]; exact hleft) (by omega) hpos (by rw [htake]; exact hmk)
          (by rw [hpre]; exact hb)
      rw [htake, hpre] at hrec
      simp only [hmk, if_true, List.append_assoc, List.singleton_append, hrec]
    · -- The old tree is split at the same place, as it reaches into the right part.
      have hsplit : mth sha (leaves.take m) = nodeHash sha (mth sha (leaves.take k))
          (mth sha ((leaves.drop k).take (m - k))) := by
        have hlen : (leaves.take m).length = m := by rw [List.length_take]; omega
        rw [mth_split (by omega), hlen, hstable (by omega), List.take_take,
          Nat.min_eq_left (by omega), List.drop_take]
      have hrec : consistencyRec sha knownOld fuel (m - k) (leaves.drop k).length false
          (consistencySubproof sha (m - k) (leaves.drop k) false ++ mth sha (leaves.take k) :: rest) =
            _ :=
        ih (by rw [hdrop]; exact hright) (by omega) (by omega) (by rw [hdrop]; omega)
          (fun h => absurd h Bool.false_ne_true)
      rw [hdrop] at hrec
      simp only [hmk, if_false, List.append_assoc, List.singleton_append, hrec, hsplit]

theorem verifyConsistency_proveConsistency {leaves : List Digest} {oldCount : ℕ}
    (h : oldCount ≤ leaves.length) :
    ∃ consistency, proveConsistency sha leaves oldCount = some consistency ∧
      verifyConsistency sha (mth sha (leaves.take oldCount)) consistency (mth sha leaves) = true := by
  refine ⟨_, by rw [proveConsistency, if_neg (by omega)], ?_⟩
  have hle : ¬oldCount > leaves.length := by omega
  rcases Nat.eq_zero_or_pos oldCount with rfl | hpos
  · simp [verifyConsistency, mth_nil]
  rcases Nat.eq_or_lt_of_le h with rfl | hlt
  · simp [verifyConsistency, hpos.ne']
  · have hrec : consistencyRec sha (mth sha (leaves.take oldCount)) (Nat.log2 leaves.length + 2)
        oldCount leaves.length true (consistencySubproof sha oldCount leaves true ++ []) = _ :=
      consistencyRec_consistencySubproof (le_two_pow_log2_succ leaves.length) (Nat.lt_succ_self _)
        hpos h fun _ => rfl
    rw [List.append_nil] at hrec
    simp only [verifyConsistency, hle, hpos.ne', hlt.ne, hpos, hlt, and_self, if_true, if_false,
      hrec, beq_self_eq_true, Bool.and_self]

/-! ## What is accepted -/

section Sound

variable {T : Set (List UInt8)} (hfree : Set.InjOn sha T) (hsha : ∀ bytes, sha bytes < 256 ^ 32)

/-- What a step of `inclusion_rec` folds, and which string it hashes. -/
theorem inclusionRec_cases {fuel m n : ℕ} {nodes rest : List Digest} {w : Digest}
    (h : inclusionRec sha leaf (fuel + 1) m n nodes = some (w, rest)) :
    n = 1 ∧ m = 0 ∧ w = leaf ∨
    n ≠ 1 ∧ m < n ∧ m < largestPow2Below n ∧ (∃ left sibling,
      inclusionRec sha leaf fuel m (largestPow2Below n) nodes = some (left, sibling :: rest) ∧
      w = nodeHash sha left sibling ∧
      inclusionInputs sha leaf (fuel + 1) m n nodes =
        inclusionInputs sha leaf fuel m (largestPow2Below n) nodes ++ [nodeInput left sibling]) ∨
    n ≠ 1 ∧ m < n ∧ largestPow2Below n ≤ m ∧ ∃ right sibling,
      inclusionRec sha leaf fuel (m - largestPow2Below n) (n - largestPow2Below n) nodes =
        some (right, sibling :: rest) ∧
      w = nodeHash sha sibling right ∧
      inclusionInputs sha leaf (fuel + 1) m n nodes =
        inclusionInputs sha leaf fuel (m - largestPow2Below n) (n - largestPow2Below n) nodes ++
          [nodeInput sibling right] := by
  simp only [inclusionRec] at h
  simp only [inclusionInputs]
  by_cases hone : n = 1
  · rw [if_pos hone] at h
    split at h
    · exact .inl ⟨hone, ‹_›, (congrArg Prod.fst (Option.some.inj h)).symm⟩
    · cases h
  · by_cases hge : m ≥ n
    · rw [if_neg hone, if_pos hge] at h
      cases h
    rw [if_neg hone, if_neg hge] at h
    simp only [hone, hge, if_false]
    by_cases hk : m < largestPow2Below n
    · rw [if_pos hk] at h
      simp only [hk, if_true]
      split at h
      · rename_i left sibling rest' hrec
        obtain ⟨rfl, rfl⟩ := Prod.mk.inj (Option.some.inj h)
        exact .inr (.inl ⟨hone, by omega, trivial, left, sibling, hrec, rfl, by simp only [hrec]⟩)
      · cases h
    · rw [if_neg hk] at h
      simp only [hk, if_false]
      split at h
      · rename_i right sibling rest' hrec
        obtain ⟨rfl, rfl⟩ := Prod.mk.inj (Option.some.inj h)
        exact .inr (.inr ⟨hone, by omega, by omega, right, sibling, hrec, rfl, by simp only [hrec]⟩)
      · cases h

/-- What a step of `consistency_rec` rebuilds, and which strings it hashes. -/
theorem consistencyRec_cases {fuel m n : ℕ} {b : Bool} {nodes rest : List Digest} {o w : Digest}
    (h : consistencyRec sha knownOld (fuel + 1) m n b nodes = some ((o, w), rest)) :
    m = n ∧ o = w ∨
    m < n ∧ m ≤ largestPow2Below n ∧ (∃ leftNew sibling,
      consistencyRec sha knownOld fuel m (largestPow2Below n) b nodes =
        some ((o, leftNew), sibling :: rest) ∧
      w = nodeHash sha leftNew sibling ∧
      consistencyInputs sha knownOld (fuel + 1) m n b nodes =
        consistencyInputs sha knownOld fuel m (largestPow2Below n) b nodes ++
          [nodeInput leftNew sibling]) ∨
    m < n ∧ largestPow2Below n < m ∧ ∃ oldSide rightNew sibling,
      consistencyRec sha knownOld fuel (m - largestPow2Below n) (n - largestPow2Below n) false
        nodes = some ((oldSide, rightNew), sibling :: rest) ∧
      o = nodeHash sha sibling oldSide ∧ w = nodeHash sha sibling rightNew ∧
      consistencyInputs sha knownOld (fuel + 1) m n b nodes =
        consistencyInputs sha knownOld fuel (m - largestPow2Below n) (n - largestPow2Below n) false
          nodes ++ [nodeInput sibling oldSide, nodeInput sibling rightNew] := by
  simp only [consistencyRec] at h
  simp only [consistencyInputs]
  by_cases heq : m = n
  · rw [if_pos heq] at h
    refine .inl ⟨heq, ?_⟩
    cases b with
    | true =>
      obtain ⟨hpair, -⟩ := Prod.mk.inj (Option.some.inj h)
      obtain ⟨rfl, rfl⟩ := Prod.mk.inj hpair
      rfl
    | false =>
      cases nodes with
      | nil => cases h
      | cons head nodes =>
        obtain ⟨hpair, -⟩ := Prod.mk.inj (Option.some.inj h)
        obtain ⟨rfl, rfl⟩ := Prod.mk.inj hpair
        rfl
  · by_cases hgt : m > n
    · rw [if_neg heq, if_pos hgt] at h
      cases h
    rw [if_neg heq, if_neg hgt] at h
    simp only [heq, hgt, if_false]
    by_cases hk : m ≤ largestPow2Below n
    · rw [if_pos hk] at h
      simp only [hk, if_true]
      split at h
      · rename_i oldSide leftNew sibling rest' hrec
        obtain ⟨hpair, rfl⟩ := Prod.mk.inj (Option.some.inj h)
        obtain ⟨rfl, rfl⟩ := Prod.mk.inj hpair
        exact .inr (.inl ⟨by omega, trivial, leftNew, sibling, hrec, rfl, by simp only [hrec]⟩)
      · cases h
    · rw [if_neg hk] at h
      simp only [hk, if_false]
      split at h
      · rename_i oldSide rightNew sibling rest' hrec
        obtain ⟨hpair, rfl⟩ := Prod.mk.inj (Option.some.inj h)
        obtain ⟨rfl, rfl⟩ := Prod.mk.inj hpair
        exact .inr (.inr ⟨by omega, by omega, oldSide, rightNew, sibling, hrec, rfl, rfl,
          by simp only [hrec]⟩)
      · cases h

/-- The strings hashed for a tree are those of its parts and that of the node over them. -/
theorem forall_mthInputs_iff {leaves : List Digest} (h : 2 ≤ leaves.length) :
    (∀ bytes ∈ mthInputs sha leaves, bytes ∈ T) ↔
      nodeInput (mth sha (leaves.take (largestPow2Below leaves.length)))
          (mth sha (leaves.drop (largestPow2Below leaves.length))) ∈ T ∧
        (∀ bytes ∈ mthInputs sha (leaves.take (largestPow2Below leaves.length)), bytes ∈ T) ∧
        ∀ bytes ∈ mthInputs sha (leaves.drop (largestPow2Below leaves.length)), bytes ∈ T := by
  rw [mthInputs_split h, List.forall_mem_cons, List.forall_mem_append]

theorem forall_take_drop {leaves : List Digest} {bound : ℕ} (h : ∀ d ∈ leaves, d < bound) (k : ℕ) :
    (∀ d ∈ leaves.take k, d < bound) ∧ ∀ d ∈ leaves.drop k, d < bound :=
  ⟨fun d hd => h d (List.mem_of_mem_take hd), fun d hd => h d (List.mem_of_mem_drop hd)⟩

include hfree hsha

/-- A node with the root of a tree is the topmost node of the tree. -/
theorem eq_mth_of_nodeHash_eq {leaves : List Digest} (htwo : 2 ≤ leaves.length)
    (hleaves : ∀ d ∈ leaves, d < 256 ^ 32) (htree : ∀ bytes ∈ mthInputs sha leaves, bytes ∈ T)
    {left right : Digest} (hleft : left < 256 ^ 32) (hright : right < 256 ^ 32)
    (hnode : nodeInput left right ∈ T) (h : mth sha leaves = nodeHash sha left right) :
    left = mth sha (leaves.take (largestPow2Below leaves.length)) ∧
      right = mth sha (leaves.drop (largestPow2Below leaves.length)) := by
  obtain ⟨htake, hdrop⟩ := forall_take_drop hleaves (largestPow2Below leaves.length)
  rw [mth_split htwo] at h
  exact nodeHash_inj hfree hleft hright (mth_lt hsha emptyRoot_lt htake)
    (mth_lt hsha emptyRoot_lt hdrop) hnode ((forall_mthInputs_iff htwo).mp htree).1 h.symm

/-- Lists of one length with one root are the same. -/
theorem leaves_eq_of_mth_eq {leaves leaves' : List Digest} (hlen : leaves.length = leaves'.length)
    (hleaves : ∀ d ∈ leaves, d < 256 ^ 32) (hleaves' : ∀ d ∈ leaves', d < 256 ^ 32)
    (htree : ∀ bytes ∈ mthInputs sha leaves, bytes ∈ T)
    (htree' : ∀ bytes ∈ mthInputs sha leaves', bytes ∈ T) (h : mth sha leaves = mth sha leaves') :
    leaves = leaves' := by
  induction hn : leaves.length using Nat.strongRecOn generalizing leaves leaves' with
  | ind n ih =>
    subst hn
    rcases Nat.lt_or_ge leaves.length 2 with hshort | htwo
    · match leaves, leaves', hlen with
      | [], [], _ => rfl
      | [d], [d'], _ => rw [mth_singleton, mth_singleton] at h; rw [h]
      | _ :: _ :: _, _, _ =>
        rw [List.length_cons, List.length_cons] at hshort
        omega
    · have htwo' : 2 ≤ leaves'.length := hlen ▸ htwo
      have hklt := largestPow2Below_lt htwo
      have hkpos := largestPow2Below_pos htwo
      obtain ⟨htake, hdrop⟩ := forall_take_drop hleaves (largestPow2Below leaves.length)
      obtain ⟨htake', hdrop'⟩ := forall_take_drop hleaves' (largestPow2Below leaves.length)
      obtain ⟨hnode, hleft, hright⟩ := (forall_mthInputs_iff htwo).mp htree
      rw [mth_split htwo] at h
      obtain ⟨hleft_eq, hright_eq⟩ := eq_mth_of_nodeHash_eq hfree hsha htwo' hleaves' htree'
        (mth_lt hsha emptyRoot_lt htake) (mth_lt hsha emptyRoot_lt hdrop) hnode h.symm
      rw [forall_mthInputs_iff htwo', ← hlen] at htree'
      rw [← hlen] at hleft_eq hright_eq
      generalize largestPow2Below leaves.length = k at *
      have hfirst := ih _ (by rw [List.length_take]; omega) (by simp [hlen]) htake htake' hleft
        htree'.2.1 hleft_eq rfl
      have hsecond := ih _ (by rw [List.length_drop]; omega) (by simp [hlen]) hdrop hdrop' hright
        htree'.2.2 hright_eq rfl
      rw [← List.take_append_drop k leaves, hfirst, hsecond, List.take_append_drop]

/-- A fold that ends with the root of a tree started with the leaf at its index. -/
theorem leaf_of_inclusionRec (hleaf : leaf < 256 ^ 32) {leaves : List Digest} {fuel m : ℕ}
    {nodes rest : List Digest} (hleaves : ∀ d ∈ leaves, d < 256 ^ 32)
    (hnodes : ∀ d ∈ nodes, d < 256 ^ 32) (htree : ∀ bytes ∈ mthInputs sha leaves, bytes ∈ T)
    (hinputs : ∀ bytes ∈ inclusionInputs sha leaf fuel m leaves.length nodes, bytes ∈ T)
    (h : inclusionRec sha leaf fuel m leaves.length nodes = some (mth sha leaves, rest)) :
    leaves[m]? = some leaf := by
  induction fuel generalizing leaves m rest with
  | zero => cases h
  | succ fuel ih =>
    obtain ⟨htake, hdrop⟩ := forall_take_drop hleaves (largestPow2Below leaves.length)
    rcases inclusionRec_cases h with ⟨hone, rfl, hw⟩ |
      ⟨hone, hlt, hmk, left, sibling, hrec, hw, hin⟩ |
      ⟨hone, hlt, hmk, right, sibling, hrec, hw, hin⟩
    · obtain ⟨d, rfl⟩ := List.length_eq_one_iff.mp hone
      rw [mth_singleton] at hw
      rw [hw]
      rfl
    · have htwo : 2 ≤ leaves.length := by omega
      rw [hin, List.forall_mem_append, List.forall_mem_singleton] at hinputs
      obtain ⟨hfolded, hrest⟩ := inclusionRec_lt hsha hleaf hnodes hrec
      obtain ⟨rfl, -⟩ := eq_mth_of_nodeHash_eq hfree hsha htwo hleaves htree hfolded
        (hrest sibling List.mem_cons_self) hinputs.2 hw
      have hlen : (leaves.take (largestPow2Below leaves.length)).length =
          largestPow2Below leaves.length := by
        rw [List.length_take]
        exact Nat.min_eq_left (largestPow2Below_lt htwo).le
      have hfound := ih htake ((forall_mthInputs_iff htwo).mp htree).2.1
        (by rw [hlen]; exact hinputs.1) (by rw [hlen]; exact hrec)
      rwa [List.getElem?_take_of_lt hmk] at hfound
    · have htwo : 2 ≤ leaves.length := by omega
      rw [hin, List.forall_mem_append, List.forall_mem_singleton] at hinputs
      obtain ⟨hfolded, hrest⟩ := inclusionRec_lt hsha hleaf hnodes hrec
      obtain ⟨-, rfl⟩ := eq_mth_of_nodeHash_eq hfree hsha htwo hleaves htree
        (hrest sibling List.mem_cons_self) hfolded hinputs.2 hw
      have hlen : (leaves.drop (largestPow2Below leaves.length)).length =
          leaves.length - largestPow2Below leaves.length := List.length_drop
      have hfound := ih hdrop ((forall_mthInputs_iff htwo).mp htree).2.2
        (by rw [hlen]; exact hinputs.1) (by rw [hlen]; exact hrec)
      rwa [List.getElem?_drop, Nat.add_sub_cancel' hmk] at hfound

/-- Two sides that are the roots of two trees: the old tree is the beginning of the new one. -/
theorem prefix_of_consistencyRec (hold : knownOld < 256 ^ 32) {leaves leaves' : List Digest}
    {fuel : ℕ} {b : Bool} {nodes rest : List Digest} (hpos : 0 < leaves'.length)
    (hleaves : ∀ d ∈ leaves, d < 256 ^ 32) (hleaves' : ∀ d ∈ leaves', d < 256 ^ 32)
    (hnodes : ∀ d ∈ nodes, d < 256 ^ 32) (htree : ∀ bytes ∈ mthInputs sha leaves, bytes ∈ T)
    (htree' : ∀ bytes ∈ mthInputs sha leaves', bytes ∈ T)
    (hinputs : ∀ bytes ∈ consistencyInputs sha knownOld fuel leaves'.length leaves.length b nodes,
      bytes ∈ T)
    (h : consistencyRec sha knownOld fuel leaves'.length leaves.length b nodes =
      some ((mth sha leaves', mth sha leaves), rest)) : leaves' <+: leaves := by
  induction fuel generalizing leaves leaves' b rest with
  | zero => cases h
  | succ fuel ih =>
    have hklen (l : List Digest) (hl : 2 ≤ l.length) :
        (l.take (largestPow2Below l.length)).length = largestPow2Below l.length := by
      rw [List.length_take]
      exact Nat.min_eq_left (largestPow2Below_lt hl).le
    rcases consistencyRec_cases h with ⟨hlen, heq⟩ |
      ⟨hlt, hmk, leftNew, sibling, hrec, hw, hin⟩ |
      ⟨hlt, hmk, oldSide, rightNew, sibling, hrec, ho, hw, hin⟩
    · rw [leaves_eq_of_mth_eq hfree hsha hlen hleaves' hleaves htree' htree heq]
    · -- The old tree is within the left part.
      have htwo : 2 ≤ leaves.length := by omega
      obtain ⟨htake, -⟩ := forall_take_drop hleaves (largestPow2Below leaves.length)
      rw [hin, List.forall_mem_append, List.forall_mem_singleton] at hinputs
      obtain ⟨⟨-, hleft⟩, hrest⟩ := consistencyRec_lt hsha hold hnodes hrec
      obtain ⟨rfl, -⟩ := eq_mth_of_nodeHash_eq hfree hsha htwo hleaves htree hleft
        (hrest sibling List.mem_cons_self) hinputs.2 hw
      have hfound := ih hpos htake hleaves' ((forall_mthInputs_iff htwo).mp htree).2.1 htree'
        (by rw [hklen leaves htwo]; exact hinputs.1) (by rw [hklen leaves htwo]; exact hrec)
      exact hfound.trans (List.take_prefix _ _)
    · -- Both trees have the same left part, and the old tree reaches into the right one.
      have htwo : 2 ≤ leaves.length := by omega
      have hkpos := largestPow2Below_pos htwo
      have htwo' : 2 ≤ leaves'.length := by omega
      have hstable : largestPow2Below leaves'.length = largestPow2Below leaves.length :=
        largestPow2Below_stable hmk hlt.le
      have hsplit := (forall_mthInputs_iff htwo).mp htree
      have hsplit' := (forall_mthInputs_iff htwo').mp htree'
      have hklen' := hklen leaves' htwo'
      rw [hin, List.forall_mem_append, List.forall_mem_cons, List.forall_mem_singleton] at hinputs
      obtain ⟨⟨hside, hright⟩, hrest⟩ := consistencyRec_lt hsha hold hnodes hrec
      have hsibling := hrest sibling List.mem_cons_self
      obtain ⟨hsame, rfl⟩ := eq_mth_of_nodeHash_eq hfree hsha htwo hleaves htree hsibling hright
        hinputs.2.2 hw
      obtain ⟨hsame', rfl⟩ := eq_mth_of_nodeHash_eq hfree hsha htwo' hleaves' htree' hsibling hside
        hinputs.2.1 ho
      rw [hstable] at hsame' hsplit' hrec hklen'
      obtain ⟨htake, hdrop⟩ := forall_take_drop hleaves (largestPow2Below leaves.length)
      obtain ⟨htake', hdrop'⟩ := forall_take_drop hleaves' (largestPow2Below leaves.length)
      have hfirst := leaves_eq_of_mth_eq hfree hsha (hklen'.trans (hklen leaves htwo).symm) htake'
        htake hsplit'.2.1 hsplit.2.1 (hsame'.symm.trans hsame)
      have hsecond := ih (by rw [List.length_drop]; omega) hdrop hdrop' hsplit.2.2 hsplit'.2.2
        (by rw [List.length_drop, List.length_drop]; exact hinputs.1)
        (by rw [List.length_drop, List.length_drop]; exact hrec)
      have hpre := (List.prefix_append_right_inj
        (leaves.take (largestPow2Below leaves.length))).mpr hsecond
      rwa [List.take_append_drop, ← hfirst, List.take_append_drop] at hpre

end Sound

/-- Proofs that are built are accepted against the roots. An accepted inclusion proof names the leaf at
its index, and an accepted consistency proof from a tree that is not empty means that the old leaves
are the beginning of the new ones, as long as the hash has no collision among the strings that are
hashed for the trees and by the verifier. -/
theorem log_proofs_complete_and_sound (hsha : ∀ bytes, sha bytes < 256 ^ 32) :
    (∀ {leaves : List Digest} {index : ℕ} {leaf : Digest}, leaves[index]? = some leaf →
      ∃ inclusion, proveInclusion sha leaves index = some inclusion ∧
        verifyInclusion sha leaf inclusion (mth sha leaves) = true) ∧
    (∀ {leaves : List Digest} {m : ℕ}, m ≤ leaves.length →
      ∃ consistency, proveConsistency sha leaves m = some consistency ∧
        verifyConsistency sha (mth sha (leaves.take m)) consistency (mth sha leaves) = true) ∧
    (∀ {leaves : List Digest} {leaf : Digest} {inclusion : InclusionProof},
      (∀ d ∈ leaf :: (leaves ++ inclusion.nodes), d < 256 ^ 32) →
      Set.InjOn sha
        {bytes | bytes ∈ mthInputs sha leaves ++ verifyInclusionInputs sha leaf inclusion} →
      inclusion.leafCount = leaves.length →
      verifyInclusion sha leaf inclusion (mth sha leaves) = true →
        leaves[inclusion.leafIndex]? = some leaf) ∧
    (∀ {leaves leaves' : List Digest} {consistency : ConsistencyProof},
      (∀ d ∈ leaves ++ leaves' ++ consistency.nodes, d < 256 ^ 32) →
      Set.InjOn sha {bytes | bytes ∈ mthInputs sha leaves ++ mthInputs sha leaves' ++
        verifyConsistencyInputs sha (mth sha leaves') consistency} →
      0 < consistency.oldLeafCount → consistency.oldLeafCount = leaves'.length →
      consistency.oldLeafCount ≤ consistency.newLeafCount →
      consistency.newLeafCount = leaves.length →
      verifyConsistency sha (mth sha leaves') consistency (mth sha leaves) = true →
        leaves' <+: leaves) := by
  refine ⟨verifyInclusion_proveInclusion, verifyConsistency_proveConsistency, ?_, ?_⟩
  · intro leaves leaf inclusion hbounds hfree hcount h
    rw [List.forall_mem_cons, List.forall_mem_append] at hbounds
    obtain ⟨hleaf, hleaves, hnodes⟩ := hbounds
    have hinputs : ∀ bytes ∈ verifyInclusionInputs sha leaf inclusion,
        bytes ∈ mthInputs sha leaves ++ verifyInclusionInputs sha leaf inclusion :=
      fun bytes => List.mem_append_right _
    rw [verifyInclusion] at h
    split at h
    · cases h
    rename_i hguard
    nth_rewrite 1 [verifyInclusionInputs] at hinputs
    rw [if_neg hguard, hcount] at hinputs
    rw [hcount] at h
    split at h
    · rename_i folded hrec
      obtain rfl := eq_of_beq h
      exact leaf_of_inclusionRec hfree hsha hleaf hleaves hnodes
        (fun bytes => List.mem_append_left _) hinputs hrec
    · cases h
  · intro leaves leaves' consistency hbounds hfree hpos hold hle hnew h
    rw [List.forall_mem_append, List.forall_mem_append] at hbounds
    obtain ⟨⟨hleaves, hleaves'⟩, hnodes⟩ := hbounds
    have htree : ∀ bytes ∈ mthInputs sha leaves, bytes ∈ mthInputs sha leaves ++
        mthInputs sha leaves' ++ verifyConsistencyInputs sha (mth sha leaves') consistency :=
      fun bytes hbytes => List.mem_append_left _ (List.mem_append_left _ hbytes)
    have htree' : ∀ bytes ∈ mthInputs sha leaves', bytes ∈ mthInputs sha leaves ++
        mthInputs sha leaves' ++ verifyConsistencyInputs sha (mth sha leaves') consistency :=
      fun bytes hbytes => List.mem_append_left _ (List.mem_append_right _ hbytes)
    have hinputs : ∀ bytes ∈ verifyConsistencyInputs sha (mth sha leaves') consistency,
        bytes ∈ mthInputs sha leaves ++ mthInputs sha leaves' ++
          verifyConsistencyInputs sha (mth sha leaves') consistency :=
      fun bytes => List.mem_append_right _
    have hgt : ¬consistency.oldLeafCount > consistency.newLeafCount := by omega
    rcases Nat.eq_or_lt_of_le hle with heq | hlt
    · -- The proof is empty, and the roots are compared.
      simp only [verifyConsistency] at h
      rw [if_neg hgt, if_neg hpos.ne', if_pos heq, Bool.and_eq_true, beq_iff_eq] at h
      rw [leaves_eq_of_mth_eq hfree hsha (hold.symm.trans (heq.trans hnew)) hleaves' hleaves htree'
        htree h.2]
    · nth_rewrite 1 [verifyConsistencyInputs] at hinputs
      simp only [hgt, hpos.ne', hlt.ne, if_false] at hinputs
      simp only [verifyConsistency, hgt, hpos.ne', hlt.ne, if_false] at h
      split at h
      · rename_i calcOld calcNew hrec
        rw [Bool.and_eq_true] at h
        obtain rfl := eq_of_beq h.1
        obtain rfl := eq_of_beq h.2
        rw [hold, hnew] at hrec hinputs
        exact prefix_of_consistencyRec hfree hsha (mth_lt hsha emptyRoot_lt hleaves') (hold ▸ hpos)
          hleaves hleaves' hnodes htree htree' hinputs hrec
      · cases h

/-- The proofs of the second leaf of two, and from the first leaf to both. -/
theorem log_proofs_complete_and_sound_two :
    let inclusion : InclusionProof := ⟨1, 2, [11]⟩
    let consistency : ConsistencyProof := ⟨1, 2, [12]⟩
    (∃ built, proveInclusion rollingHash [11, 12, 13] 2 = some built ∧
        verifyInclusion rollingHash 13 built (mth rollingHash [11, 12, 13]) = true) ∧
      (∃ built, proveConsistency rollingHash [11, 12, 13] 2 = some built ∧
        verifyConsistency rollingHash (mth rollingHash [11, 12]) built
          (mth rollingHash [11, 12, 13]) = true) ∧
      verifyInclusion rollingHash 12 inclusion (mth rollingHash [11, 12]) = true ∧
      [11, 12][1]? = some 12 ∧
      verifyConsistency rollingHash (mth rollingHash [11]) consistency
        (mth rollingHash [11, 12]) = true ∧
      [11] <+: [11, 12] := by
  intro inclusion consistency
  obtain ⟨hbuilt, hbuilt', hsound, hsound'⟩ := log_proofs_complete_and_sound rollingHash_lt
  have hroot : mth rollingHash [11, 12] = nodeHash rollingHash 11 12 := by
    rw [mth_split (by decide), show largestPow2Below [11, 12].length = 1 from rfl]
    exact congrArg₂ _ (mth_singleton 11) (mth_singleton 12)
  have hinputs : mthInputs rollingHash [11, 12] = [nodeInput 11 12] := by
    rw [mthInputs_split (by decide), show largestPow2Below [11, 12].length = 1 from rfl]
    simp [mth_singleton, mthInputs]
  have hinclusion : verifyInclusion rollingHash 12 inclusion (mth rollingHash [11, 12]) = true := by
    rw [hroot]
    decide +kernel
  have hconsistency : verifyConsistency rollingHash (mth rollingHash [11]) consistency
      (mth rollingHash [11, 12]) = true := by
    rw [hroot, mth_singleton]
    decide +kernel
  refine ⟨hbuilt rfl, @hbuilt' [11, 12, 13] 2 (by decide), hinclusion,
    hsound (by decide) ?_ rfl hinclusion, hconsistency,
    hsound' (by decide) ?_ (by decide) rfl (by decide) rfl hconsistency⟩
  · rw [hinputs]
    have hfree : ∀ m ∈ [nodeInput 11 12] ++ verifyInclusionInputs rollingHash 12 inclusion,
        ∀ m' ∈ [nodeInput 11 12] ++ verifyInclusionInputs rollingHash 12 inclusion,
          rollingHash m = rollingHash m' → m = m' := by decide +kernel
    exact fun m hm m' hm' => hfree m hm m' hm'
  · rw [hinputs, mth_singleton, mthInputs]
    have hfree : ∀ m ∈ [nodeInput 11 12] ++ [] ++ verifyConsistencyInputs rollingHash 11 consistency,
        ∀ m' ∈ [nodeInput 11 12] ++ [] ++ verifyConsistencyInputs rollingHash 11 consistency,
          rollingHash m = rollingHash m' → m = m' := by decide +kernel
    exact fun m hm m' hm' => hfree m hm m' hm'

end JKain
