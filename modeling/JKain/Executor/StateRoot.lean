import JKain.Consensus.RecordsProofs
import JKain.Executor.StateTree

/-!
# The root of the state

The Merkle tree of a state is a function of its entries: the leaf at a path is that of the entry
whose key has this path, if there is one. So states with the same entries have the same tree,
however they were reached. The root is then compared with the hash tree of the entries, where equal
roots mean equal entries and a proof that is accepted belongs to an entry.
-/

namespace JKain

open Std JKain.Lib

/-- The entries of a state. -/
abbrev KeyValues := ExtTreeMap (List UInt8) (List UInt8)

/-! ## The leaves of the entries -/

section Leaves

variable {sha : Sha256} {kv : KeyValues} {D : Set (List UInt8)} {key value : List UInt8} {path : ℕ}

/-- The entry whose key has a path. -/
def entryAt (sha : Sha256) (kv : KeyValues) (path : ℕ) : Option (List UInt8 × List UInt8) :=
  kv.toList.find? fun entry => sha entry.1 = path

/-- The hash of the leaf at a path. -/
def leafAt (sha : Sha256) (kv : KeyValues) (path : ℕ) : Digest :=
  match entryAt sha kv path with
  | some (key, value) => stateLeafHash sha key value
  | none => emptyHash sha

/-- The root over all paths. -/
def stateRoot (sha : Sha256) (kv : KeyValues) : Digest :=
  foldTree (combineHash sha) (leafAt sha kv) treeDepth 0

theorem getElem?_of_entryAt (h : entryAt sha kv path = some (key, value)) :
    kv[key]? = some value ∧ sha key = path := by
  have hmem := List.mem_of_find?_eq_some h
  have hpath := List.find?_some h
  exact ⟨ExtTreeMap.mem_toList_iff_getElem?_eq_some.mp hmem, by simpa using hpath⟩

theorem mem_of_getElem? (hkeys : ∀ key ∈ kv, key ∈ D) (h : kv[key]? = some value) : key ∈ D :=
  hkeys key (ExtTreeMap.mem_iff_isSome_getElem?.mpr (Option.isSome_of_eq_some h))

/-- No two keys have the same path, so an entry is found at the path of its key. -/
theorem entryAt_eq_some_iff (hD : Set.InjOn sha D) (hkeys : ∀ key ∈ kv, key ∈ D) :
    entryAt sha kv path = some (key, value) ↔ kv[key]? = some value ∧ sha key = path := by
  refine ⟨getElem?_of_entryAt, ?_⟩
  rintro ⟨hget, rfl⟩
  have hmem := ExtTreeMap.mem_toList_iff_getElem?_eq_some.mpr hget
  cases hfind : entryAt sha kv (sha key) with
  | none => exact absurd (List.find?_eq_none.mp hfind _ hmem) (by simp)
  | some entry =>
    obtain ⟨key', value'⟩ := entry
    obtain ⟨hget', hpath⟩ := getElem?_of_entryAt hfind
    obtain rfl : key' = key :=
      hD (mem_of_getElem? hkeys hget') (mem_of_getElem? hkeys hget) hpath
    rw [hget] at hget'
    rw [Option.some.inj hget']

/-- Entries that agree apart from one key are found at the same paths apart from that key's. -/
theorem entryAt_of_agree {kv' : KeyValues} (hD : Set.InjOn sha D) (hkeys : ∀ key ∈ kv, key ∈ D)
    (hkeys' : ∀ key ∈ kv', key ∈ D) (hkey : key ∈ D)
    (hagree : ∀ k, k ≠ key → kv'[k]? = kv[k]?) :
    entryAt sha kv' path =
      if path = sha key then kv'[key]?.map (key, ·) else entryAt sha kv path := by
  refine Option.ext fun entry => ?_
  obtain ⟨k, v⟩ := entry
  rw [entryAt_eq_some_iff hD hkeys']
  by_cases hpath : path = sha key
  · rw [if_pos hpath, Option.map_eq_some_iff]
    constructor
    · rintro ⟨hget, hk⟩
      obtain rfl : k = key := hD (mem_of_getElem? hkeys' hget) hkey (hk.trans hpath)
      exact ⟨v, hget, rfl⟩
    · rintro ⟨v', hget, heq⟩
      obtain ⟨rfl, rfl⟩ := Prod.mk.inj heq
      exact ⟨hget, hpath.symm⟩
  · rw [if_neg hpath, entryAt_eq_some_iff hD hkeys]
    refine and_congr_left fun hk => ?_
    have hne : k ≠ key := fun heq => hpath (by rw [← hk, heq])
    rw [hagree k hne]

theorem mem_insert_subset (hkeys : ∀ key ∈ kv, key ∈ D) (hkey : key ∈ D) :
    ∀ k ∈ kv.insert key value, k ∈ D := by
  intro k hk
  rcases ExtTreeMap.mem_insert.mp hk with heq | hk
  · rwa [← Std.compare_eq_iff_eq.mp heq]
  · exact hkeys k hk

theorem mem_erase_subset (hkeys : ∀ key ∈ kv, key ∈ D) : ∀ k ∈ kv.erase key, k ∈ D :=
  fun k hk => hkeys k (ExtTreeMap.mem_of_mem_erase hk)

theorem leafAt_insert (hD : Set.InjOn sha D) (hkeys : ∀ key ∈ kv, key ∈ D) (hkey : key ∈ D) :
    leafAt sha (kv.insert key value) =
      Function.update (leafAt sha kv) (sha key) (stateLeafHash sha key value) := by
  funext path
  have hagree : ∀ k, k ≠ key → (kv.insert key value)[k]? = kv[k]? := fun k hk => by
    rw [ExtTreeMap.getElem?_insert, if_neg fun heq => hk (Std.compare_eq_iff_eq.mp heq).symm]
  rw [leafAt, entryAt_of_agree hD hkeys (mem_insert_subset hkeys hkey) hkey hagree,
    ExtTreeMap.getElem?_insert_self, Function.update_apply]
  by_cases hpath : path = sha key
  · simp only [if_pos hpath, Option.map_some]
  · rw [if_neg hpath, if_neg hpath, leafAt]

theorem leafAt_erase (hD : Set.InjOn sha D) (hkeys : ∀ key ∈ kv, key ∈ D) (hkey : key ∈ D) :
    leafAt sha (kv.erase key) = Function.update (leafAt sha kv) (sha key) (emptyHash sha) := by
  funext path
  have hagree : ∀ k, k ≠ key → (kv.erase key)[k]? = kv[k]? := fun k hk => by
    rw [ExtTreeMap.getElem?_erase, if_neg fun heq => hk (Std.compare_eq_iff_eq.mp heq).symm]
  rw [leafAt, entryAt_of_agree hD hkeys (mem_erase_subset hkeys) hkey hagree,
    ExtTreeMap.getElem?_erase_self, Function.update_apply]
  by_cases hpath : path = sha key
  · simp only [if_pos hpath, Option.map_none]
  · rw [if_neg hpath, if_neg hpath, leafAt]

end Leaves

/-! ## Runs -/

/-- The string hashed for the leaf of an entry. -/
def entryBytes (entry : List UInt8 × List UInt8) : List UInt8 :=
  0x00 :: (writeBytes entry.1 ++ writeBytes entry.2)

/-- The strings hashed for the path and the leaf of an operation. -/
def Op.messages : Op → List (List UInt8)
  | put key value => [key, entryBytes (key, value)]
  | delete key => [key]

/-- The strings hashed for the paths and the leaves of a run, and that of the empty subtree. -/
def runMessages (ops : List Op) : List (List UInt8) := [0x00] :: ops.flatMap Op.messages

namespace State

variable {sha : Sha256} {D : Set (List UInt8)} {state : State} {ops : List Op}

/-- The state after operations on the empty one. -/
def run (sha : Sha256) (ops : List Op) : State := ops.foldl (State.apply sha) (State.new sha)

/-- The tree stores the leaves of the entries, whose keys and leaves are among the strings
hashed. -/
structure Grounded (sha : Sha256) (D : Set (List UInt8)) (state : State) : Prop where
  keys : ∀ key ∈ state.kv, key ∈ D
  leaves : ∀ {key value}, state.kv[key]? = some value → entryBytes (key, value) ∈ D
  stores : state.tree.Stores sha (leafAt sha state.kv)

theorem grounded_new (sha : Sha256) (D : Set (List UInt8)) : Grounded sha D (new sha) where
  keys _ hkey := absurd hkey ExtTreeMap.not_mem_empty
  leaves hget := by
    rw [new, ExtTreeMap.getElem?_empty] at hget
    cases hget
  stores := SparseMerkleTree.stores_new sha

/-- A digest is a path. -/
theorem path_lt (hsha : ∀ bytes, sha bytes < 256 ^ 32) (key : List UInt8) :
    sha key < 2 ^ treeDepth := by
  have hpow : 2 ^ treeDepth = 256 ^ 32 := Nat.pow_mul 2 8 32
  rw [hpow]
  exact hsha key

theorem entryBytes_ne_empty (entry : List UInt8 × List UInt8) : entryBytes entry ≠ [0x00] := by
  intro h
  have := congrArg List.length h
  simp [entryBytes, writeBytes] at this

/-- The leaf of an entry is not empty. -/
theorem stateLeafHash_ne_emptyHash (hD : Set.InjOn sha D) (hempty : [0x00] ∈ D)
    {key value : List UInt8} (hleaf : entryBytes (key, value) ∈ D) :
    stateLeafHash sha key value ≠ emptyHash sha := fun heq =>
  have hcollide : sha (entryBytes (key, value)) = sha [0x00] := heq
  entryBytes_ne_empty (key, value) (hD hleaf hempty hcollide)

theorem Grounded.apply (h : Grounded sha D state) (hsha : ∀ bytes, sha bytes < 256 ^ 32)
    (hD : Set.InjOn sha D) (hempty : [0x00] ∈ D) {op : Op} (hop : ∀ m ∈ op.messages, m ∈ D) :
    Grounded sha D (state.apply sha op) := by
  cases op with
  | put key value =>
    have hkey : key ∈ D := hop key (by simp [Op.messages])
    have hleaf : entryBytes (key, value) ∈ D := hop _ (by simp [Op.messages])
    have hstores := h.stores.insert (path_lt hsha key) (stateLeafHash_ne_emptyHash hD hempty hleaf)
    rw [← leafAt_insert hD h.keys hkey] at hstores
    refine ⟨mem_insert_subset h.keys hkey, ?_, by simpa only [State.apply] using hstores⟩
    intro key' value' hget
    simp only [State.apply, ExtTreeMap.getElem?_insert, Std.compare_eq_iff_eq] at hget
    split at hget
    · rename_i heq
      obtain rfl := heq
      rwa [← Option.some.inj hget]
    · exact h.leaves hget
  | delete key =>
    have hkey : key ∈ D := hop key (by simp [Op.messages])
    have hstores := h.stores.delete (path_lt hsha key)
    rw [← leafAt_erase hD h.keys hkey] at hstores
    refine ⟨mem_erase_subset h.keys, ?_, by simpa only [State.apply] using hstores⟩
    intro key' value' hget
    simp only [State.apply, ExtTreeMap.getElem?_erase] at hget
    split at hget
    · cases hget
    · exact h.leaves hget

/-- Every operation keeps the tree that of the entries. -/
theorem Grounded.foldl (h : Grounded sha D state) (hsha : ∀ bytes, sha bytes < 256 ^ 32)
    (hD : Set.InjOn sha D) (hempty : [0x00] ∈ D) (hops : ∀ m ∈ ops.flatMap Op.messages, m ∈ D) :
    Grounded sha D (ops.foldl (State.apply sha) state) := by
  induction ops generalizing state with
  | nil => exact h
  | cons op ops ih =>
    simp only [List.flatMap_cons, List.mem_append] at hops
    exact ih (h.apply hsha hD hempty fun m hm => hops m (.inl hm)) fun m hm => hops m (.inr hm)

theorem grounded_run (hsha : ∀ bytes, sha bytes < 256 ^ 32) (hD : Set.InjOn sha D)
    (hops : ∀ m ∈ runMessages ops, m ∈ D) : Grounded sha D (run sha ops) :=
  (grounded_new sha D).foldl hsha hD (hops _ List.mem_cons_self) fun m hm =>
    hops m (List.mem_cons_of_mem _ hm)

/-- The tree is determined by the entries. -/
theorem Grounded.tree_eq {D' : Set (List UInt8)} {state' : State} (h : Grounded sha D state)
    (h' : Grounded sha D' state') (hkv : state.kv = state'.kv) : state.tree = state'.tree :=
  h.stores.unique (hkv ▸ h'.stores)

/-- A key that is present has a proof that is accepted. -/
theorem Grounded.exists_proof (h : Grounded sha D state) (hsha : ∀ bytes, sha bytes < 256 ^ 32)
    (hD : Set.InjOn sha D) (hempty : [0x00] ∈ D) {key value : List UInt8}
    (hget : state.kv[key]? = some value) :
    ∃ siblings, state.tree.proofSiblings sha key = some siblings ∧
      MerkleProof.verify sha ⟨key, value, siblings⟩ state.tree.root = true := by
  have hleaf : leafAt sha state.kv (sha key) = stateLeafHash sha key value := by
    rw [leafAt, (entryAt_eq_some_iff hD h.keys).mpr ⟨hget, rfl⟩]
  have hne := stateLeafHash_ne_emptyHash hD hempty (h.leaves hget)
  exact h.stores.verify_proofSiblings (path_lt hsha key) (hleaf ▸ hne) hleaf

theorem Grounded.root_eq (h : Grounded sha D state) : state.tree.root = stateRoot sha state.kv := by
  rw [h.stores.root, subtreeAt, Nat.zero_div]
  rfl

end State

/-! ## The hash tree of the entries -/

/-- The lengths of the parts of an entry are written in four bytes. -/
def FitsEntry (entry : List UInt8 × List UInt8) : Prop :=
  entry.1.length < 2 ^ 32 ∧ entry.2.length < 2 ^ 32

instance (entry : List UInt8 × List UInt8) : Decidable (FitsEntry entry) :=
  inferInstanceAs (Decidable (_ ∧ _))

/-- An entry that `leaf_hash` does not refuse. -/
abbrev StateEntry := {entry : List UInt8 × List UInt8 // FitsEntry entry}

/-- All entries are such that `leaf_hash` does not refuse them. -/
def KeyValues.Fits (kv : KeyValues) : Prop :=
  ∀ {key value}, kv[key]? = some value → FitsEntry (key, value)

theorem leafStrings_entryBytes : LeafStrings fun entry : StateEntry => entryBytes entry.val where
  inj := by
    rintro ⟨⟨key, value⟩, hkey, hvalue⟩ ⟨⟨key', value'⟩, hkey', hvalue'⟩ heq
    have hreads : ∀ {bytes : List UInt8}, bytes.length < 2 ^ 32 →
        Reads (takeBytes ()) (writeBytes bytes) bytes := takeBytes_reads
    obtain ⟨rfl, hrest⟩ := (hreads hkey).unique (hreads hkey') (List.cons.inj heq).2
    obtain ⟨rfl, -⟩ := (hreads hvalue).unique (hreads hvalue') (congrArg (· ++ []) hrest)
    rfl
  long entry := by
    simp only [entryBytes, writeBytes, List.length_cons, List.length_append, length_beBytes]
    omega
  not_single entry := by simp [entryBytes]
  not_node entry := by simp [entryBytes]

section Trees

variable {sha : Sha256} {kv kv' : KeyValues} {D : Set (List UInt8)}

/-- The strings hashed for the entries over all paths: the keys, the leaves, and the nodes. -/
def stateMessages (sha : Sha256) (kv : KeyValues) : Set (List UInt8) :=
  {m | m = [0x00] ∨ m ∈ kv ∨ (∃ entry ∈ kv.toList, m = entryBytes entry) ∨
    ∃ height < treeDepth, ∃ p, m = combineMessage sha
      (foldTree (combineHash sha) (leafAt sha kv) height (2 * p))
      (foldTree (combineHash sha) (leafAt sha kv) height (2 * p + 1))}

/-- The scheme of the tree of the state. -/
abbrev stateScheme (sha : Sha256) : HashScheme StateEntry (List UInt8) Digest :=
  treeScheme sha fun entry => entryBytes entry.val

/-- The leaf at a path, as a tree. -/
def entryTree (sha : Sha256) (kv : KeyValues) (path : ℕ) : HashTree StateEntry :=
  match entryAt sha kv path with
  | some entry => if h : FitsEntry entry then .leaf ⟨entry, h⟩ else .empty
  | none => .empty

/-- The tree over all paths. -/
def stateTree (sha : Sha256) (kv : KeyValues) : HashTree StateEntry :=
  foldTree HashTree.combine (entryTree sha kv) treeDepth 0

/-- What stands at a path. -/
theorem entryTree_cases (sha : Sha256) (hfits : kv.Fits) (path : ℕ) :
    (∃ entry : StateEntry, entryAt sha kv path = some entry.val ∧
      entryTree sha kv path = .leaf entry) ∨
    entryAt sha kv path = none ∧ entryTree sha kv path = .empty := by
  cases hentry : entryAt sha kv path with
  | none => exact .inr ⟨rfl, by rw [entryTree, hentry]⟩
  | some entry =>
    have hfit : FitsEntry entry := hfits (getElem?_of_entryAt hentry).1
    exact .inl ⟨⟨entry, hfit⟩, rfl, by simp only [entryTree, hentry, dif_pos hfit]⟩

theorem root_entryTree (hfits : kv.Fits) (path : ℕ) :
    (entryTree sha kv path).root (stateScheme sha) = leafAt sha kv path := by
  rcases entryTree_cases sha hfits path with ⟨entry, hentry, htree⟩ | ⟨hentry, htree⟩
  · rw [htree, leafAt, hentry]
    rfl
  · rw [htree, leafAt, hentry]
    rfl

theorem messages_entryTree (hfits : kv.Fits) (hmsgs : stateMessages sha kv ⊆ D) (path : ℕ) :
    (entryTree sha kv path).messages (stateScheme sha) ⊆ D := by
  rcases entryTree_cases sha hfits path with ⟨entry, hentry, htree⟩ | ⟨-, htree⟩
  · rw [htree]
    refine Set.singleton_subset_iff.mpr (hmsgs (.inr (.inr (.inl ⟨entry.val, ?_, rfl⟩))))
    exact List.mem_of_find?_eq_some hentry
  · rw [htree]
    exact Set.singleton_subset_iff.mpr (hmsgs (.inl rfl))

theorem foldRoots_entryTree (hfits : kv.Fits) (height p : ℕ) :
    HashTree.foldRoots (stateScheme sha) (entryTree sha kv) height p =
      foldTree (combineHash sha) (leafAt sha kv) height p := by
  have hleaf : (fun q => (entryTree sha kv q).root (stateScheme sha)) = leafAt sha kv :=
    funext (root_entryTree hfits)
  have hcombine : (fun d d' => (stateScheme sha).hash ((stateScheme sha).combineMsg d d')) =
      combineHash sha :=
    funext₂ fun d d' => (combineHash_eq sha d d').symm
  rw [HashTree.foldRoots, hleaf, hcombine]

/-- The root over all paths is that of the hash tree of the entries. -/
theorem stateTree_spec (hsha : ∀ bytes, sha bytes < 256 ^ 32) (hD : Set.InjOn sha D)
    (hfits : kv.Fits) (hmsgs : stateMessages sha kv ⊆ D) :
    (stateTree sha kv).messages (stateScheme sha) ⊆ D ∧
      (stateTree sha kv).root (stateScheme sha) = stateRoot sha kv := by
  have hS := (treeScheme_splits leafStrings_entryBytes hsha).toSeparated
  have hnodes : ∀ h < treeDepth, ∀ p, (stateScheme sha).combineMsg
      (HashTree.foldRoots (stateScheme sha) (entryTree sha kv) h (2 * p))
      (HashTree.foldRoots (stateScheme sha) (entryTree sha kv) h (2 * p + 1)) ∈ D := by
    intro h hh p
    rw [foldRoots_entryTree hfits, foldRoots_entryTree hfits]
    exact hmsgs (.inr (.inr (.inr ⟨h, hh, p, rfl⟩)))
  have htree := HashTree.messages_and_root_foldTree (p := 0) hS hD (hmsgs (.inl rfl))
    (messages_entryTree hfits hmsgs) hnodes
  rwa [foldRoots_entryTree hfits] at htree

theorem mem_of_mem_leaves (hfits : kv.Fits) {entry : StateEntry}
    (h : entry ∈ (stateTree sha kv).leaves) : kv[entry.val.1]? = some entry.val.2 := by
  obtain ⟨q, -, hleaf⟩ := HashTree.mem_leaves_foldTree.mp h
  rcases entryTree_cases sha hfits q with ⟨entry', hentry, htree⟩ | ⟨-, htree⟩
  · rw [htree] at hleaf
    obtain rfl : entry = entry' := List.mem_singleton.mp hleaf
    exact (getElem?_of_entryAt hentry).1
  · rw [htree] at hleaf
    cases hleaf

theorem mem_leaves_of_mem (hsha : ∀ bytes, sha bytes < 256 ^ 32) (hD : Set.InjOn sha D)
    (hfits : kv.Fits) (hmsgs : stateMessages sha kv ⊆ D) {entry : StateEntry}
    (h : kv[entry.val.1]? = some entry.val.2) : entry ∈ (stateTree sha kv).leaves := by
  have hentry : entryAt sha kv (sha entry.val.1) = some entry.val :=
    (entryAt_eq_some_iff hD fun key hkey => hmsgs (.inr (.inl hkey))).mpr ⟨h, rfl⟩
  have hroot : sha entry.val.1 / 2 ^ treeDepth = 0 :=
    Nat.div_eq_of_lt (State.path_lt hsha entry.val.1)
  refine HashTree.mem_leaves_foldTree.mpr ⟨sha entry.val.1, hroot, ?_⟩
  rcases entryTree_cases sha hfits (sha entry.val.1) with ⟨entry', hentry', htree⟩ | ⟨hnone, -⟩
  · rw [hentry] at hentry'
    rw [htree, Subtype.ext (Option.some.inj hentry')]
    exact List.mem_singleton_self entry'
  · rw [hentry] at hnone
    cases hnone

/-- The root is that of a hash tree whose leaves are the entries. -/
theorem exists_tree_of_stateRoot (hsha : ∀ bytes, sha bytes < 256 ^ 32) (hD : Set.InjOn sha D)
    (hfits : kv.Fits) (hmsgs : stateMessages sha kv ⊆ D) :
    ∃ t : HashTree StateEntry, t.root (stateScheme sha) = stateRoot sha kv ∧
      t.messages (stateScheme sha) ⊆ D ∧
      ∀ entry : StateEntry, entry ∈ t.leaves ↔ kv[entry.val.1]? = some entry.val.2 := by
  obtain ⟨hsub, hroot⟩ := stateTree_spec hsha hD hfits hmsgs
  exact ⟨stateTree sha kv, hroot, hsub, fun _ =>
    ⟨mem_of_mem_leaves hfits, mem_leaves_of_mem hsha hD hfits hmsgs⟩⟩

/-- The entries of one of two maps with the same root are entries of the other. -/
theorem getElem?_of_stateRoot_eq (hsha : ∀ bytes, sha bytes < 256 ^ 32) (hD : Set.InjOn sha D)
    (hfits : kv.Fits) (hfits' : kv'.Fits) (hmsgs : stateMessages sha kv ⊆ D)
    (hmsgs' : stateMessages sha kv' ⊆ D) (h : stateRoot sha kv = stateRoot sha kv')
    {key value : List UInt8} (hget : kv[key]? = some value) : kv'[key]? = some value := by
  have hS := (treeScheme_splits leafStrings_entryBytes hsha).toSeparated
  obtain ⟨t, hroot, hsub, hleaves⟩ := exists_tree_of_stateRoot hsha hD hfits hmsgs
  obtain ⟨t', hroot', hsub', hleaves'⟩ := exists_tree_of_stateRoot hsha hD hfits' hmsgs'
  obtain rfl : t = t' := HashTree.eq_of_root_eq hS hD hsub hsub' (by rw [hroot, hroot', h])
  exact (hleaves' ⟨(key, value), hfits hget⟩).mp ((hleaves _).mpr hget)

/-- Entries with the same root are the same. -/
theorem eq_of_stateRoot_eq (hsha : ∀ bytes, sha bytes < 256 ^ 32) (hD : Set.InjOn sha D)
    (hfits : kv.Fits) (hfits' : kv'.Fits) (hmsgs : stateMessages sha kv ⊆ D)
    (hmsgs' : stateMessages sha kv' ⊆ D) (h : stateRoot sha kv = stateRoot sha kv') :
    kv = kv' :=
  ExtTreeMap.ext_getElem? fun _ => Option.ext fun _ =>
    ⟨getElem?_of_stateRoot_eq hsha hD hfits hfits' hmsgs hmsgs' h,
      getElem?_of_stateRoot_eq hsha hD hfits' hfits hmsgs' hmsgs h.symm⟩

end Trees

/-! ## Proofs that are accepted -/

namespace MerkleProof

variable {sha : Sha256} {kv : KeyValues} {D : Set (List UInt8)}

/-- The steps of a proof: a sibling is on the right of a path that goes to the left. -/
def steps (sha : Sha256) (proof : MerkleProof) : List RecordsProofStep :=
  ((List.range treeDepth).reverse.zip proof.siblings).map fun (depth, sibling) =>
    ⟨sibling, !pathBit (sha proof.key) depth⟩

/-- The strings hashed by `MerkleProof::verify` for the leaf and the nodes above it. -/
def messages (sha : Sha256) (proof : MerkleProof) : List (List UInt8) :=
  walkMessages sha (entryBytes (proof.key, proof.value)) (proof.steps sha)

theorem verify_eq_true_iff {proof : MerkleProof} {root : Digest} :
    proof.verify sha root = true ↔ proof.siblings.length = treeDepth ∧
      (proof.steps sha).foldl (proofStep sha) (sha (entryBytes (proof.key, proof.value))) =
        root := by
  have hstep : (fun current (x : ℕ × Digest) => proofStep sha current
      ⟨x.2, !pathBit (sha proof.key) x.1⟩) =
      fun current x => parentHash sha (sha proof.key) x.1 current x.2 := by
    funext current x
    rw [proofStep, parentHash]
    cases pathBit (sha proof.key) x.1 <;> rfl
  rw [verify, steps, List.foldl_map]
  simp only [hstep]
  by_cases hlength : proof.siblings.length = treeDepth
  · rw [if_neg (not_not_intro hlength), decide_eq_true_iff]
    exact (and_iff_right hlength).symm
  · rw [if_pos hlength]
    simp [hlength]

/-- What is accepted with any siblings against the root of the entries is an entry. -/
theorem mem_of_verify (hsha : ∀ bytes, sha bytes < 256 ^ 32) (hD : Set.InjOn sha D)
    (hfits : kv.Fits) (hmsgs : stateMessages sha kv ⊆ D) {proof : MerkleProof}
    (hproof : FitsEntry (proof.key, proof.value)) (hsteps : ∀ m ∈ proof.messages sha, m ∈ D)
    (h : proof.verify sha (stateRoot sha kv) = true) : kv[proof.key]? = some proof.value := by
  have hS := treeScheme_splits leafStrings_entryBytes hsha
  obtain ⟨t, hroot, hsub, hleaves⟩ := exists_tree_of_stateRoot hsha hD hfits hmsgs
  obtain ⟨-, hfold⟩ := verify_eq_true_iff.mp h
  rw [foldl_proofStep_eq fun entry : StateEntry => entryBytes entry.val, ← hroot] at hfold
  rw [messages, ← climbMsgs_eq_walkMessages fun entry : StateEntry => entryBytes entry.val]
    at hsteps
  have hleaf : (stateScheme sha).leafMsg ⟨(proof.key, proof.value), hproof⟩ ∈
      t.messages (stateScheme sha) :=
    HashTree.mem_messages_of_climbMsg hS hD (hmsgs (.inl rfl)) hsub (hS.leaf_ne_empty _) hsteps
      hfold
  exact (hleaves _).mp (HashTree.mem_leaves_of_leafMsg_mem hS.toSeparated hleaf)

end MerkleProof

/-! ## The sparse Merkle tree -/

section Correct

variable {sha : Sha256}

/-- A hash under which the nodes over a single leaf have consecutive digests. -/
def tallHash : Sha256
  | [0x00] => 7
  | 0x01 :: rest => (fromBe rest + 1) % 256 ^ 32
  | 0x00 :: rest => 1000 * ((rest.getLastD 0).toNat + 1)
  | _ => 0

theorem tallHash_lt (bytes : List UInt8) : tallHash bytes < 256 ^ 32 := by
  unfold tallHash
  split
  · decide
  · exact Nat.mod_lt _ (by decide)
  · rename_i rest _
    have hbyte := (rest.getLastD 0).toNat_lt
    have hroom : 1000 * 256 < 256 ^ 32 := by decide
    exact Nat.lt_of_le_of_lt (by omega) hroom
  · decide

/-- The strings hashed for a key that is written twice. -/
def TallString (m : List UInt8) : Prop :=
  m = [0x00] ∨ m = [2] ∨ m = entryBytes ([2], [9]) ∨ m = entryBytes ([2], [3]) ∨
    ∃ i < treeDepth, m = 0x01 :: digestBytes (4000 + i)

theorem tallHash_single {d : ℕ} (hd : d < 5000) : tallHash (0x01 :: digestBytes d) = d + 1 := by
  have hroom : 5000 < 256 ^ 32 := by decide
  have hfrom : fromBe (digestBytes d) = d := fromBe_beBytes (hd.trans hroom)
  rw [tallHash, hfrom, Nat.mod_eq_of_lt (Nat.lt_of_le_of_lt hd hroom)]

theorem emptyHash_tallHash : emptyHash tallHash = 7 := rfl

theorem combineMessage_tallHash (height : ℕ) :
    combineMessage tallHash (4000 + height) 7 = 0x01 :: digestBytes (4000 + height) := by
  have hne : ¬ 4000 + height = 7 := by omega
  rw [combineMessage, emptyHash_tallHash, if_neg hne, if_pos rfl]

/-- The string with a digest. -/
def tallPreimage (digest : Digest) : List UInt8 :=
  if digest = 7 then [0x00] else if digest = 0 then [2]
  else if digest = 10000 then entryBytes ([2], [9])
  else if digest = 4000 then entryBytes ([2], [3])
  else 0x01 :: digestBytes (digest - 1)

theorem injOn_tallHash : Set.InjOn tallHash {m | TallString m} := by
  have hinv : Set.LeftInvOn tallPreimage tallHash {m | TallString m} := by
    rintro m (rfl | rfl | rfl | rfl | ⟨i, hi, rfl⟩)
    · rfl
    · rfl
    · decide
    · decide
    · have hlt : i < 256 := hi
      have hvalues : ¬ 4000 + i + 1 = 7 ∧ ¬ 4000 + i + 1 = 0 ∧ ¬ 4000 + i + 1 = 10000 ∧
          ¬ 4000 + i + 1 = 4000 := by omega
      obtain ⟨h7, h0, h10000, h4000⟩ := hvalues
      have hsmall : 4000 + i < 5000 := by omega
      rw [tallHash_single hsmall, tallPreimage, if_neg h7, if_neg h0, if_neg h10000, if_neg h4000,
        Nat.add_sub_cancel]
  exact hinv.injOn

/-- The entries after the key has been written. -/
def tallEntries : KeyValues := (∅ : KeyValues).insert [2] [3]

theorem foldTree_tallEntries {height : ℕ} (hheight : height ≤ treeDepth) (p : ℕ) :
    foldTree (combineHash tallHash) (leafAt tallHash tallEntries) height p =
      if p = 0 then 4000 + height else 7 := by
  induction height generalizing p with
  | zero =>
    have hkeys : ∀ key ∈ (∅ : KeyValues), key ∈ {m | TallString m} := fun _ hkey =>
      absurd hkey ExtTreeMap.not_mem_empty
    rw [foldTree, tallEntries, leafAt_insert injOn_tallHash hkeys (.inr (.inl rfl)),
      Function.update_apply]
    rfl
  | succ height ih =>
    have hleft : 2 * p = 0 ↔ p = 0 := by omega
    have hright : ¬ 2 * p + 1 = 0 := by omega
    have hlt : height + 1 ≤ 256 := hheight
    have hsmall : 4000 + height < 5000 := by omega
    rw [foldTree, ih (Nat.le_of_succ_le hheight), ih (Nat.le_of_succ_le hheight), if_neg hright]
    simp only [hleft]
    by_cases hp : p = 0
    · rw [if_pos hp, if_pos hp, combineHash_eq, combineMessage_tallHash, tallHash_single hsmall,
        Nat.add_assoc]
    · rw [if_neg hp, if_neg hp]
      rfl

theorem stateMessages_tallEntries : stateMessages tallHash tallEntries ⊆ {m | TallString m} := by
  rintro m (rfl | hkey | ⟨entry, hentry, rfl⟩ | ⟨height, hheight, p, rfl⟩)
  · exact .inl rfl
  · rcases ExtTreeMap.mem_insert.mp hkey with heq | hkey
    · exact .inr (.inl (Std.compare_eq_iff_eq.mp heq).symm)
    · exact absurd hkey ExtTreeMap.not_mem_empty
  · obtain ⟨key, value⟩ := entry
    have hget := ExtTreeMap.mem_toList_iff_getElem?_eq_some.mp hentry
    rw [tallEntries, ExtTreeMap.getElem?_insert] at hget
    split at hget
    · rename_i heq
      obtain rfl := Std.compare_eq_iff_eq.mp heq
      obtain rfl := Option.some.inj hget
      exact .inr (.inr (.inr (.inl rfl)))
    · cases hget
  · have hleft : 2 * p = 0 ↔ p = 0 := by omega
    have hright : ¬ 2 * p + 1 = 0 := by omega
    rw [foldTree_tallEntries hheight.le, foldTree_tallEntries hheight.le, if_neg hright]
    simp only [hleft]
    by_cases hp : p = 0
    · rw [if_pos hp, combineMessage_tallHash]
      exact .inr (.inr (.inr (.inr ⟨height, hheight, rfl⟩)))
    · rw [if_neg hp]
      exact .inl rfl

theorem fits_tallEntries : tallEntries.Fits := by
  intro key value hget
  rw [tallEntries, ExtTreeMap.getElem?_insert] at hget
  split at hget
  · rename_i heq
    obtain rfl := Std.compare_eq_iff_eq.mp heq
    obtain rfl := Option.some.inj hget
    decide
  · cases hget

/-- A proof for the key, made by hand. -/
def tallProof : MerkleProof := ⟨[2], [3], List.replicate treeDepth 7⟩

theorem steps_tallProof : tallProof.steps tallHash = List.replicate treeDepth ⟨7, true⟩ := by
  refine List.eq_replicate_iff.mpr ⟨?_, ?_⟩
  · simp [MerkleProof.steps, tallProof]
  · intro step hstep
    obtain ⟨⟨depth, sibling⟩, hmem, rfl⟩ := List.mem_map.mp hstep
    have hsibling : sibling = 7 := List.eq_of_mem_replicate (List.of_mem_zip hmem).2
    have hpath : tallHash tallProof.key = 0 := rfl
    simp [hsibling, hpath, pathBit]

theorem foldl_proofStep_tall {levels i : ℕ} (h : i + levels ≤ 256) :
    (List.replicate levels ⟨7, true⟩).foldl (proofStep tallHash) (4000 + i) =
      4000 + i + levels := by
  induction levels generalizing i with
  | zero => rfl
  | succ levels ih =>
    have hsmall : 4000 + i < 5000 := by omega
    have hstep : proofStep tallHash (4000 + i) ⟨7, true⟩ = 4000 + (i + 1) := by
      rw [proofStep, if_pos rfl, combineHash_eq, combineMessage_tallHash, tallHash_single hsmall,
        Nat.add_assoc]
    have hlevels : i + 1 + levels ≤ 256 := by omega
    have hsum : 4000 + (i + 1) + levels = 4000 + i + (levels + 1) := by omega
    rw [List.replicate_succ, List.foldl_cons, hstep, ih hlevels, hsum]

theorem walkMessages_tall {levels i : ℕ} (h : i + levels ≤ 256) {m m' : List UInt8}
    (hhash : tallHash m = 4000 + i) (hm : TallString m)
    (hm' : m' ∈ walkMessages tallHash m (List.replicate levels ⟨7, true⟩)) : TallString m' := by
  induction levels generalizing i m with
  | zero => exact List.mem_singleton.mp hm' ▸ hm
  | succ levels ih =>
    have hsmall : 4000 + i < 5000 := by omega
    have hlt : i < 256 := by omega
    have hstep : stepMessage tallHash m ⟨7, true⟩ = 0x01 :: digestBytes (4000 + i) := by
      rw [stepMessage, if_pos rfl, hhash, combineMessage_tallHash]
    rw [List.replicate_succ, walkMessages, hstep] at hm'
    rcases List.mem_cons.mp hm' with rfl | hm'
    · exact hm
    · have hlevels : i + 1 + levels ≤ 256 := by omega
      exact ih hlevels (tallHash_single hsmall) (.inr (.inr (.inr (.inr ⟨i, hlt, rfl⟩)))) hm'

theorem tallString_of_mem_runMessages {m : List UInt8}
    (hm : m ∈ runMessages [.put [2] [9], .put [2] [3]] ++ runMessages [.put [2] [3]]) :
    TallString m := by
  simp only [runMessages, Op.messages, List.flatMap_cons, List.flatMap_nil, List.append_nil,
    List.cons_append, List.nil_append, List.mem_cons, List.not_mem_nil, or_false] at hm
  unfold TallString
  tauto

/-- The leaves, the nodes and the root of a tree depend on the entries alone, and the root is the
one over all paths. Entries with the same root are the same. The siblings of a key that is present
make a proof that is accepted, and what is accepted with any siblings is an entry. The hash has no
collision among the strings that are hashed; keys and values that `leaf_hash` refuses are left out
where entries are recovered from a root. -/
theorem sparse_tree_correct (hsha : ∀ bytes, sha bytes < 256 ^ 32) :
    (∀ {ops ops' : List Op}, Set.InjOn sha {m | m ∈ runMessages ops ++ runMessages ops'} →
      (State.run sha ops).kv = (State.run sha ops').kv →
        (State.run sha ops).tree = (State.run sha ops').tree) ∧
    (∀ {ops : List Op}, Set.InjOn sha {m | m ∈ runMessages ops} →
      (State.run sha ops).tree.root = stateRoot sha (State.run sha ops).kv) ∧
    (∀ {kv kv' : KeyValues}, kv.Fits → kv'.Fits →
      Set.InjOn sha (stateMessages sha kv ∪ stateMessages sha kv') →
      stateRoot sha kv = stateRoot sha kv' → kv = kv') ∧
    (∀ {ops : List Op} {key value : List UInt8}, Set.InjOn sha {m | m ∈ runMessages ops} →
      (State.run sha ops).kv[key]? = some value →
        ∃ siblings, (State.run sha ops).tree.proofSiblings sha key = some siblings ∧
          MerkleProof.verify sha ⟨key, value, siblings⟩ (State.run sha ops).tree.root = true) ∧
    ∀ {kv : KeyValues} {proof : MerkleProof}, kv.Fits → FitsEntry (proof.key, proof.value) →
      Set.InjOn sha (stateMessages sha kv ∪ {m | m ∈ proof.messages sha}) →
      proof.verify sha (stateRoot sha kv) = true → kv[proof.key]? = some proof.value := by
  refine ⟨?_, ?_, ?_, ?_, ?_⟩
  · intro ops ops' hD hkv
    have hrun := State.grounded_run hsha hD fun m hm => List.mem_append_left _ hm
    have hrun' := State.grounded_run hsha hD fun m hm => List.mem_append_right _ hm
    exact hrun.tree_eq hrun' hkv
  · intro ops hD
    exact (State.grounded_run hsha hD fun m hm => hm).root_eq
  · intro kv kv' hfits hfits' hD h
    exact eq_of_stateRoot_eq hsha hD hfits hfits' Set.subset_union_left Set.subset_union_right h
  · intro ops key value hD hget
    exact (State.grounded_run hsha hD fun m hm => hm).exists_proof hsha hD List.mem_cons_self hget
  · intro kv proof hfits hproof hD h
    exact MerkleProof.mem_of_verify hsha hD hfits Set.subset_union_left hproof
      (fun m hm => .inr hm) h

theorem sparse_tree_correct_tall :
    (State.run tallHash [.put [2] [9], .put [2] [3]]).tree =
        (State.run tallHash [.put [2] [3]]).tree ∧
      (State.run tallHash [.put [2] [3]]).tree.root = 4256 ∧
      (∃ siblings, (State.run tallHash [.put [2] [3]]).tree.proofSiblings tallHash [2] =
        some siblings) ∧
      tallProof.verify tallHash 4256 = true ∧ tallEntries[tallProof.key]? = some [3] := by
  obtain ⟨hunique, hroot, -, hproof, hsound⟩ := sparse_tree_correct tallHash_lt
  have hkv : (State.run tallHash [.put [2] [9], .put [2] [3]]).kv =
      (State.run tallHash [.put [2] [3]]).kv := by
    refine ExtTreeMap.ext_getElem? fun key => ?_
    simp only [State.run, List.foldl_cons, List.foldl_nil, State.apply,
      ExtTreeMap.getElem?_insert]
    split <;> rfl
  have hlast : Set.InjOn tallHash {m | m ∈ runMessages [.put [2] [3]]} :=
    injOn_tallHash.mono fun _ hm => tallString_of_mem_runMessages (List.mem_append_right _ hm)
  have hvalue : stateRoot tallHash tallEntries = 4256 := foldTree_tallEntries le_rfl 0
  have hleaf : tallHash (entryBytes ([2], [3])) = 4000 + 0 := by decide
  have hverify : tallProof.verify tallHash 4256 = true := by
    refine MerkleProof.verify_eq_true_iff.mpr ⟨List.length_replicate, ?_⟩
    rw [steps_tallProof]
    exact hleaf ▸ foldl_proofStep_tall le_rfl
  have hset : Set.InjOn tallHash
      (stateMessages tallHash tallEntries ∪ {m | m ∈ tallProof.messages tallHash}) := by
    refine injOn_tallHash.mono (Set.union_subset stateMessages_tallEntries fun m hm => ?_)
    have hwalk : m ∈ tallProof.messages tallHash := hm
    rw [MerkleProof.messages, steps_tallProof] at hwalk
    exact walkMessages_tall le_rfl hleaf (.inr (.inr (.inr (.inl rfl)))) hwalk
  have hget : (State.run tallHash [.put [2] [3]]).kv[([2] : List UInt8)]? = some [3] :=
    ExtTreeMap.getElem?_insert_self
  obtain ⟨siblings, hsiblings, -⟩ := hproof hlast hget
  have hboth := injOn_tallHash.mono fun _ hm => tallString_of_mem_runMessages hm
  exact ⟨hunique hboth hkv, (hroot hlast).trans hvalue, ⟨siblings, hsiblings⟩, hverify,
    hsound fits_tallEntries (by decide) hset (hvalue ▸ hverify)⟩

end Correct

end JKain
