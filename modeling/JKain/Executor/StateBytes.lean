import JKain.Executor.StateRoot
import JKain.Executor.Formats
import JKain.Lib.SortedMap

/-!
# The bytes of the state

`to_bytes` writes the entries in increasing order of their keys, each part behind its length. The
two readers of such bytes accept no others: a pair is taken in one way only, and keys that do not
increase are refused. So bytes and entries determine each other.
-/

namespace JKain

open Std JKain.Lib

/-- The bytes of an entry. -/
def pairBytes (entry : List UInt8 × List UInt8) : List UInt8 :=
  writeBytes entry.1 ++ writeBytes entry.2

namespace State

variable {sha : Sha256} {entries : List (List UInt8 × List UInt8)} {state state' : State}
  {bytes : List UInt8} {fuel : ℕ} {prevKey : Option (List UInt8)} {faults faults' : WriteFaults}

theorem toBytes_eq (state : State) : state.toBytes = state.kv.toList.flatMap pairBytes := rfl

theorem takePair_format :
    Format takePair fun entry taken => FitsEntry entry ∧ taken = pairBytes entry := by
  refine ((takeBytes_format PUnit.unit).bind fun key =>
    (takeBytes_format PUnit.unit).bind fun value => .pure (key, value)).congr ?_
  rintro ⟨key, value⟩ taken
  constructor
  · rintro ⟨⟨hkey, hvalue⟩, rfl⟩
    exact ⟨key, _, _, ⟨hkey, rfl⟩, ⟨value, _, [], ⟨hvalue, rfl⟩, ⟨rfl, rfl⟩, rfl⟩,
      by simp [pairBytes, writeBytes]⟩
  · rintro ⟨key, _, _, ⟨hkey, rfl⟩, ⟨value, _, _, ⟨hvalue, rfl⟩, ⟨heq, rfl⟩, rfl⟩, rfl⟩
    obtain ⟨rfl, rfl⟩ := Prod.mk.inj heq
    exact ⟨⟨hkey, hvalue⟩, by simp [pairBytes, writeBytes]⟩

theorem length_pairBytes_pos (entry : List UInt8 × List UInt8) : 0 < (pairBytes entry).length := by
  simp only [pairBytes, writeBytes, List.length_append, length_beBytes]
  omega

/-- The entries are sorted, and the first is above the key before them. -/
def SortedAfter (prevKey : Option (List UInt8)) (entries : List (List UInt8 × List UInt8)) : Prop :=
  (∀ prev ∈ prevKey, ∀ entry ∈ entries.head?, compare prev entry.1 = .lt) ∧ SortedEntries entries

theorem sortedAfter_cons_iff {entry : List UInt8 × List UInt8} :
    SortedAfter prevKey (entry :: entries) ↔
      (∀ prev ∈ prevKey, compare prev entry.1 = .lt) ∧ SortedAfter (some entry.1) entries := by
  simp [SortedAfter, sortedEntries_cons_iff]

/-- The test on the order of the keys. -/
theorem any_isLE_eq_false_iff {key : List UInt8} :
    prevKey.any (fun prev => (compare key prev).isLE) = false ↔
      ∀ prev ∈ prevKey, compare prev key = .lt := by
  have hcompare (prev : List UInt8) :
      (compare key prev).isLE = false ↔ compare prev key = .lt := by
    rw [← OrientedCmp.gt_iff_lt]
    cases compare key prev <;> decide
  cases prevKey with
  | none => simp
  | some prev => simp [hcompare]

/-- The state after writing entries. -/
def putAll (sha : Sha256) (state : State) (entries : List (List UInt8 × List UInt8)) : State :=
  entries.foldl (fun state entry => state.apply sha (.put entry.1 entry.2)) state

theorem kv_putAll (sha : Sha256) (state : State) (entries : List (List UInt8 × List UInt8)) :
    (state.putAll sha entries).kv = insertAll state.kv entries := by
  induction entries generalizing state with
  | nil => rfl
  | cons entry entries ih => exact ih _

/-- One pair of the loop. -/
theorem loadPairs_pairBytes {entry : List UInt8 × List UInt8} (hfits : FitsEntry entry)
    (rest : List UInt8) :
    loadPairs sha (fuel + 1) prevKey (pairBytes entry ++ rest) faults state =
      if prevKey.any (fun prev => (compare entry.1 prev).isLE) then (state, false, faults)
      else if faults.headD false then (state, false, faults.tail)
      else loadPairs sha fuel (some entry.1) rest faults.tail
        (state.apply sha (.put entry.1 entry.2)) := by
  have hread := takePair_format.reads ⟨hfits, rfl⟩ rest
  have hpos := length_pairBytes_pos entry
  obtain ⟨byte, tail, hcons⟩ : ∃ byte tail, pairBytes entry ++ rest = byte :: tail :=
    List.exists_cons_of_length_pos (by rw [List.length_append]; omega)
  rw [hcons] at hread ⊢
  rw [loadPairs, hread]

/-- Sorted entries are read back from their bytes. -/
theorem loadPairs_flatMap (hfits : ∀ entry ∈ entries, FitsEntry entry)
    (hsorted : SortedAfter prevKey entries) (hfuel : (entries.flatMap pairBytes).length ≤ fuel) :
    loadPairs sha fuel prevKey (entries.flatMap pairBytes) [] state =
      (state.putAll sha entries, true, []) := by
  induction entries generalizing fuel prevKey state with
  | nil =>
    rw [List.flatMap_nil, loadPairs]
    rfl
  | cons entry entries ih =>
    obtain ⟨hfit, hfits⟩ := List.forall_mem_cons.mp hfits
    obtain ⟨habove, hsorted⟩ := sortedAfter_cons_iff.mp hsorted
    have hpos := length_pairBytes_pos entry
    rw [List.flatMap_cons, List.length_append] at hfuel
    obtain ⟨fuel, rfl⟩ : ∃ fuel', fuel = fuel' + 1 := ⟨fuel - 1, by omega⟩
    have hrest : (entries.flatMap pairBytes).length ≤ fuel := by omega
    rw [List.flatMap_cons, loadPairs_pairBytes hfit, any_isLE_eq_false_iff.mpr habove]
    exact ih hfits hsorted hrest

theorem loadPairs_nil : loadPairs sha fuel prevKey [] faults state = (state, true, faults) := by
  cases fuel <;> rw [loadPairs]

/-- Bytes that are accepted are those of sorted entries. -/
theorem exists_of_loadPairs
    (h : loadPairs sha fuel prevKey bytes faults state = (state', true, faults')) :
    ∃ entries, bytes = entries.flatMap pairBytes ∧ (∀ entry ∈ entries, FitsEntry entry) ∧
      SortedAfter prevKey entries ∧ state' = state.putAll sha entries := by
  induction fuel generalizing prevKey bytes faults state with
  | zero =>
    cases bytes with
    | nil =>
      rw [loadPairs_nil] at h
      obtain ⟨rfl, -⟩ := Prod.mk.inj h
      exact ⟨[], rfl, by simp, by simp [SortedAfter, SortedEntries], rfl⟩
    | cons byte bytes =>
      rw [loadPairs] at h
      cases h
  | succ fuel ih =>
    cases hbytes : bytes with
    | nil =>
      rw [hbytes, loadPairs_nil] at h
      obtain ⟨rfl, -⟩ := Prod.mk.inj h
      exact ⟨[], rfl, by simp, by simp [SortedAfter, SortedEntries], rfl⟩
    | cons byte tail =>
      cases hread : takePair bytes with
      | error e =>
        rw [hbytes, loadPairs, ← hbytes, hread] at h
        cases h
      | ok result =>
        obtain ⟨entry, rest⟩ := result
        obtain ⟨taken, heq, hfit, rfl⟩ := takePair_format.parses bytes entry rest hread
        rw [heq, loadPairs_pairBytes hfit] at h
        split at h
        · cases h
        · rename_i habove
          split at h
          · cases h
          · obtain ⟨entries, rfl, hfits, hsorted, rfl⟩ := ih h
            refine ⟨entry :: entries, ?_, List.forall_mem_cons.mpr ⟨hfit, hfits⟩,
              sortedAfter_cons_iff.mpr ⟨any_isLE_eq_false_iff.mp (by simpa using habove), hsorted⟩,
              rfl⟩
            rw [← hbytes, heq, List.flatMap_cons]

/-! ## The readers -/

theorem fits_toList (h : KeyValues.Fits state.kv) : ∀ entry ∈ state.kv.toList, FitsEntry entry :=
  fun _ hmem => h (ExtTreeMap.mem_toList_iff_getElem?_eq_some.mp hmem)

/-- `from_bytes` writes the entries of a state one after the other. -/
theorem fromBytes_toBytes (sha : Sha256) (h : KeyValues.Fits state.kv) :
    fromBytes sha [] state.toBytes = ((new sha).putAll sha state.kv.toList, true, []) :=
  loadPairs_flatMap (fits_toList h) ⟨by simp, sortedEntries_toList state.kv⟩ le_rfl

theorem kv_putAll_toList (sha : Sha256) (state : State) :
    ((new sha).putAll sha state.kv.toList).kv = state.kv :=
  (kv_putAll sha (new sha) state.kv.toList).trans (insertAll_toList state.kv)

/-- What is accepted, whatever the partition does, is the bytes of the state that is returned. -/
theorem toBytes_of_fromBytes (h : fromBytes sha faults bytes = (state, true, faults')) :
    bytes = state.toBytes ∧ KeyValues.Fits state.kv ∧
      state = (new sha).putAll sha state.kv.toList := by
  obtain ⟨entries, rfl, hfits, ⟨-, hsorted⟩, rfl⟩ := exists_of_loadPairs h
  have hkv : ((new sha).putAll sha entries).kv = insertAll ∅ entries := kv_putAll _ _ _
  have hlist : ((new sha).putAll sha entries).kv.toList = entries := by
    rw [hkv, toList_insertAll hsorted]
  refine ⟨by rw [toBytes_eq, hlist], fun hget => ?_, by rw [hlist]⟩
  exact hfits _ (hlist ▸ ExtTreeMap.mem_toList_iff_getElem?_eq_some.mpr hget)

theorem fromBytes_accepts_iff (sha : Sha256) :
    (fromBytes sha [] bytes).2.1 = true ↔
      ∃ state : State, KeyValues.Fits state.kv ∧ bytes = state.toBytes := by
  constructor
  · intro h
    have hrun : fromBytes sha [] bytes =
        ((fromBytes sha [] bytes).1, true, (fromBytes sha [] bytes).2.2) :=
      Prod.ext rfl (Prod.ext h rfl)
    obtain ⟨hbytes, hfits, -⟩ := toBytes_of_fromBytes hrun
    exact ⟨_, hfits, hbytes⟩
  · rintro ⟨state, hfits, rfl⟩
    rw [fromBytes_toBytes sha hfits]

theorem rootOfBytes_eq_some_iff {root : Digest} :
    rootOfBytes sha bytes = some root ↔
      ∃ state faults, fromBytes sha [] bytes = (state, true, faults) ∧ state.root = root := by
  rw [rootOfBytes]
  split
  · rename_i state faults heq
    rw [heq]
    simp
  · rename_i state faults heq
    rw [heq]
    simp

theorem isSome_rootOfBytes_iff :
    (rootOfBytes sha bytes).isSome ↔
      ∃ state : State, KeyValues.Fits state.kv ∧ bytes = state.toBytes := by
  rw [← fromBytes_accepts_iff sha, Option.isSome_iff_exists]
  simp only [rootOfBytes_eq_some_iff]
  constructor
  · rintro ⟨root, state, faults, heq, -⟩
    rw [heq]
  · intro h
    exact ⟨_, _, _, Prod.ext rfl (Prod.ext h rfl), rfl⟩

/-! ## Roots -/

variable {D : Set (List UInt8)}

theorem grounded_putAll (hsha : ∀ bytes, sha bytes < 256 ^ 32) (hD : Set.InjOn sha D)
    (hempty : [0x00] ∈ D) (hentries : ∀ entry ∈ entries, entry.1 ∈ D ∧ entryBytes entry ∈ D) :
    Grounded sha D ((new sha).putAll sha entries) := by
  have hops : ∀ m ∈ (entries.map fun entry => Op.put entry.1 entry.2).flatMap Op.messages,
      m ∈ D := by
    intro m hm
    obtain ⟨op, hop, hm⟩ := List.mem_flatMap.mp hm
    obtain ⟨entry, hentry, rfl⟩ := List.mem_map.mp hop
    obtain ⟨hkey, hleaf⟩ := hentries entry hentry
    rcases List.mem_cons.mp hm with rfl | hm
    · exact hkey
    · exact List.mem_singleton.mp hm ▸ hleaf
  have hrun := (grounded_new sha D).foldl hsha hD hempty hops
  rwa [List.foldl_map] at hrun

/-- A state is loaded with its tree from its bytes. -/
theorem Grounded.load (h : Grounded sha D state) (hsha : ∀ bytes, sha bytes < 256 ^ 32)
    (hD : Set.InjOn sha D) (hempty : [0x00] ∈ D) :
    (new sha).putAll sha state.kv.toList = state := by
  have hloaded : Grounded sha D ((new sha).putAll sha state.kv.toList) := by
    refine grounded_putAll hsha hD hempty fun entry hentry => ?_
    have hget := ExtTreeMap.mem_toList_iff_getElem?_eq_some.mp hentry
    exact ⟨mem_of_getElem? h.keys hget, h.leaves hget⟩
  have hkv := kv_putAll_toList sha state
  have htree := hloaded.tree_eq h hkv
  cases hload : (new sha).putAll sha state.kv.toList
  rw [hload] at hkv htree
  cases state
  simp_all

/-- The root of accepted bytes is the one over all paths. -/
theorem root_of_fromBytes (hsha : ∀ bytes, sha bytes < 256 ^ 32) (hD : Set.InjOn sha D)
    (h : fromBytes sha faults bytes = (state, true, faults'))
    (hmsgs : stateMessages sha state.kv ⊆ D) : state.root = stateRoot sha state.kv := by
  obtain ⟨-, -, hstate⟩ := toBytes_of_fromBytes h
  have hgrounded : Grounded sha D ((new sha).putAll sha state.kv.toList) := by
    refine grounded_putAll hsha hD (hmsgs (.inl rfl)) fun entry hentry => ⟨?_, ?_⟩
    · have hget := ExtTreeMap.mem_toList_iff_getElem?_eq_some.mp hentry
      have hkey := ExtTreeMap.mem_iff_isSome_getElem?.mpr (Option.isSome_of_eq_some hget)
      exact hmsgs (.inr (.inl hkey))
    · exact hmsgs (.inr (.inr (.inl ⟨entry, hentry, rfl⟩)))
  rw [← hstate] at hgrounded
  exact hgrounded.root_eq

/-! ## Canonical bytes -/

/-- The parts of an operation are such that `leaf_hash` does not refuse them. -/
def FitsOp : Op → Prop
  | .put key value => FitsEntry (key, value)
  | .delete _ => True

theorem fits_apply (h : KeyValues.Fits state.kv) {op : Op} (hop : FitsOp op) :
    KeyValues.Fits (state.apply sha op).kv := by
  intro key value hget
  cases op with
  | put key' value' =>
    simp only [State.apply, ExtTreeMap.getElem?_insert, Std.compare_eq_iff_eq] at hget
    split at hget
    · rename_i heq
      obtain rfl := heq
      obtain rfl := Option.some.inj hget
      exact hop
    · exact h hget
  | delete key' =>
    simp only [State.apply, ExtTreeMap.getElem?_erase] at hget
    split at hget
    · cases hget
    · exact h hget

theorem fits_run (sha : Sha256) {ops : List Op} (hops : ∀ op ∈ ops, FitsOp op) :
    KeyValues.Fits (run sha ops).kv := by
  have hnew : KeyValues.Fits (new sha).kv := by
    intro key value hget
    rw [new, ExtTreeMap.getElem?_empty] at hget
    cases hget
  have hfold : ∀ state : State, KeyValues.Fits state.kv →
      KeyValues.Fits (ops.foldl (State.apply sha) state).kv := by
    induction ops with
    | nil => exact fun state h => h
    | cons op ops ih =>
      obtain ⟨hop, hops⟩ := List.forall_mem_cons.mp hops
      exact fun state h => ih hops _ (fits_apply h hop)
  intro key value hget
  exact hfold (new sha) hnew hget

/-- The strings hashed for the entries in accepted bytes. -/
def bytesMessages (sha : Sha256) (bytes : List UInt8) : Set (List UInt8) :=
  stateMessages sha (fromBytes sha [] bytes).1.kv

end State

end JKain
