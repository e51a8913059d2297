import JKain.Mirror.Postgres
import JKain.Mirror.Chained

/-!
# Restarting the mirror on its store

A new ingester takes the rounds it has seen, the running hash and the expected checkpoint hash from
the records of its store. The store leaves two of the signed fields of a checkpoint out, so that the
hash of a checkpoint is another one behind a restart unless both fields are zeros.
-/

namespace JKain.Mirror

open Std Lib JKain.Stream

namespace PGStore

variable {db db' : PGStore} {f : Pb.RecordStreamFile} {row : RecordFileRow} {round : Int64}

/-! ## What is written -/

theorem getD_bytea (bytes : List UInt8) : (bytea bytes).getD [] = bytes := by
  cases bytes <;> rfl

theorem notNull_eq_ok {column : String} {bytes bytes' : List UInt8}
    (h : notNull column bytes = .ok bytes') : bytes' = bytes := by
  cases bytes with
  | nil => cases h
  | cons byte bytes => exact (Except.ok.inj h).symm

/-- The checkpoint that is read back from a row: without the roster, the signers and the two roots
that have no column. -/
def stripped (cp : Pb.SignedCheckpoint) : Pb.SignedCheckpoint :=
  { cp with rosterSnapshot := [], signers := [], windowRoot := [], rosterHistoryRoot := [] }

/-- The row of a file holds its round, its end hash and its checkpoint without the two roots. -/
theorem recordFileRow_eq_ok (h : recordFileRow f = .ok row) :
    row.round = f.round.toInt64 ∧ row.endRunningHash = hashBytes f.endRunningHash ∧
      (fileOfRow row).checkpoint = f.checkpoint.map stripped := by
  simp only [recordFileRow, bind_eq_ok_iff] at h
  obtain ⟨start, -, -, -, finish, hfinish, -, -, -, -, -, -, hrow⟩ := h
  obtain rfl := Except.ok.inj hrow
  refine ⟨rfl, notNull_eq_ok hfinish, ?_⟩
  cases hcp : f.checkpoint with
  | none => simp [fileOfRow, hcp]
  | some cp => simp [fileOfRow, hcp, getD_bytea, stripped]

theorem insertItem_recordFiles {entry : Pb.RecordItem × ℕ}
    (h : insertItem round db entry = .ok db') : db'.recordFiles = db.recordFiles := by
  simp only [insertItem, bind_eq_ok_iff] at h
  obtain ⟨_, _, _, _, _, _, _, _, hdb⟩ := h
  rw [← Except.ok.inj hdb]

theorem insertDiff_recordFiles {diff : Pb.StateDiff} (h : insertDiff round db diff = .ok db') :
    db'.recordFiles = db.recordFiles := by
  simp only [insertDiff, bind_eq_ok_iff] at h
  obtain ⟨_, _, _, _, hdb⟩ := h
  rw [← Except.ok.inj hdb]

theorem insertSigner_recordFiles {signer : UInt64} (h : insertSigner round db signer = .ok db') :
    db'.recordFiles = db.recordFiles := by
  simp only [insertSigner, bind_eq_ok_iff] at h
  obtain ⟨_, _, _, _, hdb⟩ := h
  rw [← Except.ok.inj hdb]

theorem insertMember_recordFiles {entry : Pb.CheckpointRosterMember × ℕ}
    (h : insertMember round db entry = .ok db') : db'.recordFiles = db.recordFiles := by
  simp only [insertMember, bind_eq_ok_iff] at h
  obtain ⟨_, _, _, _, _, _, _, _, _, _, _, _, _, _, _, _, hdb⟩ := h
  rw [← Except.ok.inj hdb]

/-- Inserts into the child tables leave `record_files` alone. -/
theorem insertChildren_recordFiles (h : db.insertChildren f = .ok db') :
    db'.recordFiles = db.recordFiles := by
  rw [insertChildren, bind_eq_ok_iff] at h
  obtain ⟨db₁, hitems, h⟩ := h
  obtain ⟨db₂, hdiffs, h⟩ := bind_eq_ok_iff.mp h
  have hfiles₁ : db₁.recordFiles = db.recordFiles :=
    foldlM_keeps (fun _ _ _ hb hstep => (insertItem_recordFiles hstep).trans hb) rfl hitems
  have hfiles₂ : db₂.recordFiles = db.recordFiles :=
    foldlM_keeps (fun _ _ _ hb hstep => (insertDiff_recordFiles hstep).trans hb) hfiles₁ hdiffs
  cases hcp : f.checkpoint with
  | none =>
    rw [hcp] at h
    rw [← Except.ok.inj h, hfiles₂]
  | some cp =>
    rw [hcp] at h
    obtain ⟨db₃, hsigners, hmembers⟩ := bind_eq_ok_iff.mp h
    have hfiles₃ : db₃.recordFiles = db.recordFiles :=
      foldlM_keeps (fun _ _ _ hb hstep => (insertSigner_recordFiles hstep).trans hb) hfiles₂
        hsigners
    exact foldlM_keeps (fun _ _ _ hb hstep => (insertMember_recordFiles hstep).trans hb) hfiles₃
      hmembers

/-- A file of a round that is not stored adds its row. -/
theorem putRecord_eq_ok (h : db.putRecord f = .ok db')
    (hnew : ∀ row ∈ db.recordFiles, row.round ≠ f.round.toInt64) :
    ∃ row, recordFileRow f = .ok row ∧ db'.recordFiles = db.recordFiles ++ [row] := by
  rw [putRecord, bind_eq_ok_iff] at h
  obtain ⟨row, hrow, hput⟩ := h
  have hround := (recordFileRow_eq_ok hrow).1
  rw [if_neg] at hput
  · exact ⟨row, hrow, insertChildren_recordFiles hput⟩
  · simpa [hround] using hnew

/-! ## What is read back -/

theorem readRow_round : (db.readRow row).round = row.round.toUInt64 := rfl

theorem readRow_endRunningHash :
    (db.readRow row).endRunningHash = some (hashObject row.endRunningHash) := rfl

/-- The rows of the child tables are not part of the bytes that are signed. -/
theorem readRow_signingBytes (sha : Sha256) :
    (db.readRow row).checkpoint.map (checkpointSigningBytesHash sha) =
      (fileOfRow row).checkpoint.map (checkpointSigningBytesHash sha) := by
  simp only [readRow, attachCheckpoint, attachStateDiffs, attachRecordItems, Option.map_map]
  rfl

/-- The signed bytes survive if the two roots are zeros. -/
theorem checkpointSigningBytes_stripped {cp : Pb.SignedCheckpoint}
    (hwindow : copy32 cp.windowRoot = List.replicate 32 0)
    (hhistory : copy32 cp.rosterHistoryRoot = List.replicate 32 0) :
    checkpointSigningBytes (stripped cp) = checkpointSigningBytes cp := by
  simp only [checkpointSigningBytes, stripped, hwindow, hhistory]
  rfl

end PGStore

/-! ## Seeding -/

namespace Ingester

variable {records : List Pb.RecordStreamFile} {f : Pb.RecordStreamFile}

theorem higher_mem {best : Option Pb.RecordStreamFile} {g b : Pb.RecordStreamFile}
    (h : higher best g = some b) : b = g ∨ best = some b := by
  cases best with
  | none => exact .inl (Option.some.inj h).symm
  | some c =>
    rw [higher] at h
    split at h
    · exact .inl (Option.some.inj h).symm
    · exact .inr h

theorem foldl_higher_mem {best : Option Pb.RecordStreamFile} {b : Pb.RecordStreamFile}
    (h : records.foldl higher best = some b) : b ∈ records ∨ best = some b := by
  induction records generalizing best with
  | nil => exact .inr h
  | cons g records ih =>
    rcases ih h with hmem | hbest
    · exact .inl (List.mem_cons_of_mem g hmem)
    · rcases higher_mem hbest with rfl | hbest
      · exact .inl List.mem_cons_self
      · exact .inr hbest

/-- A record that is not below any other one stays the best. -/
theorem foldl_higher_of_le (hmax : ∀ g ∈ records, ¬g.round > f.round) :
    records.foldl higher (some f) = some f := by
  induction records with
  | nil => rfl
  | cons g records ih =>
    obtain ⟨hg, hrest⟩ := List.forall_mem_cons.mp hmax
    rw [List.foldl_cons, higher, if_neg hg]
    exact ih hrest

/-- A record above all others is the highest one, wherever it stands in the list. -/
theorem highest_eq (hf : f ∈ records) (hmax : ∀ g ∈ records, g.round < f.round ∨ g = f) :
    highest records = some f := by
  obtain ⟨before, behind, rfl⟩ := List.append_of_mem hf
  rw [highest, List.foldl_append, List.foldl_cons]
  have hhigher : higher (before.foldl higher none) f = some f := by
    cases hbest : before.foldl higher none with
    | none => rfl
    | some b =>
      have hb := (foldl_higher_mem hbest).resolve_right (by simp)
      rcases hmax b (List.mem_append_left _ hb) with hlt | rfl
      · exact if_pos hlt
      · exact if_neg (UInt64.lt_irrefl _)
  rw [hhigher]
  refine foldl_higher_of_le fun g hg => ?_
  rcases hmax g (List.mem_append_right _ (List.mem_cons_of_mem f hg)) with hlt | rfl
  · exact UInt64.lt_asymm hlt
  · exact UInt64.lt_irrefl _

theorem mem_foldl_insert {seen : ExtTreeSet ℕ} {r : ℕ} :
    r ∈ records.foldl (fun seen file => seen.insert file.round.toNat) seen ↔
      r ∈ seen ∨ ∃ f ∈ records, f.round.toNat = r := by
  induction records generalizing seen with
  | nil => simp
  | cons g records ih =>
    rw [List.foldl_cons, ih, ExtTreeSet.mem_insert, Nat.compare_eq_eq]
    simp only [List.mem_cons, exists_eq_or_imp]
    tauto

theorem new_of_nil {σ : Type} [Store σ] {store : σ} (sha : Sha256)
    (h : Store.listRecords store = []) : new sha store = unseeded store := by
  simp [new, seedFromStore, unseeded, h, highest]

/-- A new ingester takes the running hash and the checkpoint hash from the highest record. -/
theorem new_of_highest {σ : Type} [Store σ] {store : σ} (sha : Sha256) {finish : Digest}
    (h : highest (Store.listRecords store) = some f)
    (hfinish : hashFromPb f.endRunningHash = .ok finish) :
    new sha store = ⟨store, (Store.listRecords store).foldl
      (fun seen file => seen.insert file.round.toNat) ∅, ∅, some finish,
      f.checkpoint.map (checkpointSigningBytesHash sha)⟩ := by
  have hempty : (∅ : ExtTreeSet ℕ).isEmpty = true := ExtTreeSet.isEmpty_empty
  rw [new, seedFromStore, unseeded]
  simp only [hempty, Bool.not_true, Bool.false_eq_true, if_false, h, hfinish]
  cases f.checkpoint <;> rfl

/-! ## Runs -/

variable {sha : Sha256} {bls : Bls} {trusted : List UInt8} {ing : Ingester PGStore}

/-- The condition on a file: a poll finds it, its round is above the rounds that were stored unless it
is one of them, and the two roots of its checkpoint that are not stored are zeros. -/
def Bare (ing : Ingester PGStore) (entry : Entry) : Prop :=
  Listed ing entry ∧ ∀ f, entry.content = .ok f →
    (f.round.toNat ∉ ing.seenRecords → ∀ r ∈ ing.seenRecords, r < f.round.toNat) ∧
    ∀ cp, f.checkpoint = some cp → copy32 cp.windowRoot = List.replicate 32 0 ∧
      copy32 cp.rosterHistoryRoot = List.replicate 32 0

/-- The store agrees with the ingester: its rows are in the order of the rounds, they are the rounds
that were seen, and the last one is what the ingester expects to be continued. -/
structure Agrees (sha : Sha256) (ing : Ingester PGStore) : Prop where
  ascending : ing.store.recordFiles.Pairwise fun row row' =>
    row.round.toUInt64 < row'.round.toUInt64
  seen : ∀ r, r ∈ ing.seenRecords ↔ ∃ row ∈ ing.store.recordFiles, row.round.toUInt64.toNat = r
  genesis : ing.store.recordFiles = [] → ing.lastRecordEnd = none ∧ ing.expectedPrev = none
  lastEnd : ∀ row ∈ ing.store.recordFiles.getLast?, ∃ finish,
    hashFromPb (some (PGStore.hashObject row.endRunningHash)) = .ok finish ∧
      ing.lastRecordEnd = some finish
  prev : ∀ row ∈ ing.store.recordFiles.getLast?, ing.expectedPrev =
    (PGStore.fileOfRow row).checkpoint.map (checkpointSigningBytesHash sha)

/-- The hash object that is read back gives the digest of the one that was written. -/
theorem hashFromPb_hashObject {hash : Option Pb.HashObject} {digest : Digest}
    (h : hashFromPb hash = .ok digest) :
    hashFromPb (some (PGStore.hashObject (PGStore.hashBytes hash))) = .ok digest := by
  obtain ⟨h, rfl, -, -, hlen, hdigest⟩ := runningHashOrErr_eq_ok_iff.mp h
  exact runningHashOrErr_eq_ok_iff.mpr ⟨_, rfl, rfl, rfl, hlen, hdigest⟩

theorem Agrees.advanced {f : Pb.RecordStreamFile} {cp : Pb.SignedCheckpoint} {finish : Digest}
    {store : PGStore} (h : Agrees sha ing) (hnew : f.round.toNat ∉ ing.seenRecords)
    (habove : ∀ r ∈ ing.seenRecords, r < f.round.toNat)
    (hwindow : copy32 cp.windowRoot = List.replicate 32 0)
    (hhistory : copy32 cp.rosterHistoryRoot = List.replicate 32 0)
    (htakes : ing.Takes sha bls trusted f cp finish store) :
    Agrees sha (ing.advanced sha f.round.toNat cp finish store) := by
  have hrounds : ∀ row ∈ ing.store.recordFiles, row.round ≠ f.round.toInt64 := by
    intro row hrow heq
    exact hnew ((h.seen _).mpr ⟨row, hrow, by rw [heq]; rfl⟩)
  obtain ⟨row, hrow, hfiles⟩ := PGStore.putRecord_eq_ok htakes.stored hrounds
  obtain ⟨hround, hend, hcheckpoint⟩ := PGStore.recordFileRow_eq_ok hrow
  have hlast : store.recordFiles.getLast? = some row := by
    rw [hfiles, List.getLast?_append, List.getLast?_singleton]
    rfl
  have hrow' : row.round.toUInt64 = f.round := by rw [hround]; rfl
  constructor
  · change store.recordFiles.Pairwise _
    rw [hfiles, List.pairwise_append]
    refine ⟨h.ascending, List.pairwise_singleton _ _, fun row' hmem row'' hmem' => ?_⟩
    rw [List.mem_singleton.mp hmem', hrow', UInt64.lt_iff_toNat_lt]
    exact habove _ ((h.seen _).mpr ⟨row', hmem, rfl⟩)
  · intro r
    change r ∈ ing.seenRecords.insert f.round.toNat ↔ ∃ row ∈ store.recordFiles, _
    rw [hfiles, ExtTreeSet.mem_insert, Nat.compare_eq_eq, h.seen]
    simp only [List.mem_append, List.mem_singleton, or_and_right, exists_or, exists_eq_left, hrow']
    exact or_comm
  · intro hnil
    change store.recordFiles = [] at hnil
    rw [hfiles] at hnil
    simp at hnil
  · intro row' hmem
    change row' ∈ store.recordFiles.getLast? at hmem
    rw [hlast, Option.mem_some_iff] at hmem
    subst hmem
    exact ⟨finish, hend ▸ hashFromPb_hashObject htakes.finish, rfl⟩
  · intro row' hmem
    change row' ∈ store.recordFiles.getLast? at hmem
    rw [hlast, Option.mem_some_iff] at hmem
    subst hmem
    rw [hcheckpoint, htakes.checkpoint, Option.map_some, Option.map_some,
      checkpointSigningBytesHash, PGStore.checkpointSigningBytes_stripped hwindow hhistory]
    rfl

theorem mem_listRecords {db : PGStore} {f : Pb.RecordStreamFile} :
    f ∈ db.listRecords ↔ ∃ row ∈ db.recordFiles, db.readRow row = f := by
  rw [PGStore.listRecords, List.mem_map]
  simp only [List.mem_insertionSort]

/-- The last row is the highest record that is read back. -/
theorem Agrees.highest_listRecords (h : Agrees sha ing) {row : RecordFileRow}
    (hlast : row ∈ ing.store.recordFiles.getLast?) :
    highest ing.store.listRecords = some (ing.store.readRow row) := by
  obtain ⟨rows, hrows⟩ := List.getLast?_eq_some_iff.mp hlast
  refine highest_eq (mem_listRecords.mpr ⟨row, List.mem_of_getLast? hlast, rfl⟩) fun g hg => ?_
  obtain ⟨row', hrow', rfl⟩ := mem_listRecords.mp hg
  have hascending := h.ascending
  rw [hrows, List.pairwise_append] at hascending
  rw [hrows, List.mem_append, List.mem_singleton] at hrow'
  rcases hrow' with hrow' | rfl
  · exact .inl (hascending.2.2 row' hrow' row (List.mem_singleton_self row))
  · exact .inr rfl

/-- A new ingester on a store that agrees with an idle one is that one. -/
theorem Agrees.new_eq (h : Agrees sha ing) (hidle : ing.inFlightRecords = ∅) :
    new sha ing.store = ing := by
  have hseen : ing.store.listRecords.foldl (fun seen file => seen.insert file.round.toNat) ∅ =
      ing.seenRecords := by
    refine ExtTreeSet.ext_mem fun r => ?_
    rw [mem_foldl_insert, h.seen]
    constructor
    · rintro (hmem | ⟨f, hf, hround⟩)
      · exact absurd hmem ExtTreeSet.not_mem_empty
      · obtain ⟨row, hrow, rfl⟩ := mem_listRecords.mp hf
        exact ⟨row, hrow, hround⟩
    · rintro ⟨row, hrow, hround⟩
      exact .inr ⟨_, mem_listRecords.mpr ⟨row, hrow, rfl⟩, hround⟩
  cases hlast : ing.store.recordFiles.getLast? with
  | none =>
    have hnil := List.getLast?_eq_none_iff.mp hlast
    obtain ⟨hend, hprev⟩ := h.genesis hnil
    have hrecords : ing.store.listRecords = [] := by
      rw [PGStore.listRecords, hnil]
      rfl
    rw [hrecords, List.foldl_nil] at hseen
    rw [new_of_nil sha hrecords]
    exact Ingester.ext rfl hseen hidle.symm hend.symm hprev.symm
  | some row =>
    obtain ⟨finish, hfinish, hend⟩ := h.lastEnd row hlast
    rw [new_of_highest sha (h.highest_listRecords hlast) hfinish]
    exact Ingester.ext rfl hseen hidle.symm hend.symm
      ((PGStore.readRow_signingBytes sha).trans (h.prev row hlast).symm)

/-- A restart of the mirror on the PostgreSQL store is not noticed, as long as the rounds are stored
in increasing order and the two roots that are not stored are zeros: the new ingester has the same
seen rounds and expects the same running hash and the same checkpoint hash. -/
theorem restart_resumes (h : Reached sha bls trusted Bare (new sha PGStore.new) ing) :
    new sha ing.store = ing := by
  have hstart : Agrees sha (new sha PGStore.new) := by
    rw [new_of_nil sha rfl]
    refine ⟨List.Pairwise.nil, fun r => ?_, fun _ => ⟨rfl, rfl⟩, fun row hrow => ?_,
      fun row hrow => ?_⟩
    · simp [unseeded, PGStore.new]
    · cases hrow
    · cases hrow
  obtain ⟨hagrees, hidle⟩ := h.rule (fun _ _ hbare => hbare.1) rfl hstart
    fun _ entry f cp _ _ hI hbare _ hcontent hseen htakes => by
      obtain ⟨habove, hroots⟩ := hbare.2 f hcontent
      obtain ⟨hwindow, hhistory⟩ := hroots cp htakes.checkpoint
      exact hI.advanced hseen (habove hseen) hwindow hhistory htakes
  exact hagrees.new_eq hidle

/-- Two ingesters on one store: the one that has stored the first round of `twoRoundsDir`, and the one
that is started on its store. The window root of the checkpoint is not zeros, and only the first of
them takes the file of the second round. -/
theorem restart_forgets_window_root :
    let ing := (new rollingHash PGStore.new).runOnce rollingHash twoSigned soloTrusted
      twoRoundsDir 1
    let restarted := new rollingHash ing.store
    Polled rollingHash twoSigned soloTrusted (new rollingHash PGStore.new) ing ∧
      ing.seenRecords.toList = [1] ∧ restarted.seenRecords.toList = [1] ∧
      restarted.expectedPrev ≠ ing.expectedPrev ∧
      (ing.runOnce rollingHash twoSigned soloTrusted twoRoundsDir 2).seenRecords.toList = [1, 2] ∧
      (restarted.runOnce rollingHash twoSigned soloTrusted twoRoundsDir 2).seenRecords.toList =
        [1] := by
  refine ⟨.runOnce .start twoRoundsDir 1, ?_⟩
  decide +kernel

/-- The payload of a first round without the two roots. -/
def barePayload : CheckpointPayload := soloPayload 1 (oneItem 7) 0 0

/-- The file of that round. -/
def bareEntry : Entry := ⟨recordFileName 1, false, .ok (soloFile barePayload 0 (oneItem 7))⟩

theorem restart_resumes_bare :
    let bls := signsOnly [barePayload.signingBytes]
    let ing := finalState (ingestRecord rollingHash bls soloTrusted ⟨[], fun _ => .absent⟩
      bareEntry (new rollingHash PGStore.new))
    ing.seenRecords.toList = [1] ∧ new rollingHash ing.store = ing := by
  refine ⟨by decide +kernel, ?_⟩
  have hlisted : (recordFileRound bareEntry.name).isSome := by decide +kernel
  refine restart_resumes (.file .start _ bareEntry ⟨hlisted, fun f hf => ?_⟩)
  obtain rfl := Except.ok.inj hf
  refine ⟨fun _ r hr => absurd hr ?_, fun cp hcp => ?_⟩
  · rw [new_of_nil rollingHash rfl]
    exact ExtTreeSet.not_mem_empty
  · obtain rfl := Option.some.inj hcp
    decide +kernel

end Ingester

end JKain.Mirror
