import JKain.Mirror.Ingest
import JKain.Mirror.VerifySpec

/-!
# What a poll of the mirror does

`Ingester.Takes` is everything that is checked of a file before it is stored, and `ingestRecord_cases`
is all that can happen to the ingester: nothing, or one such file is stored. The check that is
repeated behind the store cannot fail, so that no failure leaves a stored file half recorded.
-/

namespace JKain.Mirror

open Std Lib JKain.Stream

namespace Ingester

variable {σ : Type} {ing : Ingester σ}

theorem checkStart_eq_ok {path : String} {start : Digest}
    (h : ing.checkStart path start = .ok ()) : start = ing.lastRecordEnd.getD chainSeed := by
  rw [checkStart] at h
  cases hlast : ing.lastRecordEnd with
  | none =>
    rw [hlast] at h
    exact check_eq_ok_iff.mp h
  | some expected =>
    rw [hlast] at h
    exact check_eq_ok_iff.mp h

theorem prevMatches_eq_ok_iff {cp : Pb.SignedCheckpoint} :
    ing.prevMatches cp = .ok () ↔
      cp.prevCheckpointHash.length = 32 ∧
        fromBe cp.prevCheckpointHash = ing.expectedPrev.getD 0 := by
  rw [prevMatches, check_bind_eq_ok_iff, check_eq_ok_iff]

variable [Store σ] {sha : Sha256} {bls : Bls} {trusted : List UInt8} {dir : StreamsDir}
  {f : Pb.RecordStreamFile}

/-- A file that is stored, with the checkpoint in it, the running hash behind it and the store
behind it. -/
structure Takes (sha : Sha256) (bls : Bls) (trusted : List UInt8) (ing : Ingester σ)
    (f : Pb.RecordStreamFile) (cp : Pb.SignedCheckpoint) (finish : Digest) (store : σ) : Prop where
  start : hashFromPb f.startRunningHash = .ok (ing.lastRecordEnd.getD chainSeed)
  finish : hashFromPb f.endRunningHash = .ok finish
  verified : verifyRecordFile sha bls f trusted = .ok ()
  checkpoint : f.checkpoint = some cp
  prev_length : cp.prevCheckpointHash.length = 32
  prev : fromBe cp.prevCheckpointHash = ing.expectedPrev.getD 0
  stored : Store.putRecord ing.store f = .ok store

/-- The ingester behind a file that was stored. -/
def taken (sha : Sha256) (ing : Ingester σ) (cp : Pb.SignedCheckpoint) (finish : Digest)
    (store : σ) : Ingester σ :=
  { ing with
    store := store
    lastRecordEnd := some finish
    expectedPrev := some (checkpointSigningBytesHash sha cp) }

variable (sha) in
/-- `checkPrev` leaves the ingester as it is if it fails, and moves the expected hash on if it is
told to. -/
theorem checkPrev_cases (cp : Pb.SignedCheckpoint) (commit : Bool) (ing : Ingester σ) :
    (∃ text, ing.prevMatches cp = .error text ∧ checkPrev sha cp commit ing = .error text ing) ∨
      ing.prevMatches cp = .ok () ∧
        checkPrev sha cp commit ing = .ok () (if commit then
          { ing with expectedPrev := some (checkpointSigningBytesHash sha cp) } else ing) := by
  rw [checkPrev, get_bind]
  cases hprev : ing.prevMatches cp with
  | error text => exact .inl ⟨text, rfl, fromExcept_error_bind⟩
  | ok u =>
    refine .inr ⟨rfl, fromExcept_ok_bind.trans ?_⟩
    cases commit <;> rfl

/-- The end of a run that handles a file: it fails and nothing has changed, or the file is stored
with all that goes with it. -/
def Handles (sha : Sha256) (bls : Bls) (trusted : List UInt8) (ing : Ingester σ)
    (f : Pb.RecordStreamFile) (result : EStateM.Result String (Ingester σ) Unit) : Prop :=
  (∃ text, result = .error text ing) ∨
    ∃ cp finish store, Takes sha bls trusted ing f cp finish store ∧
      result = .ok () (taken sha ing cp finish store)

/-- A read in front: nothing has changed if it fails. -/
theorem Handles.read {α : Type} {x : Except String α} {k : α → IngestM σ Unit}
    (h : ∀ a, x = .ok a → Handles sha bls trusted ing f (k a ing)) :
    Handles sha bls trusted ing f ((fromExcept x >>= k) ing) := by
  cases hx : x with
  | error text => exact .inl ⟨text, fromExcept_error_bind⟩
  | ok a =>
    rw [fromExcept_ok_bind]
    exact h a hx

theorem ingestFile_handles (ing : Ingester σ) (dir : StreamsDir) (path : String)
    (f : Pb.RecordStreamFile) :
    Handles sha bls trusted ing f (ingestFile sha bls trusted dir path f ing) := by
  refine .read fun start hstart => .read fun finish hfinish => ?_
  rw [get_bind]
  refine .read fun _ hlink => .read fun _ hverify => ?_
  have hverified := mapError_eq_ok_iff.mp hverify
  obtain ⟨-, -, -, -, cp, -, -, -, hcp, -⟩ := verifyRecordFile_eq_ok_iff.mp hverified
  simp only [checkFilePrev, hcp]
  rcases checkPrev_cases sha cp false ing with ⟨text, -, hrun⟩ | ⟨hprev, hrun⟩
  · exact .inl ⟨text, bind_eq_of_error hrun⟩
  rw [bind_eq_of_ok hrun]
  refine .read fun _ _ => .read fun _ _ => ?_
  rw [putRecord, bind_assoc, get_bind, bind_assoc]
  refine .read fun store hstore => ?_
  -- The store leaves the expected hash alone, so that the second check passes as the first did.
  have hagain : prevMatches { ing with store := store } cp = .ok () := hprev
  have hcommit : checkPrev sha cp true { ing with store := store } = .ok ()
      { ing with
        store := store
        expectedPrev := some (checkpointSigningBytesHash sha cp) } := by
    rcases checkPrev_cases sha cp true { ing with store := store } with
      ⟨text, herror, -⟩ | ⟨-, hrun⟩
    · rw [hagain] at herror
      cases herror
    · exact hrun
  obtain ⟨hlength, hexpected⟩ := prevMatches_eq_ok_iff.mp hprev
  refine .inr ⟨cp, finish, store, ⟨?_, mapError_eq_ok_iff.mp hfinish, hverified, hcp, hlength,
    hexpected, hstore⟩, ?_⟩
  · rw [mapError_eq_ok_iff.mp hstart, checkStart_eq_ok hlink]
  · exact (bind_eq_of_ok rfl).trans (bind_eq_of_ok hcommit)

/-- The ingester behind a file of the given round that was stored. -/
def advanced (sha : Sha256) (ing : Ingester σ) (index : ℕ) (cp : Pb.SignedCheckpoint)
    (finish : Digest) (store : σ) : Ingester σ :=
  { taken sha ing cp finish store with seenRecords := ing.seenRecords.insert index }

theorem erase_insert_of_notMem {s : ExtTreeSet ℕ} {i : ℕ} (h : i ∉ s) :
    (s.insert i).erase i = s := by
  refine ExtTreeSet.ext_mem fun k => ?_
  rw [ExtTreeSet.mem_erase, ExtTreeSet.mem_insert, ne_eq, Nat.compare_eq_eq]
  constructor
  · rintro ⟨hne, heq | hk⟩
    · exact absurd heq hne
    · exact hk
  · intro hk
    exact ⟨fun heq => h (heq ▸ hk), .inr hk⟩

/-- A claimed file fails without a trace, or it is stored under its round and the claim is
confirmed. -/
theorem ingestClaimed_cases (ing : Ingester σ) (dir : StreamsDir) (entry : Entry) (index : ℕ) :
    (∃ text, ingestClaimed sha bls trusted dir entry index ing = .error text ing) ∨
      ∃ f cp finish store, entry.content = .ok f ∧ f.round.toNat = index ∧
        Takes sha bls trusted ing f cp finish store ∧
        ingestClaimed sha bls trusted dir entry index ing = .ok ()
          { advanced sha ing index cp finish store with
            inFlightRecords := ing.inFlightRecords.erase index } := by
  rw [ingestClaimed]
  cases hcontent : entry.content with
  | error text => exact .inl ⟨text, fromExcept_error_bind⟩
  | ok f =>
    rw [fromExcept_ok_bind]
    cases hround : (check (f.round.toNat = index) _ : Except String Unit) with
    | error text => exact .inl ⟨text, fromExcept_error_bind⟩
    | ok u =>
      rw [fromExcept_ok_bind]
      rcases ingestFile_handles ing dir (String.ofList entry.name) f with
        ⟨text, hrun⟩ | ⟨cp, finish, store, htakes, hrun⟩
      · exact .inl ⟨text, bind_eq_of_error hrun⟩
      · exact .inr ⟨f, cp, finish, store, rfl, check_eq_ok_iff.mp hround, htakes,
          bind_eq_of_ok hrun⟩

/-- All that can happen to a file whose name has an index: nothing, or it is stored under the round
in its name, which was not stored before. -/
theorem ingestRecord_cases (dir : StreamsDir) {entry : Entry} {index : ℕ}
    (hname : recordFileRound entry.name = some index) (hidle : index ∉ ing.inFlightRecords) :
    finalState (ingestRecord sha bls trusted dir entry ing) = ing ∨
      ∃ f cp finish store, entry.content = .ok f ∧ f.round.toNat = index ∧
        index ∉ ing.seenRecords ∧ Takes sha bls trusted ing f cp finish store ∧
        finalState (ingestRecord sha bls trusted dir entry ing) =
          advanced sha ing index cp finish store := by
  simp only [ingestRecord, hname]
  by_cases hseen : index ∈ ing.seenRecords
  · have hclaim : tryClaim index ing = .ok false ing := by
      rw [tryClaim, get_bind, if_pos (.inl hseen)]
      rfl
    exact .inl (congrArg finalState (bind_eq_of_ok hclaim))
  · have hclaim : tryClaim index ing = .ok true
        { ing with inFlightRecords := ing.inFlightRecords.insert index } := by
      rw [tryClaim, get_bind, if_neg (not_or.mpr ⟨hseen, hidle⟩)]
      rfl
    rw [bind_eq_of_ok hclaim]
    have hrelease := erase_insert_of_notMem hidle
    rcases ingestClaimed_cases { ing with inFlightRecords := ing.inFlightRecords.insert index }
      dir entry index with ⟨text, hrun⟩ | ⟨f, cp, finish, store, hcontent, hround, htakes, hrun⟩
    · rw [if_pos rfl, tryCatch_eq_of_error hrun]
      refine .inl ((congrArg finalState (bind_eq_of_ok rfl)).trans ?_)
      exact congrArg (fun claims => { ing with inFlightRecords := claims }) hrelease
    · refine .inr ⟨f, cp, finish, store, hcontent, hround, hseen, { htakes with }, ?_⟩
      rw [if_pos rfl, tryCatch_eq_of_ok hrun]
      exact congrArg (fun claims => { advanced sha ing index cp finish store with
        inFlightRecords := claims }) hrelease

/-! ## Runs -/

/-- The ingesters reached from a given one by handling files one after the other, each of them under
the condition `P`. -/
inductive Reached (sha : Sha256) (bls : Bls) (trusted : List UInt8) (P : Ingester σ → Entry → Prop)
    (start : Ingester σ) : Ingester σ → Prop
  | start : Reached sha bls trusted P start start
  | file {ing : Ingester σ} (h : Reached sha bls trusted P start ing) (dir : StreamsDir)
      (entry : Entry) (hfile : P ing entry) :
      Reached sha bls trusted P start (finalState (ingestRecord sha bls trusted dir entry ing))

/-- A poll finds the file: its name has an index. -/
def Listed (_ : Ingester σ) (entry : Entry) : Prop := (recordFileRound entry.name).isSome

/-- The ingesters reached from a given one by polls. The directory is another one in each poll. -/
inductive Polled (sha : Sha256) (bls : Bls) (trusted : List UInt8) (start : Ingester σ) :
    Ingester σ → Prop
  | start : Polled sha bls trusted start start
  | runOnce {ing : Ingester σ} (h : Polled sha bls trusted start ing) (dir : StreamsDir)
      (limit : ℕ) : Polled sha bls trusted start (ing.runOnce sha bls trusted dir limit)

/-- Every file a poll handles is listed under an index. -/
theorem isSome_of_mem_listRecordFiles {entry : Entry} (h : entry ∈ listRecordFiles dir) :
    (recordFileRound entry.name).isSome := by
  rw [listRecordFiles, List.mem_map] at h
  obtain ⟨⟨index, entry⟩, hmem, rfl⟩ := h
  rw [List.mem_insertionSort, List.mem_filterMap] at hmem
  obtain ⟨entry', -, hsome⟩ := hmem
  split at hsome
  · cases hsome
  · obtain ⟨index', hindex, heq⟩ := Option.map_eq_some_iff.mp hsome
    obtain ⟨rfl, rfl⟩ := Prod.mk.inj heq
    exact Option.isSome_of_eq_some hindex

/-- Listed files handled one after the other. -/
theorem Reached.files {start : Ingester σ} (dir : StreamsDir) (entries : List Entry)
    (hlisted : ∀ entry ∈ entries, (recordFileRound entry.name).isSome)
    (h : Reached sha bls trusted Listed start ing) :
    Reached sha bls trusted Listed start (entries.foldl
      (fun ing entry => finalState (ingestRecord sha bls trusted dir entry ing)) ing) := by
  induction entries generalizing ing with
  | nil => exact h
  | cons entry entries ih =>
    obtain ⟨hentry, hrest⟩ := List.forall_mem_cons.mp hlisted
    exact ih hrest (h.file dir entry hentry)

theorem Polled.reached {start : Ingester σ} (h : Polled sha bls trusted start ing) :
    Reached sha bls trusted Listed start ing := by
  induction h with
  | start => exact .start
  | runOnce _ dir limit ih =>
    exact ih.files dir _ fun entry hentry =>
      isSome_of_mem_listRecordFiles (List.mem_of_mem_take hentry)

/-- What holds of the first ingester and is kept by every file that is stored holds of every ingester
reached; between two files no claim is open. -/
theorem Reached.rule {P : Ingester σ → Entry → Prop} {I : Ingester σ → Prop} {start : Ingester σ}
    (hlisted : ∀ ing entry, P ing entry → Listed ing entry) (hidle : start.inFlightRecords = ∅)
    (hstart : I start)
    (hstep : ∀ (ing : Ingester σ) (entry : Entry) (f : Pb.RecordStreamFile)
      (cp : Pb.SignedCheckpoint) (finish : Digest) (store : σ), I ing → P ing entry →
      recordFileRound entry.name = some f.round.toNat → entry.content = .ok f →
      f.round.toNat ∉ ing.seenRecords → Takes sha bls trusted ing f cp finish store →
      I (advanced sha ing f.round.toNat cp finish store))
    (h : Reached sha bls trusted P start ing) : I ing ∧ ing.inFlightRecords = ∅ := by
  induction h with
  | start => exact ⟨hstart, hidle⟩
  | file _ dir entry hfile ih =>
    obtain ⟨hI, hempty⟩ := ih
    obtain ⟨index, hindex⟩ := Option.isSome_iff_exists.mp (hlisted _ _ hfile)
    rcases ingestRecord_cases dir hindex (by rw [hempty]; exact ExtTreeSet.not_mem_empty)
      with hsame | ⟨f, cp, finish, store, hcontent, rfl, hseen, htakes, hnext⟩
    · rw [hsame]
      exact ⟨hI, hempty⟩
    · rw [hnext]
      exact ⟨hstep _ entry f cp finish store hI hfile hindex hcontent hseen htakes, hempty⟩

end Ingester

end JKain.Mirror
