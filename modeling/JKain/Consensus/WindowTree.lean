import JKain.Consensus.PaddedTree
import JKain.Consensus.Run
import JKain.Lib.Checks

/-!
# The window root commits to the window

A leaf of the window tree is the hash of a string that starts with a domain tag. Its fields have a
fixed length, up to two optional numbers that are tagged and the row, whose length is the width of
the roster at the round. So the root determines which events are ordered in which round of the
window, and for each of them everything that its leaf holds.
-/

namespace JKain

open Std Lib

/-! ## The strings of the leaves -/

/-- What the leaf of an ordered event holds. -/
structure WindowEntry where
  hash : EventHash
  seq : ℕ
  round : ℕ
  roundReceived : Option ℕ
  consensusTimestamp : Option Timestamp
  row : List ℕ

namespace WindowEntry

/-- The string hashed by `window_leaf_hash`. -/
def bytes (width : ℕ) (entry : WindowEntry) : List UInt8 :=
  windowRootDst ++ digestBytes entry.hash ++ beBytes 8 entry.seq ++ beBytes 8 entry.round ++
    taggedBytes entry.roundReceived ++ taggedBytes entry.consensusTimestamp ++ beBytes 4 width ++
    entry.row.flatMap (beBytes 8)

/-- An entry whose numbers are within their types. -/
structure Bounded (width : ℕ) (entry : WindowEntry) : Prop where
  hash : entry.hash < 256 ^ 32
  seq : entry.seq < 256 ^ 8
  round : entry.round < 256 ^ 8
  roundReceived : ∀ n ∈ entry.roundReceived, n < 256 ^ 8
  consensusTimestamp : ∀ n ∈ entry.consensusTimestamp, n < 256 ^ 8
  length_row : entry.row.length = width
  row : ∀ n ∈ entry.row, n < 256 ^ 8

end WindowEntry

/-- The tag of an optional number says how long it is. -/
theorem taggedBytes_append_inj {n n' : Option ℕ} (h : ∀ k ∈ n, k < 256 ^ 8)
    (h' : ∀ k ∈ n', k < 256 ^ 8) {rest rest' : List UInt8}
    (heq : taggedBytes n ++ rest = taggedBytes n' ++ rest') : n = n' ∧ rest = rest' := by
  cases n with
  | none =>
    cases n' with
    | none => exact ⟨rfl, (List.cons.inj heq).2⟩
    | some k' => exact absurd (List.cons.inj heq).1 (by decide)
  | some k =>
    cases n' with
    | none => exact absurd (List.cons.inj heq).1 (by decide)
    | some k' =>
      obtain ⟨hk, hrest⟩ := List.append_inj (List.cons.inj heq).2 (by simp)
      exact ⟨congrArg some (beBytes_injOn (h k rfl) (h' k' rfl) hk), hrest⟩

/-- Rows of one length with the same bytes are the same. -/
theorem flatMap_beBytes_inj {row row' : List ℕ} (hlen : row.length = row'.length)
    (h : ∀ n ∈ row, n < 256 ^ 8) (h' : ∀ n ∈ row', n < 256 ^ 8)
    (heq : row.flatMap (beBytes 8) = row'.flatMap (beBytes 8)) : row = row' := by
  induction row generalizing row' with
  | nil => exact (List.length_eq_zero_iff.mp hlen.symm).symm
  | cons n row ih =>
    cases row' with
    | nil => exact absurd hlen (by simp)
    | cons n' row' =>
      obtain ⟨hn, hrow⟩ := List.forall_mem_cons.mp h
      obtain ⟨hn', hrow'⟩ := List.forall_mem_cons.mp h'
      rw [List.flatMap_cons, List.flatMap_cons] at heq
      obtain ⟨hhead, htail⟩ := List.append_inj heq (by simp)
      rw [beBytes_injOn hn hn' hhead, ih (by simpa using hlen) hrow hrow' htail]

namespace WindowEntry

variable {width : ℕ} {entry entry' : WindowEntry}

theorem bytes_injOn (h : entry.Bounded width) (h' : entry'.Bounded width)
    (heq : entry.bytes width = entry'.bytes width) : entry = entry' := by
  simp only [bytes, List.append_assoc] at heq
  have heq := List.append_cancel_left heq
  obtain ⟨hhash, heq⟩ := List.append_inj heq (by simp)
  obtain ⟨hseq, heq⟩ := List.append_inj heq (by simp)
  obtain ⟨hround, heq⟩ := List.append_inj heq (by simp)
  obtain ⟨hreceived, heq⟩ := taggedBytes_append_inj h.roundReceived h'.roundReceived heq
  obtain ⟨htimestamp, heq⟩ :=
    taggedBytes_append_inj h.consensusTimestamp h'.consensusTimestamp heq
  have heq := List.append_cancel_left heq
  have hhash := digestBytes_injOn h.hash h'.hash hhash
  have hseq := beBytes_injOn h.seq h'.seq hseq
  have hround := beBytes_injOn h.round h'.round hround
  have hrow := flatMap_beBytes_inj (h.length_row.trans h'.length_row.symm) h.row h'.row heq
  cases entry
  cases entry'
  simp_all

/-- The tag starts with a letter. -/
theorem head?_bytes (width : ℕ) (entry : WindowEntry) :
    (entry.bytes width).head? = some 0x4A := by
  have hdst : windowRootDst.head? = some 0x4A := by decide +kernel
  simp only [bytes, List.append_assoc, List.head?_append, hdst, Option.some_or]

theorem leafStrings_bytes (width : ℕ) :
    LeafStrings fun entry : {entry : WindowEntry // entry.Bounded width} =>
      entry.val.bytes width where
  inj entry entry' h := Subtype.ext (bytes_injOn entry.2 entry'.2 h)
  long entry := by
    simp only [bytes, List.length_append, length_digestBytes]
    omega
  not_single entry := by
    rw [head?_bytes]
    decide
  not_node entry := by
    rw [head?_bytes]
    decide

end WindowEntry

namespace Hashgraph

/-! ## The entries of the window -/

section Entries

variable (g : Hashgraph) (width round windowRounds : ℕ)

/-- What the leaf of a stored event holds. -/
def windowEntryOf (hash : EventHash) : Option WindowEntry :=
  (g.get? hash).map fun record =>
    ⟨hash, record.seq, record.round, record.roundReceived, record.consensusTimestamp,
      normalizedRow record.ancestorSeqs width⟩

/-- What the leaves of the window hold, in the order of the leaves. -/
def windowEntries : List WindowEntry :=
  (g.windowEvents round windowRounds).filterMap (g.windowEntryOf width)

/-- The strings hashed for the window root. -/
def windowMessages (sha : Sha256) : List (List UInt8) :=
  let width := (g.memberCountAtRound round).toOption.getD 0
  paddedMessages sha ((g.windowEntries width round windowRounds).map (WindowEntry.bytes width))

/-- The numbers of the stored records are within their types. -/
def Typed : Prop :=
  ∀ {x r}, g.get? x = some r → x < 256 ^ 32 ∧ r.seq < 256 ^ 8 ∧ r.round < 256 ^ 8 ∧
    (∀ n ∈ r.roundReceived, n < 256 ^ 8) ∧ (∀ n ∈ r.consensusTimestamp, n < 256 ^ 8) ∧
    ∀ n ∈ r.ancestorSeqs, n < 256 ^ 8

end Entries

variable {g g' : Hashgraph} {sha : Sha256} {width round windowRounds n : ℕ} {x : EventHash}

theorem mem_windowEvents : x ∈ g.windowEvents round windowRounds ↔
    ∃ n, round - windowRounds ≤ n ∧ n ≤ round ∧ g.roundReceived x = some n := by
  rw [windowEvents, List.mem_flatMap]
  simp only [List.mem_range'_1, mem_consensusOrder]
  constructor
  · rintro ⟨n, hn, hx⟩
    exact ⟨n, hn.1, by omega, hx⟩
  · rintro ⟨n, hlow, hhigh, hx⟩
    exact ⟨n, ⟨hlow, by omega⟩, hx⟩

/-- The events of the window are stored. -/
theorem exists_of_mem_windowEvents (h : x ∈ g.windowEvents round windowRounds) :
    ∃ r, g.get? x = some r := by
  obtain ⟨n, -, -, hx⟩ := mem_windowEvents.mp h
  obtain ⟨r, hr, -⟩ := Option.bind_eq_some_iff.mp hx
  exact ⟨r, hr⟩

/-- The leaves are the hashes of the strings of the entries. -/
theorem mapM_windowLeaf {l : List EventHash} (h : ∀ x ∈ l, ∃ r, g.get? x = some r) :
    l.mapM (g.windowLeaf sha width) =
      .ok (((l.filterMap (g.windowEntryOf width)).map (WindowEntry.bytes width)).map sha) := by
  induction l with
  | nil => rfl
  | cons x l ih =>
    obtain ⟨⟨r, hr⟩, hl⟩ := List.forall_mem_cons.mp h
    have hentry : g.windowEntryOf width x = some ⟨x, r.seq, r.round, r.roundReceived,
        r.consensusTimestamp, normalizedRow r.ancestorSeqs width⟩ := by
      rw [windowEntryOf, hr]
      rfl
    rw [List.filterMap_cons_some hentry, List.mapM_cons, ih hl, windowLeaf, hr]
    rfl

/-- There is one entry for each event of the window. -/
theorem map_hash_windowEntries (width : ℕ) :
    (g.windowEntries width round windowRounds).map WindowEntry.hash =
      g.windowEvents round windowRounds := by
  rw [windowEntries, List.map_filterMap]
  refine (List.filterMap_congr fun x hx => ?_).trans List.filterMap_some
  obtain ⟨r, hr⟩ := exists_of_mem_windowEvents hx
  rw [windowEntryOf, hr]
  rfl

/-- The window root is the root over the entries. Without entries the width is not read. -/
theorem windowRoot_eq {root : Digest}
    (hwidth : (g.memberCountAtRound round).toOption.getD 0 = width)
    (h : g.tryComputeWindowRoot sha round windowRounds = .ok (.ok root)) :
    root = paddedRoot sha
      (((g.windowEntries width round windowRounds).map (WindowEntry.bytes width)).map sha) := by
  rw [tryComputeWindowRoot] at h
  split at h
  · rename_i hempty
    rw [windowEntries, List.isEmpty_iff.mp hempty]
    exact (Except.ok.inj (Except.ok.inj h)).symm
  · obtain ⟨count, hcount, h⟩ := bind_eq_ok_iff.mp h
    rw [hcount] at hwidth
    obtain rfl : count = width := hwidth
    obtain ⟨width, hfits, h⟩ := bind_eq_ok_iff.mp (Except.ok.inj h)
    obtain ⟨leaves, hleaves, h⟩ := bind_eq_ok_iff.mp h
    obtain rfl : count = width := by
      rw [tryU32] at hfits
      split at hfits
      · exact Except.ok.inj hfits
      · cases hfits
    rw [mapM_windowLeaf fun _ => exists_of_mem_windowEvents] at hleaves
    obtain rfl := Except.ok.inj hleaves
    exact (Except.ok.inj h).symm

/-- A round of the window is the part of the window with its number. -/
theorem consensusOrder_eq_filter (hlow : round - windowRounds ≤ n) (hhigh : n ≤ round) :
    g.consensusOrder n =
      (g.windowEvents round windowRounds).filter fun x => g.roundReceived x == some n := by
  have hrange : List.range' (round - windowRounds) (round + 1 - (round - windowRounds)) =
      List.range' (round - windowRounds) (n - (round - windowRounds)) ++
        n :: List.range' (n + 1) (round - n) := by
    have hlen : round + 1 - (round - windowRounds) =
        (n - (round - windowRounds)) + (round - n + 1) := by omega
    have hstart : round - windowRounds + (n - (round - windowRounds)) = n := by omega
    rw [hlen, ← List.range'_append_1, hstart, List.range'_succ]
  have hother : ∀ {l : List ℕ}, n ∉ l →
      (l.flatMap g.consensusOrder).filter (fun x => g.roundReceived x == some n) = [] := by
    intro l hl
    rw [List.filter_eq_nil_iff]
    intro x hx hreceived
    obtain ⟨m, hm, hx⟩ := List.mem_flatMap.mp hx
    obtain rfl := Option.some.inj ((mem_consensusOrder.mp hx).symm.trans (beq_iff_eq.mp hreceived))
    exact hl hm
  have hself : (g.consensusOrder n).filter (fun x => g.roundReceived x == some n) =
      g.consensusOrder n :=
    List.filter_eq_self.mpr fun x hx => beq_iff_eq.mpr (mem_consensusOrder.mp hx)
  rw [windowEvents, hrange, List.flatMap_append, List.flatMap_cons, List.filter_append,
    List.filter_append, hself, hother (by simp [List.mem_range'_1]; omega),
    hother (by simp [List.mem_range'_1]), List.nil_append, List.append_nil]

/-! ## Windows with one root -/

/-- Two graphs agree on what a window root commits to: on the order of each round of the window, and
on the records of its events with their rows below the width of the roster at the round. -/
structure SameWindow (g g' : Hashgraph) (round windowRounds : ℕ) : Prop where
  order : ∀ {n}, round - windowRounds ≤ n → n ≤ round → g.consensusOrder n = g'.consensusOrder n
  records : ∀ {n x}, round - windowRounds ≤ n → n ≤ round → x ∈ g.consensusOrder n →
    ∃ r r', g.get? x = some r ∧ g'.get? x = some r' ∧ r.seq = r'.seq ∧ r.round = r'.round ∧
      r.roundReceived = some n ∧ r'.roundReceived = some n ∧
      r.consensusTimestamp = r'.consensusTimestamp ∧
      ∀ {width}, g.memberCountAtRound round = .ok width →
        (∀ i < width, r.ancestorSeqs[i]?.getD 0 = r'.ancestorSeqs[i]?.getD 0) ∧
        (width ≤ r.ancestorSeqs.length → width ≤ r'.ancestorSeqs.length →
          r.ancestorSeqs.take width = r'.ancestorSeqs.take width)

theorem getD_eq_of_normalizedRow_eq {row row' : List ℕ}
    (h : normalizedRow row width = normalizedRow row' width) :
    ∀ i < width, row[i]?.getD 0 = row'[i]?.getD 0 := by
  intro i hi
  have heq := congrArg (·[i]?) h
  simpa [normalizedRow, List.getElem?_range hi] using heq

theorem take_eq_of_normalizedRow_eq {row row' : List ℕ} (hlen : width ≤ row.length)
    (hlen' : width ≤ row'.length) (h : normalizedRow row width = normalizedRow row' width) :
    row.take width = row'.take width := by
  refine List.ext_getElem (by simp [hlen, hlen']) fun i hi _ => ?_
  have hi : i < width := (List.length_take_le _ _).trans_lt' hi
  have heq := getD_eq_of_normalizedRow_eq h i hi
  rw [List.getElem?_eq_getElem (hi.trans_le hlen), List.getElem?_eq_getElem (hi.trans_le hlen')]
    at heq
  simpa using heq

/-- The entries of typed records are bounded. -/
theorem Typed.bounded (h : g.Typed) (width : ℕ) :
    ∀ entry ∈ g.windowEntries width round windowRounds, entry.Bounded width := by
  intro entry hentry
  obtain ⟨x, -, hx⟩ := List.mem_filterMap.mp hentry
  obtain ⟨r, hr, rfl⟩ := Option.map_eq_some_iff.mp hx
  obtain ⟨hhash, hseq, hround, hreceived, htimestamp, hrow⟩ := h hr
  refine ⟨hhash, hseq, hround, hreceived, htimestamp, by simp [normalizedRow], fun k hk => ?_⟩
  obtain ⟨i, -, rfl⟩ := List.mem_map.mp hk
  cases hi : r.ancestorSeqs[i]? with
  | none => exact Nat.pow_pos (by decide)
  | some k => exact hrow k (List.mem_of_getElem? hi)

/-- Graphs with the same entries agree on the window. -/
theorem sameWindow_of_windowEntries_eq (width : ℕ)
    (hwidth : ∀ {w}, g.memberCountAtRound round = .ok w → w = width)
    (h : g.windowEntries width round windowRounds = g'.windowEntries width round windowRounds) :
    SameWindow g g' round windowRounds := by
  have hevents : g.windowEvents round windowRounds = g'.windowEvents round windowRounds := by
    rw [← map_hash_windowEntries width, h, map_hash_windowEntries]
  have hentry {x : EventHash} (hx : x ∈ g.windowEvents round windowRounds) :
      ∃ r r', g.get? x = some r ∧ g'.get? x = some r' ∧
        g.windowEntryOf width x = g'.windowEntryOf width x := by
    obtain ⟨r, hr⟩ := exists_of_mem_windowEvents hx
    obtain ⟨r', hr'⟩ := exists_of_mem_windowEvents (hevents ▸ hx)
    refine ⟨r, r', hr, hr', ?_⟩
    -- The entry of `x` is one of the other graph, which has the same hash in it.
    have hmem : ⟨x, r.seq, r.round, r.roundReceived, r.consensusTimestamp,
        normalizedRow r.ancestorSeqs width⟩ ∈ g'.windowEntries width round windowRounds := by
      rw [← h]
      exact List.mem_filterMap.mpr ⟨x, hx, by rw [windowEntryOf, hr]; rfl⟩
    obtain ⟨y, -, hy⟩ := List.mem_filterMap.mp hmem
    obtain ⟨s, hs, hsy⟩ := Option.map_eq_some_iff.mp hy
    obtain rfl : y = x := congrArg WindowEntry.hash hsy
    rw [hy, windowEntryOf, hr]
    rfl
  have hreceived {x : EventHash} (hx : x ∈ g.windowEvents round windowRounds) :
      g.roundReceived x = g'.roundReceived x := by
    obtain ⟨r, r', hr, hr', heq⟩ := hentry hx
    rw [windowEntryOf, windowEntryOf, hr, hr'] at heq
    rw [roundReceived, roundReceived, hr, hr']
    exact congrArg WindowEntry.roundReceived (Option.some.inj heq)
  constructor
  · intro n hlow hhigh
    rw [consensusOrder_eq_filter hlow hhigh, consensusOrder_eq_filter hlow hhigh, ← hevents]
    exact List.filter_congr fun x hx => by rw [hreceived hx]
  · intro n x hlow hhigh hx
    have hn := mem_consensusOrder.mp hx
    have hx := mem_windowEvents.mpr ⟨n, hlow, hhigh, hn⟩
    have hn' := (hreceived hx).symm.trans hn
    obtain ⟨r, r', hr, hr', heq⟩ := hentry hx
    rw [roundReceived, hr] at hn
    rw [roundReceived, hr'] at hn'
    rw [windowEntryOf, windowEntryOf, hr, hr', Option.map_some, Option.map_some, Option.some_inj,
      WindowEntry.mk.injEq] at heq
    obtain ⟨-, hseq, hround, -, htimestamp, hrow⟩ := heq
    refine ⟨r, r', hr, hr', hseq, hround, hn, hn', htimestamp, fun hw => ?_⟩
    obtain rfl := hwidth hw
    exact ⟨getD_eq_of_normalizedRow_eq hrow, fun hlen hlen' =>
      take_eq_of_normalizedRow_eq hlen hlen' hrow⟩

/-- Graphs with one window root and rosters of one size at the round agree on the window, as long as
the hash has no collision among the strings that are hashed for the two roots. -/
theorem sameWindow_of_windowRoot_eq (hsha : ∀ bytes, sha bytes < 256 ^ 32)
    (hfree : Set.InjOn sha {m | m ∈ g.windowMessages round windowRounds sha ++
      g'.windowMessages round windowRounds sha})
    (htyped : g.Typed) (htyped' : g'.Typed)
    (hcount : g.memberCountAtRound round = g'.memberCountAtRound round) {root : Digest}
    (h : g.tryComputeWindowRoot sha round windowRounds = .ok (.ok root))
    (h' : g'.tryComputeWindowRoot sha round windowRounds = .ok (.ok root)) :
    SameWindow g g' round windowRounds := by
  generalize hwidth : (g.memberCountAtRound round).toOption.getD 0 = width at hfree
  have hwidth' := hwidth
  rw [hcount] at hwidth'
  have hmsgs : ∀ m ∈ paddedMessages sha
      ((g.windowEntries width round windowRounds).map (WindowEntry.bytes width)),
      m ∈ g.windowMessages round windowRounds sha ++ g'.windowMessages round windowRounds sha := by
    intro m hm
    rw [← hwidth] at hm
    exact List.mem_append_left _ hm
  have hmsgs' : ∀ m ∈ paddedMessages sha
      ((g'.windowEntries width round windowRounds).map (WindowEntry.bytes width)),
      m ∈ g.windowMessages round windowRounds sha ++ g'.windowMessages round windowRounds sha := by
    intro m hm
    rw [← hwidth'] at hm
    exact List.mem_append_right _ hm
  refine sameWindow_of_windowEntries_eq width (fun hw => ?_) ?_
  · rw [hw] at hwidth
    exact hwidth
  · exact entries_eq_of_paddedRoot_eq (WindowEntry.leafStrings_bytes width) hsha hfree
      (htyped.bounded width) (htyped'.bounded width) hmsgs hmsgs'
      ((windowRoot_eq hwidth h).symm.trans (windowRoot_eq hwidth' h'))

/-- The numbers are within their types, as a test. -/
def isTyped (g : Hashgraph) : Bool :=
  g.events.toList.all fun (x, r) => decide (x < 256 ^ 32 ∧ r.seq < 256 ^ 8 ∧ r.round < 256 ^ 8 ∧
    (∀ n ∈ r.roundReceived, n < 256 ^ 8) ∧ (∀ n ∈ r.consensusTimestamp, n < 256 ^ 8) ∧
    ∀ n ∈ r.ancestorSeqs, n < 256 ^ 8)

theorem typed_of_isTyped (h : g.isTyped = true) : g.Typed := by
  intro x r hx
  have hall := List.all_eq_true.mp h (x, r) (ExtTreeMap.mem_toList_iff_getElem?_eq_some.mpr hx)
  exact of_decide_eq_true hall

/-- The hash has no collision among the strings, as a test. -/
def collisionFree (sha : Sha256) (strings : List (List UInt8)) : Bool :=
  strings.all fun m => strings.all fun m' => decide (sha m = sha m' → m = m')

theorem injOn_of_collisionFree {strings : List (List UInt8)}
    (h : collisionFree sha strings = true) : Set.InjOn sha {m | m ∈ strings} := fun m hm m' hm' =>
  of_decide_eq_true (List.all_eq_true.mp (List.all_eq_true.mp h m hm) m' hm')

/-- Two stages of a chain have one root over the first two rounds. -/
theorem sameWindow_of_windowRoot_eq_chain :
    ∃ g g', g.consensusOrder 2 = [2] ∧ g.get? 6 = none ∧ (g'.get? 6).isSome ∧
      SameWindow g g' 2 1 := by
  have hrun : (replay stampHash (.new (plainRegistry 1)) ((soloChain 5).map (.insert inOrder))).any
      (fun g => (replay stampHash g [plainInsert 6 0 (some 5) none]).any fun g' =>
        decide (g.consensusOrder 2 = [2]) && (g.get? 6).isNone && (g'.get? 6).isSome &&
          g.isTyped && g'.isTyped && collisionFree rollingHash
            (g.windowMessages 2 1 rollingHash ++ g'.windowMessages 2 1 rollingHash) &&
          decide (g.memberCountAtRound 2 = g'.memberCountAtRound 2) &&
          decide (g.tryComputeWindowRoot rollingHash 2 1 = .ok (.ok 191070)) &&
          decide (g'.tryComputeWindowRoot rollingHash 2 1 = .ok (.ok 191070))) = true := by
    decide +kernel
  obtain ⟨g, -, hrun⟩ := (Option.any_eq_true ..).mp hrun
  obtain ⟨g', -, hvalues⟩ := (Option.any_eq_true ..).mp hrun
  simp only [Bool.and_eq_true, decide_eq_true_eq, Option.isNone_iff_eq_none] at hvalues
  obtain ⟨⟨⟨⟨⟨⟨⟨⟨horder, hnew⟩, hnew'⟩, htyped⟩, htyped'⟩, hfree⟩, hcount⟩, hroot⟩, hroot'⟩ :=
    hvalues
  exact ⟨g, g', horder, hnew, hnew', sameWindow_of_windowRoot_eq rollingHash_lt
    (injOn_of_collisionFree hfree) (typed_of_isTyped htyped) (typed_of_isTyped htyped') hcount hroot
    hroot'⟩

end Hashgraph

end JKain
