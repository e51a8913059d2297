import JKain.Lib.Election
import JKain.Stream.Tamper

/-!
# Collecting the signatures of a checkpoint

A node collects the signatures of the members for its own payload of a round. When more than two
thirds of the members have signed, the signatures are aggregated into a signed checkpoint, once.
Single signatures and aggregates are those of an ideal scheme: aggregates of signatures that verify
are made and verify, and whoever's key is in an aggregate that verifies has signed the message.
-/

namespace JKain

open Std Lib

/-! ## The accumulator -/

/-- The primitives of `blst::min_pk` together with `Signature::verify` of a message under one key
and `crypto::bls::aggregate`. -/
structure BlsScheme extends Bls where
  verifySingle : BlsSignature → List UInt8 → List UInt8 → Bool
  aggregate : List BlsSignature → Option BlsSignature

/-- `verify_checkpoint_sig`. -/
def verifyCheckpointSig (bls : BlsScheme) (sig : CheckpointSig) (signingBytes : List UInt8)
    (roster : MembershipRegistry) : Bool :=
  match (roster.blsKeyFor sig.signer).filter bls.validPublicKey with
  | none => false
  | some key => bls.verifySingle sig.sig signingBytes key

/-- `CheckpointAccumulator`. -/
structure CheckpointAccumulator where
  payload : CheckpointPayload
  snapshot : List UInt8
  sigs : ExtTreeMap NodeId CheckpointSig

namespace CheckpointAccumulator

/-- `CheckpointAccumulator::new`. -/
def new (payload : CheckpointPayload) (snapshot : List UInt8) : CheckpointAccumulator :=
  ⟨payload, snapshot, ∅⟩

/-- `CheckpointAccumulator::signing_bytes`. -/
def signingBytes (acc : CheckpointAccumulator) : List UInt8 := acc.payload.signingBytes

/-- More than two thirds. -/
def Exceeds (count total : ℕ) : Prop := count * 3 > total * 2

instance (count total : ℕ) : Decidable (Exceeds count total) :=
  inferInstanceAs (Decidable (_ > _))

/-- `CheckpointAccumulator::add_sig`, with the accumulator after the call. -/
def addSig (bls : BlsScheme) (acc : CheckpointAccumulator) (sig : CheckpointSig)
    (registry : MembershipRegistry) : Option SignedCheckpoint × CheckpointAccumulator :=
  if sig.round ≠ acc.payload.round then (none, acc)
  else if !registry.contains sig.signer then (none, acc)
  else if Exceeds acc.sigs.size registry.len then (none, acc)
  else
    let sigs := acc.sigs.insertIfNew sig.signer sig
    if Exceeds sigs.size registry.len then
      -- the map is keyed by the signers, so its order is the one of the sort by signer
      match bls.aggregate (sigs.toList.map (·.2.sig)) with
      | none => (none, { acc with sigs })
      | some aggregateSig => (some ⟨acc.payload, aggregateSig, sigs.keys⟩, { acc with sigs })
    else (none, { acc with sigs })

/-- The accumulator after a sequence of calls. -/
def addSigs (bls : BlsScheme) (registry : MembershipRegistry) (acc : CheckpointAccumulator)
    (sigs : List CheckpointSig) : CheckpointAccumulator :=
  sigs.foldl (fun acc sig => (acc.addSig bls sig registry).2) acc

/-- The result of the call that follows a sequence of calls. -/
def resultAfter (bls : BlsScheme) (registry : MembershipRegistry) (acc : CheckpointAccumulator)
    (sigs : List CheckpointSig) (sig : CheckpointSig) : Option SignedCheckpoint :=
  ((acc.addSigs bls registry sigs).addSig bls sig registry).1

end CheckpointAccumulator

/-! ## The ideal scheme -/

/-- Signatures that verify one by one are aggregated to one that verifies under the list of their
keys, and every key of an aggregate that verifies has signed the message. -/
structure BlsScheme.Ideal (bls : BlsScheme) (Signs : List UInt8 → List UInt8 → Prop) : Prop where
  aggregate : ∀ {sigs keys msg}, sigs ≠ [] →
    List.Forall₂ (fun sig key => bls.verifySingle sig msg key = true) sigs keys →
      ∃ agg, bls.aggregate sigs = some agg ∧ bls.verifyAggregate agg msg keys = true
  signs : ∀ {sig msg keys}, bls.verifyAggregate sig msg keys = true → ∀ key ∈ keys, Signs key msg

namespace CheckpointAccumulator

variable {bls : BlsScheme} {registry : MembershipRegistry} {acc : CheckpointAccumulator}
  {sig : CheckpointSig} {sigs : List CheckpointSig} {Signs : List UInt8 → List UInt8 → Prop}

/-- The members who signed for a round. -/
def signersOf (registry : MembershipRegistry) (round : ℕ) (sigs : List CheckpointSig) :
    Finset NodeId :=
  ((sigs.filter fun sig => sig.round = round ∧ registry.contains sig.signer).map
    CheckpointSig.signer).toFinset

theorem signersOf_append_singleton (round : ℕ) (sigs : List CheckpointSig) (sig : CheckpointSig) :
    signersOf registry round (sigs ++ [sig]) =
      if sig.round = round ∧ registry.contains sig.signer then
        insert sig.signer (signersOf registry round sigs)
      else signersOf registry round sigs := by
  rw [signersOf, List.filter_append]
  by_cases hrelevant : sig.round = round ∧ registry.contains sig.signer = true
  · have hlast : [sig].filter (fun sig => sig.round = round ∧ registry.contains sig.signer) =
        [sig] := by simp [hrelevant]
    rw [if_pos hrelevant, hlast, List.map_append, List.toFinset_append, Finset.union_comm]
    rfl
  · have hlast : [sig].filter (fun sig => sig.round = round ∧ registry.contains sig.signer) = [] :=
      List.filter_eq_nil_iff.mpr fun other hother => by
        rw [List.mem_singleton.mp hother]
        simpa using hrelevant
    rw [if_neg hrelevant, hlast, List.append_nil]
    rfl

/-- What the accumulator holds: signatures that verify, under the members they are of. -/
structure Genuine (bls : BlsScheme) (registry : MembershipRegistry) (acc : CheckpointAccumulator) :
    Prop where
  signer : ∀ {node : NodeId} {sig : CheckpointSig}, acc.sigs[node]? = some sig → sig.signer = node
  member : ∀ {node : NodeId} {sig}, acc.sigs[node]? = some sig →
    registry.contains node = true
  verifies : ∀ {node : NodeId} {sig}, acc.sigs[node]? = some sig →
    verifyCheckpointSig bls sig acc.signingBytes registry = true

theorem genuine_new (payload : CheckpointPayload) (snapshot : List UInt8) :
    Genuine bls registry (new payload snapshot) := by
  have hnone : ∀ node : NodeId, (new payload snapshot).sigs[node]? = none := fun _ =>
    ExtTreeMap.getElem?_empty
  constructor <;> intro node sig h <;> rw [hnone] at h <;> cases h

/-- A signature that counts is stored unless one of its signer is there already. -/
def store (acc : CheckpointAccumulator) (sig : CheckpointSig) : CheckpointAccumulator :=
  { acc with sigs := acc.sigs.insertIfNew sig.signer sig }

theorem Genuine.store (h : Genuine bls registry acc) (hmember : registry.contains sig.signer = true)
    (hverifies : verifyCheckpointSig bls sig acc.signingBytes registry = true) :
    Genuine bls registry (acc.store sig) := by
  have hcases : ∀ {node} {sig' : CheckpointSig}, (acc.store sig).sigs[node]? = some sig' →
      node = sig.signer ∧ sig' = sig ∨ acc.sigs[node]? = some sig' := by
    intro node sig' hget
    rw [CheckpointAccumulator.store, ExtTreeMap.getElem?_insertIfNew] at hget
    split at hget
    · rename_i hnew
      exact .inl ⟨(Std.compare_eq_iff_eq.mp hnew.1).symm, (Option.some.inj hget).symm⟩
    · exact .inr hget
  constructor
  · intro node sig' hget
    rcases hcases hget with ⟨rfl, rfl⟩ | hold
    · rfl
    · exact h.signer hold
  · intro node sig' hget
    rcases hcases hget with ⟨rfl, rfl⟩ | hold
    · exact hmember
    · exact h.member hold
  · intro node sig' hget
    rcases hcases hget with ⟨rfl, rfl⟩ | hold
    · exact hverifies
    · exact h.verifies hold

/-- What a call does. -/
theorem addSig_cases (bls : BlsScheme) (acc : CheckpointAccumulator) (sig : CheckpointSig)
    (registry : MembershipRegistry) :
    ¬(sig.round = acc.payload.round ∧ registry.contains sig.signer = true) ∧
        acc.addSig bls sig registry = (none, acc) ∨
      (sig.round = acc.payload.round ∧ registry.contains sig.signer = true) ∧
        Exceeds acc.sigs.size registry.len ∧ acc.addSig bls sig registry = (none, acc) ∨
      (sig.round = acc.payload.round ∧ registry.contains sig.signer = true) ∧
        ¬Exceeds acc.sigs.size registry.len ∧
        acc.addSig bls sig registry =
          (if Exceeds (acc.store sig).sigs.size registry.len then
            (bls.aggregate ((acc.store sig).sigs.toList.map (·.2.sig))).map fun aggregateSig =>
              ⟨acc.payload, aggregateSig, (acc.store sig).sigs.keys⟩
          else none, acc.store sig) := by
  rw [addSig]
  by_cases hround : sig.round = acc.payload.round
  · by_cases hmember : registry.contains sig.signer = true
    · by_cases hover : Exceeds acc.sigs.size registry.len
      · exact .inr (.inl ⟨⟨hround, hmember⟩, hover, by simp [hround, hmember, hover]⟩)
      · refine .inr (.inr ⟨⟨hround, hmember⟩, hover, ?_⟩)
        rw [if_neg (not_not.mpr hround), if_neg (by simp [hmember]), if_neg hover]
        by_cases hnow : Exceeds (acc.store sig).sigs.size registry.len
        · rw [if_pos hnow]
          refine (if_pos hnow).trans ?_
          cases haggregate : bls.aggregate ((acc.store sig).sigs.toList.map (·.2.sig)) with
          | none =>
            simp only [CheckpointAccumulator.store] at haggregate
            rw [haggregate]
            rfl
          | some aggregateSig =>
            simp only [CheckpointAccumulator.store] at haggregate
            rw [haggregate]
            rfl
        · rw [if_neg hnow]
          exact if_neg hnow
    · exact .inl ⟨fun h => hmember h.2, by simp [hround, hmember]⟩
  · exact .inl ⟨fun h => hround h.1, by simp [hround]⟩

/-! ## The state after a sequence of calls -/

/-- The members whose signatures are stored. -/
def signers (acc : CheckpointAccumulator) : Finset NodeId := acc.sigs.keys.toFinset

theorem size_sigs (acc : CheckpointAccumulator) : acc.sigs.size = acc.signers.card := by
  rw [signers, List.toFinset_card_of_nodup ExtTreeMap.nodup_keys, ExtTreeMap.length_keys]

theorem mem_signers {node : NodeId} : node ∈ acc.signers ↔ node ∈ acc.sigs := by
  rw [signers, List.mem_toFinset, ExtTreeMap.mem_keys]

theorem signers_store (acc : CheckpointAccumulator) (sig : CheckpointSig) :
    (acc.store sig).signers = insert sig.signer acc.signers := by
  ext node
  rw [mem_signers, store, ExtTreeMap.mem_insertIfNew, Finset.mem_insert, mem_signers,
    Std.compare_eq_iff_eq, eq_comm]

theorem Exceeds.mono {count count' total : ℕ} (h : Exceeds count total) (hle : count ≤ count') :
    Exceeds count' total := by
  rw [Exceeds] at h ⊢
  omega

/-- The accumulator after the calls: it holds the signers so far, or has stopped collecting. -/
structure Collected (bls : BlsScheme) (registry : MembershipRegistry) (payload : CheckpointPayload)
    (sigs : List CheckpointSig) (acc : CheckpointAccumulator) : Prop where
  payload_eq : acc.payload = payload
  genuine : Genuine bls registry acc
  subset : acc.signers ⊆ signersOf registry payload.round sigs
  complete : ¬Exceeds acc.sigs.size registry.len →
    acc.signers = signersOf registry payload.round sigs

variable {payload : CheckpointPayload}

theorem collected_new (payload : CheckpointPayload) (snapshot : List UInt8) :
    Collected bls registry payload [] (new payload snapshot) := by
  have hempty : (new payload snapshot).signers = signersOf registry payload.round [] := by
    simp [signers, new, signersOf]
  exact ⟨rfl, genuine_new payload snapshot, hempty.le, fun _ => hempty⟩

theorem Collected.exceeds_iff (h : Collected bls registry payload sigs acc) :
    Exceeds acc.sigs.size registry.len ↔
      Exceeds (signersOf registry payload.round sigs).card registry.len := by
  constructor
  · intro hexceeds
    rw [size_sigs] at hexceeds
    exact hexceeds.mono (Finset.card_le_card h.subset)
  · intro hexceeds
    by_contra hbelow
    rw [← h.complete hbelow, ← size_sigs] at hexceeds
    exact hbelow hexceeds

/-- The signers of a call that stores are those of all calls so far. -/
theorem Collected.signers_store (h : Collected bls registry payload sigs acc)
    (hcounts : sig.round = payload.round ∧ registry.contains sig.signer = true)
    (hbelow : ¬Exceeds acc.sigs.size registry.len) :
    (acc.store sig).signers = signersOf registry payload.round (sigs ++ [sig]) := by
  rw [CheckpointAccumulator.signers_store, h.complete hbelow, signersOf_append_singleton,
    if_pos hcounts]

theorem signersOf_subset_append (round : ℕ) (sigs : List CheckpointSig) (sig : CheckpointSig) :
    signersOf registry round sigs ⊆ signersOf registry round (sigs ++ [sig]) := by
  rw [signersOf_append_singleton]
  split
  · exact Finset.subset_insert _ _
  · exact Finset.Subset.refl _

theorem Collected.addSig (h : Collected bls registry payload sigs acc)
    (hverifies : verifyCheckpointSig bls sig payload.signingBytes registry = true) :
    Collected bls registry payload (sigs ++ [sig]) (acc.addSig bls sig registry).2 := by
  obtain rfl := h.payload_eq
  rcases addSig_cases bls acc sig registry with
    ⟨hskipped, heq⟩ | ⟨-, hover, heq⟩ | ⟨hcounts, hbelow, heq⟩
  · rw [heq]
    have hsame : signersOf registry acc.payload.round (sigs ++ [sig]) =
        signersOf registry acc.payload.round sigs := by
      rw [signersOf_append_singleton, if_neg hskipped]
    exact ⟨rfl, h.genuine, hsame ▸ h.subset, fun hbelow => hsame ▸ h.complete hbelow⟩
  · rw [heq]
    exact ⟨rfl, h.genuine, h.subset.trans (signersOf_subset_append _ _ _),
      fun hbelow => absurd hover hbelow⟩
  · rw [heq]
    have hsigners := h.signers_store hcounts hbelow
    exact ⟨rfl, h.genuine.store hcounts.2 hverifies, hsigners.le, fun _ => hsigners⟩

theorem Collected.addSigs (h : Collected bls registry payload sigs acc) {later : List CheckpointSig}
    (hverifies : ∀ sig ∈ later, verifyCheckpointSig bls sig payload.signingBytes registry = true) :
    Collected bls registry payload (sigs ++ later) (acc.addSigs bls registry later) := by
  induction later generalizing sigs acc with
  | nil => rwa [List.append_nil]
  | cons sig later ih =>
    have hstep := h.addSig (hverifies sig List.mem_cons_self)
    have hrun := ih hstep fun other hother => hverifies other (List.mem_cons_of_mem _ hother)
    rwa [List.append_assoc] at hrun

/-! ## The checkpoint that is returned -/

/-- Signatures that verify one by one have the keys that `verify` looks up. -/
theorem exists_keys {msg : List UInt8} {l : List (NodeId × CheckpointSig)}
    (h : ∀ p ∈ l, p.2.signer = p.1 ∧ verifyCheckpointSig bls p.2 msg registry = true) :
    ∃ keys, (l.map Prod.fst).mapM (fun signer =>
        (registry.blsKeyFor signer).filter bls.validPublicKey) = some keys ∧
      List.Forall₂ (fun sig key => bls.verifySingle sig msg key = true) (l.map (·.2.sig)) keys := by
  induction l with
  | nil => exact ⟨[], rfl, .nil⟩
  | cons p l ih =>
    obtain ⟨keys, hkeys, hall⟩ := ih fun q hq => h q (List.mem_cons_of_mem _ hq)
    obtain ⟨hsigner, hverifies⟩ := h p List.mem_cons_self
    rw [verifyCheckpointSig, hsigner] at hverifies
    cases hkey : (registry.blsKeyFor p.1).filter bls.validPublicKey with
    | none =>
      rw [hkey] at hverifies
      cases hverifies
    | some key =>
      rw [hkey] at hverifies
      refine ⟨key :: keys, ?_, .cons hverifies hall⟩
      rw [List.map_cons, List.mapM_cons, hkey, hkeys]
      rfl

theorem mergeSort_keys (acc : CheckpointAccumulator) : acc.sigs.keys.mergeSort = acc.sigs.keys :=
  List.mergeSort_of_pairwise (ExtTreeMap.ordered_keys.imp fun h =>
    decide_eq_true (Nat.compare_eq_lt.mp h).le)

/-- What is aggregated verifies, and so does the checkpoint when the registry is its roster. -/
theorem Genuine.exists_aggregate (hideal : bls.Ideal Signs) (h : Genuine bls registry acc)
    (hexceeds : Exceeds acc.sigs.size registry.len) :
    ∃ agg, bls.aggregate (acc.sigs.toList.map (·.2.sig)) = some agg ∧
      (registry = acc.payload.rosterSnapshot →
        SignedCheckpoint.verify bls.toBls ⟨acc.payload, agg, acc.sigs.keys⟩ = true) := by
  have hpairs : ∀ p ∈ acc.sigs.toList, p.2.signer = p.1 ∧
      verifyCheckpointSig bls p.2 acc.signingBytes registry = true := by
    rintro ⟨node, sig⟩ hp
    have hget := ExtTreeMap.mem_toList_iff_getElem?_eq_some.mp hp
    exact ⟨h.signer hget, h.verifies hget⟩
  obtain ⟨keys, hkeys, hall⟩ := exists_keys hpairs
  have hpos : 0 < acc.sigs.size := by
    rw [Exceeds] at hexceeds
    omega
  have hne : acc.sigs.toList.map (·.2.sig) ≠ [] := by
    intro hnil
    have hlen := congrArg List.length hnil
    rw [List.length_map, ExtTreeMap.length_toList] at hlen
    exact hpos.ne' hlen
  obtain ⟨agg, hagg, hverify⟩ := hideal.aggregate hne hall
  refine ⟨agg, hagg, ?_⟩
  rintro rfl
  have hmember : ∀ node ∈ acc.sigs.keys, acc.payload.rosterSnapshot.contains node = true := by
    intro node hnode
    obtain ⟨sig, hsig⟩ := Option.isSome_iff_exists.mp
      (ExtTreeMap.isSome_getElem?_iff_mem.mpr (ExtTreeMap.mem_keys.mp hnode))
    exact h.member hsig
  refine SignedCheckpoint.verify_eq_true_iff.mpr ⟨?_, ExtTreeMap.nodup_keys, hmember, ?_, keys, ?_,
    hverify⟩
  · -- a signer is a member, so the roster is not empty
    intro hzero
    obtain ⟨node, hnode⟩ := List.exists_mem_of_length_pos (l := acc.sigs.keys)
      (by rw [ExtTreeMap.length_keys]; exact hpos)
    have hin := ExtTreeMap.mem_keys.mpr (ExtTreeMap.contains_iff_mem.mp (hmember node hnode))
    rw [MembershipRegistry.len, ← ExtTreeMap.length_keys, List.length_eq_zero_iff] at hzero
    rw [hzero] at hin
    cases hin
  · rw [ExtTreeMap.length_keys]
    exact hexceeds
  · rw [mergeSort_keys, ← ExtTreeMap.map_fst_toList_eq_keys]
    exact hkeys

/-- A call returns a checkpoint when the signers exceed two thirds with it and not before. -/
theorem Collected.isSome_addSig_iff (hideal : bls.Ideal Signs)
    (h : Collected bls registry payload sigs acc)
    (hverifies : verifyCheckpointSig bls sig payload.signingBytes registry = true) :
    (acc.addSig bls sig registry).1.isSome ↔
      ¬Exceeds (signersOf registry payload.round sigs).card registry.len ∧
        Exceeds (signersOf registry payload.round (sigs ++ [sig])).card registry.len := by
  rw [← h.exceeds_iff, ← (h.addSig hverifies).exceeds_iff]
  obtain rfl := h.payload_eq
  rcases addSig_cases bls acc sig registry with
    ⟨-, heq⟩ | ⟨-, hover, heq⟩ | ⟨hcounts, hbelow, heq⟩
  · rw [heq]
    simp
  · rw [heq]
    simp [hover]
  · rw [heq, and_iff_right hbelow]
    by_cases hnow : Exceeds (acc.store sig).sigs.size registry.len
    · obtain ⟨agg, hagg, -⟩ :=
        (h.genuine.store hcounts.2 hverifies).exists_aggregate hideal hnow
      simp [hnow, hagg]
    · simp [hnow]

/-- The checkpoint a call returns: the payload with all signers so far. -/
theorem Collected.of_addSig_eq_some (hideal : bls.Ideal Signs)
    (h : Collected bls registry payload sigs acc)
    (hverifies : verifyCheckpointSig bls sig payload.signingBytes registry = true)
    {sc : SignedCheckpoint} (hsome : (acc.addSig bls sig registry).1 = some sc) :
    sc.payload = payload ∧
      sc.signers.toFinset = signersOf registry payload.round (sigs ++ [sig]) ∧
      (registry = payload.rosterSnapshot → sc.verify bls.toBls = true) := by
  obtain rfl := h.payload_eq
  rcases addSig_cases bls acc sig registry with
    ⟨-, heq⟩ | ⟨-, -, heq⟩ | ⟨hcounts, hbelow, heq⟩
  · rw [heq] at hsome
    cases hsome
  · rw [heq] at hsome
    cases hsome
  · rw [heq] at hsome
    by_cases hnow : Exceeds (acc.store sig).sigs.size registry.len
    · obtain ⟨agg, hagg, hverify⟩ :=
        (h.genuine.store hcounts.2 hverifies).exists_aggregate hideal hnow
      simp only [if_pos hnow, hagg, Option.map_some, Option.some.injEq] at hsome
      obtain rfl := hsome
      exact ⟨rfl, h.signers_store hcounts hbelow, hverify⟩
    · simp [hnow] at hsome

end CheckpointAccumulator

/-! ## Two checkpoints of a round -/

namespace MembershipRegistry

variable {c : Crypto} {registry registry' : MembershipRegistry}

theorem takeMember_ensures (c : Crypto) :
    Ensures (takeMember c) fun p => p.1 < 256 ^ 8 ∧ IsKey c p.2.key ∧ p.2.blsKey.length = 48 :=
  (takeNat_ensures 8).bind fun _ hnode => (takeKey_ensures c).bind fun _ hkey =>
    (takeExact_ensures 48).bind fun _ hbls => .pure ⟨hnode, hkey, hbls⟩

theorem takeMembers_fits {fuel : ℕ} {bytes : List UInt8} (h : registry.Fits c)
    (hrun : takeMembers c fuel bytes registry = some registry') : registry'.Fits c := by
  induction fuel generalizing bytes registry with
  | zero =>
    obtain rfl := Option.some.inj hrun
    exact h
  | succ fuel ih =>
    rw [takeMembers] at hrun
    split at hrun
    · obtain rfl := Option.some.inj hrun
      exact h
    · split at hrun
      · rename_i node keys rest htake
        obtain ⟨hnode, hkey, hbls⟩ := takeMember_ensures c _ _ _ htake
        exact ih (h.register hnode hkey hbls) hrun
      · cases hrun

theorem fromBytes_fits {bytes : List UInt8} (h : fromBytes c bytes = some registry) :
    registry.Fits c :=
  takeMembers_fits fits_new h

end MembershipRegistry

namespace SignedCheckpoint

variable {bls : BlsScheme} {c : Crypto} {sc sc' : SignedCheckpoint} {bytes : List UInt8}
  {Signs : List UInt8 → List UInt8 → Prop}

theorem take_ensures (bls : Bls) (c : Crypto) :
    Ensures (take bls c) fun sc => sc.Fits bls c ∧ sc.Anchored c := by
  refine (takeNat_ensures 8).bind fun round hround => ?_
  refine (takeNat_ensures 32).bind fun recordsRoot hrecords => ?_
  refine (takeNat_ensures 32).bind fun stateHash hstate => ?_
  refine (takeNat_ensures 32).bind fun rosterHash hroster => ?_
  refine (takeNat_ensures 32).bind fun prevCheckpointHash hprev => ?_
  refine (takeNat_ensures 32).bind fun windowRoot hwindow => ?_
  refine (takeNat_ensures 32).bind fun rosterHistoryRoot hhistory => ?_
  refine Ensures.true.bind fun rosterBytes _ => ?_
  cases hread : MembershipRegistry.fromBytes c rosterBytes with
  | none =>
    intro input sc rest hrun
    cases hrun
  | some rosterSnapshot =>
    refine (require_ensures _).bind fun _ hhash => Ensures.true.bind fun count _ => ?_
    refine Ensures.true.bind fun _ _ => Ensures.true.bind fun _ _ => ?_
    refine (takeMany_ensures (takeNat_ensures 8) count).bind fun signers hsigners => ?_
    refine (takeExact_ensures 96).bind fun aggregateSig hlen => ?_
    refine (require_ensures _).bind fun _ hvalid => .pure ?_
    have hanchored := of_decide_eq_true hhash
    exact ⟨⟨hround, hrecords, hstate, hroster, hprev, hwindow, hhistory,
      MembershipRegistry.fromBytes_fits hread, hsigners.2, hlen, hvalid⟩, hanchored⟩

/-- What `decode_signed_checkpoint` makes sure of. -/
theorem fits_of_decode {bls : Bls} (h : decode bls c bytes = some sc) :
    sc.Fits bls c ∧ sc.Anchored c :=
  decodeAll_ensures (P := fun sc => sc.Fits bls c ∧ sc.Anchored c) (take_ensures bls c) h

theorem Fits.bounded {bls : Bls} (h : sc.Fits bls c) : sc.payload.Bounded :=
  ⟨h.round, h.recordsRoot, h.stateHash, h.rosterHash, h.prevCheckpointHash, h.windowRoot,
    h.rosterHistoryRoot⟩

/-- The roster hash of a decoded checkpoint binds its roster. -/
theorem rosterSnapshot_eq {bls : Bls} (h : sc.Fits bls c) (h' : sc'.Fits bls c)
    (hanchored : sc.Anchored c) (hanchored' : sc'.Anchored c)
    (hsha : Set.InjOn c.sha
      {sc.payload.rosterSnapshot.toBytes, sc'.payload.rosterSnapshot.toBytes})
    (hhash : sc.payload.rosterHash = sc'.payload.rosterHash) :
    sc.payload.rosterSnapshot = sc'.payload.rosterSnapshot := by
  rw [← hanchored, ← hanchored'] at hhash
  exact MembershipRegistry.eq_of_toBytes_eq h.rosterSnapshot h'.rosterSnapshot
    (hsha (.inl rfl) (.inr rfl) hhash)

/-- The signers of a checkpoint that verifies are a quorum of its roster. -/
theorem quorum_of_verify {bls : Bls} (h : sc.verify bls = true) :
    sc.signers.toFinset ⊆ sc.payload.rosterSnapshot.memberIds.toFinset ∧
      2 * sc.payload.rosterSnapshot.memberIds.toFinset.card < 3 * sc.signers.toFinset.card := by
  obtain ⟨-, hnodup, hmembers, hquorum, -⟩ := verify_eq_true_iff.mp h
  constructor
  · intro node hnode
    rw [List.mem_toFinset] at hnode ⊢
    exact ExtTreeMap.mem_keys.mpr (ExtTreeMap.contains_iff_mem.mp (hmembers node hnode))
  · rw [List.toFinset_card_of_nodup hnodup, ← MembershipRegistry.len_eq]
    omega

theorem exists_mem_of_mapM_eq_some {α β : Type} {f : α → Option β} {l : List α} {parts : List β}
    (h : l.mapM f = some parts) {a : α} (ha : a ∈ l) : ∃ b ∈ parts, f a = some b := by
  induction l generalizing parts with
  | nil => cases ha
  | cons first l ih =>
    simp only [List.mapM_cons, Option.bind_eq_bind, Option.bind_eq_some_iff] at h
    obtain ⟨b, hb, rest, hrest, hparts⟩ := h
    obtain rfl := Option.some.inj hparts
    rcases List.mem_cons.mp ha with rfl | ha
    · exact ⟨b, List.mem_cons_self, hb⟩
    · obtain ⟨b', hb', hf⟩ := ih hrest ha
      exact ⟨b', List.mem_cons_of_mem _ hb', hf⟩

/-- Every signer of a checkpoint that verifies has signed its payload. -/
theorem signs_of_verify (hideal : bls.Ideal Signs) (h : sc.verify bls.toBls = true) {node : NodeId}
    (hnode : node ∈ sc.signers) :
    ∃ key, sc.payload.rosterSnapshot.blsKeyFor node = some key ∧
      Signs key sc.payload.signingBytes := by
  obtain ⟨-, -, -, -, keys, hkeys, hverify⟩ := verify_eq_true_iff.mp h
  obtain ⟨key, hkey, hlookup⟩ := exists_mem_of_mapM_eq_some hkeys (List.mem_mergeSort.mpr hnode)
  exact ⟨key, (Option.filter_eq_some_iff.mp hlookup).1, hideal.signs hverify key hkey⟩

/-- The member has signed two different payloads of the round. -/
def SignsTwo (Signs : List UInt8 → List UInt8 → Prop) (roster : MembershipRegistry) (round : ℕ)
    (node : NodeId) : Prop :=
  ∃ key, roster.blsKeyFor node = some key ∧ ∃ p p' : CheckpointPayload,
    p.round = round ∧ p'.round = round ∧ p.signingBytes ≠ p'.signingBytes ∧
      Signs key p.signingBytes ∧ Signs key p'.signingBytes

/-- A common signer that has signed one payload of the round only makes the payloads equal. -/
theorem payload_eq_of_common (hideal : bls.Ideal Signs) (hfits : sc.Fits bls.toBls c)
    (hfits' : sc'.Fits bls.toBls c) (hverify : sc.verify bls.toBls = true)
    (hverify' : sc'.verify bls.toBls = true) (hround : sc.payload.round = sc'.payload.round)
    (hroster : sc.payload.rosterSnapshot = sc'.payload.rosterSnapshot) {node : NodeId}
    (hnode : node ∈ sc.signers) (hnode' : node ∈ sc'.signers)
    (honce : ¬SignsTwo Signs sc.payload.rosterSnapshot sc.payload.round node) :
    sc.payload = sc'.payload := by
  obtain ⟨key, hkey, hsigns⟩ := signs_of_verify hideal hverify hnode
  obtain ⟨key', hkey', hsigns'⟩ := signs_of_verify hideal hverify' hnode'
  rw [← hroster, hkey, Option.some.injEq] at hkey'
  have hbytes : sc.payload.signingBytes = sc'.payload.signingBytes := by
    by_contra hne
    exact honce ⟨key, hkey, sc.payload, sc'.payload, rfl, hround.symm, hne, hsigns,
      hkey' ▸ hsigns'⟩
  rw [CheckpointPayload.eq_of_signingBytes_eq hfits.bounded hfits'.bounded hbytes, hroster]

end SignedCheckpoint

/-! ## The quorum of a checkpoint -/

namespace CheckpointAccumulator

theorem signersOf_mono {registry : MembershipRegistry} {round : ℕ} {sigs : List CheckpointSig}
    (later : List CheckpointSig) :
    signersOf registry round sigs ⊆ signersOf registry round (sigs ++ later) := by
  rw [signersOf, signersOf, List.filter_append, List.map_append, List.toFinset_append]
  exact Finset.subset_union_left

/-- The accumulator before any call of a sequence of verified signatures. -/
theorem collected_before {bls : BlsScheme} {registry : MembershipRegistry}
    {payload : CheckpointPayload} {calls before after : List CheckpointSig} (snapshot : List UInt8)
    (hverified : ∀ sig ∈ calls, verifyCheckpointSig bls sig payload.signingBytes registry = true)
    (hsplit : calls = before ++ after) :
    Collected bls registry payload before
      ((new payload snapshot).addSigs bls registry before) :=
  (collected_new payload snapshot).addSigs fun sig hsig =>
    hverified sig (hsplit ▸ List.mem_append_left _ hsig)

/-- A scheme in which one message is signed, by everyone. -/
def signsOne (message : List UInt8) : BlsScheme :=
  { Mirror.signsOnly [message] with
    verifySingle := fun _ msg _ => msg = message
    aggregate := List.head? }

theorem ideal_signsOne (message : List UInt8) :
    (signsOne message).Ideal fun _ msg => msg = message where
  aggregate {sigs keys msg} hne hall := by
    cases hall with
    | nil => exact absurd rfl hne
    | cons hfirst _ => exact ⟨_, rfl, by simpa [signsOne, Mirror.signsOnly] using hfirst⟩
  signs hverify _ _ := by simpa [signsOne, Mirror.signsOnly] using hverify

/-- A payload of round 1 over the roster. -/
def plainPayload (roster : MembershipRegistry) : CheckpointPayload :=
  .new Wire.laxCrypto.sha 1 0 0 0 0 roster

/-- A signature of a member for round 1. -/
def plainSig (node : NodeId) : CheckpointSig := ⟨1, node, List.replicate 96 0⟩

/-- The checkpoint of the only member. -/
def soloSigned (byte : UInt8) : SignedCheckpoint :=
  ⟨plainPayload Mirror.soloRoster, List.replicate 96 byte, [1]⟩

theorem soloSigned_fits (bls : Bls) {byte : UInt8}
    (hvalid : bls.validSignature (List.replicate 96 byte) = true) :
    (soloSigned byte).Fits bls Wire.laxCrypto := by
  have hroster : Mirror.soloRoster.Fits Wire.laxCrypto :=
    MembershipRegistry.fits_new.register (by decide) ⟨rfl, rfl⟩ rfl
  constructor <;> first | exact hroster | exact hvalid | rfl |
    simp [soloSigned, plainPayload, CheckpointPayload.new, MembershipRegistry.hash, Wire.laxCrypto]

theorem soloSigned_encode (byte : UInt8) : ∃ bytes, (soloSigned byte).encode = .ok bytes := by
  have hroster : Mirror.soloRoster.toBytes.length < 2 ^ 32 := by decide +kernel
  have hsigners : [1].length < 2 ^ 32 := by decide
  exact ⟨_, SignedCheckpoint.encode_eq_ok_iff.mpr ⟨hroster, hsigners, rfl⟩⟩

/-- The roster of the only member and one more. -/
def duoRoster : MembershipRegistry :=
  Mirror.soloRoster.register 2 (List.replicate 32 1) (List.replicate 48 2)

/-- With a registry other than the roster of the payload, what is returned need not verify: one of
two members has signed, who is the only one of the registry. -/
theorem addSig_other_registry :
    let payload := plainPayload duoRoster
    let bls := signsOne payload.signingBytes
    (bls.Ideal fun _ msg => msg = payload.signingBytes) ∧
      verifyCheckpointSig bls (plainSig 1) payload.signingBytes Mirror.soloRoster = true ∧
      ∃ sc, resultAfter bls Mirror.soloRoster (new payload []) [] (plainSig 1) = some sc ∧
        sc.verify bls.toBls = false := by
  refine ⟨ideal_signsOne _, by decide +kernel,
    ⟨plainPayload duoRoster, List.replicate 96 0, [1]⟩, rfl, ?_⟩
  decide +kernel

/-- In a sequence of verified signatures the call that brings the signers over two thirds of the
registry returns the checkpoint, and no other call does. Two checkpoints of a round with the same
roster share a third of it as signers, and the payload when fewer have signed two. -/
theorem checkpoint_quorums {bls : BlsScheme} {Signs : List UInt8 → List UInt8 → Prop}
    (hideal : bls.Ideal Signs) :
    (∀ (payload : CheckpointPayload) (snapshot : List UInt8) (registry : MembershipRegistry)
        (calls : List CheckpointSig),
      (∀ sig ∈ calls, verifyCheckpointSig bls sig payload.signingBytes registry = true) →
      ∀ before sig after, calls = before ++ sig :: after →
        ((resultAfter bls registry (new payload snapshot) before sig).isSome ↔
          ¬Exceeds (signersOf registry payload.round before).card registry.len ∧
            Exceeds (signersOf registry payload.round (before ++ [sig])).card registry.len) ∧
        ∀ sc, resultAfter bls registry (new payload snapshot) before sig = some sc →
          sc.payload = payload ∧
          sc.signers.toFinset = signersOf registry payload.round (before ++ [sig]) ∧
          (registry = payload.rosterSnapshot → sc.verify bls.toBls = true) ∧
          ∀ between last rest, after = between ++ last :: rest →
            resultAfter bls registry (new payload snapshot) (before ++ sig :: between) last =
              none) ∧
    ∀ (c : Crypto) (bytes bytes' : List UInt8) (sc sc' : SignedCheckpoint),
      SignedCheckpoint.decode bls.toBls c bytes = some sc →
      SignedCheckpoint.decode bls.toBls c bytes' = some sc' →
      Set.InjOn c.sha {sc.payload.rosterSnapshot.toBytes, sc'.payload.rosterSnapshot.toBytes} →
      sc.payload.round = sc'.payload.round → sc.payload.rosterHash = sc'.payload.rosterHash →
      sc.verify bls.toBls = true → sc'.verify bls.toBls = true →
      sc.payload.rosterSnapshot = sc'.payload.rosterSnapshot ∧
        sc.payload.rosterSnapshot.len < 3 * (sc.signers.toFinset ∩ sc'.signers.toFinset).card ∧
        ∀ twice : Finset NodeId, 3 * twice.card < sc.payload.rosterSnapshot.len →
          (∀ node, SignedCheckpoint.SignsTwo Signs sc.payload.rosterSnapshot sc.payload.round node →
            node ∈ twice) →
          sc.payload = sc'.payload := by
  constructor
  · intro payload snapshot registry calls hverified before sig after hsplit
    have hbefore := collected_before snapshot hverified hsplit
    have hsig := hverified sig (hsplit ▸ List.mem_append_right _ List.mem_cons_self)
    refine ⟨hbefore.isSome_addSig_iff hideal hsig, fun sc hsc => ?_⟩
    obtain ⟨hpayload, hsigners, hverify⟩ := hbefore.of_addSig_eq_some hideal hsig hsc
    refine ⟨hpayload, hsigners, hverify, ?_⟩
    rintro between last rest rfl
    -- the signers stay above two thirds, so that no later call is the first one above
    have hover := ((hbefore.isSome_addSig_iff hideal hsig).mp (Option.isSome_of_eq_some hsc)).2
    have hlater := hover.mono (Finset.card_le_card (signersOf_mono between))
    rw [List.append_assoc, List.singleton_append] at hlater
    have hcalls : calls = (before ++ sig :: between) ++ last :: rest := by
      rw [hsplit, List.append_assoc, List.cons_append]
    have hlast := hverified last (hcalls ▸ List.mem_append_right _ List.mem_cons_self)
    rw [← Option.not_isSome_iff_eq_none]
    exact fun hsome => (((collected_before snapshot hverified hcalls).isSome_addSig_iff hideal
      hlast).mp hsome).1 hlater
  · intro c bytes bytes' sc sc' hdecode hdecode' hsha hround hhash hverify hverify'
    obtain ⟨hfits, hanchored⟩ := SignedCheckpoint.fits_of_decode hdecode
    obtain ⟨hfits', hanchored'⟩ := SignedCheckpoint.fits_of_decode hdecode'
    have hroster :=
      SignedCheckpoint.rosterSnapshot_eq hfits hfits' hanchored hanchored' hsha hhash
    obtain ⟨hsub, hquorum⟩ := SignedCheckpoint.quorum_of_verify hverify
    obtain ⟨hsub', hquorum'⟩ := SignedCheckpoint.quorum_of_verify hverify'
    rw [← hroster] at hsub' hquorum'
    rw [MembershipRegistry.len_eq]
    refine ⟨hroster, card_lt_three_mul_card_inter hsub hsub' hquorum hquorum', ?_⟩
    intro twice hfew htwice
    obtain ⟨node, hnode, hnode', honce⟩ :=
      exists_common_of_quorums hsub hsub' hquorum hquorum' hfew
    exact SignedCheckpoint.payload_eq_of_common hideal hfits hfits' hverify hverify' hround hroster
      (List.mem_toFinset.mp hnode) (List.mem_toFinset.mp hnode') fun h => honce (htwice node h)

theorem checkpoint_quorums_solo :
    let bls := signsOne (plainPayload Mirror.soloRoster).signingBytes
    let acc := new (plainPayload Mirror.soloRoster) []
    resultAfter bls Mirror.soloRoster acc [] (plainSig 1) = some (soloSigned 0) ∧
      (soloSigned 0).verify bls.toBls = true ∧ (soloSigned 1).verify bls.toBls = true ∧
      resultAfter bls Mirror.soloRoster acc [plainSig 1] (plainSig 1) = none ∧
      1 < 3 * ((soloSigned 0).signers.toFinset ∩ (soloSigned 1).signers.toFinset).card ∧
      (soloSigned 0).payload = (soloSigned 1).payload := by
  intro bls acc
  have hspec := checkpoint_quorums (ideal_signsOne (plainPayload Mirror.soloRoster).signingBytes)
  have hverified : ∀ sig ∈ [plainSig 1, plainSig 1], verifyCheckpointSig bls sig
      (plainPayload Mirror.soloRoster).signingBytes Mirror.soloRoster = true := by
    decide +kernel
  have hresult : resultAfter bls Mirror.soloRoster acc [] (plainSig 1) = some (soloSigned 0) := rfl
  obtain ⟨-, -, hverify, honce⟩ := (hspec.1 _ [] Mirror.soloRoster _ hverified [] (plainSig 1)
    [plainSig 1] rfl).2 (soloSigned 0) hresult
  have hsigned : (soloSigned 0).verify bls.toBls = true := hverify rfl
  -- the signature is not looked at, only the message
  have hsigned' : (soloSigned 1).verify bls.toBls = true := hsigned
  obtain ⟨bytes, hbytes⟩ := soloSigned_encode 0
  obtain ⟨bytes', hbytes'⟩ := soloSigned_encode 1
  obtain ⟨-, hcommon, hagree⟩ := hspec.2 _ bytes bytes' (soloSigned 0) (soloSigned 1)
    (SignedCheckpoint.decode_of_encode (soloSigned_fits bls.toBls rfl) rfl hbytes)
    (SignedCheckpoint.decode_of_encode (soloSigned_fits bls.toBls rfl) rfl hbytes')
    (by simp [soloSigned]) rfl rfl hsigned hsigned'
  refine ⟨hresult, hsigned, hsigned', honce [] (plainSig 1) [] rfl, hcommon, ?_⟩
  refine hagree ∅ (by decide) ?_
  rintro node ⟨key, -, p, p', -, -, hne, hp, hp'⟩
  exact absurd (hp.trans hp'.symm) hne

end CheckpointAccumulator

end JKain
