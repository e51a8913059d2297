import JKain.Gossip.Payload
import JKain.Gossip.Wire
import JKain.Lib.Kahn

/-!
# The parts of a reconnect response

The roster history that a teacher serves, and the order in which a learner takes the retained
events.
-/

namespace JKain

open Std JKain.Lib

/-! ## The parts of a response -/

/-- One snapshot of `decode_roster_history`. -/
def takeSnapshot (c : Crypto) : Reader Unit (ℕ × MembershipRegistry) := do
  let round ← takeNat () 8
  let registryBytes ← takeBytes ()
  match MembershipRegistry.fromBytes c registryBytes with
  | none => throw ()
  | some registry => return (round, registry)

/-- `decode_roster_history`. An entry takes at least twelve bytes, and there is at least one. -/
def decodeRosterHistory (c : Crypto) (bytes : List UInt8) : Option RosterHistory := do
  let snapshots ← decodeAll (do
    let entryCount ← takeNat () 4
    let cursor ← get
    require (entryCount ≤ cursor.length / 12) ()
    takeMany (takeSnapshot c) entryCount) bytes
  if snapshots.isEmpty then none else some ⟨ExtTreeMap.ofList snapshots⟩

/-- `index_by_hash` of `topo_sort_retained`: the last record of a hash counts. -/
def indexByHash (H : Hasher) (retained : List RetainedEvent) : Option (ExtTreeMap EventHash ℕ) :=
  retained.zipIdx.foldlM (fun index (record, i) =>
    match H record.event with
    | .error _ => none
    | .ok hash => some (index.insert hash i)) ∅

/-- `topo_sort_retained`: the indices of the records, parents first. -/
def topoSortRetained (H : Hasher) (retained : List RetainedEvent) : Option (List ℕ) := do
  let index ← indexByHash H retained
  let parents (i : ℕ) : List ℕ :=
    (retained[i]?).elim [] fun record => record.event.parents.filterMap (index[·]?)
  let order ← kahn parents (List.range retained.length) (List.range retained.length)
  if order.length = retained.length then some order else none

end JKain
