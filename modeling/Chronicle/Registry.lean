import Chronicle.PublicId
import Chronicle.Wire
import Std.Data.ExtTreeMap

/-!
# The identity registry

The registry gives every public id a nid. Resolving a public id none of whose aliases is known
allocates the next nid; otherwise the nid of its first known alias wins, and the aliases that are
not mapped yet are folded onto it. An alias that is already mapped to another nid stays there.
-/

namespace Chronicle

/-- The two directions between UUIDs and nids, and the nid that the next allocation hands out. -/
structure Registry where
  nids : Std.ExtTreeMap Uuid Nid
  ids : Std.ExtTreeMap Nid PublicId
  next : Nid
  /-- Whether there are changes since the registry was last persisted. -/
  changed : Bool
  deriving DecidableEq

namespace Registry

/-- A registry that has handed out no nid. -/
def empty : Registry where
  nids := ∅
  ids := ∅
  next := Nid.first
  changed := false

/-- The nid of a single alias. -/
def nid? (r : Registry) (uuid : Uuid) : Option Nid :=
  r.nids[uuid]?

/-- The nid of the first alias that has one. -/
def nidFor? (r : Registry) (id : PublicId) : Option Nid :=
  id.uuids.findSome? r.nid?

/-- The nid that all aliases have in common. -/
def sharedNid? (r : Registry) (id : PublicId) : Option Nid :=
  (r.nid? id.primary).filter fun nid => id.uuids.all fun uuid => r.nid? uuid = some nid

/-- The public id of a nid, if it has one. -/
def publicId? (r : Registry) (nid : Nid) : Option PublicId :=
  r.ids[nid]?

/-- The number of nids that have a public id. -/
def size (r : Registry) : Nat :=
  r.ids.size

/-- Whether no nid has a public id. -/
def isEmpty (r : Registry) : Bool :=
  r.ids.isEmpty

/-- The registry with changes to persist. -/
def markChanged (r : Registry) : Registry :=
  { r with changed := true }

/-- Folds the aliases that are not mapped yet onto a nid, behind those it already has. -/
def adopt (r : Registry) (nid : Nid) (id : PublicId) : Registry :=
  let isNew := fun uuid => (r.nid? uuid).isNone
  { r with
    nids := r.nids.insertMany ((id.uuids.filter isNew).map (·, nid))
    ids := match r.publicId? nid, id.filter? isNew with
      | some known, some new => r.ids.insert nid (known.merged new)
      | none, some new => r.ids.insert nid new
      | _, none => r.ids
    changed := true }

/-- The nid of a public id, allocated if none of its aliases has one. Allocation fails when no nid
follows the next one, and then changes nothing. -/
def resolve (r : Registry) (id : PublicId) : Except ConfigurationError (Nid × Registry) :=
  match r.sharedNid? id with
  | some nid => .ok (nid, r)
  | none =>
    match r.nidFor? id with
    | some nid => .ok (nid, r.adopt nid id)
    | none =>
      match r.next.next? with
      | some following => .ok (r.next, { r with next := following }.adopt r.next id)
      | none => .error .nidSpaceExhausted

end Registry

end Chronicle
