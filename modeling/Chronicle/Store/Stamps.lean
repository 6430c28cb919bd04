import Chronicle.Stamp.History
import Chronicle.Store.Basic

/-!
# Stamps of a store

A stamp is stored as its history under a nid of its own. A change is offered to the history, which
takes it or not; the effective fields afterwards tell. Committed stamps with the same fields share
one nid if the configuration says so, because their UUID then follows from the fields.
-/

namespace Chronicle.Store

/-- The stored history of a stamp. -/
def stampHistory (nid : Nid) : Action StampHistory := do
  match ← onSpines (SpineStore.lookup nid) with
  | some payload => outcome (StampHistory.decode payload)
  | none => throw (.notFound (.stamp nid))

/-- The effective fields of a stamp. -/
def stamp (nid : Nid) : Action StampFields := do
  return (← stampHistory nid).current

/-- Offers fields to the history of a stamp, which they start if there is none. Answers the
effective fields afterwards. -/
def offerFields (nid : Nid) (fields : StampFields) : Action StampFields := do
  let stored ← SpineStore.merge nid (StampHistory.start fields).encode StampHistory.mergePayload
  return (← outcome (StampHistory.decode stored)).current

/-- The UUID for a new stamp, given one that nothing else has. -/
def stampUuid (s : Store) (fields : StampFields) (fresh : Uuid) : Uuid :=
  if s.config.stampDedup = .committed ∧ fields.isCommitted then fields.contentUuid else fresh

/-- Stores a stamp under a UUID. A stamp that was canceled there is reported. -/
def createStamp (fields : StampFields) (uuid : Uuid) : Action Nid := do
  let nid ← resolve (← outcome (PublicId.ofUuid uuid))
  let current ← offerFields nid fields
  if current ≠ fields ∧ current.isCanceled then throw (.transaction (.stampCanceled nid))
  return nid

/-- Records a committed stamp. Its UUID is the given one, which nothing else has, unless it follows
from the fields. -/
def commitStamp (fields : StampFields) (fresh : Uuid) : Action Nid := do
  if Time.isSentinel fields.time then throw (.configuration (.sentinelTime fields.time))
  createStamp fields ((← get).stampUuid fields fresh)

/-- Commits an uncommitted stamp at a time, together with others. The caches are left as they are.
-/
def commitMember (time : Int64) (nid : Nid) : Action Unit := do
  let committed := (← stamp nid).committedAt time
  let current ← offerFields nid committed
  if current = committed then return ()
  else if current.isCanceled then throw (.transaction (.stampCanceled nid))
  else throw (.transaction (.stampCommitted nid))

/-- Cancels an uncommitted stamp, together with others. The caches are left as they are. -/
def cancelMember (nid : Nid) : Action Unit := do
  let current ← stamp nid
  if current.isCommitted then throw (.transaction (.stampCommitted nid))
  let settled ← offerFields nid current.canceled
  if settled.isCommitted then throw (.transaction (.stampCommitted nid))

/-- Cancels an uncommitted stamp. No version with it is visible from then on. -/
def cancelStamp (nid : Nid) : Action Unit := do
  cancelMember nid
  resetCaches

end Chronicle.Store
