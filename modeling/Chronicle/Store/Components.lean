import Chronicle.Component.Chronology
import Chronicle.Store.Stamps

/-!
# Components of a store

A component is stored as its chronology. Under an uncommitted stamp a version can be recorded again
with other fields; under a stamp that is committed or canceled it is final. A version is retracted
by a copy of it under a new canceled stamp.
-/

namespace Chronicle.Store

/-- The stored chronology of a component. -/
def chronology (nid : Nid) : Action Chronology := do
  match ← onSpines (SpineStore.lookup nid) with
  | some payload => outcome (Chronology.decode payload)
  | none => throw (.notFound (.nid nid))

/-- Whether a stored chronology is that of a component and holds a version with its fields. -/
def records (stored : Chronology) (nid : Nid) (version : Version) : Bool :=
  stored.nid = nid ∧ (stored.version? version.stamp).map Version.fields = some version.fields

/-- Records a version of a component, which it starts if there is none. Answers the chronology as it
is stored afterwards. -/
def appendVersion (nid : Nid) (kind : ComponentKind) (version : Version) : Action Chronology := do
  let replace := (← stamp version.stamp).isUncommitted
  let stored ← SpineStore.merge nid (Chronology.start nid kind version).encode
    (Chronology.mergePayload replace)
  let chronology ← outcome (Chronology.decode stored)
  if !records chronology nid version then throw (.versionRejected nid version.stamp)
  return chronology

/-- Retracts the version of a component that has a stamp: appends a copy under a new canceled stamp,
whose UUID is one that nothing else has. A stamp that is still uncommitted is canceled as well.
Answers the new stamp. -/
def cancelVersion (nid stampNid : Nid) (fresh : Uuid) : Action Nid := do
  let recorded ← chronology nid
  match recorded.version? stampNid with
  | none => throw (.notFound (.stamp stampNid))
  | some version =>
    let fields ← stamp stampNid
    if fields.isUncommitted then cancelMember stampNid
    let canceled ← createStamp fields.canceled fresh
    let _ ← appendVersion nid recorded.kind { stamp := canceled, fields := version.fields }
    resetCaches
    return canceled

end Chronicle.Store
