import Chronicle.Cache
import Chronicle.Resolution
import Chronicle.Spine.Parallel
import Chronicle.Stamp.History

/-!
# Calculators

A calculator answers what one coordinate sees. It keeps the route, which is computed when the
calculator is made, and the fields of the stamps that it has looked at. Both belong to a generation:
a calculator that is asked in a later one computes its route anew, and what it remembers of stamps
no longer counts.
-/

namespace Chronicle

/-- What calculators depend on besides the stored payloads. -/
structure Scene where
  paths : PathGraph
  /-- Grows whenever the answers of calculators may have changed. -/
  generation : Nat
  deriving DecidableEq

/-- The view of one coordinate. -/
structure Calculator where
  coordinate : Coordinate
  /-- The generation that the route was computed in. -/
  generation : Nat
  route : Route
  /-- The fields of stamps, each with the generation they were read in. -/
  stamps : Cache Nid (Nat × StampFields)
  deriving DecidableEq

namespace Calculator

open SpineStore (Scan)

/-- A calculator that has not looked at any stamp. -/
def make (coordinate : Coordinate) (scene : Scene) : Calculator where
  coordinate
  generation := scene.generation
  route := scene.paths.route coordinate.path coordinate.time
  stamps := {}

/-- Whether the route was computed in an earlier generation. -/
def isStale (c : Calculator) (scene : Scene) : Bool :=
  c.generation != scene.generation

/-- The calculator with its route computed in the generation of the scene. -/
def refreshed (c : Calculator) (scene : Scene) : Calculator :=
  if c.isStale scene then { make c.coordinate scene with stamps := c.stamps } else c

/-- What is remembered of a stamp in the generation of the route. -/
def remembered? (c : Calculator) (stamp : Nid) : Option StampFields :=
  match c.stamps.find? stamp with
  | some (generation, fields) => if generation = c.generation then some fields else none
  | none => none

/-- Remembers the fields of a stamp. -/
def remember (c : Calculator) (stamp : Nid) (fields : StampFields) : Calculator :=
  { c with stamps := c.stamps.insert stamp (c.generation, fields) }

/-- Brings the route up to date. -/
def refresh (scene : Scene) : Scan Calculator Calculator :=
  modifyGetThe Calculator fun c => (c.refreshed scene, c.refreshed scene)

/-- The fields of a stamp, remembered or read. A payload that is no stamp has none, and is read
again next time. -/
def fields? (stamp : Nid) : Scan Calculator (Option StampFields) := fun c s =>
  match c.remembered? stamp with
  | some fields => ((some fields, c), s)
  | none =>
    let (payload?, s) := SpineStore.lookup stamp s
    match payload?.map StampHistory.decode with
    | some (.ok history) => ((some history.current, c.remember stamp history.current), s)
    | _ => ((none, c), s)

/-- The fields of the stamps of some versions. -/
def withFields : List Version → Scan Calculator (List (Version × Option StampFields))
  | [] => return []
  | version :: versions => do
    let fields ← fields? version.stamp
    let rest ← withFields versions
    return (version, fields) :: rest

/-- The effective fields of a stamp. -/
def stamp (scene : Scene) (nid : Nid) : Scan Calculator (Option StampFields) := do
  let _ ← refresh scene
  fields? nid

/-- How a path is reached. -/
def reach (scene : Scene) (path : Nid) : Scan Calculator (Option Reach) := do
  let c ← refresh scene
  return c.route[path]?

/-- Whether versions with a stamp are visible. -/
def isVisible (scene : Scene) (nid : Nid) : Scan Calculator Bool := do
  let c ← refresh scene
  let fields ← fields? nid
  return (fields.bind (c.coordinate.sees? c.route)).isSome

/-- The latest version in a chronology. -/
def latestOf (scene : Scene) (chronology : Chronology) : Scan Calculator (Latest Version) := do
  let c ← refresh scene
  let versions ← withFields chronology.versions
  return c.coordinate.latest c.route versions

/-- The latest version in a payload. Stamps, and what is no chronology, have none. -/
def latestIn (scene : Scene) (payload : Bytes) : Scan Calculator (Latest Version) :=
  if payload.head? = some StampHistory.tag then return .absent
  else
    match Chronology.decode payload with
    | .ok chronology => latestOf scene chronology
    | .error _ => return .absent

/-- The latest version of a component. -/
def latest (scene : Scene) (nid : Nid) : Scan Calculator (Latest Version) := do
  match ← (SpineStore.lookup nid : StateM SpineStore (Option Bytes)) with
  | some payload => latestIn scene payload
  | none => return .absent

/-- Where one stamp sits relative to another. -/
def relativePosition (scene : Scene) (a b : Nid) : Scan Calculator RelativePosition := do
  let c ← refresh scene
  let fieldsA ← fields? a
  let fieldsB ← fields? b
  return c.route.relativePosition (a, fieldsA) (b, fieldsB)

/-- Notes the latest version in a payload in front of those noted before, if the payload starts as a
chronology does. -/
def noteLatest (scene : Scene) (nid : Nid) (payload : Bytes) :
    Scan (Calculator × List (Nid × Latest Version)) Unit := fun (c, seen) s =>
  if payload.head? = some Chronology.tag then
    let ((answer, c), s) := latestIn scene payload c s
    (((), c, (nid, answer) :: seen), s)
  else (((), c, seen), s)

/-- The latest version of each component in ascending order of nids, for the payloads that start as
a chronology does. -/
def latestAll (scene : Scene) : Scan Calculator (List (Nid × Latest Version)) := fun c s =>
  let ((_, c, seen), s) := SpineStore.forEach (noteLatest scene) (c, []) s
  ((seen.reverse, c), s)

/-- The latest version of each component in the order in which workers visit the payloads. -/
def latestAllParallel (workers : Nat) (schedule : List Nat) (scene : Scene) :
    Scan Calculator (List (Nid × Latest Version)) := fun c s =>
  let ((_, c, seen), s) :=
    SpineStore.forEachParallel (noteLatest scene) workers schedule (c, []) s
  ((seen.reverse, c), s)

end Calculator

end Chronicle
