import Chronicle.Component.Chronology
import Chronicle.Coordinate.Basic
import Chronicle.Latest
import Chronicle.Path.Route

/-!
# Resolution

What a coordinate sees, given its route and the fields of the stamps. A version is visible when its
stamp is not canceled, its status is allowed, its module is not excluded, its path is on the route
and its time is not after the cutoff there. Of the visible versions the newest win; of those the
ones on the nearest paths; and if several are left, the one whose module alone has the best rank.
What is still tied is a contradiction.
-/

namespace Chronicle

/-- How a stamp is reached on a route, if it is neither canceled nor out of reach. -/
def Route.place? (route : Route) (fields : StampFields) : Option Reach :=
  if fields.isCanceled then none
  else route[fields.path]?.filter fun reach => fields.time ≤ reach.cutoff

/-- How a coordinate sees a stamp, if at all. -/
def Coordinate.sees? (c : Coordinate) (route : Route) (fields : StampFields) : Option Reach :=
  if c.allowed.contains fields.status && !c.excludes fields.module then route.place? fields else none

/-- A visible version. -/
structure Candidate where
  version : Version
  fields : StampFields
  reach : Reach
  deriving DecidableEq

namespace Candidate

/-- The candidates for which a measure is smallest, in their order. -/
def smallest (measure : Candidate → Int) (candidates : List Candidate) : List Candidate :=
  candidates.filter fun c => candidates.all fun other => measure c ≤ measure other

/-- The candidates with the latest time. -/
def newest : List Candidate → List Candidate :=
  smallest fun c => -c.fields.time.toInt

/-- The candidates on the nearest paths. -/
def nearest : List Candidate → List Candidate :=
  smallest fun c => c.reach.depth

/-- The candidates whose module is ranked best. -/
def preferred (coordinate : Coordinate) : List Candidate → List Candidate :=
  smallest fun c => coordinate.rank c.fields.module

end Candidate

namespace Coordinate

/-- The visible ones of some versions, each given with the fields of its stamp. -/
def candidates (c : Coordinate) (route : Route) (versions : List (Version × Option StampFields)) :
    List Candidate :=
  versions.filterMap fun entry => do
    let fields ← entry.2
    let reach ← c.sees? route fields
    return { version := entry.1, fields, reach }

/-- Picks the answer among visible versions. -/
def pick (c : Coordinate) (candidates : List Candidate) : Latest Version :=
  match Candidate.nearest (Candidate.newest candidates) with
  | [] => .absent
  | [only] => .single only.version
  | tied =>
    match Candidate.preferred c tied with
    | [only] => .single only.version
    | _ =>
      .contradiction ((tied.map Candidate.version).mergeSort fun a b =>
        (compare a.stamp b.stamp).isLE)

/-- The latest of some versions, each given with the fields of its stamp. -/
def latest (c : Coordinate) (route : Route) (versions : List (Version × Option StampFields)) :
    Latest Version :=
  c.pick (c.candidates route versions)

end Coordinate

/-- Where one stamp sits relative to another on a route. -/
inductive RelativePosition where
  | before
  | equal
  | after
  /-- Different changes of the same time, neither of which shadows the other. -/
  | contradiction
  /-- One of the two is unknown, canceled or off the route. -/
  | unreachable
  deriving DecidableEq

namespace RelativePosition

/-- What a position is called. -/
def name : RelativePosition → String
  | before => "before"
  | equal => "equal"
  | after => "after"
  | contradiction => "contradiction"
  | unreachable => "unreachable"

/-- Compares two placed changes: by time, then by distance, the nearer one being the later. -/
def ofPlaced (a b : StampFields × Reach) : RelativePosition :=
  if a.1.time < b.1.time then before
  else if b.1.time < a.1.time then after
  else if a.2.depth < b.2.depth then after
  else if b.2.depth < a.2.depth then before
  else contradiction

end RelativePosition

/-- Where stamp `a` sits relative to stamp `b`. Statuses and modules do not matter. -/
def Route.relativePosition (route : Route) (a b : Nid × Option StampFields) : RelativePosition :=
  let placed (fields? : Option StampFields) : Option (StampFields × Reach) := do
    let fields ← fields?
    let reach ← route.place? fields
    return (fields, reach)
  match placed a.2, placed b.2 with
  | some fa, some fb =>
    if a.1 = b.1 ∨ fa.1 = fb.1 then .equal else RelativePosition.ofPlaced fa fb
  | _, _ => .unreachable

end Chronicle
