import Chronicle.Coordinate.StatusSet
import Chronicle.Distinct
import Chronicle.Stamp.Fields
import Std.Data.ExtTreeSet

/-!
# Stamp coordinates

A coordinate is the view under which a component is resolved: the allowed statuses, a path and a
horizon on it, an order of preference among modules, and the modules that are left out. Canceled is
never allowed, something else always is, and no module has two ranks.
-/

namespace Chronicle

/-- The view that a resolution is computed under. -/
structure Coordinate where
  allowed : StatusSet
  path : Nid
  time : Int64
  /-- Modules in order of preference, most preferred first. -/
  priority : List Nid
  excluded : Std.ExtTreeSet Nid
  allowed_nonempty : allowed.isEmpty = false
  canceled_notMem : allowed.contains .canceled = false
  priority_nodup : priority.Nodup
  deriving DecidableEq

namespace Coordinate

/-- Whether a coordinate does not see the work of a module. -/
def excludes (c : Coordinate) (module : Nid) : Bool :=
  c.excluded.contains module

/-- How many modules are preferred to this one. A module without a rank comes behind all others. -/
def rank (c : Coordinate) (module : Nid) : Nat :=
  c.priority.idxOf module

/-- Whether a module has a rank of its own. -/
def isRanked (c : Coordinate) (module : Nid) : Bool :=
  module ∈ c.priority

/-- The same view at another time. -/
def atTime (c : Coordinate) (time : Int64) : Coordinate :=
  { c with time }

/-- The same view on another path. -/
def onPath (c : Coordinate) (path : Nid) : Coordinate :=
  { c with path }

/-- Whether the view is of the very latest state of its path, uncommitted work included. -/
def isLatest (c : Coordinate) : Bool :=
  c.time == Time.latest

/-- What a coordinate is made of. -/
structure Builder where
  path : Nid
  allowed : StatusSet := StatusSet.activeOnly
  time : Int64 := Time.latest
  priority : List Nid := []
  excluded : Std.ExtTreeSet Nid := ∅

namespace Builder

/-- Sets the order of preference. A module that is repeated keeps its first rank. -/
def prefer (b : Builder) (modules : List Nid) : Builder :=
  { b with priority := modules.eraseDups }

/-- Leaves a module out. -/
def exclude (b : Builder) (module : Nid) : Builder :=
  { b with excluded := b.excluded.insert module }

/-- The coordinate, if a status besides canceled is allowed. -/
def build (b : Builder) : Except ConfigurationError Coordinate :=
  let allowed := b.allowed.erase .canceled
  if h : allowed.isEmpty = true then .error .emptyAllowedStates
  else .ok {
    allowed
    path := b.path
    time := b.time
    priority := b.priority.eraseDups
    excluded := b.excluded
    allowed_nonempty := by simpa using h
    canceled_notMem := by simp [allowed]
    priority_nodup := nodup_eraseDups b.priority }

end Builder

end Coordinate

end Chronicle
