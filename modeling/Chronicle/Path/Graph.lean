import Chronicle.Wire
import Std.Data.ExtTreeMap

/-!
# The path graph

A path inherits the history of each of its origins up to a time. Recording an origin again replaces
its time in place. A recorded graph has at most one edge from a path to an origin and none to the
path itself; a graph read from a table may have any edges at all.
-/

namespace Chronicle

/-- An origin, and the last time up to which its history is inherited. -/
structure PathOrigin where
  origin : Nid
  time : Int64
  deriving DecidableEq

/-- Replaces the first edge to the same origin, or appends the edge when there is none. -/
def PathOrigin.insertInto (edge : PathOrigin) : List PathOrigin → List PathOrigin
  | [] => [edge]
  | first :: rest =>
    if first.origin = edge.origin then edge :: rest else first :: insertInto edge rest

/-- The origins of each path, in the order in which they were recorded. -/
structure PathGraph where
  edges : Std.ExtTreeMap Nid (List PathOrigin)
  /-- Whether there are changes since the graph was last persisted. -/
  changed : Bool
  deriving DecidableEq

namespace PathGraph

/-- A graph without edges. -/
def empty : PathGraph where
  edges := ∅
  changed := false

/-- The edges from a path to its origins. -/
def origins (g : PathGraph) (path : Nid) : List PathOrigin :=
  g.edges[path]?.getD []

/-- Lets a path inherit from an origin. Answers the new graph, or nothing when the edge is there
already. -/
def addOrigin (g : PathGraph) (path : Nid) (edge : PathOrigin) :
    Except ConfigurationError (Option PathGraph) :=
  if path = edge.origin then .error (.selfOrigin path)
  else
    let updated := edge.insertInto (g.origins path)
    if updated = g.origins path then .ok none
    else .ok (some { edges := g.edges.insert path updated, changed := true })

/-- The graph with changes to persist. -/
def markChanged (g : PathGraph) : PathGraph :=
  { g with changed := true }

/-- The number of edges. -/
def size (g : PathGraph) : Nat :=
  g.edges.toList.foldl (fun n entry => n + entry.2.length) 0

end PathGraph

end Chronicle
