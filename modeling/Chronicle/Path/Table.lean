import Chronicle.Path.Graph

/-!
# The path table

The persisted form of a path graph: a marker, the number of edges, and each edge as path, origin and
time. The edges stand in ascending order of path and origin; several edges between the same two
paths keep their order.
-/

namespace Chronicle.PathGraph

/-- The sixteen bytes that a path table starts with. -/
def tableMarker : Bytes :=
  Wire.ascii "stampstore:paths"

/-- Every edge in the order of the table. -/
def sortedEdges (g : PathGraph) : List (Nid × PathOrigin) :=
  g.edges.toList.flatMap fun entry =>
    (entry.2.mergeSort fun a b => (compare a.origin b.origin).isLE).map (entry.1, ·)

/-- The bytes of an edge: its path, its origin and its time. -/
def encodeEdge (entry : Nid × PathOrigin) : Bytes :=
  Wire.nid entry.1 ++ Wire.nid entry.2.origin ++ Wire.int64 entry.2.time

/-- The table of a graph: its marker and its edges in order. -/
def encodeTable (g : PathGraph) : Bytes :=
  tableMarker ++ Wire.count g.sortedEdges.length ++ g.sortedEdges.flatMap encodeEdge

/-- The graph once its table is persisted. -/
def settled (g : PathGraph) : PathGraph :=
  { g with changed := false }

/-- Records an edge of a table behind those that the path has, whatever they are. -/
def restore (g : PathGraph) (entry : Nid × PathOrigin) : PathGraph :=
  { g with edges := g.edges.insert entry.1 (g.origins entry.1 ++ [entry.2]) }

/-- Reads one edge. -/
def readEdge : Reader (Nid × PathOrigin) := do
  let path ← Reader.nid
  let origin ← Reader.nid
  let time ← Reader.int64
  return (path, { origin, time })

/-- Reads a table into a graph without changes. Nothing is refused that `addOrigin` would refuse. -/
def readTable : Reader PathGraph := do
  Reader.marker tableMarker
  let entries ← Reader.items readEdge (← Reader.count)
  return entries.foldl restore empty

/-- The graph that a table describes. -/
def decodeTable (table : Bytes) : Except DecodeError PathGraph :=
  readTable.decode table

end Chronicle.PathGraph
