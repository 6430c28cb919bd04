import Chronicle.Path.Graph

/-!
# Routes

The route from a path holds every path that can be reached over origin edges. What is visible there
ends at a cutoff: walking on over an edge lowers the cutoff to the time of the edge. Of several
walks to a path the one with the latest cutoff counts, and among those the shortest.

The route is found by a search with a first-in, first-out queue. A path is queued again only when
its cutoff has grown, and its cutoff is the horizon or the time of an edge, so the square of one
more than the number of edges bounds the steps that the search can take.
-/

namespace Chronicle

/-- How a path is reached: up to which time, and over how many edges. -/
structure Reach where
  cutoff : Int64
  depth : Nat
  deriving DecidableEq

namespace Reach

/-- The reach of an origin, over an edge with the given time. -/
def through (reach : Reach) (time : Int64) : Reach where
  cutoff := min reach.cutoff time
  depth := reach.depth + 1

/-- Whether a reach counts more than another: a later cutoff, or the same over fewer edges. -/
def betters (reach known : Reach) : Bool :=
  known.cutoff < reach.cutoff || (reach.cutoff == known.cutoff && reach.depth < known.depth)

end Reach

/-- How each path on a route is reached. -/
abbrev Route := Std.ExtTreeMap Nid Reach

/-- A search for a route: what is reached so far, and what is still to be walked on from. -/
structure RouteSearch where
  route : Route
  queue : List (Nid × Reach)
  deriving DecidableEq

namespace RouteSearch

/-- The search from a path, before its first step. -/
def start (path : Nid) (horizon : Int64) : RouteSearch :=
  let reach : Reach := { cutoff := horizon, depth := 0 }
  { route := (∅ : Route).insert path reach, queue := [(path, reach)] }

/-- Takes note of a reach, and queues it, unless what is known of the path counts as much. -/
def offer (search : RouteSearch) (path : Nid) (reach : Reach) : RouteSearch :=
  if search.route[path]?.all reach.betters then
    { route := search.route.insert path reach, queue := search.queue ++ [(path, reach)] }
  else search

/-- Offers the origins at the ends of some edges, one after another. -/
def offerAll (search : RouteSearch) (reach : Reach) (edges : List PathOrigin) : RouteSearch :=
  edges.foldl (fun s edge => s.offer edge.origin (reach.through edge.time)) search

/-- Walks on from the front of the queue. -/
def step (g : PathGraph) (search : RouteSearch) : RouteSearch :=
  match search.queue with
  | [] => search
  | (path, reach) :: queue => offerAll { search with queue } reach (g.origins path)

/-- Takes at most `n` steps. -/
def run (g : PathGraph) : (n : Nat) → RouteSearch → RouteSearch
  | 0, search => search
  | n + 1, search => if search.queue.isEmpty then search else run g n (search.step g)

end RouteSearch

/-- The route from a path, with the horizon as its cutoff there. -/
def PathGraph.route (g : PathGraph) (path : Nid) (horizon : Int64) : Route :=
  ((RouteSearch.start path horizon).run g ((g.size + 1) * (g.size + 1))).route

end Chronicle
