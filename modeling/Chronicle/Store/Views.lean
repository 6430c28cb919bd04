import Chronicle.Store.Basic

/-!
# Views of a store

Paths, and what coordinates see along them. The store hands out one calculator for each coordinate
and asks it; whoever holds one can ask it too.
-/

namespace Chronicle.Store

variable {α : Type}

/-- Lets a path inherit the history of an origin up to a time. The caches are reset if that is a
change. -/
def addPathOrigin (path : Nid) (edge : PathOrigin) : Action Unit := do
  match ← outcome ((← get).paths.addOrigin path edge) with
  | some paths =>
    modify fun s => { s with paths }
    resetCaches
  | none => return ()

/-- The origins of a path, in the order in which they were added. -/
def pathOrigins (s : Store) (path : Nid) : List PathOrigin :=
  s.paths.origins path

/-- The instance for a coordinate. -/
def intern (coordinate : Coordinate) : StateM Store Nat := fun s =>
  let (number, pool) := s.pool.intern coordinate
  (number, { s with pool })

/-- The calculator for a coordinate. -/
def calculator (coordinate : Coordinate) : StateM Store CalculatorHandle := fun s =>
  let (handle, pool) := s.pool.provide coordinate s.scene
  (handle, { s with pool })

/-- Whether the caches were reset since a calculator last computed its route. -/
def isStale (s : Store) (handle : CalculatorHandle) : Bool :=
  (s.pool.get handle s.scene).isStale s.scene

/-- Asks a calculator. -/
def ask (handle : CalculatorHandle) (question : Scene → SpineStore.Scan Calculator α) :
    StateM Store α := fun s =>
  let ((answer, calculator), spines) := question s.scene (s.pool.get handle s.scene) s.spines
  (answer, { s with spines, pool := s.pool.set handle calculator })

/-- The latest version of a component that a coordinate sees. -/
def latest (coordinate : Coordinate) (nid : Nid) : StateM Store (Latest Version) := do
  ask (← calculator coordinate) fun scene => Calculator.latest scene nid

/-- The one version of a component that a coordinate sees. -/
def latestSingle (coordinate : Coordinate) (nid : Nid) : Action Version := do
  match ← infallible (latest coordinate nid) with
  | .single version => return version
  | .absent => throw (.notFound (.latest nid))
  | .contradiction versions => throw (.contradiction nid versions.length)

/-- The latest version of each stored component, in ascending order of nids. -/
def latestAll (coordinate : Coordinate) : StateM Store (List (Nid × Latest Version)) := do
  ask (← calculator coordinate) Calculator.latestAll

/-- The latest version of each stored component, in the order in which workers visit them. -/
def latestAllParallel (coordinate : Coordinate) (workers : Nat) (schedule : List Nat) :
    StateM Store (List (Nid × Latest Version)) := do
  ask (← calculator coordinate) (Calculator.latestAllParallel workers schedule)

end Chronicle.Store
