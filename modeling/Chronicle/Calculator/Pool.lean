import Chronicle.Calculator
import Chronicle.Coordinate.Interner

/-!
# Calculator pools

A pool hands out calculators. Asked again for an equal coordinate it hands out the same calculator,
as long as it remembers it. A reset starts a new generation and forgets every calculator and every
interned coordinate; whoever holds a calculator goes on using it, and it brings itself up to date.
-/

namespace Chronicle

/-- A calculator that a pool has handed out. -/
structure CalculatorHandle where
  coordinate : Coordinate
  /-- Tells the calculator apart from the others of the pool. -/
  number : Nat
  deriving DecidableEq

/-- Calculators and interned coordinates. -/
structure CalculatorPool where
  generation : Nat := 0
  /-- Every calculator that was handed out, by its number. -/
  calculators : List Calculator := []
  /-- The numbers of the calculators that are handed out again. -/
  remembered : Cache Coordinate Nat := {}
  coordinates : Coordinate.Interner := {}
  deriving DecidableEq

namespace CalculatorPool

/-- What the calculators of the pool depend on, over some paths. -/
def scene (pool : CalculatorPool) (paths : PathGraph) : Scene where
  paths
  generation := pool.generation

/-- The present state of a calculator. -/
def get (pool : CalculatorPool) (handle : CalculatorHandle) (scene : Scene) : Calculator :=
  pool.calculators[handle.number]?.getD (Calculator.make handle.coordinate scene)

/-- Replaces the state of a calculator. -/
def set (pool : CalculatorPool) (handle : CalculatorHandle) (calculator : Calculator) :
    CalculatorPool :=
  { pool with calculators := pool.calculators.set handle.number calculator }

/-- The calculator that is handed out again for a coordinate. -/
def find? (pool : CalculatorPool) (coordinate : Coordinate) (scene : Scene) :
    Option CalculatorHandle := do
  let number ← pool.remembered.find? coordinate
  let handle : CalculatorHandle := { coordinate, number }
  if (pool.get handle scene).isStale scene then none else some handle

/-- Makes a calculator and remembers it. -/
def add (pool : CalculatorPool) (coordinate : Coordinate) (scene : Scene) :
    CalculatorHandle × CalculatorPool :=
  let number := pool.calculators.length
  ({ coordinate, number },
    { pool with
      calculators := pool.calculators ++ [Calculator.make coordinate scene]
      remembered := pool.remembered.insert coordinate number
      coordinates := (pool.coordinates.intern coordinate).2 })

/-- The calculator for a coordinate, made now if none is remembered. -/
def provide (pool : CalculatorPool) (coordinate : Coordinate) (scene : Scene) :
    CalculatorHandle × CalculatorPool :=
  match pool.find? coordinate scene with
  | some handle => (handle, pool)
  | none => pool.add coordinate scene

/-- The instance for a coordinate. -/
def intern (pool : CalculatorPool) (coordinate : Coordinate) : Nat × CalculatorPool :=
  let (number, coordinates) := pool.coordinates.intern coordinate
  (number, { pool with coordinates })

/-- Starts a new generation. -/
def reset (pool : CalculatorPool) : CalculatorPool :=
  { pool with
    generation := pool.generation + 1
    remembered := {}
    coordinates := pool.coordinates.clear }

end CalculatorPool

end Chronicle
