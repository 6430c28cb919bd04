import Chronicle.Cache
import Chronicle.Coordinate.Basic

/-!
# Interned coordinates

Interning hands out one instance for equal coordinates, as long as the interner remembers it. An
instance is told apart from others by its number; a coordinate that was forgotten gets a new one.
-/

namespace Chronicle.Coordinate

/-- The instances that are remembered, and how many were ever made. -/
structure Interner where
  instances : Cache Coordinate Nat := {}
  made : Nat := 0
  deriving DecidableEq

namespace Interner

/-- The instance for a coordinate, made now if none is remembered. -/
def intern (interner : Interner) (coordinate : Coordinate) : Nat × Interner :=
  match interner.instances.find? coordinate with
  | some number => (number, interner)
  | none =>
    (interner.made,
      { instances := interner.instances.insert coordinate interner.made
        made := interner.made + 1 })

/-- Forgets every instance. -/
def clear (interner : Interner) : Interner :=
  { interner with instances := {} }

/-- The number of coordinates that are known. -/
def size (interner : Interner) : Nat :=
  interner.instances.size

end Interner

end Chronicle.Coordinate
