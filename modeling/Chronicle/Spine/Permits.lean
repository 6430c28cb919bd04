/-!
# Permits

A counting semaphore: at most so many accesses to the medium are under way at once.
-/

namespace Chronicle

/-- How many permits there are, and how many are held. -/
structure Permits where
  total : Nat
  held : Nat := 0
  /-- The most permits that were ever held at once. -/
  peak : Nat := 0
  /-- Whether a caller ever found no permit left, and so waited for ever. -/
  starved : Bool := false
  deriving DecidableEq

namespace Permits

/-- The number of permits that are left. -/
def available (p : Permits) : Nat :=
  p.total - p.held

/-- Takes a permit, if one is left. -/
def acquire? (p : Permits) : Option Permits :=
  if p.held < p.total then
    some { p with held := p.held + 1, peak := max p.peak (p.held + 1) }
  else none

/-- Gives a permit back. -/
def release (p : Permits) : Permits :=
  { p with held := p.held - 1 }

end Permits

end Chronicle
