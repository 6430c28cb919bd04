/-!
# Fault schedules

A schedule says which of the coming calls fail, counted from the moment at which it is set.
-/

namespace Chronicle

/-- Which of the coming calls of one kind fail. -/
structure Schedule where
  fails : Nat → Bool
  /-- How many calls were made. -/
  made : Nat := 0

namespace Schedule

/-- No call fails. -/
def never : Schedule :=
  { fails := fun _ => false }

/-- Every call fails. -/
def always : Schedule :=
  { fails := fun _ => true }

/-- The next `n` calls fail. -/
def first (n : Nat) : Schedule :=
  { fails := fun call => call < n }

/-- Whether the next call fails, and the schedule after it. -/
def next (s : Schedule) : Bool × Schedule :=
  (s.fails s.made, { s with made := s.made + 1 })

end Schedule

/-- A schedule for each kind of access to a medium. -/
structure Faults where
  spineReads : Schedule := .never
  spineWrites : Schedule := .never
  spineListings : Schedule := .never
  tableReads : Schedule := .never
  tableWrites : Schedule := .never

end Chronicle
