import Chronicle.Stamp.Status

/-!
# Sets of statuses
-/

namespace Chronicle

/-- A set of statuses, by which of them it holds. -/
structure StatusSet where
  active : Bool
  inactive : Bool
  withdrawn : Bool
  primordial : Bool
  canceled : Bool
  deriving DecidableEq

namespace StatusSet

/-- The set of the statuses for which a test holds. -/
def ofPredicate (holds : Status → Bool) : StatusSet where
  active := holds .active
  inactive := holds .inactive
  withdrawn := holds .withdrawn
  primordial := holds .primordial
  canceled := holds .canceled

/-- Whether a status is a member. -/
def contains (s : StatusSet) : Status → Bool
  | .active => s.active
  | .inactive => s.inactive
  | .withdrawn => s.withdrawn
  | .primordial => s.primordial
  | .canceled => s.canceled

/-- The set without a member. -/
def empty : StatusSet :=
  ofPredicate fun _ => false

/-- The set with one more member. -/
def insert (s : StatusSet) (status : Status) : StatusSet :=
  ofPredicate fun x => x == status || s.contains x

/-- The set without one of its members. -/
def erase (s : StatusSet) (status : Status) : StatusSet :=
  ofPredicate fun x => x != status && s.contains x

/-- The set of the statuses in a list. -/
def ofList (statuses : List Status) : StatusSet :=
  statuses.foldl insert empty

/-- Active work alone. -/
def activeOnly : StatusSet :=
  ofList [.active]

/-- Active and inactive work. -/
def activeAndInactive : StatusSet :=
  ofList [.active, .inactive]

/-- Every status except canceled. -/
def live : StatusSet :=
  ofList [.active, .inactive, .withdrawn, .primordial]

/-- The members, in the order of the codes. -/
def toList (s : StatusSet) : List Status :=
  Status.all.filter s.contains

/-- Whether no status is a member. -/
def isEmpty (s : StatusSet) : Bool :=
  s.toList.isEmpty

instance : ToString StatusSet where
  toString s := "\x7b" ++ ", ".intercalate (s.toList.map fun status => status.name.capitalize) ++
    "\x7d"

/-- The set of a predicate has exactly the statuses it holds of. -/
@[simp]
theorem contains_ofPredicate (holds : Status → Bool) (status : Status) :
    (ofPredicate holds).contains status = holds status := by
  cases status <;> rfl

/-- A set of statuses is told by its members. -/
@[ext]
theorem ext {a b : StatusSet} (h : ∀ status, a.contains status = b.contains status) : a = b := by
  cases a
  cases b
  simp only [mk.injEq]
  exact ⟨h .active, h .inactive, h .withdrawn, h .primordial, h .canceled⟩

/-- Inserting a status adds it and nothing else. -/
@[simp]
theorem contains_insert (s : StatusSet) (status x : Status) :
    (s.insert status).contains x = (x == status || s.contains x) := by
  simp [insert]

/-- Erasing a status removes it and nothing else. -/
@[simp]
theorem contains_erase (s : StatusSet) (status x : Status) :
    (s.erase status).contains x = (x != status && s.contains x) := by
  simp [erase]

/-- The list of a set has its members. -/
@[simp]
theorem mem_toList {s : StatusSet} {status : Status} :
    status ∈ s.toList ↔ s.contains status = true := by
  simp [toList, Status.mem_all]

end StatusSet

end Chronicle
