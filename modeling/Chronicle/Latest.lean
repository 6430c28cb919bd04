/-!
# The answer of a resolution
-/

namespace Chronicle

/-- The latest version that a view sees. A contradiction is an ordinary answer: the view sees
several equally recent versions and nothing ranks one above the others. -/
inductive Latest (α : Type) where
  | absent
  | single (value : α)
  /-- Two or more tied versions, in ascending order of their stamps. -/
  | contradiction (values : List α)
  deriving DecidableEq

namespace Latest

variable {α β : Type}

instance : Inhabited (Latest α) := ⟨absent⟩

/-- No value is absent, one is single, and more are a contradiction. -/
def ofList : List α → Latest α
  | [] => absent
  | [value] => single value
  | values => contradiction values

/-- Whether there is no value. -/
def isAbsent : Latest α → Bool
  | absent => true
  | _ => false

/-- Whether there is a value at all. -/
def isPresent (latest : Latest α) : Bool :=
  !latest.isAbsent

/-- Whether there are several values. -/
def isContradiction : Latest α → Bool
  | contradiction _ => true
  | _ => false

/-- The value, if there is exactly one. -/
def single? : Latest α → Option α
  | single value => some value
  | _ => none

/-- Every value in the answer. -/
def toList : Latest α → List α
  | absent => []
  | single value => [value]
  | contradiction values => values

/-- A function of every value. -/
def map (f : α → β) : Latest α → Latest β
  | absent => absent
  | single value => single (f value)
  | contradiction values => contradiction (values.map f)

end Latest

end Chronicle
