/-!
# Surrogate keys

A nid names a component inside one store. Nids are handed out in ascending order from the second
smallest signed 32-bit number on, so that the distance from the first one can address a slot.
-/

namespace Chronicle

/-- A dense surrogate key for a component. -/
structure Nid where
  raw : Int32
  deriving DecidableEq

namespace Nid

instance : Ord Nid where
  compare := compareOn raw

instance : Std.TransOrd Nid :=
  inferInstanceAs (Std.TransCmp (compareOn raw))

instance : Std.LawfulEqOrd Nid where
  eq_of_compare {a b} h := by
    cases a
    cases b
    exact congrArg Nid.mk (Std.LawfulEqOrd.eq_of_compare h)

/-- The first nid that is ever handed out. -/
def first : Nid := ⟨Int32.minValue + 1⟩

/-- The last nid there is. It is never handed out, because none follows it. -/
def last : Nid := ⟨Int32.maxValue⟩

/-- The distance from the first nid; the one nid below it has none. -/
def offset? (nid : Nid) : Option Nat :=
  if first.raw ≤ nid.raw then some (nid.raw.toInt - first.raw.toInt).toNat else none

/-- The nid at a distance from the first one, if there is one. -/
def ofOffset? (offset : Nat) : Option Nid :=
  let raw := first.raw.toInt + offset
  if raw ≤ Int32.maxValue.toInt then some ⟨Int32.ofInt raw⟩ else none

/-- The nid after this one, if there is one. -/
def next? (nid : Nid) : Option Nid :=
  if nid = last then none else some ⟨nid.raw + 1⟩

instance : ToString Nid where
  toString nid := "Nid(" ++ toString nid.raw.toInt ++ ")"

end Nid

end Chronicle
