import Chronicle.Bytes
import Std.Data.ExtTreeMap

/-!
# Media in memory
-/

namespace Chronicle

/-- A medium that keeps each blob in memory, spines by index and tables by name. -/
structure Shelf where
  spines : Std.ExtTreeMap Nat Bytes
  tables : Std.ExtTreeMap String Bytes
  deriving DecidableEq

namespace Shelf

/-- A shelf with nothing on it. -/
def empty : Shelf where
  spines := ∅
  tables := ∅

/-- The blob of a spine, if there is one. -/
def readSpine (shelf : Shelf) (index : Nat) : Option Bytes :=
  shelf.spines[index]?

/-- Puts the blob of a spine in place. -/
def writeSpine (shelf : Shelf) (index : Nat) (blob : Bytes) : Shelf :=
  { shelf with spines := shelf.spines.insert index blob }

/-- The index of every spine, ascending. -/
def spineIndices (shelf : Shelf) : List Nat :=
  shelf.spines.keys

/-- The table of a name, if it was written. -/
def readTable (shelf : Shelf) (name : String) : Option Bytes :=
  shelf.tables[name]?

/-- Puts a table in place. -/
def writeTable (shelf : Shelf) (name : String) (table : Bytes) : Shelf :=
  { shelf with tables := shelf.tables.insert name table }

end Shelf

end Chronicle
