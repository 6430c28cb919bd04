import Chronicle.Medium.Faults
import Chronicle.Medium.Folder
import Chronicle.Medium.Shelf

/-!
# Storage media

A medium keeps opaque blobs: spines by index and small tables by name. It is a shelf or a folder,
together with a schedule of the accesses that fail. An access that fails by the schedule leaves what
is stored as it was.
-/

namespace Chronicle

/-- Where a medium keeps its blobs. -/
inductive Backing where
  | shelf (shelf : Shelf)
  | folder (folder : Folder)
  deriving DecidableEq

namespace Backing

/-- The blob of a spine, if there is one. -/
def readSpine (index : Nat) : Backing → Except IoError (Option Bytes)
  | shelf s => .ok (s.readSpine index)
  | folder f => f.readSpine index

/-- Puts the blob of a spine in place. -/
def writeSpine (index : Nat) (blob : Bytes) : Backing → Except IoError Unit × Backing
  | shelf s => (.ok (), shelf (s.writeSpine index blob))
  | folder f =>
    let (answer, f) := f.writeSpine index blob
    (answer, folder f)

/-- The spines that have a blob. -/
def spineIndices : Backing → Except IoError (List Nat)
  | shelf s => .ok s.spineIndices
  | folder f => f.spineIndices

/-- The table of a name, if it was written. -/
def readTable (name : String) : Backing → Except IoError (Option Bytes)
  | shelf s => .ok (s.readTable name)
  | folder f => f.readTable name

/-- Puts a table in place. -/
def writeTable (name : String) (table : Bytes) : Backing → Except IoError Unit × Backing
  | shelf s => (.ok (), shelf (s.writeTable name table))
  | folder f =>
    let (answer, f) := f.writeTable name table
    (answer, folder f)

end Backing

/-- A storage medium. -/
structure Medium where
  backing : Backing
  faults : Faults := {}

namespace Medium

/-- An empty medium in memory. -/
def inMemory : Medium :=
  { backing := .shelf Shelf.empty }

/-- An access answers, and leaves the medium in some state. -/
abbrev Access (α : Type) := StateM Medium (Except IoError α)

/-- Reads the blob of a spine, unless the read is scheduled to fail. -/
def readSpine (index : Nat) : Access (Option Bytes) := fun m =>
  let (fails, spineReads) := m.faults.spineReads.next
  let m := { m with faults := { m.faults with spineReads } }
  (if fails then .error .unavailable else m.backing.readSpine index, m)

/-- Writes the blob of a spine, unless the write is scheduled to fail. -/
def writeSpine (index : Nat) (blob : Bytes) : Access Unit := fun m =>
  let (fails, spineWrites) := m.faults.spineWrites.next
  let m := { m with faults := { m.faults with spineWrites } }
  if fails then (.error .unavailable, m)
  else
    let (answer, backing) := m.backing.writeSpine index blob
    (answer, { m with backing })

/-- Lists the spines that have a blob, unless the listing is scheduled to fail. -/
def spineIndices : Access (List Nat) := fun m =>
  let (fails, spineListings) := m.faults.spineListings.next
  let m := { m with faults := { m.faults with spineListings } }
  (if fails then .error .unavailable else m.backing.spineIndices, m)

/-- Reads a table, unless the read is scheduled to fail. -/
def readTable (name : String) : Access (Option Bytes) := fun m =>
  let (fails, tableReads) := m.faults.tableReads.next
  let m := { m with faults := { m.faults with tableReads } }
  (if fails then .error .unavailable else m.backing.readTable name, m)

/-- Writes a table, unless the write is scheduled to fail. -/
def writeTable (name : String) (table : Bytes) : Access Unit := fun m =>
  let (fails, tableWrites) := m.faults.tableWrites.next
  let m := { m with faults := { m.faults with tableWrites } }
  if fails then (.error .unavailable, m)
  else
    let (answer, backing) := m.backing.writeTable name table
    (answer, { m with backing })

end Medium

end Chronicle
