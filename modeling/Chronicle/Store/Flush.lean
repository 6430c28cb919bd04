import Chronicle.Path.Table
import Chronicle.Registry.Table
import Chronicle.Store.Basic

/-!
# Flushing a store

A flush writes what has changed: first the tables, then the spines. The spines hold nids that the
identity table accounts for, so none is written once a table has failed; both tables are tried, and
the first failure is the answer. What failed stays marked for the next flush.
-/

namespace Chronicle.Store

/-- Whether there are changes that a flush would write. -/
def hasUnflushed (s : Store) : Bool :=
  s.spines.hasChanges || s.registry.changed || s.paths.changed

/-- The name of the table that the registry is persisted in. -/
def identityTable : String := "identity"

/-- The name of the table that the path graph is persisted in. -/
def pathTable : String := "paths"

/-- How many spines and tables a flush wrote. -/
structure FlushStats where
  spines : Nat
  tables : Nat
  deriving DecidableEq

/-- Writes a table to the medium. -/
def writeTable (name : String) (table : Bytes) : StateM Store (Except IoError Unit) := fun s =>
  let (answer, medium) := Medium.writeTable name table s.spines.medium
  (answer, { s with spines := { s.spines with medium } })

/-- Writes the registry if it has changes. Answers how many tables were written. -/
def flushRegistry : StateM Store (Except IoError Nat) := do
  let s ← get
  if s.registry.changed then
    match ← writeTable identityTable s.registry.encodeTable with
    | .ok () =>
      modify fun s => { s with registry := s.registry.settled }
      return .ok 1
    | .error error => return .error error
  else return .ok 0

/-- Writes the path graph if it has changes. Answers how many tables were written. -/
def flushPaths : StateM Store (Except IoError Nat) := do
  let s ← get
  if s.paths.changed then
    match ← writeTable pathTable s.paths.encodeTable with
    | .ok () =>
      modify fun s => { s with paths := s.paths.settled }
      return .ok 1
    | .error error => return .error error
  else return .ok 0

/-- Writes everything that has changes. -/
def flush : Action FlushStats := do
  let registry ← infallible flushRegistry
  let paths ← infallible flushPaths
  let tables ← outcome (do return (← registry) + (← paths))
  let spines ← SpineStore.write
  return { spines, tables }

end Chronicle.Store
