import Chronicle.Config.Basic
import Chronicle.Toml.Document

/-!
# Configurations as TOML documents

A document sets some of the settings by name. Keys that name no setting are passed over. A size is a
non-negative integer and a choice is given by its name.
-/

namespace Chronicle.Config

open Toml (Node Entries)

/-- A size that a setting may have, below a bound. -/
def size? (bound : Nat) : Node → Option Nat
  | .integer value => if 0 ≤ value ∧ value < bound then some value.toNat else none
  | _ => none

/-- Whether a node is empty, so that it can stand behind the name of a choice. -/
def isEmptyNode : Node → Bool
  | .array [] => true
  | .table _ [] => true
  | .tables [] => true
  | _ => false

/-- One of some choices: its name, or a table in which nothing but an empty value stands under its
name. -/
def choice? {α : Type} (choices : List α) (name : α → String) : Node → Option α
  | .text value => choices.find? fun choice => name choice = value
  | .table _ [(key, node)] =>
    if isEmptyNode node then choices.find? fun choice => name choice = key else none
  | _ => none

/-- Reads one setting, which keeps its default where it is not set. -/
def setting {α : Type} (entries : Entries) (key : String) (default : α) (read : Node → Option α) :
    Except ConfigurationError α :=
  match entries.find? key with
  | none => .ok default
  | some node =>
    match read node with
    | some value => .ok value
    | none => .error (.malformed ("invalid value for " ++ key))

/-- The configuration that the entries of a document set. -/
def ofEntries (entries : Entries) : Except ConfigurationError Config := do
  let size := size? UInt64.size
  let d : Config := {}
  return {
    spineSize := ← setting entries "spine_size" d.spineSize size
    ioPermits := ← setting entries "io_permits" d.ioPermits size
    workers := ← setting entries "workers" d.workers fun node => some <$> size node
    coordinateCacheCapacity :=
      ← setting entries "coordinate_cache_capacity" d.coordinateCacheCapacity size
    calculatorCacheCapacity :=
      ← setting entries "calculator_cache_capacity" d.calculatorCacheCapacity size
    stampCacheCapacity := ← setting entries "stamp_cache_capacity" d.stampCacheCapacity size
    maxCasRetries := ← setting entries "max_cas_retries" d.maxCasRetries (size? UInt32.size)
    stampDedup :=
      ← setting entries "stamp_dedup" d.stampDedup (choice? StampDedup.all StampDedup.name)
    backend := ← setting entries "backend" d.backend (choice? BackendKind.all BackendKind.name) }

/-- The valid configuration that a text describes. -/
def ofText (text : String) : Except ConfigurationError Config := do
  match Toml.document? text with
  | none => throw (.malformed "not a TOML document")
  | some entries =>
    let config ← ofEntries entries
    config.validate
    return config

end Chronicle.Config
