import Chronicle.Config.Root
import Chronicle.Store.Flush

/-!
# Opening a store

A store is opened over a medium: its tables are read, and every status gets a nid if it has none.
The spines are not read; they come into memory when they are touched. A store with a root directory
is opened over the medium that its configuration names.
-/

namespace Chronicle.Store

variable {α : Type}

/-- An activity that leads to a store, over what the store is to be opened on. -/
abbrev Opening (σ α : Type) := EStateM StoreError σ α

/-- Reads what a table holds, or takes something else when it was never written. -/
def readTable (name : String) (decode : Bytes → Except DecodeError α) (missing : α) :
    Opening Medium α := fun m =>
  match Medium.readTable name m with
  | (.error error, m) => .error (.io error) m
  | (.ok none, m) => .ok missing m
  | (.ok (some table), m) => outcome (decode table) m

/-- Registers some statuses that may not be registered yet. -/
def registerStatuses : List Status → Registry → Except ConfigurationError Registry
  | [], registry => .ok registry
  | status :: rest, registry => do
    let (_, registry) ← registry.resolve (← PublicId.ofUuid status.uuid)
    registerStatuses rest registry

/-- Opens a store over a medium, which is in the store afterwards. -/
def overMedium (config : Config) (rooted : Bool) : Opening Medium Store := do
  outcome config.validate
  let stored ← readTable identityTable Registry.decodeTable .empty
  let paths ← readTable pathTable PathGraph.decodeTable .empty
  let registry ← outcome (registerStatuses Status.all stored)
  let spines := SpineStore.ofMedium (← get) config.spineSize config.ioPermits config.maxCasRetries
  set spines.medium
  return { rooted, config, registry, paths, spines, pool := {} }

/-- Opens a store over a medium in memory that is empty. -/
def inMemory (config : Config) : Except StoreError Store :=
  match overMedium config false Medium.inMemory with
  | .ok store _ => .ok store
  | .error error _ => .error error

/-- The medium that a configuration names for a root directory, and the file tree with the directory
made if it is needed. -/
def mediumAt (root : List String) (backend : BackendKind) (tree : FileTree) :
    Except ConfigurationError Medium :=
  match backend with
  | .directory => do return { backing := .folder (← Folder.open tree root) }
  | .memory => .ok Medium.inMemory

/-- The file tree that a medium is in, if it is in one. -/
def treeOf? (medium : Medium) : Option FileTree :=
  match medium.backing with
  | .folder folder => some folder.tree
  | .shelf _ => none

/-- Opens the store in a root directory. -/
def atRoot (root : List String) (config : Config) : Opening FileTree Store := fun tree =>
  match config.validate >>= fun _ => mediumAt root config.backend tree with
  | .error error => .error error tree
  | .ok medium =>
    match overMedium config true medium with
    | .ok store medium => .ok store ((treeOf? medium).getD tree)
    | .error error medium => .error error ((treeOf? medium).getD tree)

/-- Opens the store in a root directory with the configuration found there. -/
def atConfiguredRoot (root : List String) (environment : List (String × String)) :
    Opening FileTree Store := do
  let config ← outcome (Config.forRoot (← get) root environment)
  atRoot root config

end Chronicle.Store
