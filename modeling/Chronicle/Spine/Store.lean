import Chronicle.Medium.Basic
import Chronicle.Spine.Basic
import Chronicle.Spine.Permits
import Std.Data.ExtTreeSet

/-!
# Spined stores

A spined store maps nids to payloads. Its slots are cut into spines of one size, and a spine comes
into memory when it is first touched, with its persisted blob if there was one when the store was
opened. A spine whose blob cannot be read is served as empty and never written back.

Every operation is a state transition. Merging a payload into a slot that is occupied runs a
function that may itself use the store; what it does in between is seen, because the merge compares
the slot with what it read before it installs anything, and tries again when the two differ.
-/

namespace Chronicle

/-- Where a nid is kept. -/
structure Place where
  index : Nat
  slot : Nat
  deriving DecidableEq

/-- A map from nids to payloads over a medium. -/
structure SpineStore where
  medium : Medium
  /-- The number of slots of a spine. -/
  spineSize : Nat
  /-- How many attempts a merge makes. -/
  maxAttempts : Nat
  permits : Permits
  /-- The spines that the medium listed when the store was opened. -/
  persisted : Std.ExtTreeSet Nat
  /-- How many spines the directory in memory reaches. -/
  extent : Nat
  /-- The spines in memory. -/
  loaded : Std.ExtTreeMap Nat Spine

namespace SpineStore

/-- Opens a store over a medium. Nothing but the list of spines is read; when that fails, no spine
counts as persisted. -/
def ofMedium (medium : Medium) (spineSize permits maxAttempts : Nat) : SpineStore :=
  let (listing, medium) := Medium.spineIndices medium
  { medium
    spineSize
    maxAttempts
    permits := { total := permits }
    persisted := match listing with
      | .ok indices => Std.ExtTreeSet.ofList indices
      | .error _ => ∅
    extent := 0
    loaded := ∅ }

/-- The place of a nid, unless it lies below the first one. -/
def place? (s : SpineStore) (nid : Nid) : Option Place :=
  nid.offset?.map fun offset => { index := offset / s.spineSize, slot := offset % s.spineSize }

/-- The nid that a place is for. -/
def nidAt? (s : SpineStore) (place : Place) : Option Nid :=
  Nid.ofOffset? (place.index * s.spineSize + place.slot)

/-- One more than the last index at which a spine may hold data. -/
def spineLimit (s : SpineStore) : Nat :=
  max s.extent (s.persisted.max?.elim 0 (· + 1))

/-- The number of spines in memory. -/
def loadedCount (s : SpineStore) : Nat :=
  s.loaded.size

/-- Whether a spine in memory has changes that are not written. -/
def hasChanges (s : SpineStore) : Bool :=
  s.loaded.toList.any fun entry => entry.2.changed

/-- Accesses the medium under a permit. A caller that finds none waits for ever, which the permits
record and which counts as a failed access. -/
def underPermit {α : Type} (access : Medium.Access α) : StateM SpineStore (Except IoError α) :=
  fun s =>
    match s.permits.acquire? with
    | none => (.error .unavailable, { s with permits := { s.permits with starved := true } })
    | some permits =>
      let (answer, medium) := access s.medium
      (answer, { s with medium, permits := permits.release })

/-- Reads the spine at an index from the medium, if it was persisted. -/
def load (index : Nat) : StateM SpineStore Spine := fun s =>
  if s.persisted.contains index then
    match underPermit (Medium.readSpine index) s with
    | (.ok (some blob), s) =>
      match Spine.decode s.spineSize blob with
      | .ok spine => (spine, s)
      | .error _ => (Spine.unreadable, s)
    | (.ok none, s) => (Spine.empty, s)
    | (.error _, s) => (Spine.unreadable, s)
  else (Spine.empty, s)

/-- The spine at an index, which comes into memory now if it was not there. -/
def touch (index : Nat) : StateM SpineStore Spine := fun s =>
  match s.loaded[index]? with
  | some spine => (spine, s)
  | none =>
    let (spine, s) := load index s
    (spine, { s with extent := max s.extent (index + 1), loaded := s.loaded.insert index spine })

/-- Whether there may be data at an index. -/
def reaches (s : SpineStore) (index : Nat) : Bool :=
  index < s.extent || s.persisted.contains index

/-- What a slot holds in memory. -/
def cell? (s : SpineStore) (place : Place) : Option Cell := do
  let spine ← s.loaded[place.index]?
  spine.slots[place.slot]?

/-- The payload stored for a nid. -/
def lookup (nid : Nid) : StateM SpineStore (Option Bytes) := fun s =>
  match s.place? nid with
  | none => (none, s)
  | some place =>
    if s.reaches place.index then
      let (spine, s) := touch place.index s
      (spine.payload? place.slot, s)
    else (none, s)

/-- Installs a payload, provided that the slot still holds what was read from it. -/
def swap (place : Place) (expected : Option Cell) (payload : Bytes) : StateM SpineStore Bool :=
  fun s =>
    if (s.cell? place).map Cell.revision = expected.map Cell.revision then
      let spine := (s.loaded[place.index]?.getD Spine.empty).install place.slot payload
      (true, { s with loaded := s.loaded.insert place.index spine })
    else (false, s)

/-- Makes at most `n` attempts to install a payload, or what a function makes of the slot's content
and the payload. Answers what was installed, if an attempt succeeded. -/
def attempt (place : Place) (payload : Bytes)
    (combine : Bytes → Bytes → StateM SpineStore Bytes) :
    (n : Nat) → Option Cell → StateM SpineStore (Option Bytes)
  | 0, _ => return none
  | n + 1, current => do
    let next ← match current with
      | none => pure payload
      | some cell => combine cell.payload payload
    if ← swap place current next then return some next
    else
      let s ← get
      attempt place payload combine n (s.cell? place)

/-- Merges a payload into the slot of a nid, by a function that may use the store. -/
def mergeM (nid : Nid) (payload : Bytes) (combine : Bytes → Bytes → StateM SpineStore Bytes) :
    EStateM StoreError SpineStore Bytes := fun s =>
  match s.place? nid with
  | none => .error (.notFound (.nid nid)) s
  | some place =>
    let (_, s) := touch place.index s
    match attempt place payload combine s.maxAttempts (s.cell? place) s with
    | (some installed, s) => .ok installed s
    | (none, s) => .error (.concurrencyInvariant nid s.maxAttempts) s

/-- Merges a payload into the slot of a nid, and answers what was installed. -/
def merge (nid : Nid) (payload : Bytes) (combine : Bytes → Bytes → Bytes) :
    EStateM StoreError SpineStore Bytes :=
  mergeM nid payload fun existing update => return combine existing update

end SpineStore

end Chronicle
