import Chronicle.Wire

/-!
# Chronologies

The chronology of a component lists its versions in the order in which they were recorded. A version
is a stamp and the bytes that were handed in with it; each stamp has at most one version unless a
stored payload says otherwise, and the first one counts.
-/

namespace Chronicle

/-- What a component is. -/
inductive ComponentKind where
  | concept
  | semantic
  | pattern
  deriving DecidableEq

namespace ComponentKind

/-- Every kind. -/
def all : List ComponentKind :=
  [concept, semantic, pattern]

/-- The byte that stands for a kind. -/
def code : ComponentKind → UInt8
  | concept => 1
  | semantic => 2
  | pattern => 3

/-- The kind that a byte stands for. -/
def ofCode (code : UInt8) : Except DecodeError ComponentKind :=
  match all.find? fun kind => kind.code = code with
  | some kind => .ok kind
  | none => .error (.unknownKind code)

/-- What a kind is called. -/
def name : ComponentKind → String
  | concept => "concept"
  | semantic => "semantic"
  | pattern => "pattern"

/-- The code of a kind is read back as that kind. -/
theorem ofCode_code (kind : ComponentKind) : ofCode kind.code = .ok kind := by
  cases kind <;> rfl

end ComponentKind

/-- The bytes recorded under a stamp. -/
structure Version where
  stamp : Nid
  fields : Bytes
  deriving DecidableEq

namespace Version

/-- The bytes of a version: its stamp and the block of its fields. -/
def encode (version : Version) : Bytes :=
  Wire.nid version.stamp ++ Wire.block version.fields

/-- Reads a version. -/
def read : Reader Version := do
  let stamp ← Reader.nid
  let fields ← Reader.block
  return { stamp, fields }

/-- Replaces the first version with the same stamp, or appends the version when there is none. -/
def insertInto (version : Version) : List Version → List Version
  | [] => [version]
  | first :: rest =>
    if first.stamp = version.stamp then version :: rest else first :: insertInto version rest

private theorem insertInto_ne_nil (version : Version) (versions : List Version) :
    version.insertInto versions ≠ [] := by
  cases versions with
  | nil => simp [insertInto]
  | cons first rest =>
    unfold insertInto
    split <;> simp

end Version

/-- The versions of a component in the order in which they were recorded. -/
structure Chronology where
  nid : Nid
  kind : ComponentKind
  versions : List Version
  ne_nil : versions ≠ []
  deriving DecidableEq

namespace Chronology

/-- The chronology of a component with its first version. -/
def start (nid : Nid) (kind : ComponentKind) (first : Version) : Chronology where
  nid
  kind
  versions := [first]
  ne_nil := by simp

/-- The number of versions. -/
def size (c : Chronology) : Nat :=
  c.versions.length

/-- The version recorded for a stamp. -/
def version? (c : Chronology) (stamp : Nid) : Option Version :=
  c.versions.find? fun version => version.stamp = stamp

/-- Records a version, in place of the one for the same stamp if there is one. -/
def insert (c : Chronology) (version : Version) : Chronology :=
  { c with
    versions := version.insertInto c.versions
    ne_nil := version.insertInto_ne_nil c.versions }

/-- Records a version unless there is one for the same stamp. -/
def append? (c : Chronology) (version : Version) : Option Chronology :=
  if (c.version? version.stamp).isSome then none
  else some { c with versions := c.versions ++ [version], ne_nil := by simp }

/-- The chronology after a version was offered, which a recorded one for the same stamp outlives. -/
def append (c : Chronology) (version : Version) : Chronology :=
  (c.append? version).getD c

/-- The byte that a stored chronology starts with. -/
def tag : UInt8 := 0x43

/-- The bytes of a chronology: its tag, its kind, its nid, the number of its versions and these. -/
def encode (c : Chronology) : Bytes :=
  [tag, c.kind.code] ++ Wire.nid c.nid ++ Wire.count c.versions.length ++
    c.versions.flatMap Version.encode

/-- Reads a chronology, which has a version at least. -/
def read : Reader Chronology := do
  let found ← Reader.byte
  if found ≠ tag then Reader.fail (.unknownTag found)
  else
    let code ← Reader.byte
    match ComponentKind.ofCode code with
    | .error error => Reader.fail error
    | .ok kind =>
      let nid ← Reader.nid
      match ← Reader.count with
      | 0 => Reader.fail .emptyHistory
      | n + 1 =>
        let first ← Version.read
        let rest ← Reader.items Version.read n
        return { nid, kind, versions := first :: rest, ne_nil := by simp }

/-- The chronology that a byte string stands for. -/
def decode (bytes : Bytes) : Except DecodeError Chronology :=
  read.decode bytes

/-- Records every version of an update in a stored chronology; `replace` says whether a version that
is already recorded takes the new fields. The stored bytes stay when either side cannot be read and
when the update is for another component. -/
def mergePayload (replace : Bool) (existing update : Bytes) : Bytes :=
  match decode existing, decode update with
  | .ok stored, .ok offered =>
    if offered.nid = stored.nid then
      (offered.versions.foldl (if replace then insert else append) stored).encode
    else existing
  | _, _ => existing

end Chronology

end Chronicle
