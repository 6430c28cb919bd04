import Chronicle.Stamp.Fields

/-!
# Stamp histories

A stamp is stored as the list of the fields that it has had, oldest first; the last entry is the
effective one. Only an uncommitted stamp takes a further entry, so that a committed or canceled
stamp is closed. Main statement: a history is read back from the bytes that it is written in.
-/

namespace Chronicle

/-- The fields that a stamp has had, the effective ones apart. -/
structure StampHistory where
  /-- The entries before the effective one, oldest first. -/
  earlier : List StampFields
  current : StampFields
  deriving DecidableEq

namespace StampHistory

/-- The history of a new stamp. -/
def start (fields : StampFields) : StampHistory where
  earlier := []
  current := fields

/-- Every entry, oldest first. -/
def versions (history : StampHistory) : List StampFields :=
  history.earlier ++ [history.current]

/-- The history with one more entry, if the stamp is open and the entry is a change. -/
def push? (history : StampHistory) (fields : StampFields) : Option StampHistory :=
  if history.current ≠ fields ∧ history.current.isUncommitted then
    some { earlier := history.versions, current := fields }
  else none

/-- The history after one more entry was offered. -/
def push (history : StampHistory) (fields : StampFields) : StampHistory :=
  (history.push? fields).getD history

/-- The byte that a stored stamp starts with. -/
def tag : UInt8 := 0x53

/-- The bytes of a history: its tag, the number of its entries and the entries, the oldest first. -/
def encode (history : StampHistory) : Bytes :=
  [tag] ++ Wire.count history.versions.length ++ history.versions.flatMap StampFields.encode

/-- Reads a history, which has an entry at least. -/
def read : Reader StampHistory := do
  let found ← Reader.byte
  if found ≠ tag then Reader.fail (.unknownTag found)
  else match ← Reader.count with
    | 0 => Reader.fail .emptyHistory
    | n + 1 =>
      let earlier ← Reader.items StampFields.read n
      let current ← StampFields.read
      return { earlier, current }

/-- The history that a byte string stands for. -/
def decode (bytes : Bytes) : Except DecodeError StampHistory :=
  read.decode bytes

/-- Offers every entry of an update to a stored history. The stored bytes stay when either side
cannot be read and when no entry is taken. -/
def mergePayload (existing update : Bytes) : Bytes :=
  match decode existing, decode update with
  | .ok history, .ok entries =>
    let merged := entries.versions.foldl push history
    if merged = history then existing else merged.encode
  | _, _ => existing

end StampHistory

end Chronicle
