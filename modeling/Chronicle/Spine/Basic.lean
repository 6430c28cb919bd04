import Chronicle.Wire
import Std.Data.ExtTreeMap

/-!
# Spines

A spine is a row of slots, each empty or holding a payload. Persisted, it is the number of its slots
and each payload behind its length; an empty slot has length zero. A blob may hold fewer slots than
the spine has, but not more.
-/

namespace Chronicle

/-- The content of a slot. The revision tells the contents of one slot apart, equal ones too. -/
structure Cell where
  payload : Bytes
  revision : Nat
  deriving DecidableEq

/-- A row of slots in memory. -/
structure Spine where
  slots : Std.ExtTreeMap Nat Cell
  /-- Whether there are changes since the spine was last written. -/
  changed : Bool
  /-- Whether the persisted blob could not be loaded, so that writing would destroy it. -/
  degraded : Bool
  deriving DecidableEq

namespace Spine

/-- A spine without payloads. -/
def empty : Spine where
  slots := ∅
  changed := false
  degraded := false

/-- What stands for a spine whose blob could not be loaded. -/
def unreadable : Spine :=
  { empty with degraded := true }

/-- The payload in a slot, if there is one. -/
def payload? (spine : Spine) (slot : Nat) : Option Bytes :=
  spine.slots[slot]?.map Cell.payload

/-- Puts a payload into a slot, as a content that differs from the one it replaces. -/
def install (spine : Spine) (slot : Nat) (payload : Bytes) : Spine :=
  let revision := (spine.slots[slot]?.map fun cell => cell.revision + 1).getD 0
  { spine with slots := spine.slots.insert slot { payload, revision }, changed := true }

/-- The bytes of one slot. -/
def encodeSlot (spine : Spine) (slot : Nat) : Bytes :=
  Wire.block ((spine.payload? slot).getD [])

/-- The blob of a spine with `size` slots. -/
def encode (size : Nat) (spine : Spine) : Bytes :=
  Wire.count size ++ (List.range size).flatMap spine.encodeSlot

/-- A length, which the format writes as a signed word. -/
def readLength : Reader Nat := do
  let length ← Reader.int32
  if length < 0 then Reader.fail (.negativeLength length) else return length.toInt.toNat

/-- Reads `n` slots, from a slot on. -/
def readSlots : (n slot : Nat) → Std.ExtTreeMap Nat Cell → Reader (Std.ExtTreeMap Nat Cell)
  | 0, _, slots => return slots
  | n + 1, slot, slots => do
    let payload ← Reader.slice (← readLength)
    readSlots n (slot + 1)
      (if payload = [] then slots else slots.insert slot { payload, revision := 0 })

/-- Reads a spine of some size. -/
def read (size : Nat) : Reader Spine := do
  let found ← readLength
  if size < found then Reader.fail (.slotCountMismatch size found)
  else return { empty with slots := ← readSlots found 0 ∅ }

/-- The spine with `size` slots that a blob describes. -/
def decode (size : Nat) (blob : Bytes) : Except DecodeError Spine :=
  (read size).decode blob

end Spine

end Chronicle
