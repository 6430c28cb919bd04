import Chronicle.Hex

/-!
# Universally unique identifiers

A UUID is a word of 128 bits. It is persisted as sixteen bytes, most significant first, and shown
as five groups of lower case hexadecimal digits.
-/

namespace Chronicle

/-- A universally unique identifier. -/
structure Uuid where
  bits : BitVec 128
  deriving DecidableEq

namespace Uuid

instance : Ord Uuid where
  compare := compareOn bits

instance : Std.TransOrd Uuid :=
  inferInstanceAs (Std.TransCmp (compareOn bits))

instance : Std.LawfulEqOrd Uuid where
  eq_of_compare {a b} h := by
    cases a
    cases b
    exact congrArg Uuid.mk (Std.LawfulEqOrd.eq_of_compare h)

/-- The identifier whose bits are all zero, which can name nothing. -/
def nil : Uuid := ⟨0⟩

/-- Whether all bytes are zero. -/
def isNil (u : Uuid) : Bool :=
  u == nil

/-- The sixteen bytes of an identifier. -/
def toBytes (u : Uuid) : Bytes :=
  BigEndian.encode 16 u.bits.toNat

/-- The identifier with the given bytes; of more than sixteen the last ones count. -/
def ofBytes (bytes : Bytes) : Uuid :=
  ⟨BitVec.ofNat 128 (BigEndian.decode bytes)⟩

/-- The version number, which says how an identifier was made. -/
def version (u : Uuid) : Nat :=
  (u.bits.extractLsb' 76 4).toNat

/-- The random identifier made of the given bits: version 4, with the standard's variant. -/
def random (entropy : BitVec 128) : Uuid :=
  ⟨entropy &&& 0xffffffff_ffff_0fff_3fff_ffffffffffff ||| 0x00000000_0000_4000_8000_000000000000⟩

/-- The widths of the groups of digits in the text of an identifier. -/
def groupWidths : List Nat := [8, 4, 4, 4, 12]

/-- Cuts a list into pieces of the given widths. -/
private def cut {α : Type} : List Nat → List α → List (List α)
  | [], _ => []
  | width :: widths, xs => xs.take width :: cut widths (xs.drop width)

/-- The text of a UUID, with hyphens between its five groups of digits. -/
def text (u : Uuid) : String :=
  "-".intercalate ((cut groupWidths (Hex.digits u.toBytes)).map String.ofList)

instance : ToString Uuid := ⟨text⟩

/-- Reads the grouped text of an identifier; the digits may be of either case. -/
def ofText? (s : String) : Option Uuid := do
  let groups := (s.toList.splitOn '-')
  guard (groups.map List.length = groupWidths)
  let bytes ← Hex.ofDigits? [] groups.flatten
  return ofBytes bytes

/-- A UUID takes sixteen bytes. -/
@[simp]
theorem length_toBytes (u : Uuid) : u.toBytes.length = 16 :=
  BigEndian.length_encode ..

/-- An identifier is read back from its bytes. -/
@[simp]
theorem ofBytes_toBytes (u : Uuid) : ofBytes u.toBytes = u := by
  have hlt : u.bits.toNat < BigEndian.capacity 16 := u.bits.isLt
  rw [ofBytes, toBytes, BigEndian.decode_encode, Nat.mod_eq_of_lt hlt, BitVec.ofNat_toNat,
    BitVec.setWidth_eq]

/-- Sixteen bytes are the bytes of the identifier read from them. -/
theorem toBytes_ofBytes {bytes : Bytes} (h : bytes.length = 16) :
    (ofBytes bytes).toBytes = bytes := by
  have hlt : BigEndian.decode bytes < 2 ^ 128 := by
    have := BigEndian.decode_lt bytes
    rw [h] at this
    exact this
  rw [toBytes, ofBytes, BitVec.toNat_ofNat, Nat.mod_eq_of_lt hlt, ← h, BigEndian.encode_decode]

end Uuid

end Chronicle
