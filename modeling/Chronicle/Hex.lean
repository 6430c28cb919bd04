import Chronicle.Bytes

/-!
# Hexadecimal text of byte strings

Two lower case digits per byte. Reading also takes upper case digits; it refuses an odd number of
digits and every other character.
-/

namespace Chronicle.Hex

/-- The two digits of one byte. -/
def byteDigits (byte : UInt8) : List Char :=
  [Nat.digitChar (byte.toNat / 16), Nat.digitChar (byte.toNat % 16)]

/-- The digits of a byte string. -/
def digits (bytes : Bytes) : List Char :=
  bytes.flatMap byteDigits

/-- A byte string as its digits, two for each byte. -/
def encode (bytes : Bytes) : String :=
  String.ofList (digits bytes)

/-- The value of one digit of either case. -/
def digitValue? (c : Char) : Option Nat :=
  if '0' ≤ c ∧ c ≤ '9' then some (c.toNat - '0'.toNat)
  else if 'a' ≤ c ∧ c ≤ 'f' then some (c.toNat - 'a'.toNat + 10)
  else if 'A' ≤ c ∧ c ≤ 'F' then some (c.toNat - 'A'.toNat + 10)
  else none

/-- Reads digits in pairs onto the bytes already read, which are kept in reverse. -/
def ofDigits? (acc : Bytes) : List Char → Option Bytes
  | [] => some acc.reverse
  | [_] => none
  | high :: low :: rest =>
    match digitValue? high, digitValue? low with
    | some h, some l => ofDigits? (UInt8.ofNat (16 * h + l) :: acc) rest
    | _, _ => none

/-- The byte string that digits of either case stand for, if they come in pairs. -/
def decode? (text : String) : Option Bytes :=
  ofDigits? [] text.toList

end Chronicle.Hex
