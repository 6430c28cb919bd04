/-!
# Unsigned decimal numerals

A numeral is a plus sign that may be left out, and one or more decimal digits; zeros may lead. Only
ASCII digits count. A numeral whose value reaches the bound of its word is refused.
-/

namespace Chronicle.Numeral

/-- The value of one decimal digit. -/
def digitValue? (c : Char) : Option Nat :=
  if '0' ≤ c ∧ c ≤ '9' then some (c.toNat - '0'.toNat) else none

/-- The value of a list of digits of which each has a value. -/
def ofDigits? (digits : List Char) : Option Nat :=
  digits.foldlM (fun n c => (digitValue? c).map (10 * n + ·)) 0

/-- The value below a bound that a numeral has. -/
def parse? (bound : Nat) (text : List Char) : Option Nat :=
  let digits := match text with
    | '+' :: rest => rest
    | _ => text
  if digits.isEmpty then none else (ofDigits? digits).filter (· < bound)

/-- The decimal digits of a number, with zeros in front up to a width. -/
def padded (width n : Nat) : String :=
  let digits := Nat.toDigits 10 n
  String.ofList (List.replicate (width - digits.length) '0' ++ digits)

end Chronicle.Numeral
