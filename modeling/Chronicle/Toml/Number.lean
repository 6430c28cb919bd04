import Chronicle.Hex
import Chronicle.Numeral
import Chronicle.Toml.Scanner

/-!
# Numbers and dates of TOML

Integers are signed words of 64 bits. A float that is too large to be finite is refused, and so is a
date that the calendar does not have.
-/

namespace Chronicle.Toml

open Scanner

/-- Whether a character is a decimal digit. -/
def isDigit (c : Char) : Bool :=
  '0' ≤ c && c ≤ '9'

/-- A digit, perhaps behind an underscore. -/
def furtherDigit (accepts : Char → Bool) : Scanner Char :=
  char accepts <|> (literal "_" *> char accepts)

/-- Digits, with single underscores between them. -/
def digits (accepts : Char → Bool) : Scanner (List Char) := do
  let first ← char accepts
  let rest ← many (furtherDigit accepts)
  return first :: rest

/-- The number with the given digits in a base. -/
def ofDigits (base : Nat) (digits : List Char) : Nat :=
  digits.foldl (fun n c => base * n + (Hex.digitValue? c).getD 0) 0

/-- A sign that may be left out. Answers whether it is a minus sign. -/
def sign : Scanner Bool := do
  let found ← optional (char fun c => c = '+' || c = '-')
  return found = some '-'

/-- A decimal integer, without zeros in front. -/
def decimal : Scanner (Bool × List Char) := do
  let negative ← sign
  let chars ← (do
    let first ← char fun c => isDigit c && c ≠ '0'
    let rest ← many (furtherDigit isDigit)
    return first :: rest) <|> List.singleton <$> char isDigit
  return (negative, chars)

/-- An integer in a base that its first two characters say. -/
def basedInteger (start : String) (base : Nat) : Scanner Int := do
  literal start
  let chars ← digits fun c => (Hex.digitValue? c).any (· < base)
  let n : Int := ofDigits base chars
  if n ≤ Int64.maxValue.toInt then return n else failure

/-- An integer in any base that fits a signed word of eight bytes. -/
def integer : Scanner Int :=
  basedInteger "0x" 16 <|> basedInteger "0o" 8 <|> basedInteger "0b" 2 <|> do
    let (negative, chars) ← decimal
    let n : Int := ofDigits 10 chars
    let value := if negative then -n else n
    if Int64.minValue.toInt ≤ value ∧ value ≤ Int64.maxValue.toInt then return value else failure

/-- Whether `mantissa * 10 ^ exponent` is too large for a finite float: not below the middle between
the largest one and the next power of two. -/
def overflows (mantissa : Nat) (exponent : Int) : Bool :=
  let limit := 1 <<< 1024 - 1 <<< 970
  let size : Int := (Nat.toDigits 10 mantissa).length + exponent
  if mantissa = 0 ∨ size < 300 then false
  else if 400 < size then true
  else if 0 ≤ exponent then limit ≤ mantissa * Nat.pow 10 exponent.toNat
  else limit * Nat.pow 10 (-exponent).toNat ≤ mantissa

/-- The exponent of a float. -/
def exponent : Scanner Int := do
  let _ ← char fun c => c = 'e' || c = 'E'
  let negative ← sign
  let n : Int := ofDigits 10 (← digits isDigit)
  return if negative then -n else n

/-- A float, of which nothing is kept. -/
def float : Scanner Unit :=
  (do
    let (negative, whole) ← decimal
    let (fraction, power) ← (do return ([], ← exponent)) <|> (do
      literal "."
      let fraction ← digits isDigit
      let power ← optional exponent
      return (fraction, power.getD 0))
    let mantissa := ofDigits 10 (whole ++ fraction)
    if !negative && overflows mantissa (power - fraction.length) then failure else return ()) <|>
  (do
    let _ ← sign
    literal "inf" <|> literal "nan")

/-- A number of `width` digits that lies between two others. -/
def field (width low high : Nat) : Scanner Nat := do
  let n := ofDigits 10 (← exactly width isDigit)
  if low ≤ n ∧ n ≤ high then return n else failure

/-- The number of days of a month. -/
def monthLength (year month : Nat) : Nat :=
  if month = 2 then
    if year % 4 = 0 ∧ (year % 100 ≠ 0 ∨ year % 400 = 0) then 29 else 28
  else if month = 4 ∨ month = 6 ∨ month = 9 ∨ month = 11 then 30
  else 31

/-- A date that the calendar has. -/
def calendarDate : Scanner Unit := do
  let year ← field 4 0 9999
  literal "-"
  let month ← field 2 1 12
  literal "-"
  let _ ← field 2 1 (monthLength year month)

/-- A time of day. A leap second may stand in any minute. -/
def clockTime : Scanner Unit := do
  let _ ← field 2 0 23
  literal ":"
  let _ ← field 2 0 59
  literal ":"
  let _ ← field 2 0 60
  let _ ← optional (literal "." *> run1 isDigit)

/-- The offset of a time zone. -/
def zone : Scanner Unit :=
  literal "Z" <|> literal "z" <|> do
    let _ ← char fun c => c = '+' || c = '-'
    let _ ← field 2 0 23
    literal ":"
    let _ ← field 2 0 59

/-- A date, a time of day, or both, of which nothing is kept. -/
def dateTime : Scanner Unit :=
  (do
    calendarDate
    let _ ← optional (do
      let _ ← char fun c => c = 'T' || c = 't' || c = ' '
      clockTime
      optional zone)) <|> clockTime

end Chronicle.Toml
