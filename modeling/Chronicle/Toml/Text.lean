import Chronicle.Hex
import Chronicle.Toml.Scanner

/-!
# White space, keys and strings of TOML
-/

namespace Chronicle.Toml

open Scanner

/-- Whether a character is a space or a tab. -/
def isBlank (c : Char) : Bool :=
  c = ' ' || c = '\t'

/-- Whether a character is no control character, a tab apart. -/
def isPrintable (c : Char) : Bool :=
  c = '\t' || (' ' ≤ c && c ≤ '~') || '\x80' ≤ c

/-- Spaces and tabs, as many as there are. -/
def blanks : Scanner Unit := do
  let _ ← run isBlank

/-- The end of a line. -/
def newline : Scanner Unit :=
  literal "\n" <|> literal "\r\n"

/-- A comment up to the end of its line. -/
def comment : Scanner Unit := do
  literal "#"
  let _ ← run isPrintable

/-- What may stand behind an expression, with the end of its line. -/
def lineEnd : Scanner Unit := do
  blanks
  let _ ← optional comment
  newline <|> atEnd

/-- White space, comments and line ends. -/
def gaps : Scanner Unit := do
  let _ ← many (discard (run1 isBlank) <|> newline <|> (comment *> newline))

/-- The character of which the hexadecimal digits are given, surrogates apart. -/
def codePoint? (digits : List Char) : Option Char := do
  let n ← digits.foldlM (fun n c => (Hex.digitValue? c).map (16 * n + ·)) 0
  if n.isValidChar then return Char.ofNat n else none

/-- A character that is written with a backslash. -/
def escape : Scanner Char := do
  literal "\\"
  match ← char fun _ => true with
  | 'b' => return '\x08'
  | 't' => return '\t'
  | 'n' => return '\n'
  | 'f' => return '\x0c'
  | 'r' => return '\r'
  | '"' => return '"'
  | '\\' => return '\\'
  | 'u' => codePoint? (← exactly 4 fun c => (Hex.digitValue? c).isSome)
  | 'U' => codePoint? (← exactly 8 fun c => (Hex.digitValue? c).isSome)
  | _ => failure

/-- The characters of a string that stand for themselves between quotes of a kind. -/
def plain (quote : Char) : Scanner (List Char) :=
  run1 fun c => isPrintable c && c ≠ quote && (quote = '\'' || c ≠ '\\')

/-- A string on one line between double quotes. -/
def basicString : Scanner (List Char) := do
  literal "\""
  let parts ← many (plain '"' <|> List.singleton <$> escape)
  literal "\""
  return parts.flatten

/-- A string on one line between single quotes. -/
def literalString : Scanner (List Char) := do
  literal "'"
  let chars ← run fun c => isPrintable c && c ≠ '\''
  literal "'"
  return chars

/-- A backslash at the end of a line, with all white space behind it. -/
def continuation : Scanner (List Char) := do
  literal "\\"
  blanks
  newline
  let _ ← many (discard (run1 isBlank) <|> newline)
  return []

/-- One or two quotes in front of something for which a test holds. -/
def quotes (quote : Char) (before : Scanner Unit) : Scanner (List Char) := do
  let chars ← exactly 2 (· = quote) <* before <|> exactly 1 (· = quote) <* before
  return chars

/-- A string over several lines between three quotes of a kind on either side. -/
def longString (quote : Char) (part : Scanner (List Char)) : Scanner (List Char) := do
  let delimiter := literal (String.ofList [quote, quote, quote])
  delimiter
  let _ ← optional newline
  let inner := quotes quote (next fun c => c.any (· ≠ quote))
  let parts ← many (part <|> inner)
  let last ← optional (quotes quote fun text => (delimiter text).map fun _ => ((), text))
  delimiter
  return parts.flatten ++ last.getD []

/-- A string of several lines with escapes. -/
def longBasicString : Scanner (List Char) :=
  longString '"' (plain '"' <|> continuation <|> List.singleton <$> escape <|>
    (do newline; return ['\n']))

/-- A string of several lines without escapes. -/
def longLiteralString : Scanner (List Char) :=
  longString '\'' (plain '\'' <|> (do newline; return ['\n']))

/-- A string of any kind. -/
def string : Scanner String :=
  String.ofList <$> (longBasicString <|> basicString <|> longLiteralString <|> literalString)

/-- One part of a key. -/
def simpleKey : Scanner String :=
  String.ofList <$> (basicString <|> literalString <|>
    run1 fun c => c.isAlphanum || c = '_' || c = '-')

/-- How deep keys and values may lead. -/
def maxDepth : Nat := 80

/-- A key of one or more parts. -/
def key : Scanner (List String) := do
  let parts ← separated (blanks *> simpleKey <* blanks) (literal ".")
  if parts.length < maxDepth then return parts else failure

end Chronicle.Toml
