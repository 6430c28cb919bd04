/-!
# Scanners

A scanner takes characters from the front of a text, or refuses and takes none. Alternatives are
tried in order, each from the same place.
-/

namespace Chronicle.Toml

/-- A reading from the front of a text. -/
abbrev Scanner := StateT (List Char) Option

namespace Scanner

variable {α : Type}

/-- One character for which a test holds. -/
def char (accepts : Char → Bool) : Scanner Char
  | [] => none
  | c :: rest => if accepts c then some (c, rest) else none

/-- The given characters. -/
def literal (expected : String) : Scanner Unit := fun text =>
  let chars := expected.toList
  if chars.isPrefixOf text then some ((), text.drop chars.length) else none

/-- The longest run of characters for which a test holds, which may be empty. -/
def run (accepts : Char → Bool) : Scanner (List Char) := fun text =>
  some (text.takeWhile accepts, text.dropWhile accepts)

/-- The longest run of characters for which a test holds, of which there is one at least. -/
def run1 (accepts : Char → Bool) : Scanner (List Char) := do
  let first ← char accepts
  let rest ← run accepts
  return first :: rest

/-- Exactly `n` characters for which a test holds. -/
def exactly (n : Nat) (accepts : Char → Bool) : Scanner (List Char) := fun text =>
  let chars := text.take n
  if chars.length = n ∧ chars.all accepts then some (chars, text.drop n) else none

/-- The end of the text. -/
def atEnd : Scanner Unit
  | [] => some ((), [])
  | _ => none

/-- Succeeds where a test holds for the next character, if there is one, and takes nothing. -/
def next (accepts : Option Char → Bool) : Scanner Unit := fun text =>
  if accepts text.head? then some ((), text) else none

/-- At most `n` times an item. -/
def upTo (item : Scanner α) : (n : Nat) → Scanner (List α)
  | 0 => return []
  | n + 1 => do
    match ← optional item with
    | none => return []
    | some x => return x :: (← upTo item n)

/-- An item as often as it can be taken. It has to take a character each time, so the length of the
text bounds how often. -/
def many (item : Scanner α) : Scanner (List α) := fun text =>
  upTo item text.length text

/-- One item or more, with a separator between two. -/
def separated (item : Scanner α) (separator : Scanner Unit) : Scanner (List α) := do
  let first ← item
  let rest ← many (separator *> item)
  return first :: rest

end Scanner

end Chronicle.Toml
