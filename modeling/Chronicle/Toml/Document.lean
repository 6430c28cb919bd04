import Chronicle.Toml.Node
import Chronicle.Toml.Number
import Chronicle.Toml.Text

/-!
# TOML documents

A document is a sequence of lines, each of them empty, an assignment of a value to a key, or the
header of a table to which the following assignments belong. A text is a document when each of its
lines is well-formed and no key is defined twice.
-/

namespace Chronicle.Toml

open Scanner

/-- A dotted key, its last part apart, and the value under it. -/
structure Assignment where
  path : List String
  key : String
  value : Node

/-- Makes assignments in a table, one after another. -/
def Assignment.fill : List Assignment → Entries → Option Entries
  | [], entries => some entries
  | a :: rest, entries => do fill rest (← entries.assign a.key a.value a.path)

/-- An assignment, with a scanner for the value. -/
def assignment (value : Scanner Node) : Scanner Assignment := do
  let parts ← key
  literal "="
  blanks
  let value ← value
  match parts.getLast? with
  | some last => return { path := parts.dropLast, key := last, value }
  | none => failure

/-- An array, with a scanner for its items. -/
def array (item : Scanner Node) : Scanner Node := do
  literal "["
  let items ← optional (separated (gaps *> item <* gaps) (literal ",") <* optional (literal ","))
  gaps
  literal "]"
  return .array (items.getD [])

/-- A table between braces, with a scanner for its values. -/
def inPlaceTable (value : Scanner Node) : Scanner Node := do
  literal "\x7b"
  let assignments ← optional (separated (assignment value <* blanks) (literal ","))
  blanks
  literal "\x7d"
  match Assignment.fill (assignments.getD []) [] with
  | some entries => return .table .inPlace entries
  | none => failure

/-- A value, in which at most so many arrays and tables stand in each other. -/
def value : (depth : Nat) → Scanner Node
  | 0 => scalar
  | depth + 1 => scalar <|> array (value depth) <|> inPlaceTable (value depth)
where
  scalar : Scanner Node :=
    Node.text <$> string <|>
    (do dateTime; return .date) <|>
    (do float; return .float) <|>
    Node.integer <$> integer <|>
    (do literal "true"; return .boolean true) <|>
    (do literal "false"; return .boolean false)

/-- One line of a document. -/
inductive Line where
  | empty
  | assignment (assignment : Assignment)
  /-- The header of a table, or of one more table of an array. -/
  | header (inArray : Bool) (path : List String)

/-- A header, between brackets that say of which kind it is. -/
def header (opening closing : String) (inArray : Bool) : Scanner Line := do
  literal opening
  let path ← key
  literal closing
  lineEnd
  return .header inArray path

/-- One line, with its end. It takes at least one character. -/
def line : Scanner Line :=
  (do newline; return .empty) <|>
  (do comment; lineEnd; return .empty) <|>
  header "[[" "]]" true <|>
  header "[" "]" false <|>
  (do
    let a ← assignment (value (maxDepth - 1))
    lineEnd
    return .assignment a)

/-- Every line of a document, behind a mark of the byte order that may be there. -/
def lines : Scanner (List Line) := do
  let _ ← optional (char (· = '\ufeff'))
  blanks
  let lines ← many (line <* blanks)
  atEnd
  return lines

/-- A header with the assignments that belong to it. -/
structure Section where
  inArray : Bool
  path : List String
  assignments : List Assignment

/-- The assignments in front of the first header, and the sections. -/
def sections : List Line → List Assignment × List Section
  | [] => ([], [])
  | .empty :: rest => sections rest
  | .assignment a :: rest =>
    let (assignments, following) := sections rest
    (a :: assignments, following)
  | .header inArray path :: rest =>
    let (assignments, following) := sections rest
    ([], { inArray, path, assignments } :: following)

/-- Adds a section to the table of the document. -/
def Section.addTo (s : Section) (root : Entries) : Option Entries := do
  let last ← s.path.getLast?
  let fill := Assignment.fill s.assignments
  root.changeAt (if s.inArray then Entries.extend fill last else Entries.define fill last)
    s.path.dropLast

/-- The table that a text describes, if it is a document. -/
def document? (text : String) : Option Entries := do
  let (lines, _) ← lines text.toList
  let (assignments, following) := sections lines
  let root ← Assignment.fill assignments []
  following.foldlM (fun root s => s.addTo root) root

end Chronicle.Toml
