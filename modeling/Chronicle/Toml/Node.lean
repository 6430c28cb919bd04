/-!
# Nodes of a TOML document

A document is a tree of tables. How a table came about decides what may still be added to it: a
table is defined once, by a header, in place, or by dotted keys; one that is only on the way to
another is implied, and may be defined later.
-/

namespace Chronicle.Toml

/-- How a table came about. -/
inductive TableKind where
  /-- By a header of its own. -/
  | header
  /-- On the way to the table of a header. -/
  | implied
  /-- By a dotted key. -/
  | dotted
  /-- In place, between braces. -/
  | inPlace
  deriving DecidableEq

/-- A value, or a table of values. Of floats and dates only the kind is kept. -/
inductive Node where
  | text (value : String)
  | integer (value : Int)
  | boolean (value : Bool)
  | float
  | date
  | array (items : List Node)
  | table (kind : TableKind) (entries : List (String × Node))
  /-- The tables of an array that grows by headers. -/
  | tables (items : List (List (String × Node)))

/-- The keys of a table with what stands under them. -/
abbrev Entries := List (String × Node)

namespace Entries

/-- The node under a key, if there is one. -/
def find? (entries : Entries) (key : String) : Option Node :=
  entries.lookup key

/-- Puts a node under a key, in place of one that is there. -/
def set (entries : Entries) (key : String) (node : Node) : Entries :=
  match entries with
  | [] => [(key, node)]
  | entry :: rest => if entry.1 = key then (key, node) :: rest else entry :: set rest key node

/-- Adds a node under a dotted key. Only tables of dotted keys, implied tables and arrays of tables
let it through, an array to its last table, and the table that takes the node has to be one of
dotted keys. -/
def assign (key : String) (node : Node) : List String → Entries → Option Entries
  | [], entries => if (entries.find? key).isSome then none else some (entries.set key node)
  | step :: path, entries =>
    match entries.find? step with
    | none => do return entries.set step (.table .dotted (← assign key node path []))
    | some (.table .dotted inner) => do
      return entries.set step (.table .dotted (← assign key node path inner))
    | some (.table .implied inner) =>
      if path = [] then none
      else do return entries.set step (.table .implied (← assign key node path inner))
    | some (.tables items) =>
      if path = [] then none
      else do
        let last ← items.getLast?
        return entries.set step (.tables (items.dropLast ++ [← assign key node path last]))
    | some _ => none

/-- Changes the table that a path of headers leads to. Tables that are missing on the way are
implied, and an array of tables leads to its last one. -/
def changeAt (change : Entries → Option Entries) : List String → Entries → Option Entries
  | [], entries => change entries
  | step :: path, entries =>
    match entries.find? step with
    | none => do return entries.set step (.table .implied (← changeAt change path []))
    | some (.table .inPlace _) => none
    | some (.table kind inner) => do
      return entries.set step (.table kind (← changeAt change path inner))
    | some (.tables items) => do
      let last ← items.getLast?
      return entries.set step (.tables (items.dropLast ++ [← changeAt change path last]))
    | some _ => none

/-- Fills the table of a header, which is new or was implied so far. -/
def define (fill : Entries → Option Entries) (key : String) (entries : Entries) : Option Entries :=
  match entries.find? key with
  | none => do return entries.set key (.table .header (← fill []))
  | some (.table .implied inner) => do return entries.set key (.table .header (← fill inner))
  | some _ => none

/-- Fills one more table of an array that grows by headers. -/
def extend (fill : Entries → Option Entries) (key : String) (entries : Entries) : Option Entries :=
  match entries.find? key with
  | none => do return entries.set key (.tables [← fill []])
  | some (.tables items) => do return entries.set key (.tables (items ++ [← fill []]))
  | some _ => none

end Entries

end Chronicle.Toml
