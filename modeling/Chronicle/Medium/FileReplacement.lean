import Chronicle.Medium.FileTree

/-!
# Replacing a file

A file is replaced by way of a temporary sibling, which takes several steps, so that the file holds
either its old or its new bytes after each of them.
-/

namespace Chronicle.FileTree

/-- The name of the temporary sibling of a file: its last suffix becomes another one. A point that a
name starts with starts no suffix. Where a single point stands before the suffix, two points are
left, which take no suffix. They name no file, so that a file of such a name is never replaced. -/
def temporaryName (name : String) : String :=
  let chars := name.toList
  let stem := (chars.reverse.dropWhile (· ≠ '.')).reverse.dropLast
  if stem = ['.'] then ".."
  else String.ofList (if stem = [] then chars else stem) ++ ".tmp"

/-- One of the steps in which a file is replaced. -/
inductive ReplaceStep where
  /-- Makes the temporary sibling, or empties it. -/
  | create (path : List String)
  /-- Writes bytes into the temporary sibling. -/
  | fill (path : List String) (data : Bytes)
  /-- Waits until the temporary sibling is safe on the medium. -/
  | sync (path : List String)
  /-- Moves the temporary sibling into place. -/
  | commit (source target : List String)
  deriving DecidableEq

/-- Takes one step. -/
def take (tree : FileTree) : ReplaceStep → Except FileError FileTree
  | .create path => tree.write path []
  | .fill path data => tree.write path data
  | .sync _ => .ok tree
  | .commit source target => tree.rename source target

/-- The steps in which a file is replaced. -/
def replaceSteps (directory : List String) (name : String) (data : Bytes) : List ReplaceStep :=
  let temporary := directory ++ [temporaryName name]
  [.create temporary, .fill temporary data, .sync temporary,
    .commit temporary (directory ++ [name])]

/-- Takes steps until one fails. -/
def takeAll (tree : FileTree) : List ReplaceStep → Except FileError Unit × FileTree
  | [] => (.ok (), tree)
  | step :: steps =>
    match tree.take step with
    | .ok next => takeAll next steps
    | .error error => (.error error, tree)

/-- Replaces a file in a directory. -/
def replaceFile (tree : FileTree) (directory : List String) (name : String) (data : Bytes) :
    Except FileError Unit × FileTree :=
  tree.takeAll (replaceSteps directory name data)

end Chronicle.FileTree
