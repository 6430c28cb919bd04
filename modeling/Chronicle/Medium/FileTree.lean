import Chronicle.Bytes
import Std.Data.ExtTreeMap

/-!
# File trees

A file tree holds files and directories, each at a place: the list of the names that lead to it from
the root, which has the empty list. A path is such a list too, but may go back, and is followed name
by name: a point stays in a directory, and two points leave it for its parent. What stands on the
way has to be a directory. A file there is an error of its own, different from a name that is
missing.
-/

namespace Chronicle

/-- What stands at a place. -/
inductive FileNode where
  | file (data : Bytes)
  | directory
  deriving DecidableEq

/-- Why an access to a file tree fails. -/
inductive FileError where
  | notFound
  | notDirectory
  | isDirectory
  /-- A name, or a path as a whole, is longer than a file system takes. -/
  | tooLong
  /-- A name contains the character whose code is zero. -/
  | zeroCharacter
  deriving DecidableEq

/-- The files and directories below a root. -/
structure FileTree where
  entries : Std.ExtTreeMap (List String) FileNode
  deriving DecidableEq

namespace FileTree

/-- A tree with nothing but its root. -/
def empty : FileTree := ⟨∅⟩

/-- What stands at a place. -/
def node? (tree : FileTree) (place : List String) : Option FileNode :=
  if place = [] then some .directory else tree.entries[place]?

/-- The greatest size of a name, in bytes of UTF-8. -/
def maxNameSize : Nat := 255

/-- The greatest size of a path, in bytes of UTF-8, with a slash before each name. -/
def maxPathSize : Nat := 4095

/-- Refuses a name that no entry can have. -/
def checkName (name : String) : Except FileError Unit :=
  if name.utf8ByteSize ≤ maxNameSize then .ok () else .error .tooLong

/-- Refuses a path that is not even followed. -/
def checkPath (path : List String) : Except FileError Unit :=
  let text := String.join (path.map fun name => "/" ++ name)
  if text.toList.contains '\x00' then .error .zeroCharacter
  else if text.utf8ByteSize ≤ maxPathSize then .ok ()
  else .error .tooLong

/-- The path that a text leads along from a directory. Names are divided by slashes, and a text that
starts with one leads from the root. -/
def pathFrom (directory : List String) (text : String) : List String :=
  let names := ((text.toList.splitOn '/').filter (· ≠ [])).map String.ofList
  if text.toList.head? = some '/' then names else directory ++ names

/-- The place that a name leads to from a directory. The root is its own parent. -/
def advance (directory : List String) (name : String) : List String :=
  if name = "." then directory
  else if name = ".." then directory.dropLast
  else directory ++ [name]

/-- The place that some names lead to from a directory. All of them but the last have to lead to
directories; at the place itself, anything may stand, or nothing. -/
def follow (tree : FileTree) (directory : List String) :
    List String → Except FileError (List String)
  | [] => .ok directory
  | [name] => do
    checkName name
    return advance directory name
  | name :: names => do
    checkName name
    let next := advance directory name
    match tree.node? next with
    | none => throw .notFound
    | some (.file _) => throw .notDirectory
    | some .directory => follow tree next names

/-- The place that a path leads to. -/
def locate (tree : FileTree) (path : List String) : Except FileError (List String) := do
  checkPath path
  tree.follow [] path

/-- What a path leads to. -/
def find (tree : FileTree) (path : List String) : Except FileError FileNode := do
  match tree.node? (← tree.locate path) with
  | some node => return node
  | none => throw .notFound

/-- Whether a path leads to anything. -/
def contains (tree : FileTree) (path : List String) : Bool :=
  (tree.find path).toBool

/-- Whether a path leads to a directory. -/
def isDirectory (tree : FileTree) (path : List String) : Bool :=
  (tree.find path).toOption == some .directory

/-- The bytes of a file. -/
def read (tree : FileTree) (path : List String) : Except FileError Bytes := do
  match ← tree.find path with
  | .file data => return data
  | .directory => throw .isDirectory

/-- Writes a file, new or not, in a directory that is there. -/
def write (tree : FileTree) (path : List String) (data : Bytes) : Except FileError FileTree := do
  let place ← tree.locate path
  match tree.node? place with
  | some .directory => throw .isDirectory
  | _ => return ⟨tree.entries.insert place (.file data)⟩

/-- Removes a file. -/
def remove (tree : FileTree) (path : List String) : Except FileError FileTree := do
  let place ← tree.locate path
  match tree.node? place with
  | some (.file _) => return ⟨tree.entries.erase place⟩
  | some .directory => throw .isDirectory
  | none => throw .notFound

/-- Makes the directories that are missing along some names from a directory on. Those made before a
failure stay. -/
def createFrom (tree : FileTree) (directory : List String) :
    List String → Except FileError Unit × FileTree
  | [] => (.ok (), tree)
  | name :: names =>
    let next := advance directory name
    match checkName name, tree.node? next with
    | .error error, _ => (.error error, tree)
    | .ok (), some (.file _) => (.error .notDirectory, tree)
    | .ok (), some .directory => createFrom tree next names
    | .ok (), none => createFrom ⟨tree.entries.insert next .directory⟩ next names

/-- Makes a directory and those on the way to it that are missing. -/
def createDirectories (tree : FileTree) (path : List String) : Except FileError Unit × FileTree :=
  match checkPath path with
  | .ok () => tree.createFrom [] path
  | .error error => (.error error, tree)

/-- Removes a directory with everything below it. -/
def removeDirectory (tree : FileTree) (path : List String) : Except FileError FileTree := do
  let place ← tree.locate path
  match tree.node? place with
  | some .directory => return ⟨tree.entries.filter fun entry _ => !place.isPrefixOf entry⟩
  | some (.file _) => throw .notDirectory
  | none => throw .notFound

/-- Gives a file another path, in place of a file that may be there. -/
def rename (tree : FileTree) (source target : List String) : Except FileError FileTree := do
  let data ← tree.read source
  let moved ← tree.write target data
  if (← tree.locate source) = (← tree.locate target) then return moved else moved.remove source

/-- The names in a directory. -/
def names (tree : FileTree) (path : List String) : Except FileError (List String) := do
  let place ← tree.locate path
  match tree.node? place with
  | some .directory =>
    return tree.entries.keys.filterMap fun entry =>
      if entry.length = place.length + 1 ∧ place.isPrefixOf entry then entry.getLast? else none
  | some (.file _) => throw .notDirectory
  | none => throw .notFound

/-- The entries below the place of a directory, each by its path from there. -/
def below (tree : FileTree) (directory : List String) : List (List String × FileNode) :=
  (tree.entries.toList.filter fun entry =>
      entry.1.length > directory.length && directory.isPrefixOf entry.1).map
    fun entry => (entry.1.drop directory.length, entry.2)

/-- Every entry below the place of a directory by its path from there, in ascending order. The path
of a directory ends with a slash. -/
def listing (tree : FileTree) (directory : List String) : List String :=
  let shown (entry : List String × FileNode) : String :=
    "/".intercalate entry.1 ++ if entry.2 = .directory then "/" else ""
  ((tree.below directory).map shown).mergeSort fun a b => !(decide (b < a))

end FileTree

end Chronicle
