import Chronicle.Error
import Chronicle.Medium.FileReplacement
import Chronicle.Numeral

/-!
# Media in a directory

A folder keeps each table in a file of its root directory, and each spine in a file of a directory
below that, named by the index of the spine in at least eight digits. A blob that was never written
is absent; every other failure to read is an error.
-/

namespace Chronicle

/-- A medium in a directory of a file tree. -/
structure Folder where
  tree : FileTree
  root : List String
  deriving DecidableEq

namespace Folder

/-- The path of the directory of the spines. -/
def spineDirectory (folder : Folder) : List String :=
  folder.root ++ ["spines"]

/-- The name of the file of a spine. -/
def spineName (index : Nat) : String :=
  Numeral.padded 8 index ++ ".spine"

/-- The name of the file of a table. -/
def tableName (name : String) : String :=
  name ++ ".tbl"

/-- The index that the name of a spine file stands for: a numeral below `2 ^ 32` before the last
point, and nothing but the suffix behind it. -/
def spineIndex? (name : String) : Option Nat :=
  let suffix := ".spine".toList
  let chars := name.toList
  if suffix.isSuffixOf chars then Numeral.parse? UInt32.size (chars.take (chars.length - suffix.length))
  else none

/-- Opens the directory at a path of a file tree, which is made if it is missing. -/
def «open» (tree : FileTree) (root : List String) : Except ConfigurationError Folder :=
  let shown := "/".intercalate root
  if tree.contains root && !tree.isDirectory root then
    .error (.unusableRoot shown "exists and is not a directory")
  else
    match tree.createDirectories (root ++ ["spines"]) with
    | (.ok (), tree) => .ok { tree, root }
    | (.error _, _) => .error (.unusableRoot shown IoError.system.message)

/-- What a medium answers with when an access to its file tree fails. -/
def ioError : FileError → IoError
  | .zeroCharacter => .zeroCharacter
  | _ => .system

/-- The bytes of a file, if it is there. -/
def read (folder : Folder) (path : List String) : Except IoError (Option Bytes) :=
  match folder.tree.read path with
  | .ok data => .ok (some data)
  | .error .notFound => .ok none
  | .error error => .error (ioError error)

/-- Replaces a file. A failure can leave the temporary sibling behind. -/
def write (folder : Folder) (directory : List String) (name : String) (data : Bytes) :
    Except IoError Unit × Folder :=
  match folder.tree.replaceFile directory name data with
  | (.ok (), tree) => (.ok (), { folder with tree })
  | (.error error, tree) => (.error (ioError error), { folder with tree })

/-- The bytes in the file of a spine, if there is one. -/
def readSpine (folder : Folder) (index : Nat) : Except IoError (Option Bytes) :=
  folder.read (folder.spineDirectory ++ [spineName index])

/-- Replaces the file of a spine. -/
def writeSpine (folder : Folder) (index : Nat) (blob : Bytes) : Except IoError Unit × Folder :=
  folder.write folder.spineDirectory (spineName index) blob

/-- The indices that the names in the spine directory stand for, ascending. -/
def spineIndices (folder : Folder) : Except IoError (List Nat) :=
  match folder.tree.names folder.spineDirectory with
  | .ok names => .ok ((names.filterMap spineIndex?).mergeSort)
  | .error error => .error (ioError error)

/-- The path of a table, whose name may lead into directories. -/
def tablePath (folder : Folder) (name : String) : List String × String :=
  let path := FileTree.pathFrom folder.root (tableName name)
  (path.dropLast, path.getLastD "")

/-- The bytes in the file of a table, if there is one. -/
def readTable (folder : Folder) (name : String) : Except IoError (Option Bytes) :=
  let path := folder.tablePath name
  folder.read (path.1 ++ [path.2])

/-- Replaces the file of a table. -/
def writeTable (folder : Folder) (name : String) (table : Bytes) : Except IoError Unit × Folder :=
  let path := folder.tablePath name
  folder.write path.1 path.2 table

end Folder

end Chronicle
