import Chronicle.Blank
import Chronicle.Config.Document
import Chronicle.Medium.FileTree
import Chronicle.Numeral

/-!
# The configuration of a root directory

A store with a root directory is configured by a file in it, if there is one, and then by variables
of the environment. A variable whose value is no numeral is passed over.
-/

namespace Chronicle.Config

/-- The name of the configuration file. -/
def fileName : String := "store.toml"

/-- The number that a variable of the environment is set to, blanks around it not considered. -/
def setting? (environment : List (String × String)) (name : String) : Option Nat := do
  let value ← environment.lookup name
  Numeral.parse? UInt64.size (trimBlanks value.toList)

/-- The configuration with the settings that the environment overrides. -/
def override (environment : List (String × String)) (c : Config) : Config :=
  { c with
    workers := setting? environment "STAMPSTORE_WORKERS" <|> c.workers
    ioPermits := (setting? environment "STAMPSTORE_IO_PERMITS").getD c.ioPermits }

/-- The valid configuration that the bytes of a file describe. -/
def ofFile (path : List String) (data : Bytes) : Except ConfigurationError Config :=
  match String.fromUTF8? ⟨data.toArray⟩ with
  | some text => ofText text
  | none =>
    .error (.unusableRoot ("/".intercalate path)
      "failed to read configuration: stream did not contain valid UTF-8")

/-- The valid configuration of a root directory. -/
def forRoot (tree : FileTree) (root : List String) (environment : List (String × String)) :
    Except ConfigurationError Config := do
  let path := root ++ [fileName]
  let stored ← match tree.read path with
    | .ok data => ofFile path data
    | .error _ => pure {}
  let config := stored.override environment
  config.validate
  return config

end Chronicle.Config
