import Chronicle.Error

/-!
# Store configurations

Every setting has a default. A configuration is usable when it is valid; of several faults the first
in the order of the settings is reported.
-/

namespace Chronicle

/-- Whether committed stamps with the same fields share one nid. -/
inductive StampDedup where
  /-- Every stamp gets a UUID of its own. -/
  | never
  /-- The UUID of a committed stamp follows from its fields. -/
  | committed
  deriving DecidableEq

namespace StampDedup

/-- Every value of the setting. -/
def all : List StampDedup :=
  [never, committed]

/-- What a document calls the setting. -/
def name : StampDedup → String
  | never => "never"
  | committed => "committed"

end StampDedup

/-- Where a store with a root directory keeps its data. -/
inductive BackendKind where
  | directory
  | memory
  deriving DecidableEq

namespace BackendKind

/-- Every value of the setting. -/
def all : List BackendKind :=
  [directory, memory]

/-- What a document calls the setting. -/
def name : BackendKind → String
  | directory => "directory"
  | memory => "memory"

end BackendKind

/-- The settings of a store. -/
structure Config where
  spineSize : Nat := 1024
  ioPermits : Nat := 4
  /-- How many spines a parallel scan visits at once; as many as the machine offers if not set. -/
  workers : Option Nat := none
  coordinateCacheCapacity : Nat := 1024
  calculatorCacheCapacity : Nat := 256
  stampCacheCapacity : Nat := 4096
  maxCasRetries : Nat := 1 <<< 20
  stampDedup : StampDedup := .committed
  backend : BackendKind := .directory
  deriving DecidableEq

namespace Config

/-- Whether a number is a power of two. -/
def isPowerOfTwo (n : Nat) : Bool :=
  n != 0 && 1 <<< n.log2 == n

/-- The first fault of a configuration. -/
def fault? (c : Config) : Option ConfigurationError :=
  if !isPowerOfTwo c.spineSize then some (.invalidSpineSize c.spineSize)
  else if c.ioPermits = 0 then some (.invalidPermitCount c.ioPermits)
  else if c.workers = some 0 then some (.invalidWorkerCount 0)
  else if c.coordinateCacheCapacity = 0 then
    some (.invalidCacheCapacity "coordinate_cache_capacity")
  else if c.calculatorCacheCapacity = 0 then
    some (.invalidCacheCapacity "calculator_cache_capacity")
  else if c.stampCacheCapacity = 0 then some (.invalidCacheCapacity "stamp_cache_capacity")
  else if c.maxCasRetries = 0 then some (.invalidRetryBound c.maxCasRetries)
  else none

/-- Accepts a configuration, or refuses it with its first fault. -/
def validate (c : Config) : Except ConfigurationError Unit :=
  match c.fault? with
  | some error => .error error
  | none => .ok ()

end Config

end Chronicle
