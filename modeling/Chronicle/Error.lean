import Chronicle.Nid
import Chronicle.Uuid

/-!
# What can go wrong

Errors are causes; each has a name, and its wording stands in one place, its `message`. A
`StoreError` is what a store answers with. Its last four groups wrap the error of a part of the
store, whose own text is the source of the wrapped one.
-/

namespace Chronicle

/-- An access to the storage medium that did not succeed. -/
inductive IoError where
  /-- The medium as a whole did not answer. -/
  | unavailable
  /-- The file system refused the access. -/
  | system
  /-- A file cannot have the name, which contains the character whose code is zero. -/
  | zeroCharacter
  deriving DecidableEq

/-- What an error of a medium says. -/
def IoError.message : IoError → String
  | unavailable => "storage unavailable"
  | system => "access refused (os error)"
  | zeroCharacter => "file name contained an unexpected NUL byte"

/-- A malformed argument or an unusable set-up of a store. -/
inductive ConfigurationError where
  | emptyAliasSet
  | nilUuid
  | emptyAllowedStates
  | invalidSpineSize (size : Nat)
  | invalidPermitCount (count : Nat)
  | invalidWorkerCount (count : Nat)
  | invalidCacheCapacity (name : String)
  | invalidRetryBound (bound : Nat)
  | nidSpaceExhausted
  /-- A path cannot inherit from itself. -/
  | selfOrigin (path : Nid)
  /-- A commit time that stands for uncommitted or canceled work. -/
  | sentinelTime (time : Int64)
  | unusableRoot (path reason : String)
  /-- The text of a configuration is not a well-formed document of the right shape. -/
  | malformed (reason : String)
  deriving DecidableEq

namespace ConfigurationError

/-- The name of the cause. -/
def name : ConfigurationError → String
  | emptyAliasSet => "EmptyAliasSet"
  | nilUuid => "NilUuid"
  | emptyAllowedStates => "EmptyAllowedStates"
  | invalidSpineSize _ => "InvalidSpineSize"
  | invalidPermitCount _ => "InvalidPermitCount"
  | invalidWorkerCount _ => "InvalidWorkerCount"
  | invalidCacheCapacity _ => "InvalidCacheCapacity"
  | invalidRetryBound _ => "InvalidRetryBound"
  | nidSpaceExhausted => "NidSpaceExhausted"
  | selfOrigin _ => "SelfOrigin"
  | sentinelTime _ => "SentinelTime"
  | unusableRoot _ _ => "UnusableRoot"
  | malformed _ => "Parse"

/-- What an error in the set-up or an argument says. -/
def message : ConfigurationError → String
  | emptyAliasSet => "a public id needs at least one uuid"
  | nilUuid => "the nil uuid (all zero bytes) cannot name a component"
  | emptyAllowedStates => "a stamp coordinate needs at least one allowed status besides canceled"
  | invalidSpineSize size => s!"spine size {size} must be a non-zero power of two"
  | invalidPermitCount count => s!"io permit count {count} must be non-zero"
  | invalidWorkerCount count => s!"worker count {count} must be non-zero"
  | invalidCacheCapacity name => "cache capacity `" ++ name ++ "` must be non-zero"
  | invalidRetryBound bound => s!"compare-and-set retry bound {bound} must be non-zero"
  | nidSpaceExhausted => "every 32 bit nid has been allocated"
  | selfOrigin path => s!"path {path} cannot be its own origin"
  | sentinelTime time => s!"{time} is reserved and cannot be used as a commit time"
  | unusableRoot path reason => s!"store root {path} is unusable: {reason}"
  | malformed reason => s!"invalid configuration: {reason}"

end ConfigurationError

/-- A persisted payload that could not be interpreted. -/
inductive DecodeError where
  | truncated (needed remaining : Nat)
  | unknownTag (tag : UInt8)
  | unknownStatus (code : UInt8)
  | unknownKind (code : UInt8)
  | badMagic
  | invalidPublicId
  | negativeLength (length : Int32)
  | trailing (count : Nat)
  | slotCountMismatch (expected found : Nat)
  /-- A history without entries. -/
  | emptyHistory
  deriving DecidableEq

namespace DecodeError

/-- The name of the cause. -/
def name : DecodeError → String
  | truncated _ _ => "Truncated"
  | unknownTag _ => "UnknownTag"
  | unknownStatus _ => "UnknownStatus"
  | unknownKind _ => "UnknownKind"
  | badMagic => "BadMagic"
  | invalidPublicId => "InvalidPublicId"
  | negativeLength _ => "NegativeLength"
  | trailing _ => "Trailing"
  | slotCountMismatch _ _ => "SlotCountMismatch"
  | emptyHistory => "EmptyHistory"

/-- What an error in a payload says. -/
def message : DecodeError → String
  | truncated needed remaining => s!"truncated payload: needed {needed} bytes, {remaining} left"
  | unknownTag tag => "unknown payload tag 0x" ++ Hex.encode [tag]
  | unknownStatus code => s!"unknown status {code}"
  | unknownKind code => s!"unknown component kind {code}"
  | badMagic => "table does not start with the expected marker"
  | invalidPublicId => "persisted public id is empty or nil"
  | negativeLength length => s!"negative length prefix {length}"
  | trailing count => s!"{count} trailing bytes after payload"
  | slotCountMismatch expected found =>
    s!"spine holds {found} slots, expected at most {expected}"
  | emptyHistory => "chronology has no versions"

end DecodeError

/-- A transaction, or one of its stamps, that has already left the uncommitted state. -/
inductive TransactionError where
  | alreadyCommitted
  | alreadyCanceled
  | stampCanceled (stamp : Nid)
  /-- Committed stamps are immutable. -/
  | stampCommitted (stamp : Nid)
  deriving DecidableEq

namespace TransactionError

/-- The name of the cause. -/
def name : TransactionError → String
  | alreadyCommitted => "AlreadyCommitted"
  | alreadyCanceled => "AlreadyCanceled"
  | stampCanceled _ => "StampCanceled"
  | stampCommitted _ => "StampCommitted"

/-- What an error of a transaction says. -/
def message : TransactionError → String
  | alreadyCommitted => "transaction is already committed"
  | alreadyCanceled => "transaction is already canceled"
  | stampCanceled stamp => s!"stamp {stamp} was canceled before it could be committed"
  | stampCommitted stamp => s!"stamp {stamp} is committed and can no longer change"

end TransactionError

/-- What was looked up and not found. -/
inductive NotFound where
  | nid (nid : Nid)
  | uuid (uuid : Uuid)
  | stamp (stamp : Nid)
  | latest (nid : Nid)
  deriving DecidableEq

namespace NotFound

/-- The name of what was looked up. -/
def name : NotFound → String
  | .nid _ => "Nid"
  | .uuid _ => "Uuid"
  | .stamp _ => "Stamp"
  | .latest _ => "Latest"

/-- What is missing, as an error says it. -/
def message : NotFound → String
  | .nid n => s!"no component is stored at {n}"
  | .uuid u => s!"uuid {u} has no nid"
  | .stamp n => s!"no stamp is stored at {n}"
  | .latest n => s!"{n} has no version visible to the coordinate"

end NotFound

/-- What an operation of a store can answer instead of its result. -/
inductive StoreError where
  | notFound (what : NotFound)
  /-- One answer was demanded, and the coordinate sees several tied versions. -/
  | contradiction (nid : Nid) (count : Nat)
  /-- An update lost as many attempts as the configuration grants. -/
  | concurrencyInvariant (nid : Nid) (attempts : Nat)
  /-- A spine whose blob could not be loaded holds changes. Writing it would replace data that was
  never read. -/
  | degradedSpine (index : Nat)
  /-- The chronology at the component did not record the version for the stamp: the slot holds
  another component, or the stamp is closed and recorded with other fields. -/
  | versionRejected (component stamp : Nid)
  | configuration (error : ConfigurationError)
  | io (error : IoError)
  | transaction (error : TransactionError)
  | decode (error : DecodeError)
  deriving DecidableEq

namespace StoreError

/-- The name of the cause, behind the name of its group where it has one. -/
def name : StoreError → String
  | notFound what => "NotFound." ++ what.name
  | contradiction _ _ => "Contradiction"
  | concurrencyInvariant _ _ => "ConcurrencyInvariant"
  | degradedSpine _ => "DegradedSpine"
  | versionRejected _ _ => "VersionRejected"
  | configuration error => "Configuration." ++ error.name
  | io _ => "Io"
  | transaction error => "Transaction." ++ error.name
  | decode error => "Decode." ++ error.name

/-- What an error says, with the kind of its cause in front. -/
def message : StoreError → String
  | notFound what => "not found: " ++ what.message
  | contradiction nid count => s!"{nid} resolves to {count} contradicting versions"
  | concurrencyInvariant nid attempts =>
    s!"merge into {nid} did not converge after {attempts} attempts"
  | degradedSpine index => s!"spine {index} failed to load and is not written back"
  | versionRejected component stamp =>
    s!"{component} did not record the version for stamp {stamp}"
  | configuration error => "configuration error: " ++ error.message
  | io error => "IO error: " ++ error.message
  | transaction error => "transaction error: " ++ error.message
  | decode error => "decode error: " ++ error.message

/-- The text of the error of a part that this error wraps. -/
def source? : StoreError → Option String
  | configuration error => some error.message
  | io error => some error.message
  | transaction error => some error.message
  | decode error => some error.message
  | _ => none

instance : Coe NotFound StoreError := ⟨notFound⟩

instance : Coe ConfigurationError StoreError := ⟨configuration⟩

instance : Coe IoError StoreError := ⟨io⟩

instance : Coe TransactionError StoreError := ⟨transaction⟩

instance : Coe DecodeError StoreError := ⟨decode⟩

end StoreError

end Chronicle
