import Chronicle.Error

/-!
# Statuses

The status of a stamp says how the versions under it are meant. Each status has a code, a name and a
well-known UUID under which every store registers it.
-/

namespace Chronicle

/-- How the versions under a stamp are meant. -/
inductive Status where
  | active
  | inactive
  | withdrawn
  | primordial
  | canceled
  deriving DecidableEq

namespace Status

/-- Every status, in the order of the codes. -/
def all : List Status :=
  [active, inactive, withdrawn, primordial, canceled]

/-- The byte that stands for a status. -/
def code : Status → UInt8
  | active => 1
  | inactive => 2
  | withdrawn => 3
  | primordial => 4
  | canceled => 5

/-- The status that a byte stands for. -/
def ofCode (code : UInt8) : Except DecodeError Status :=
  match all.find? fun status => status.code = code with
  | some status => .ok status
  | none => .error (.unknownStatus code)

/-- What a status is called. -/
def name : Status → String
  | active => "active"
  | inactive => "inactive"
  | withdrawn => "withdrawn"
  | primordial => "primordial"
  | canceled => "canceled"

/-- The UUID under which every store registers the status. -/
def uuid (status : Status) : Uuid :=
  ⟨0x09f12f9f_3a5c_4d0e_8e13_3c5b3a1e7f00 + status.code.toBitVec.setWidth 128⟩

/-- Every status is listed. -/
theorem mem_all (status : Status) : status ∈ all := by
  cases status <;> decide

/-- The code of a status is read back as that status. -/
theorem ofCode_code (status : Status) : ofCode status.code = .ok status := by
  cases status <;> rfl

/-- A code that is read as a status is the code of that status. -/
theorem code_of_ofCode {code : UInt8} {status : Status} (h : ofCode code = .ok status) :
    status.code = code := by
  unfold ofCode at h
  split at h
  · rename_i found hfind
    cases h
    simpa using List.find?_some hfind
  · cases h

end Status

end Chronicle
