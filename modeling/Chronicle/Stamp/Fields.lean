import Chronicle.Blake3
import Chronicle.Stamp.Status
import Chronicle.Wire

/-!
# The fields of a stamp

A stamp says who changed what, where and when. Two times are reserved: the last one there is marks
work that is not committed yet, and the first one marks canceled work. A stamp is canceled,
uncommitted or committed, and exactly one of the three. Main statement: fields are read back from
the bytes that they are written in.
-/

namespace Chronicle

namespace Time

/-- The time of a stamp that is not committed yet. -/
def uncommitted : Int64 := Int64.maxValue

/-- The horizon that sees everything, uncommitted work included. -/
def latest : Int64 := Int64.maxValue

/-- The time of a canceled stamp, which no horizon reaches. -/
def canceled : Int64 := Int64.minValue

/-- Whether a time stands for uncommitted or canceled work and so is no commit time. -/
def isSentinel (time : Int64) : Bool :=
  time == uncommitted || time == canceled

end Time

/-- Status, time, author, module and path of a change. -/
structure StampFields where
  status : Status
  time : Int64
  author : Nid
  module : Nid
  path : Nid
  deriving DecidableEq

namespace StampFields

/-- The fields of work that is not committed yet. -/
def draft (status : Status) (author module path : Nid) : StampFields where
  status
  time := Time.uncommitted
  author
  module
  path

/-- Whether the status or the time says that the work is canceled. -/
def isCanceled (fields : StampFields) : Bool :=
  fields.status == .canceled || fields.time == Time.canceled

/-- Whether the work is a draft that was not canceled. -/
def isUncommitted (fields : StampFields) : Bool :=
  !fields.isCanceled && fields.time == Time.uncommitted

/-- Whether the work was committed at a time. -/
def isCommitted (fields : StampFields) : Bool :=
  !fields.isCanceled && fields.time != Time.uncommitted

/-- The same change, committed at a time. -/
def committedAt (fields : StampFields) (time : Int64) : StampFields :=
  { fields with time }

/-- The same change, canceled. Author, module and path stay. -/
def canceled (fields : StampFields) : StampFields :=
  { fields with status := .canceled, time := Time.canceled }

/-- The twenty-one bytes of the fields. -/
def encode (fields : StampFields) : Bytes :=
  [fields.status.code] ++ Wire.int64 fields.time ++ Wire.nid fields.author ++
    Wire.nid fields.module ++ Wire.nid fields.path

/-- Reads the fields of a stamp. -/
def read : Reader StampFields := do
  let code ← Reader.byte
  match Status.ofCode code with
  | .error error => Reader.fail error
  | .ok status =>
    let time ← Reader.int64
    let author ← Reader.nid
    let module ← Reader.nid
    let path ← Reader.nid
    return { status, time, author, module, path }

/-- The fields that a byte string stands for. -/
def decode (bytes : Bytes) : Except DecodeError StampFields :=
  read.decode bytes

/-- Every stamp record takes 21 bytes. -/
@[simp]
theorem length_encode (fields : StampFields) : fields.encode.length = 21 := by
  simp [encode, Wire.int64, Wire.nid, Wire.int32]

/-- Fields are read back from the front of the bytes and leave the rest. -/
theorem read_encode (fields : StampFields) (rest : Bytes) :
    read (fields.encode ++ rest) = .ok fields rest := by
  simp [read, encode, bind, EStateM.bind, pure, EStateM.pure, Reader.byte_cons,
    Status.ofCode_code, Reader.int64_wire, Reader.nid_wire]

/-- The text that the digest of a stamp starts with, so that it is no digest of anything else. -/
def contentDomain : Bytes :=
  Wire.ascii "stampstore:stamp"

/-- The UUID that follows from the fields alone. Equal committed stamps share it. -/
def contentUuid (fields : StampFields) : Uuid :=
  Uuid.ofBytes ((Blake3.digest (contentDomain ++ fields.encode)
    (by rw [List.length_append, length_encode]; decide)).take 16)

end StampFields

end Chronicle
