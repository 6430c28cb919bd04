import Chronicle.Error

/-!
# Writing and reading fields

The fields of the persisted formats are words of fixed width and byte strings that follow their
length. `Wire` writes them; a `Reader` takes them from the front of the bytes that are left. A read
that fails leaves those bytes as they were. Main statement: each field that was written in front of
other bytes is read back and leaves exactly those bytes.
-/

namespace Chronicle

namespace Wire

/-- A number in four bytes. Of a larger number the lowest bytes are written. -/
def count (n : Nat) : Bytes :=
  BigEndian.encode 4 n

/-- A signed word in four bytes. -/
def int32 (x : Int32) : Bytes :=
  BigEndian.encode 4 x.toUInt32.toNat

/-- A signed word in eight bytes. -/
def int64 (x : Int64) : Bytes :=
  BigEndian.encode 8 x.toUInt64.toNat

/-- A nid in four bytes. -/
def nid (n : Nid) : Bytes :=
  int32 n.raw

/-- The bytes of a text of ASCII characters. -/
def ascii (text : String) : Bytes :=
  text.toList.map fun c => UInt8.ofNat c.toNat

/-- A byte string behind its length. -/
def block (bytes : Bytes) : Bytes :=
  count bytes.length ++ bytes

end Wire

/-- A reading of the bytes that are left. Its state after a failure is what the failed read left. -/
abbrev Reader := EStateM DecodeError Bytes

namespace Reader

/-- Gives up with an error. -/
def fail {α : Type} (error : DecodeError) : Reader α :=
  throw error

/-- Takes the next `n` bytes. With fewer left it fails and takes none. -/
def slice (n : Nat) : Reader Bytes := fun left =>
  let head := left.take n
  if head.length < n then .error (.truncated n left.length) left else .ok head (left.drop n)

/-- The number in the next `width` bytes. -/
def word (width : Nat) : Reader Nat :=
  BigEndian.decode <$> slice width

/-- The next byte. -/
def byte : Reader UInt8 :=
  UInt8.ofNat <$> word 1

/-- The number in the next four bytes. -/
def count : Reader Nat :=
  word 4

/-- The signed word in the next four bytes. -/
def int32 : Reader Int32 :=
  (fun n => (UInt32.ofNat n).toInt32) <$> word 4

/-- The signed word in the next eight bytes. -/
def int64 : Reader Int64 :=
  (fun n => (UInt64.ofNat n).toInt64) <$> word 8

/-- The nid in the next four bytes. -/
def nid : Reader Nid :=
  Nid.mk <$> int32

/-- The UUID in the next sixteen bytes. -/
def uuid : Reader Uuid :=
  Uuid.ofBytes <$> slice 16

/-- A byte string behind its length. -/
def block : Reader Bytes := do
  slice (← count)

/-- Reads `n` items one after another. -/
def items {α : Type} (item : Reader α) : (n : Nat) → Reader (List α)
  | 0 => return []
  | n + 1 => do
    let x ← item
    let xs ← items item n
    return x :: xs

/-- Succeeds only when no bytes are left. -/
def finish : Reader Unit := fun left =>
  if left.isEmpty then .ok () left else .error (.trailing left.length) left

/-- Takes a marker that a format starts with. -/
def marker (expected : Bytes) : Reader Unit := do
  if (← slice expected.length) = expected then return () else fail .badMagic

/-- Reads a whole byte string and refuses bytes that follow. -/
def decode {α : Type} (reader : Reader α) (bytes : Bytes) : Except DecodeError α :=
  match (do let value ← reader; finish; return value : Reader α) bytes with
  | .ok value _ => .ok value
  | .error error _ => .error error

/-- As many bytes as the head has are the head. -/
theorem slice_append (head rest : Bytes) : slice head.length (head ++ rest) = .ok head rest := by
  simp [slice]

private theorem word_encode (width n : Nat) (rest : Bytes) :
    word width (BigEndian.encode width n ++ rest) = .ok (n % BigEndian.capacity width) rest := by
  have h := slice_append (BigEndian.encode width n) rest
  rw [BigEndian.length_encode] at h
  simp [word, Functor.map, EStateM.map, h, BigEndian.decode_encode]

/-- A word that fits its width is read back as it was written. -/
theorem word_encode_of_lt {width n : Nat} (h : n < BigEndian.capacity width) (rest : Bytes) :
    word width (BigEndian.encode width n ++ rest) = .ok n rest := by
  rw [word_encode, Nat.mod_eq_of_lt h]

/-- The first byte is read and what follows it is left. -/
theorem byte_cons (b : UInt8) (rest : Bytes) : byte (b :: rest) = .ok b rest := by
  have hb : b.toNat < 256 := b.toNat_lt
  simp [byte, word, slice, Functor.map, EStateM.map, BigEndian.decode]

/-- A number that four bytes hold is read back. -/
theorem count_wire {n : Nat} (h : n < UInt32.size) (rest : Bytes) :
    count (Wire.count n ++ rest) = .ok n rest :=
  word_encode_of_lt h rest

/-- A signed word of four bytes is read back as it was written. -/
theorem int32_wire (x : Int32) (rest : Bytes) : int32 (Wire.int32 x ++ rest) = .ok x rest := by
  have hx : x.toUInt32.toNat < BigEndian.capacity 4 := x.toUInt32.toNat_lt
  simp [int32, Wire.int32, Functor.map, EStateM.map, word_encode_of_lt hx]

/-- A signed word of eight bytes is read back as it was written. -/
theorem int64_wire (x : Int64) (rest : Bytes) : int64 (Wire.int64 x ++ rest) = .ok x rest := by
  have hx : x.toUInt64.toNat < BigEndian.capacity 8 := x.toUInt64.toNat_lt
  simp [int64, Wire.int64, Functor.map, EStateM.map, word_encode_of_lt hx]

/-- A nid is read back as it was written. -/
theorem nid_wire (n : Nid) (rest : Bytes) : nid (Wire.nid n ++ rest) = .ok n rest := by
  simp [nid, Wire.nid, Functor.map, EStateM.map, int32_wire]

/-- A UUID is read back as it was written. -/
theorem uuid_wire (u : Uuid) (rest : Bytes) : uuid (u.toBytes ++ rest) = .ok u rest := by
  have h := slice_append u.toBytes rest
  rw [Uuid.length_toBytes] at h
  simp [uuid, Functor.map, EStateM.map, h]

end Reader

end Chronicle
