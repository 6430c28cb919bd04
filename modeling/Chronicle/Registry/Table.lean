import Chronicle.Registry

/-!
# The identity table

The persisted form of a registry: a marker, the next nid, the number of entries, and for each nid in
ascending order its aliases, primary first, behind their number. Only the nids with a public id are
written, so the table does not depend on the order in which aliases were resolved.
-/

namespace Chronicle.Registry

/-- The sixteen bytes that an identity table starts with. -/
def tableMarker : Bytes :=
  Wire.ascii "stampstore:ident"

/-- One entry of the table. -/
def encodeEntry (entry : Nid × PublicId) : Bytes :=
  Wire.nid entry.1 ++ Wire.count entry.2.uuids.length ++ entry.2.uuids.flatMap Uuid.toBytes

/-- The table of a registry: its marker, its counter and its entries in the order of their nids. -/
def encodeTable (r : Registry) : Bytes :=
  tableMarker ++ Wire.nid r.next ++ Wire.count r.ids.size ++ r.ids.toList.flatMap encodeEntry

/-- The registry once its table is persisted. -/
def settled (r : Registry) : Registry :=
  { r with changed := false }

/-- Records one entry of a table. A UUID or a nid that occurs again takes its later meaning. -/
def restore (r : Registry) (nid : Nid) (id : PublicId) (uuids : List Uuid) : Registry :=
  { r with
    nids := r.nids.insertMany (uuids.map (·, nid))
    ids := r.ids.insert nid id }

/-- Reads `n` entries onto a registry. -/
def readEntries : (n : Nat) → Registry → Reader Registry
  | 0, r => return r
  | n + 1, r => do
    let nid ← Reader.nid
    let aliases ← Reader.count
    let uuids ← Reader.items Reader.uuid aliases
    match PublicId.ofList uuids with
    | .ok id => readEntries n (r.restore nid id uuids)
    | .error _ => Reader.fail .invalidPublicId

/-- Reads a table into a registry without changes. -/
def readTable : Reader Registry := do
  Reader.marker tableMarker
  let next ← Reader.nid
  let entries ← Reader.count
  readEntries entries { empty with next }

/-- The registry that a table describes. -/
def decodeTable (table : Bytes) : Except DecodeError Registry :=
  readTable.decode table

end Chronicle.Registry
