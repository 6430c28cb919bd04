import Chronicle.Proofs.Address
import Chronicle.Proofs.Spine.Access

/-!
# What a medium stores

The blobs of a medium and a number of slots determine a payload for each nid. Opening a store over
the medium reads none of them.
-/

namespace Chronicle

namespace Medium

/-- What the blobs hold at a place, as spines with `size` slots. -/
def payload? (size : Nat) (medium : Medium) (place : Place) : Option Bytes := do
  let blob ← medium.backing.blob? place.index
  let spine ← (Spine.decode size blob).toOption
  spine.payload? place.slot

/-- What the blobs hold for a nid, as spines with `size` slots. -/
def stored (size : Nat) (medium : Medium) (nid : Nid) : Option Bytes := do
  let offset ← nid.offset?
  medium.payload? size { index := offset / size, slot := offset % size }

/-- The spines are listed and read without a failure. -/
structure Healthy (medium : Medium) : Prop where
  listing : ∃ indices, (spineIndices medium).1 = .ok indices ∧
    ∀ index ∈ indices, ∃ answer, medium.backing.readSpine index = .ok answer
  reads : ∀ call, medium.faults.spineReads.made ≤ call → medium.faults.spineReads.fails call = false

variable {medium : Medium} {size : Nat} {place : Place} {nid : Nid}

/-- Without a blob there is no payload. -/
theorem payload?_of_none (h : medium.backing.blob? place.index = none) :
    medium.payload? size place = none := by
  simp [payload?, h]

/-- A blob that is accepted has the payloads of its spine. -/
theorem payload?_of_ok {blob : Bytes} {spine : Spine}
    (h : medium.backing.blob? place.index = some blob)
    (hdecode : Spine.decode size blob = .ok spine) :
    medium.payload? size place = spine.payload? place.slot := by
  simp [payload?, h, hdecode, Except.toOption]

/-- A blob that is refused has no payload. -/
theorem payload?_of_error {blob : Bytes} {error : DecodeError}
    (h : medium.backing.blob? place.index = some blob)
    (hdecode : Spine.decode size blob = .error error) :
    medium.payload? size place = none := by
  simp [payload?, h, hdecode, Except.toOption]

/-- The payloads at an index depend on its blob alone. -/
theorem payload?_congr {next : Medium}
    (h : next.backing.blob? place.index = medium.backing.blob? place.index) :
    next.payload? size place = medium.payload? size place := by
  rw [payload?, payload?, h]

/-- What is stored depends on the blobs alone. -/
theorem stored_congr {next : Medium} (h : next.backing = medium.backing) :
    next.stored size nid = medium.stored size nid := by
  simp only [stored, payload?, h]

/-- A listing that succeeds is the one of what is stored. -/
theorem spineIndices_of_ok {indices : List Nat} (h : (spineIndices medium).1 = .ok indices) :
    medium.backing.spineIndices = .ok indices := by
  simp only [spineIndices] at h
  split at h
  · cases h
  · exact h

/-- A medium in memory with the blob of one spine, which holds a payload in its first slot. -/
def single : Medium :=
  { backing := .shelf
      { spines := Std.ExtTreeMap.ofList [(0, ([0, 0, 0, 1, 0, 0, 0, 1, 0xaa] : Bytes))]
        tables := ∅ } }

end Medium

namespace SpineStore

variable {medium : Medium} {size permits attempts : Nat} {indices : List Nat} {nid : Nid}

/-- What is stored for a nid is the payload at its place. -/
theorem stored_of_place? {s : SpineStore} {place : Place} (h : s.place? nid = some place) :
    medium.stored s.spineSize nid = medium.payload? s.spineSize place := by
  simp only [place?, Option.map_eq_some_iff] at h
  obtain ⟨offset, hoffset, rfl⟩ := h
  simp [Medium.stored, hoffset]

/-- Nothing is stored for a nid without a place. -/
theorem stored_of_place?_none {s : SpineStore} (h : s.place? nid = none) :
    medium.stored s.spineSize nid = none := by
  rw [place?, Option.map_eq_none_iff] at h
  simp [Medium.stored, h]

/-- Opening lists the spines and reads none of them. -/
theorem ofMedium_eq (h : (Medium.spineIndices medium).1 = .ok indices) :
    ofMedium medium size permits attempts =
      { medium := (Medium.spineIndices medium).2
        spineSize := size
        maxAttempts := attempts
        permits := { total := permits }
        persisted := Std.ExtTreeSet.ofList indices
        extent := 0
        loaded := ∅ } := by
  rw [ofMedium]
  cases hlisting : Medium.spineIndices medium with
  | mk listing next =>
    obtain rfl : listing = .ok indices := by rw [← h, hlisting]
    rfl

/-- When the listing fails, no spine counts as persisted. -/
theorem ofMedium_of_error {error : IoError} (h : (Medium.spineIndices medium).1 = .error error) :
    ofMedium medium size permits attempts =
      { medium := (Medium.spineIndices medium).2
        spineSize := size
        maxAttempts := attempts
        permits := { total := permits }
        persisted := ∅
        extent := 0
        loaded := ∅ } := by
  rw [ofMedium]
  cases hlisting : Medium.spineIndices medium with
  | mk listing next =>
    obtain rfl : listing = .error error := by rw [← h, hlisting]
    rfl

end SpineStore

end Chronicle
