import Chronicle.Proofs.Blob
import Chronicle.Proofs.Config

/-!
# Sizes of spines that can be persisted

A blob starts with the number of its slots, which is written in four bytes and read as a signed
word. A configuration may ask for any power of two. This file proves which of these sizes can be
read back: those that a signed word holds, and then whatever the slots hold. Of a spine of any
larger size no blob is accepted.
-/

namespace Chronicle

/-- A power of two that a signed word does not hold is the first of them, or its lowest four bytes
are zero. -/
theorem Config.isPowerOfTwo_cases {n : Nat} (h : isPowerOfTwo n = true)
    (hlarge : Wire.signedLimit ≤ n) : n = Wire.signedLimit ∨ n % UInt32.size = 0 := by
  rw [isPowerOfTwo, Bool.and_eq_true, beq_iff_eq, Nat.one_shiftLeft] at h
  have hlimit : Wire.signedLimit = 2 ^ 31 := rfl
  have hexponent : 31 ≤ n.log2 := by
    rw [hlimit, ← h.2] at hlarge
    exact (Nat.pow_le_pow_iff_right (a := 2) (by decide)).mp hlarge
  obtain heq | hlt := Nat.eq_or_lt_of_le hexponent
  · exact Or.inl (by rw [hlimit, heq, h.2])
  · refine Or.inr (Nat.mod_eq_zero_of_dvd ?_)
    rw [← h.2]
    exact Nat.pow_dvd_pow 2 hlt

namespace Spine

variable {size larger : Nat} {spine : Spine}

/-- The blob of a spine is accepted, and each slot holds its payload again, or nothing if its
payload was empty. -/
def Persists (size : Nat) (spine : Spine) : Prop :=
  ∃ decoded, decode size (encode size spine) = .ok decoded ∧
    ∀ slot < size, decoded.payload? slot = (spine.payload? slot).filter (· ≠ [])

/-- What was written is accepted exactly if a signed word holds the number of its slots and the
spine that it is read into has as many. -/
theorem exists_decode_encode_iff (hshort : spine.Short) :
    (∃ decoded, decode larger (encode size spine) = .ok decoded) ↔
      size < Wire.signedLimit ∧ size ≤ larger := by
  constructor
  · rintro ⟨decoded, hdecode⟩
    obtain ⟨hwritable, hlarger, -⟩ := writable_of_decode_encode
      (fun slot payload h => Nat.lt_trans (hshort slot payload h) Wire.signedLimit_lt) hdecode
    exact ⟨by simpa [row] using hwritable.slots_lt, hlarger⟩
  · rintro ⟨hsize, hlarger⟩
    obtain ⟨decoded, hdecode, -⟩ := exists_decode_encode hsize hlarger hshort
    exact ⟨decoded, hdecode⟩

/-- A spine with short payloads is read back from its blob exactly if its size is below the signed
limit. At the limit and above the count of its slots is read as negative. -/
theorem persists_iff (hshort : spine.Short) : Persists size spine ↔ size < Wire.signedLimit := by
  constructor
  · rintro ⟨decoded, hdecode, -⟩
    exact ((exists_decode_encode_iff hshort).mp ⟨decoded, hdecode⟩).1
  · intro hsize
    obtain ⟨decoded, hdecode, hslots⟩ := exists_decode_encode hsize (Nat.le_refl size) hshort
    exact ⟨decoded, hdecode, fun slot hslot => by rw [hslots, if_pos hslot]⟩

/-- The word for the number of slots is read as this number exactly if a signed word holds it. -/
theorem readLength_encode_iff :
    (∃ rest, readLength (encode size spine) = .ok size rest) ↔ size < Wire.signedLimit := by
  simp only [readLength_eq_ok_iff, encode, exists_and_right, and_iff_right_iff_imp]
  exact fun _ => ⟨_, rfl⟩

/-- One slot more than signed words count is read as the least number that they hold. -/
theorem decode_encode_signedLimit :
    decode larger (encode Wire.signedLimit spine) = .error (.negativeLength Int32.minValue) := by
  have hcount : Wire.count Wire.signedLimit = Wire.int32 Int32.minValue := by decide
  have hlength (rest : Bytes) :
      readLength (Wire.int32 Int32.minValue ++ rest) =
        .error (.negativeLength Int32.minValue) rest := by
    rw [readLength, Reader.bind_of_ok (Reader.int32_wire _ rest), if_pos (by decide)]
    rfl
  rw [encode, hcount]
  exact Reader.decode_of_error (Reader.bind_of_error (hlength _))

/-- A number of slots whose lowest four bytes are zero is read as none, and all slots are left
over. -/
theorem decode_encode_of_mod (hsize : size ≠ 0) (hmod : size % UInt32.size = 0) :
    decode larger (encode size spine) =
      .error (.trailing (Wire.blocks (spine.row size)).length) := by
  have hcount : Wire.count (spine.row size).length = Wire.row [] := by
    rw [row, List.length_map, List.length_range, ← Wire.count_mod, hmod]
    rfl
  have hleft : Wire.blocks (spine.row size) ≠ [] := by
    rw [Ne, Wire.blocks_eq_nil_iff, ← List.length_eq_zero_iff]
    simpa [row] using hsize
  have hreads : Reader.Reads (read larger) (Wire.row []) (ofRow []) :=
    reads_row ⟨by decide, by simp⟩ (Nat.zero_le larger)
  rw [encode_eq_row, Wire.row, hcount]
  exact Reader.decode_of_left (hreads.whole _) hleft

/-- **Persistence of valid configurations.** A valid configuration may ask for any power of two as
the number of slots. A spine with payloads that signed words count can be read back from its blob
exactly if a signed word holds this number, and exactly then the word in front of the blob is read
as the number of slots. All larger ones wrap: the first of them is read as a negative number of
slots, and each of the others as none, with all slots left over. -/
theorem persists_iff_of_validate {c : Config} (hvalid : c.validate = .ok ())
    (hshort : spine.Short) :
    (Persists c.spineSize spine ↔ c.spineSize < Wire.signedLimit) ∧
      ((∃ rest, readLength (encode c.spineSize spine) = .ok c.spineSize rest) ↔
        c.spineSize < Wire.signedLimit) ∧
      (Wire.signedLimit ≤ c.spineSize → decode c.spineSize (encode c.spineSize spine) =
        .error (if c.spineSize = Wire.signedLimit then .negativeLength Int32.minValue
          else .trailing (Wire.blocks (spine.row c.spineSize)).length)) := by
  have hpower := (Config.validate_eq_ok_iff.mp hvalid).1
  refine ⟨persists_iff hshort, readLength_encode_iff, fun hlarge => ?_⟩
  split
  · rename_i hsize
    rw [hsize, decode_encode_signedLimit]
  · rename_i hsize
    have hmod := (Config.isPowerOfTwo_cases hpower hlarge).resolve_left hsize
    exact decode_encode_of_mod (Nat.ne_of_gt (Config.pos_of_isPowerOfTwo hpower)) hmod

/-- With the default configuration, a spine with payloads in its first and its last slot can be read
back. -/
theorem persists_of_default :
    ∃ c : Config, c = {} ∧ c.validate = .ok () ∧
      Persists c.spineSize ((empty.install 0 [1]).install 1023 [2, 3]) := by
  have hvalid : ({} : Config).validate = .ok () := Config.validate_eq_ok_iff.mpr (by decide +kernel)
  have hshort : ((empty.install 0 [1]).install 1023 [2, 3]).Short :=
    (short_empty.install (by decide)).install (by decide)
  exact ⟨{}, rfl, hvalid, (persists_iff_of_validate hvalid hshort).1.mpr (by decide)⟩

/-- A configuration can ask for one slot more than signed words count. It is valid, but the blob of
its empty spine is refused. -/
theorem valid_not_persists :
    ∃ c : Config, c.spineSize = Wire.signedLimit ∧ c.validate = .ok () ∧ empty.Short ∧
      decode c.spineSize (encode c.spineSize empty) = .error (.negativeLength Int32.minValue) ∧
      ¬ Persists c.spineSize empty := by
  refine ⟨{ spineSize := Wire.signedLimit }, rfl,
    Config.validate_eq_ok_iff.mpr (by decide +kernel), short_empty, decode_encode_signedLimit, ?_⟩
  rw [persists_iff short_empty]
  exact Nat.lt_irrefl _

end Spine

end Chronicle
