import Chronicle.Proofs.Component.Chronology

/-!
# The formats of payloads

Stamps and chronologies are stored in formats that leave no choice: a value is written in one way,
and the bytes that are read as a value are those in which it is written. So a payload that is read
and written again stays the same byte for byte, and no two payloads mean the same.
-/

namespace Chronicle

variable {α : Type}

/-- A format in which every value that fits is written in one way, and nothing else is read. -/
structure ExactFormat (read : Reader α) (encode : α → Bytes) (fits : α → Prop) : Prop where
  /-- A value is read back from the front of the bytes, and what follows is left. -/
  read_append : ∀ value, fits value → ∀ rest, read (encode value ++ rest) = .ok value rest
  encode_of_decode : ∀ bytes value, read.decode bytes = .ok value → encode value = bytes
  /-- What is accepted is what can be written. -/
  accepts_iff : ∀ bytes,
    (∃ value, read.decode bytes = .ok value) ↔ ∃ value, fits value ∧ encode value = bytes
  /-- No two byte strings are read as the same value. -/
  injective : ∀ bytes other value,
    read.decode bytes = .ok value → read.decode other = .ok value → bytes = other

/-- An exact reader gives a format that is exact in both directions. -/
theorem Reader.Exact.format {read : Reader α} {encode : α → Bytes} {fits : α → Prop}
    (h : read.Exact encode fits) : ExactFormat read encode fits where
  read_append value hfits rest := (h value _ rest).mpr ⟨hfits, rfl⟩
  encode_of_decode bytes value hdecode := (h.decode_eq_ok_iff.mp hdecode).2.symm
  accepts_iff bytes := by simp only [h.decode_eq_ok_iff, eq_comm (a := bytes)]
  injective bytes other value hbytes hother := by
    rw [(h.decode_eq_ok_iff.mp hbytes).2, (h.decode_eq_ok_iff.mp hother).2]

/-- The formats of the fields of a stamp, of the history of a stamp and of the chronology of a
component are exact, for all histories and chronologies whose counts and lengths four bytes hold. -/
theorem payload_formats_exact :
    ExactFormat StampFields.read StampFields.encode (fun _ => True) ∧
      ExactFormat StampHistory.read StampHistory.encode StampHistory.Fits ∧
      ExactFormat Chronology.read Chronology.encode Chronology.Fits :=
  ⟨StampFields.exact_read.format, StampHistory.exact_read.format, Chronology.exact_read.format⟩

end Chronicle
