import Chronicle.Component.Chronology
import Chronicle.Proofs.Reader
import Chronicle.Proofs.Spine.Service
import Chronicle.Stamp.History

/-!
# Offering fields to a stored stamp

A history is read back from its bytes as long as four bytes count its entries, and bytes that are
read as a history are the ones in which it is written. Fields that are offered to what is stored for
a nid start a history, are taken by an open one, and are refused by a closed one and by anything
else. Chronologies start with another byte, so none is ever a history.
-/

namespace Chronicle

namespace StampFields

/-- Every stamp record is read back as it was written. -/
theorem reads (fields : StampFields) : Reader.Reads read fields.encode fields := by
  have hbytes : fields.encode = [fields.status.code] ++ (Wire.int64 fields.time ++
      (Wire.nid fields.author ++ (Wire.nid fields.module ++ Wire.nid fields.path))) := by
    simp [encode]
  rw [hbytes]
  refine (Reader.reads_byte fields.status.code).bind ?_
  rw [Status.ofCode_code]
  exact (Reader.reads_int64 fields.time).bind ((Reader.reads_nid fields.author).bind
    ((Reader.reads_nid fields.module).bind (Reader.reads_nid fields.path).bind_pure))

/-- Stamp records are written and read exactly. -/
theorem exact_read : Reader.Exact read encode fun _ => True := by
  intro fields left rest
  rw [true_and]
  constructor
  · intro h
    simp only [read, Reader.bind_eq_ok_iff, Reader.byte_eq_ok_iff] at h
    obtain ⟨code, mid, rfl, h⟩ := h
    cases hstatus : Status.ofCode code with
    | error error =>
      rw [hstatus] at h
      cases h
    | ok status =>
      rw [hstatus] at h
      simp only [Reader.bind_eq_ok_iff, Reader.int64_eq_ok_iff, Reader.nid_eq_ok_iff,
        Reader.pure_eq_ok_iff] at h
      obtain ⟨time, _, rfl, author, _, rfl, module, _, rfl, path, _, rfl, rfl, rfl⟩ := h
      simp [encode, Status.code_of_ofCode hstatus]
  · rintro rfl
    exact read_encode fields rest

end StampFields

namespace StampHistory

variable {history : StampHistory} {fields : StampFields} {payload : Bytes}

/-- Four bytes count the entries. -/
def Fits (history : StampHistory) : Prop :=
  history.versions.length < UInt32.size

/-- A history whose number of entries fits four bytes is read back as it was written. -/
theorem reads (h : history.Fits) : Reader.Reads read history.encode history := by
  have hlength : history.versions.length = history.earlier.length + 1 := by simp [versions]
  have hbytes : history.encode = [tag] ++ (Wire.count history.versions.length ++
      (history.earlier.flatMap StampFields.encode ++ history.current.encode)) := by
    simp [encode, versions]
  rw [hbytes]
  refine (Reader.reads_byte tag).bind ?_
  rw [if_neg (not_not_intro rfl)]
  refine (Reader.reads_count h).bind ?_
  rw [hlength]
  exact (Reader.reads_items fun fields _ => fields.reads).bind history.current.reads.bind_pure

/-- Histories that fit their count are written and read exactly. -/
theorem exact_read : Reader.Exact read encode Fits := by
  intro history left rest
  constructor
  · intro h
    simp only [read, Reader.bind_eq_ok_iff, Reader.byte_eq_ok_iff] at h
    obtain ⟨found, mid, rfl, h⟩ := h
    by_cases htag : found = tag
    · rw [if_neg (not_not_intro htag)] at h
      simp only [Reader.bind_eq_ok_iff, Reader.count_eq_ok_iff] at h
      obtain ⟨count, _, ⟨rfl, hlt⟩, h⟩ := h
      cases count with
      | zero => cases h
      | succ n =>
        simp only [Reader.bind_eq_ok_iff, StampFields.exact_read.items_eq_ok_iff,
          StampFields.exact_read _ _ _, Reader.pure_eq_ok_iff] at h
        obtain ⟨earlier, _, ⟨rfl, -, rfl⟩, current, _, ⟨-, rfl⟩, rfl, rfl⟩ := h
        refine ⟨by simpa [Fits, versions] using hlt, ?_⟩
        simp [encode, versions, htag]
    · rw [if_pos htag] at h
      cases h
  · rintro ⟨hfits, rfl⟩
    exact (reads hfits).whole rest

/-- Histories are told apart by their bytes, however many entries they have. -/
theorem encode_inj {other : StampHistory} (h : history.encode = other.encode) :
    history = other := by
  simp only [encode, List.cons_append, List.nil_append, List.cons.injEq, true_and] at h
  have hflat := (List.append_inj h (by simp [Wire.count])).2
  have hversions := StampFields.exact_read.flatMap_inj
    (fun fields hnil => by simpa [hnil] using fields.length_encode) (fun _ _ => trivial)
    (fun _ _ => trivial) hflat
  obtain ⟨hearlier, hcurrent⟩ := List.append_inj' hversions rfl
  cases history
  cases other
  cases hearlier
  cases hcurrent
  rfl

/-- What is read from the bytes of a history is this history. -/
theorem eq_of_decode_encode {other : StampHistory} (h : decode history.encode = .ok other) :
    other = history :=
  (encode_inj (exact_read.decode_eq_ok_iff.mp h).2).symm

/-- A history is read back from its bytes. -/
theorem decode_encode (h : history.versions.length < UInt32.size) :
    decode history.encode = .ok history :=
  exact_read.decode_eq_ok_iff.mpr ⟨h, rfl⟩

/-- A closed history takes no further entry. -/
theorem push_of_closed (h : history.current.isUncommitted = false) :
    history.push fields = history := by
  simp [push, push?, h]

/-- Fields that are already effective are no further entry. -/
theorem push_current (history : StampHistory) : history.push history.current = history := by
  simp [push, push?]

/-- An open history takes every entry that is a change. -/
theorem current_push_of_open (h : history.current.isUncommitted = true) :
    (history.push fields).current = fields := by
  rw [push, push?]
  by_cases hfields : history.current = fields
  · rw [if_neg fun hpush => hpush.1 hfields]
    exact hfields
  · rw [if_pos ⟨hfields, h⟩]
    rfl

/-- Once closed fields were offered, a history is closed. -/
theorem isUncommitted_push
    (h : history.current.isUncommitted = true → fields.isUncommitted = false) :
    (history.push fields).current.isUncommitted = false := by
  cases hopen : history.current.isUncommitted with
  | false => rw [push_of_closed hopen, hopen]
  | true => rw [current_push_of_open hopen, h hopen]

/-- Closed fields are a change of an open history. -/
theorem push_of_open (hopen : history.current.isUncommitted = true)
    (hfields : fields.isUncommitted = false) :
    history.push fields = { earlier := history.versions, current := fields } := by
  have hne : history.current ≠ fields := by
    rintro rfl
    rw [hopen] at hfields
    cases hfields
  rw [push, push?, if_pos ⟨hne, hopen⟩]
  rfl

/-- What is stored once fields were offered. -/
def offered (fields : StampFields) : Option Bytes → Bytes :=
  SpineStore.merged mergePayload (start fields).encode

/-- The first record of a stamp is read back. -/
theorem decode_start (fields : StampFields) : decode (start fields).encode = .ok (start fields) :=
  decode_encode (show 1 < UInt32.size by decide)

/-- A record that is offered to an empty slot starts a history. -/
theorem decode_offered_none (fields : StampFields) :
    decode (offered fields none) = .ok (start fields) :=
  decode_start fields

/-- Offering a record to a stored history pushes it, and a record that adds nothing leaves the bytes
as they are. -/
theorem mergePayload_start (h : decode payload = .ok history) :
    mergePayload payload (start fields).encode =
      if history.push fields = history then payload else (history.push fields).encode := by
  simp only [mergePayload, h, decode_start]
  rfl

/-- A history that has one entry if it is open is stored with the entry that was offered. -/
theorem decode_offered_some (h : decode payload = .ok history)
    (hopen : history.current.isUncommitted = true → history.earlier = []) :
    decode (offered fields (some payload)) = .ok (history.push fields) := by
  change decode (mergePayload payload (start fields).encode) = _
  rw [mergePayload_start h]
  split
  · rename_i hsame
    rw [hsame, h]
  · rename_i hchanged
    cases hopened : history.current.isUncommitted with
    | false => exact absurd (push_of_closed hopened) hchanged
    | true =>
      refine decode_encode ?_
      rw [push, push?]
      split
      · simp only [Option.getD_some, versions, hopen hopened, List.nil_append, List.length_append,
          List.length_singleton]
        decide
      · simp only [Option.getD_none, versions, hopen hopened, List.nil_append,
          List.length_singleton]
        decide

/-- What is read where fields were offered to a history is this history, with the fields if it took
them. -/
theorem eq_push_of_decode_offered {other : StampHistory} (h : decode payload = .ok history)
    (hother : decode (offered fields (some payload)) = .ok other) : other = history.push fields := by
  change decode (mergePayload payload (start fields).encode) = .ok other at hother
  rw [mergePayload_start h] at hother
  split at hother
  · rename_i hsame
    rw [h] at hother
    rw [hsame, Except.ok.inj hother]
  · exact eq_of_decode_encode hother

/-- A record that is offered to bytes that are no history is dropped. -/
theorem offered_of_error {error : DecodeError} (h : decode payload = .error error) :
    offered fields (some payload) = payload := by
  change mergePayload payload (start fields).encode = payload
  simp only [mergePayload, h]

/-- Bytes that begin with another tag are no history. -/
theorem not_decode_of_head? {byte : UInt8} (h : payload.head? = some byte) (hbyte : byte ≠ tag) :
    (decode payload).toOption = none := by
  cases hdecode : decode payload with
  | error error => rfl
  | ok history =>
    obtain ⟨rest, rfl⟩ := List.head?_eq_some_iff.mp h
    rw [decode, Reader.decode_eq_ok_iff, read, Reader.bind_of_ok (Reader.byte_cons _ _),
      if_pos hbyte] at hdecode
    cases hdecode

end StampHistory

namespace Chronology

/-- A chronology begins with its tag. -/
theorem head?_of_decode {payload : Bytes} {c : Chronology} (h : decode payload = .ok c) :
    payload.head? = some tag := by
  rw [decode, Reader.decode_eq_ok_iff, read] at h
  cases payload with
  | nil => cases h
  | cons byte rest =>
    rw [Reader.bind_of_ok (Reader.byte_cons _ _)] at h
    by_cases hbyte : byte = tag
    · rw [hbyte]
      rfl
    · rw [if_pos hbyte] at h
      cases h

/-- No stamp is a chronology. -/
theorem exists_error_of_stamp {payload : Bytes} {history : StampHistory}
    (h : StampHistory.decode payload = .ok history) : ∃ error, decode payload = .error error := by
  cases hdecode : decode payload with
  | error error => exact ⟨error, rfl⟩
  | ok c =>
    have hnone := StampHistory.not_decode_of_head? (head?_of_decode hdecode) (by decide)
    rw [h] at hnone
    cases hnone

/-- Where a stamp is stored, no version is recorded. -/
theorem merged_of_stamp {payload : Bytes} {history : StampHistory} (replace : Bool) (c : Chronology)
    (h : StampHistory.decode payload = .ok history) :
    SpineStore.merged (mergePayload replace) c.encode (some payload) = payload := by
  obtain ⟨error, herror⟩ := exists_error_of_stamp h
  simp only [SpineStore.merged, mergePayload, herror]

/-- Offering fields leaves a chronology as it is, and makes none of anything else. -/
theorem decode_offered (fields : StampFields) (payload? : Option Bytes) :
    (decode (StampHistory.offered fields payload?)).toOption =
      payload?.bind fun payload => (decode payload).toOption := by
  have hencode (history : StampHistory) : (decode history.encode).toOption = none := by
    cases hdecode : decode history.encode with
    | error error => rfl
    | ok c => exact absurd (head?_of_decode hdecode) (by simp [StampHistory.encode]; decide)
  cases payload? with
  | none => exact hencode (.start fields)
  | some payload =>
    rw [Option.bind_some]
    cases hdecode : StampHistory.decode payload with
    | error error => rw [StampHistory.offered_of_error hdecode]
    | ok history =>
      change (decode
        (StampHistory.mergePayload payload (StampHistory.start fields).encode)).toOption = _
      rw [StampHistory.mergePayload_start hdecode]
      split
      · rfl
      · obtain ⟨error, herror⟩ := exists_error_of_stamp hdecode
        rw [hencode, herror]
        rfl

/-- Recording versions leaves a stamp as it is, and makes none of anything else. -/
theorem stamp_merged (replace : Bool) (c : Chronology) (payload? : Option Bytes) :
    (StampHistory.decode (SpineStore.merged (mergePayload replace) c.encode payload?)).toOption =
      payload?.bind fun payload => (StampHistory.decode payload).toOption := by
  have hencode (c : Chronology) : (StampHistory.decode c.encode).toOption = none :=
    StampHistory.not_decode_of_head? (show c.encode.head? = some tag from rfl) (by decide)
  cases payload? with
  | none => exact hencode c
  | some payload =>
    rw [Option.bind_some, SpineStore.merged, mergePayload]
    split
    · rename_i stored offered hstored hoffered
      split
      · rw [hencode, StampHistory.not_decode_of_head? (head?_of_decode hstored) (by decide)]
      · rfl
    · rfl

end Chronology

end Chronicle
