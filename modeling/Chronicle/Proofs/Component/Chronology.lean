import Chronicle.Proofs.Stamp.History
import Mathlib.Data.List.Nodup
import Mathlib.Data.List.Perm.Subperm

/-!
# Recording versions

A chronology is read back from its bytes as long as four bytes count its versions and the bytes of
each of them, and bytes that are read as a chronology are the ones in which it is written. Appending
a version under a stamp that is recorded changes nothing; under a new stamp the version comes last.
So the order in which versions of distinct stamps are appended shows in the order of the record only.
-/

namespace Chronicle

/-- A code that is read as a kind is the code of that kind. -/
theorem ComponentKind.code_of_ofCode {code : UInt8} {kind : ComponentKind}
    (h : ofCode code = .ok kind) : kind.code = code := by
  unfold ofCode at h
  split at h
  · rename_i found hfind
    cases h
    simpa using List.find?_some hfind
  · cases h

namespace Version

variable {version : Version}

/-- Versions whose fields fit a block are written and read exactly. -/
theorem exact_read :
    Reader.Exact read encode fun version => version.fields.length < UInt32.size := by
  intro version left rest
  simp only [read, encode, Reader.bind_eq_ok_iff, Reader.nid_eq_ok_iff, Reader.block_eq_ok_iff,
    Reader.pure_eq_ok_iff]
  constructor
  · rintro ⟨stamp, _, rfl, fields, _, ⟨hlength, rfl⟩, rfl, rfl⟩
    exact ⟨hlength, by rw [List.append_assoc]⟩
  · rintro ⟨hlength, rfl⟩
    exact ⟨version.stamp, _, by rw [List.append_assoc], version.fields, rest, ⟨hlength, rfl⟩, rfl,
      rfl⟩

/-- A version whose fields fit a block is read back. -/
theorem reads (h : version.fields.length < UInt32.size) :
    Reader.Reads read version.encode version :=
  (Reader.reads_nid version.stamp).bind (Reader.reads_block h).bind_pure

end Version

namespace Chronology

variable {c : Chronology} {nid stamp : Nid} {kind : ComponentKind} {version : Version}
  {payload : Bytes}

/-- Four bytes count the versions, and the bytes of each of them. -/
structure Fits (c : Chronology) : Prop where
  length_lt : c.versions.length < UInt32.size
  fields_lt : ∀ version ∈ c.versions, version.fields.length < UInt32.size

/-- A chronology of one version fits if that version does. -/
theorem fits_start (nid : Nid) (kind : ComponentKind)
    (h : version.fields.length < UInt32.size) : (start nid kind version).Fits where
  length_lt := show 1 < UInt32.size by decide
  fields_lt other hother := by
    obtain rfl := List.mem_singleton.mp hother
    exact h

/-- A chronology that fits is read back as it was written. -/
theorem reads (h : c.Fits) : Reader.Reads read c.encode c := by
  obtain ⟨nid, kind, versions, hne⟩ := c
  obtain ⟨first, later, rfl⟩ := List.exists_cons_of_ne_nil hne
  have hversions := List.forall_mem_cons.mp h.fields_lt
  have hbytes : encode ⟨nid, kind, first :: later, hne⟩ = [tag] ++ ([kind.code] ++ (Wire.nid nid ++
      (Wire.count (first :: later).length ++
        (first.encode ++ later.flatMap Version.encode)))) := by
    simp [encode]
  rw [hbytes]
  refine (Reader.reads_byte tag).bind ?_
  rw [if_neg (not_not_intro rfl)]
  refine (Reader.reads_byte kind.code).bind ?_
  rw [ComponentKind.ofCode_code]
  refine (Reader.reads_nid nid).bind ((Reader.reads_count h.length_lt).bind ?_)
  exact (Version.reads hversions.1).bind
    (Reader.reads_items fun version hmem => Version.reads (hversions.2 version hmem)).bind_pure

/-- Chronologies that fit are written and read exactly. -/
theorem exact_read : Reader.Exact read encode Fits := by
  intro c left rest
  constructor
  · intro h
    simp only [read, Reader.bind_eq_ok_iff, Reader.byte_eq_ok_iff] at h
    obtain ⟨found, mid, rfl, h⟩ := h
    by_cases htag : found = tag
    · rw [if_neg (not_not_intro htag)] at h
      simp only [Reader.bind_eq_ok_iff, Reader.byte_eq_ok_iff] at h
      obtain ⟨code, _, rfl, h⟩ := h
      cases hkind : ComponentKind.ofCode code with
      | error error =>
        rw [hkind] at h
        cases h
      | ok kind =>
        rw [hkind] at h
        simp only [Reader.bind_eq_ok_iff, Reader.nid_eq_ok_iff, Reader.count_eq_ok_iff] at h
        obtain ⟨nid, _, rfl, count, _, ⟨rfl, hlt⟩, h⟩ := h
        cases count with
        | zero => cases h
        | succ n =>
          simp only [Reader.bind_eq_ok_iff, Version.exact_read.items_eq_ok_iff,
            Version.exact_read _ _ _, Reader.pure_eq_ok_iff] at h
          obtain ⟨first, _, ⟨hfirst, rfl⟩, later, _, ⟨rfl, hlater, rfl⟩, rfl, rfl⟩ := h
          refine ⟨⟨hlt, List.forall_mem_cons.mpr ⟨hfirst, hlater⟩⟩, ?_⟩
          simp [encode, htag, ComponentKind.code_of_ofCode hkind]
    · rw [if_pos htag] at h
      cases h
  · rintro ⟨hfits, rfl⟩
    exact (reads hfits).whole rest

/-- Chronologies are told apart by their bytes, however many versions they have, if four bytes count
the bytes of each version. -/
theorem encode_inj {other : Chronology}
    (hfields : ∀ version ∈ c.versions, version.fields.length < UInt32.size)
    (hother : ∀ version ∈ other.versions, version.fields.length < UInt32.size)
    (h : c.encode = other.encode) : c = other := by
  simp only [encode, List.append_assoc, List.cons_append, List.nil_append, List.cons.injEq,
    true_and] at h
  obtain ⟨hkind, h⟩ := h
  obtain ⟨hnid, h⟩ := List.append_inj h (by simp [Wire.nid, Wire.int32])
  have hflat := (List.append_inj h (by simp [Wire.count])).2
  have hversions := Version.exact_read.flatMap_inj
    (fun version hnil => by
      simpa [Version.encode, Wire.nid, Wire.int32] using congrArg List.length hnil)
    hfields hother hflat
  have hkind : c.kind = other.kind := by
    rw [← Except.ok.injEq (ε := DecodeError), ← ComponentKind.ofCode_code, hkind,
      ComponentKind.ofCode_code]
  have hnid : c.nid = other.nid := by
    have hread := Reader.nid_wire c.nid []
    rw [hnid, Reader.nid_wire, EStateM.Result.ok.injEq] at hread
    exact hread.1.symm
  cases c
  cases other
  cases hkind
  cases hnid
  cases hversions
  rfl

/-- What is read from the bytes of a chronology is this chronology. -/
theorem eq_of_decode_encode {other : Chronology}
    (hfields : ∀ version ∈ c.versions, version.fields.length < UInt32.size)
    (h : decode c.encode = .ok other) : other = c := by
  obtain ⟨hfits, hencode⟩ := exact_read.decode_eq_ok_iff.mp h
  exact (encode_inj hfields hfits.fields_lt hencode).symm

/-- A chronology is read back from its bytes. -/
theorem decode_encode (h : c.Fits) : decode c.encode = .ok c :=
  exact_read.decode_eq_ok_iff.mpr ⟨h, rfl⟩

/-- Versions of distinct stamps can be counted in four bytes as long as some nid is the stamp of
none of them. -/
theorem fits_of_nodup (hnodup : (c.versions.map Version.stamp).Nodup)
    (hfree : stamp ∉ c.versions.map Version.stamp)
    (hfields : ∀ v ∈ c.versions, v.fields.length < UInt32.size) : c.Fits := by
  refine ⟨?_, hfields⟩
  have hle := Nid.length_le_of_nodup (List.nodup_cons.mpr ⟨hfree, hnodup⟩)
  rwa [List.length_cons, List.length_map] at hle

/-- Whatever was read can be written again. -/
theorem fits_of_decode (h : decode payload = .ok c) : c.Fits :=
  (exact_read.decode_eq_ok_iff.mp h).1

/-! ## Appending -/

/-- A stamp has no version exactly if none is recorded for it. -/
theorem version?_eq_none_iff : c.version? stamp = none ↔ stamp ∉ c.versions.map Version.stamp := by
  simp [version?]

/-- Appending a version whose stamp is recorded changes nothing. -/
theorem append_of_recorded (h : (c.version? version.stamp).isSome) : c.append version = c := by
  rw [append, append?, if_pos h]
  rfl

/-- A version of a new stamp is appended at the end. -/
theorem versions_append_of_new (h : c.version? version.stamp = none) :
    (c.append version).versions = c.versions ++ [version] := by
  rw [append, append?, h, if_neg (by simp)]
  rfl

/-- Appending keeps the nid of a chronology. -/
theorem nid_append (c : Chronology) (version : Version) : (c.append version).nid = c.nid := by
  rw [append, append?]
  split <;> rfl

/-- Appending keeps the kind of a chronology. -/
theorem kind_append (c : Chronology) (version : Version) : (c.append version).kind = c.kind := by
  rw [append, append?]
  split <;> rfl

/-- A recorded version outlives what is appended under its stamp. -/
theorem version?_append (c : Chronology) (version : Version) (stamp : Nid) :
    (c.append version).version? stamp =
      (c.version? stamp).or (if version.stamp = stamp then some version else none) := by
  cases hrecorded : c.version? version.stamp with
  | some recorded =>
    rw [append_of_recorded (by rw [hrecorded]; rfl)]
    by_cases hstamp : version.stamp = stamp
    · rw [← hstamp, hrecorded, Option.some_or]
    · rw [if_neg hstamp, Option.or_none]
  | none =>
    rw [version?, versions_append_of_new hrecorded, List.find?_append, List.find?_singleton]
    simp only [decide_eq_true_eq]
    rfl

/-- What an update with one version leaves of a stored chronology. -/
theorem mergePayload_start (hdecode : decode payload = .ok c) (hnid : c.nid = nid)
    (hlength : version.fields.length < UInt32.size) :
    mergePayload false payload (start nid kind version).encode = (c.append version).encode := by
  simp only [mergePayload, hdecode, decode_encode (fits_start nid kind hlength)]
  rw [if_pos (show (start nid kind version).nid = c.nid from hnid.symm)]
  rfl

/-! ## Components for which nothing may be stored -/

section

variable {recorded? : Option Chronology} {other : Version} {versions versions' : List Version}

/-- The versions of a component for which a chronology may be stored. -/
def recordedOf (recorded? : Option Chronology) : List Version :=
  recorded?.elim [] Chronology.versions

/-- What is recorded under a stamp. -/
def recordedFor (recorded? : Option Chronology) (stamp : Nid) : Option Version :=
  recorded?.bind fun c => c.version? stamp

/-- What is stored for a component once a version under a committed stamp was appended. -/
def offered (nid : Nid) (kind : ComponentKind) (version : Version) :
    Option Chronology → Chronology
  | none => start nid kind version
  | some c => c.append version

/-- What is stored for a component once some versions were appended. -/
def offeredAll (nid : Nid) (kind : ComponentKind) (recorded? : Option Chronology)
    (versions : List Version) : Option Chronology :=
  versions.foldl (fun recorded? version => some (offered nid kind version recorded?)) recorded?

/-- What becomes of a version that is appended under a committed stamp: a new one is recorded, and
one that is recorded under the stamp outlives it. -/
def verdict (nid : Nid) (recorded? : Option Chronology) (version : Version) :
    Except StoreError Unit :=
  match recordedFor recorded? version.stamp with
  | none => .ok ()
  | some found =>
    if found.fields = version.fields then .ok ()
    else .error (.versionRejected nid version.stamp)

/-- A component for which nothing is stored, or its own chronology. -/
def StoredAs (content : Nid → Option Bytes) (nid : Nid) : Option Chronology → Prop
  | none => content nid = none
  | some c => c.nid = nid ∧ ∃ payload, content nid = some payload ∧ decode payload = .ok c

/-- A stamp has no recorded version exactly if none of those recorded has it. -/
theorem recordedFor_eq_none_iff :
    recordedFor recorded? stamp = none ↔ stamp ∉ (recordedOf recorded?).map Version.stamp := by
  cases recorded? with
  | none => simp [recordedFor, recordedOf]
  | some c => exact version?_eq_none_iff

/-- After an offer the stamps recorded before have their versions, and the offered one counts if its
stamp is new. -/
theorem recordedFor_offered (nid : Nid) (kind : ComponentKind) (version : Version)
    (recorded? : Option Chronology) (stamp : Nid) :
    recordedFor (some (offered nid kind version recorded?)) stamp =
      (recordedFor recorded? stamp).or (if version.stamp = stamp then some version else none) := by
  cases recorded? with
  | none =>
    simp [recordedFor, offered, version?, start, List.find?_singleton]
  | some c => exact c.version?_append version stamp

/-- An offered version of a new stamp is recorded at the end. -/
theorem recordedOf_offered_of_new (h : recordedFor recorded? version.stamp = none) :
    recordedOf (some (offered nid kind version recorded?)) =
      recordedOf recorded? ++ [version] := by
  cases recorded? with
  | none => rfl
  | some c => exact versions_append_of_new h

/-- An offered version of a recorded stamp is dropped. -/
theorem recordedOf_offered_of_recorded (h : recordedFor recorded? version.stamp ≠ none) :
    recordedOf (some (offered nid kind version recorded?)) = recordedOf recorded? := by
  cases recorded? with
  | none => exact absurd rfl h
  | some c =>
    have hrecorded : (c.version? version.stamp).isSome := Option.isSome_iff_ne_none.mpr h
    rw [offered, append_of_recorded hrecorded]

/-- What is recorded after an offer was there before or is the offered version. -/
theorem mem_recordedOf_offered
    (h : other ∈ recordedOf (some (offered nid kind version recorded?))) :
    other ∈ recordedOf recorded? ∨ other = version := by
  by_cases hnew : recordedFor recorded? version.stamp = none
  · rw [recordedOf_offered_of_new hnew, List.mem_append, List.mem_singleton] at h
    exact h
  · rw [recordedOf_offered_of_recorded hnew] at h
    exact Or.inl h

/-- Appending a version decides nothing about other stamps. -/
theorem verdict_offered (h : version.stamp ≠ other.stamp) :
    verdict nid (some (offered nid kind version recorded?)) other =
      verdict nid recorded? other := by
  rw [verdict, verdict, recordedFor_offered, if_neg h, Option.or_none]

/-- What is stored in the end are the versions that were recorded, and behind them the new ones. -/
theorem recordedOf_offeredAll (hstamps : (versions.map Version.stamp).Nodup) :
    recordedOf (offeredAll nid kind recorded? versions) = recordedOf recorded? ++
      versions.filter fun v => recordedFor recorded? v.stamp = none := by
  induction versions generalizing recorded? with
  | nil => simp [offeredAll]
  | cons first rest ih =>
    rw [List.map_cons, List.nodup_cons] at hstamps
    have hrest : recordedOf (offeredAll nid kind (some (offered nid kind first recorded?)) rest) =
        _ := ih hstamps.2
    change recordedOf (offeredAll nid kind (some (offered nid kind first recorded?)) rest) = _
    have hkept : rest.filter (fun v =>
        recordedFor (some (offered nid kind first recorded?)) v.stamp = none) =
        rest.filter fun v => recordedFor recorded? v.stamp = none := by
      apply List.filter_congr
      intro v hv
      have hne : first.stamp ≠ v.stamp := by
        intro heq
        exact hstamps.1 (heq ▸ List.mem_map_of_mem hv)
      rw [recordedFor_offered, if_neg hne, Option.or_none]
    rw [hrest, hkept]
    by_cases hnew : recordedFor recorded? first.stamp = none
    · rw [recordedOf_offered_of_new hnew, List.filter_cons_of_pos (by simpa using hnew),
        List.append_assoc, List.singleton_append]
    · rw [recordedOf_offered_of_recorded hnew, List.filter_cons_of_neg (by simpa using hnew)]

private theorem kind_offered :
    (offered nid kind version recorded?).kind = recorded?.elim kind Chronology.kind := by
  cases recorded? with
  | none => rfl
  | some c => exact kind_append c version

/-- Appending keeps the stamps apart. -/
theorem nodup_offered (h : ((recordedOf recorded?).map Version.stamp).Nodup) :
    ((recordedOf (some (offered nid kind version recorded?))).map Version.stamp).Nodup := by
  by_cases hnew : recordedFor recorded? version.stamp = none
  · rw [recordedOf_offered_of_new hnew, List.map_append, List.map_singleton]
    exact h.append (List.nodup_singleton _) (by simpa using recordedFor_eq_none_iff.mp hnew)
  · rw [recordedOf_offered_of_recorded hnew]
    exact h

/-- As long as some nid is no stamp of a component, four bytes count its versions. -/
theorem fits_offered (hfits : ∀ c, recorded? = some c → c.Fits)
    (hlength : version.fields.length < UInt32.size)
    (hnodup : ((recordedOf recorded?).map Version.stamp).Nodup)
    (hroom : stamp ∉ (recordedOf recorded?).map Version.stamp) (hne : stamp ≠ version.stamp) :
    (offered nid kind version recorded?).Fits := by
  have hstamps : ((recordedOf (some (offered nid kind version recorded?))).map
      Version.stamp).Nodup := nodup_offered hnodup
  have hfree : stamp ∉ (recordedOf (some (offered nid kind version recorded?))).map
      Version.stamp := by
    intro hmem
    obtain ⟨other, hother, rfl⟩ := List.mem_map.mp hmem
    rcases mem_recordedOf_offered hother with hrecorded | rfl
    · exact hroom (List.mem_map_of_mem hrecorded)
    · exact hne rfl
  apply fits_of_nodup hstamps hfree
  intro other hother
  rcases mem_recordedOf_offered hother with hrecorded | rfl
  · obtain ⟨c, rfl⟩ : ∃ c, recorded? = some c := by
      cases recorded? with
      | none => cases hrecorded
      | some c => exact ⟨c, rfl⟩
    exact (hfits c rfl).fields_lt other hrecorded
  · exact hlength

/-- A version that is accepted is recorded. -/
theorem mem_of_verdict_ok (hstamps : (versions.map Version.stamp).Nodup)
    (hmem : version ∈ versions) (h : verdict nid recorded? version = .ok ()) :
    version ∈ recordedOf (offeredAll nid kind recorded? versions) := by
  rw [recordedOf_offeredAll hstamps, List.mem_append, List.mem_filter]
  cases hfound : recordedFor recorded? version.stamp with
  | none => exact Or.inr ⟨hmem, by simp⟩
  | some found =>
    left
    obtain ⟨c, rfl, hversion⟩ := Option.bind_eq_some_iff.mp hfound
    have hstamp : found.stamp = version.stamp := by simpa using List.find?_some hversion
    rw [verdict, hfound] at h
    by_cases hfields : found.fields = version.fields
    · have heq : found = version := by
        cases found
        cases version
        simp_all
      exact heq ▸ List.mem_of_find?_eq_some hversion
    · simp [hfields] at h

/-- Offered versions of distinct stamps leave no stamp recorded twice. -/
theorem nodup_offeredAll (nid : Nid) (kind : ComponentKind)
    (hrecorded : ((recordedOf recorded?).map Version.stamp).Nodup)
    (hstamps : (versions.map Version.stamp).Nodup) :
    ((recordedOf (offeredAll nid kind recorded? versions)).map Version.stamp).Nodup := by
  rw [recordedOf_offeredAll hstamps, List.map_append]
  refine hrecorded.append (hstamps.sublist (List.filter_sublist.map _)) ?_
  intro stamp hold hnew
  obtain ⟨v, hv, rfl⟩ := List.mem_map.mp hnew
  have hnone : recordedFor recorded? v.stamp = none := by simpa using (List.mem_filter.mp hv).2
  exact recordedFor_eq_none_iff.mp hnone hold

/-- In whatever order versions are appended, the same ones are recorded. -/
theorem recordedOf_offeredAll_perm (nid : Nid) (kind : ComponentKind)
    (recorded? : Option Chronology) (hstamps : (versions.map Version.stamp).Nodup)
    (h : versions.Perm versions') :
    (recordedOf (offeredAll nid kind recorded? versions)).Perm
      (recordedOf (offeredAll nid kind recorded? versions')) := by
  have hstamps' : (versions'.map Version.stamp).Nodup := (h.map _).nodup_iff.mp hstamps
  rw [recordedOf_offeredAll hstamps, recordedOf_offeredAll hstamps']
  exact (h.filter _).append_left _

/-- The kind of a chronology is that of its first version and no offer changes it. -/
theorem kind_offeredAll {c : Chronology} (h : offeredAll nid kind recorded? versions = some c) :
    c.kind = recorded?.elim kind Chronology.kind := by
  induction versions generalizing recorded? with
  | nil =>
    rw [show recorded? = some c from h]
    rfl
  | cons first rest ih => exact (ih h).trans kind_offered

/-- Nothing is recorded exactly if nothing was there and nothing was offered. -/
theorem offeredAll_eq_none_iff :
    offeredAll nid kind recorded? versions = none ↔ recorded? = none ∧ versions = [] := by
  induction versions generalizing recorded? with
  | nil => simp [offeredAll]
  | cons first rest ih =>
    change offeredAll nid kind (some _) rest = none ↔ _
    rw [ih]
    simp

end

end Chronology

end Chronicle
