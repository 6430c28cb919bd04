import Chronicle.Proofs.Component.Recording
import Mathlib.Data.List.Induction

/-!
# Merging an update

An update is merged into what is stored for its nid, and whoever loses a race merges it again. So
merging has to settle: the same update merged once more changes no byte. For chronologies this holds
although a version may be replaced by another one of the same update, since both are recorded under
one stamp and the last of them wins either way. What is stored keeps its stamps and their order, the
stamps that are new come last, and bytes that are no chronology of the component stay.
-/

namespace Chronicle

/-- Adding what is missing, one after another, adds each missing entry once. -/
theorem foldl_addMissing {α : Type} [DecidableEq α] (offered recorded : List α) :
    offered.foldl (fun xs x => if x ∈ xs then xs else xs ++ [x]) recorded =
      recorded ++ (offered.filter fun x => x ∉ recorded).eraseDups := by
  induction offered generalizing recorded with
  | nil => simp
  | cons first rest ih =>
    rw [List.foldl_cons]
    by_cases hmem : first ∈ recorded
    · rw [if_pos hmem, ih, List.filter_cons_of_neg (by simpa using hmem)]
    · have hrest : (rest.filter fun x => x ∉ recorded ++ [first]) =
          (rest.filter fun x => x ∉ recorded).filter fun x => !x == first := by
        rw [List.filter_filter]
        refine List.filter_congr fun x _ => ?_
        by_cases hx : x = first <;> simp [hx]
      rw [if_neg hmem, ih, List.filter_cons_of_pos (by simpa using hmem), List.eraseDups_cons,
        hrest, List.append_assoc, List.singleton_append]

namespace Version

variable {v w : Version} {versions : List Version}

/-- Inserting a version adds its stamp at the end if it is new. -/
theorem map_stamp_insertInto (version : Version) (versions : List Version) :
    (version.insertInto versions).map stamp =
      if version.stamp ∈ versions.map stamp then versions.map stamp
      else versions.map stamp ++ [version.stamp] := by
  induction versions with
  | nil => simp [insertInto]
  | cons first rest ih =>
    unfold insertInto
    by_cases hfirst : first.stamp = version.stamp
    · simp [hfirst]
    · rw [if_neg hfirst, List.map_cons, List.map_cons, ih]
      by_cases hrest : version.stamp ∈ rest.map stamp
      · rw [if_pos hrest, if_pos (List.mem_cons_of_mem _ hrest)]
      · have hnew : version.stamp ∉ first.stamp :: rest.map stamp := by
          rw [List.mem_cons, not_or]
          exact ⟨Ne.symm hfirst, hrest⟩
        rw [if_neg hrest, if_neg hnew, List.cons_append]

/-- Of two versions under one stamp the later one counts. -/
theorem insertInto_insertInto (h : v.stamp = w.stamp) :
    v.insertInto (w.insertInto versions) = v.insertInto versions := by
  induction versions with
  | nil => simp [insertInto, h]
  | cons first rest ih =>
    by_cases hfirst : first.stamp = w.stamp
    · simp [insertInto, hfirst, h]
    · simp [insertInto, hfirst, h, ih]

/-- The order of two versions does not matter if one of them replaces another. -/
theorem insertInto_comm (hrecorded : v.stamp ∈ versions.map stamp) (hne : v.stamp ≠ w.stamp) :
    v.insertInto (w.insertInto versions) = w.insertInto (v.insertInto versions) := by
  induction versions with
  | nil => cases hrecorded
  | cons first rest ih =>
    by_cases hv : first.stamp = v.stamp
    · simp [insertInto, hv, hne]
    · by_cases hw : first.stamp = w.stamp
      · simp [insertInto, hw, hne.symm]
      · have hrest : v.stamp ∈ rest.map stamp :=
          (List.mem_cons.mp hrecorded).resolve_left (Ne.symm hv)
        simp [insertInto, hv, hw, ih hrest]

/-- A version that takes its place in a list is the first one under its stamp. -/
theorem find?_insertInto (version : Version) (versions : List Version) :
    (version.insertInto versions).find? (fun v => v.stamp = version.stamp) = some version := by
  induction versions with
  | nil => simp [insertInto]
  | cons first rest ih =>
    by_cases hfirst : first.stamp = version.stamp
    · simp [insertInto, hfirst]
    · simp [insertInto, hfirst, ih]

end Version

namespace Chronology

variable {c stored offered : Chronology} {existing update : Bytes} {replace : Bool}

/-- A chronology in which some versions were recorded, one after another. -/
def recordAll (replace : Bool) (c : Chronology) (versions : List Version) : Chronology :=
  versions.foldl (if replace then insert else append) c

/-- The stamps of an update that a chronology does not have, each once. -/
def newStamps (stored offered : Chronology) : List Nid :=
  ((offered.versions.map Version.stamp).filter fun stamp =>
    stamp ∉ stored.versions.map Version.stamp).eraseDups

private theorem ext_versions {c c' : Chronology} (hnid : c.nid = c'.nid) (hkind : c.kind = c'.kind)
    (hversions : c.versions = c'.versions) : c = c' := by
  cases c
  cases c'
  cases hnid
  cases hkind
  cases hversions
  rfl

/-! ## What is recorded -/

/-- Appending a version adds its stamp at the end if it is new. -/
theorem stamps_append (c : Chronology) (version : Version) :
    (c.append version).versions.map Version.stamp =
      if version.stamp ∈ c.versions.map Version.stamp then c.versions.map Version.stamp
      else c.versions.map Version.stamp ++ [version.stamp] := by
  by_cases hnew : c.version? version.stamp = none
  · rw [versions_append_of_new hnew, if_neg (version?_eq_none_iff.mp hnew), List.map_append,
      List.map_singleton]
  · rw [append_of_recorded (Option.isSome_iff_ne_none.mpr hnew),
      if_pos (not_not.mp (mt version?_eq_none_iff.mpr hnew))]

private theorem subset_stamps_insert (c : Chronology) (version : Version) :
    c.versions.map Version.stamp ⊆ (c.insert version).versions.map Version.stamp := by
  change _ ⊆ (version.insertInto c.versions).map Version.stamp
  rw [Version.map_stamp_insertInto]
  split
  · exact List.Subset.refl _
  · exact List.subset_append_left _ _

/-- Recording versions adds their stamps in order, each once, in either mode. -/
theorem stamps_recordAll (replace : Bool) (c : Chronology) (versions : List Version) :
    (recordAll replace c versions).versions.map Version.stamp =
      (versions.map Version.stamp).foldl (fun xs x => if x ∈ xs then xs else xs ++ [x])
        (c.versions.map Version.stamp) := by
  induction versions generalizing c with
  | nil => rfl
  | cons first rest ih =>
    have hfirst : ((if replace then insert else append) c first).versions.map Version.stamp =
        if first.stamp ∈ c.versions.map Version.stamp then c.versions.map Version.stamp
        else c.versions.map Version.stamp ++ [first.stamp] := by
      cases replace with
      | true => exact Version.map_stamp_insertInto first c.versions
      | false => exact stamps_append c first
    rw [List.map_cons, List.foldl_cons, ← hfirst]
    exact ih _

/-- What is stored keeps its stamps, and those that are new come last. -/
theorem stamps_recordAll_eq (replace : Bool) (stored offered : Chronology) :
    (recordAll replace stored offered.versions).versions.map Version.stamp =
      stored.versions.map Version.stamp ++ newStamps stored offered := by
  rw [stamps_recordAll, foldl_addMissing]
  rfl

private theorem subset_stamps_recordAll (replace : Bool) (c : Chronology)
    (versions : List Version) :
    versions.map Version.stamp ⊆
      (recordAll replace c versions).versions.map Version.stamp := by
  intro stamp hmem
  rw [stamps_recordAll, foldl_addMissing, List.mem_append]
  by_cases hold : stamp ∈ c.versions.map Version.stamp
  · exact Or.inl hold
  · exact Or.inr (List.mem_eraseDups.mpr (List.mem_filter.mpr ⟨hmem, by simpa using hold⟩))

private theorem nid_recordAll (replace : Bool) (c : Chronology) (versions : List Version) :
    (recordAll replace c versions).nid = c.nid := by
  induction versions generalizing c with
  | nil => rfl
  | cons first rest ih =>
    cases replace with
    | true => exact ih (c.insert first)
    | false => exact (ih (c.append first)).trans (nid_append c first)

private theorem kind_recordAll (replace : Bool) (c : Chronology) (versions : List Version) :
    (recordAll replace c versions).kind = c.kind := by
  induction versions generalizing c with
  | nil => rfl
  | cons first rest ih =>
    cases replace with
    | true => exact ih (c.insert first)
    | false => exact (ih (c.append first)).trans (kind_append c first)

private theorem mem_recordAll {version : Version} {versions : List Version}
    (h : version ∈ (recordAll replace c versions).versions) :
    version ∈ versions ∨ version ∈ c.versions := by
  induction versions generalizing c with
  | nil => exact Or.inr h
  | cons first rest ih =>
    rcases ih h with hrest | hfirst
    · exact Or.inl (List.mem_cons_of_mem first hrest)
    · rcases (takes_recorded replace c first).mem version hfirst with rfl | hmem
      · exact Or.inl List.mem_cons_self
      · exact Or.inr hmem

/-- Without replacement every version stays as it was. -/
theorem prefix_recordAll_append (c : Chronology) (versions : List Version) :
    c.versions <+: (recordAll false c versions).versions := by
  induction versions generalizing c with
  | nil => exact List.prefix_refl _
  | cons first rest ih =>
    refine List.IsPrefix.trans ?_ (ih (c.append first))
    by_cases hnew : c.version? first.stamp = none
    · rw [versions_append_of_new hnew]
      exact List.prefix_append _ _
    · have hsame := append_of_recorded (Option.isSome_iff_ne_none.mpr hnew)
      exact hsame.symm ▸ List.prefix_refl c.versions

/-- Without replacement an update whose stamps are all recorded changes nothing. -/
theorem recordAll_append_of_subset {versions : List Version}
    (h : versions.map Version.stamp ⊆ c.versions.map Version.stamp) :
    recordAll false c versions = c := by
  induction versions with
  | nil => rfl
  | cons first rest ih =>
    rw [List.map_cons, List.cons_subset] at h
    have hfirst : c.append first = c :=
      append_of_recorded (Option.isSome_iff_ne_none.mpr fun hnone =>
        version?_eq_none_iff.mp hnone h.1)
    change recordAll false (c.append first) rest = c
    rw [hfirst, ih h.2]

/-! ## Recording again -/

/-- The later of two versions of one stamp replaces the earlier. -/
theorem insert_insert {v w : Version} (h : v.stamp = w.stamp) :
    (c.insert w).insert v = c.insert v :=
  ext_versions rfl rfl (Version.insertInto_insertInto h)

/-- A version that replaces one may be inserted before or after one of another stamp. -/
theorem insert_comm {v w : Version} (hrecorded : v.stamp ∈ c.versions.map Version.stamp)
    (hne : v.stamp ≠ w.stamp) : (c.insert w).insert v = (c.insert v).insert w :=
  ext_versions rfl rfl (Version.insertInto_comm hrecorded hne)

/-- A version that is recorded in the end need not be recorded before other versions, if these
replace recorded ones only. -/
theorem insert_recordAll_insert {version : Version} {versions : List Version}
    (h : versions.map Version.stamp ⊆ c.versions.map Version.stamp) :
    (recordAll true (c.insert version) versions).insert version =
      (recordAll true c versions).insert version := by
  induction versions generalizing c with
  | nil => exact insert_insert rfl
  | cons first rest ih =>
    rw [List.map_cons, List.cons_subset] at h
    have hkept : rest.map Version.stamp ⊆ (c.insert first).versions.map Version.stamp :=
      List.Subset.trans h.2 (subset_stamps_insert c first)
    change (recordAll true ((c.insert version).insert first) rest).insert version =
      (recordAll true (c.insert first) rest).insert version
    by_cases hstamp : first.stamp = version.stamp
    · rw [insert_insert hstamp]
    · rw [insert_comm h.1 hstamp]
      exact ih hkept

/-- Recording the same versions again changes nothing. With replacement, the last version needs the
argument: those before it were settled without it, and where it goes they need not see it. -/
theorem recordAll_recordAll (replace : Bool) (c : Chronology) (versions : List Version) :
    recordAll replace (recordAll replace c versions) versions = recordAll replace c versions := by
  cases replace with
  | false => exact recordAll_append_of_subset (subset_stamps_recordAll false c versions)
  | true =>
    induction versions using List.reverseRecOn with
    | nil => rfl
    | append_singleton versions version ih =>
      have hlast (c : Chronology) : recordAll true c (versions ++ [version]) =
          (recordAll true c versions).insert version := by
        rw [recordAll, List.foldl_append]
        rfl
      rw [hlast, hlast, insert_recordAll_insert (subset_stamps_recordAll true c versions), ih]

/-! ## Payloads -/

/-- Merging two chronologies of one nid records the versions of the update. -/
theorem mergePayload_of_decode (replace : Bool) (hstored : decode existing = .ok stored)
    (hoffered : decode update = .ok offered) (hnid : offered.nid = stored.nid) :
    mergePayload replace existing update = (recordAll replace stored offered.versions).encode := by
  simp only [mergePayload, hstored, hoffered]
  rw [if_pos hnid]
  rfl

/-- Bytes that are no chronology stay, and so does a chronology to which none for its nid is
offered. -/
theorem mergePayload_of_foreign (replace : Bool)
    (h : ∀ stored offered, decode existing = .ok stored → decode update = .ok offered →
      offered.nid ≠ stored.nid) : mergePayload replace existing update = existing := by
  unfold mergePayload
  split
  · rename_i stored offered hstored hoffered
    rw [if_neg (h stored offered hstored hoffered)]
  · rfl

/-- No byte changes, or both sides are chronologies for one nid. -/
theorem kept_or_merged (replace : Bool) (existing update : Bytes) :
    mergePayload replace existing update = existing ∨ ∃ stored offered,
      decode existing = .ok stored ∧ decode update = .ok offered ∧ offered.nid = stored.nid := by
  by_cases hown : ∃ stored offered, decode existing = .ok stored ∧ decode update = .ok offered ∧
      offered.nid = stored.nid
  · exact Or.inr hown
  · refine Or.inl (mergePayload_of_foreign replace fun stored offered hstored hoffered hnid => ?_)
    exact hown ⟨stored, offered, hstored, hoffered, hnid⟩

/-- A merged chronology fits if there is room for the new stamps. -/
theorem fits_recordAll (hstored : stored.Fits) (hoffered : offered.Fits)
    (hroom : stored.size + (newStamps stored offered).length < UInt32.size) :
    (recordAll replace stored offered.versions).Fits := by
  constructor
  · have hlength := congrArg List.length (stamps_recordAll_eq replace stored offered)
    rw [List.length_map, List.length_append, List.length_map] at hlength
    rw [hlength]
    exact hroom
  · intro version hversion
    rcases mem_recordAll hversion with hmem | hmem
    · exact hoffered.fields_lt version hmem
    · exact hstored.fields_lt version hmem

/-- What is read where an update was merged. -/
theorem decode_mergePayload_of_decode (replace : Bool) (hstored : decode existing = .ok stored)
    (hoffered : decode update = .ok offered) (hnid : offered.nid = stored.nid)
    (hroom : stored.size + (newStamps stored offered).length < UInt32.size) :
    decode (mergePayload replace existing update) =
      .ok (recordAll replace stored offered.versions) := by
  rw [mergePayload_of_decode replace hstored hoffered hnid]
  exact decode_encode (fits_recordAll (fits_of_decode hstored) (fits_of_decode hoffered) hroom)

/-- Without replacement an update whose stamps are all stored changes no byte. -/
theorem mergePayload_of_subset (hstored : decode existing = .ok stored)
    (hoffered : decode update = .ok offered) (hnid : offered.nid = stored.nid)
    (hsubset : offered.versions.map Version.stamp ⊆ stored.versions.map Version.stamp) :
    mergePayload false existing update = existing := by
  rw [mergePayload_of_decode false hstored hoffered hnid, recordAll_append_of_subset hsubset]
  exact (exact_read.decode_eq_ok_iff.mp hstored).2.symm

/-- Merging the same update once more changes nothing. -/
theorem mergePayload_again (replace : Bool)
    (hroom : ∀ stored offered, decode existing = .ok stored → decode update = .ok offered →
      offered.nid = stored.nid → stored.size + (newStamps stored offered).length < UInt32.size) :
    mergePayload replace (mergePayload replace existing update) update =
      mergePayload replace existing update := by
  obtain hkept | ⟨stored, offered, hstored, hoffered, hnid⟩ :=
    kept_or_merged replace existing update
  · rw [hkept, hkept]
  · have hmerged := decode_mergePayload_of_decode replace hstored hoffered hnid
      (hroom stored offered hstored hoffered hnid)
    rw [mergePayload_of_decode replace hmerged hoffered
        (hnid.trans (nid_recordAll replace stored offered.versions).symm),
      recordAll_recordAll, mergePayload_of_decode replace hstored hoffered hnid]

private theorem length_newStamps_start_le (c : Chronology) (nid : Nid) (kind : ComponentKind)
    (version : Version) : (newStamps c (start nid kind version)).length ≤ 1 := by
  have hstamps : (start nid kind version).versions.map Version.stamp = [version.stamp] := rfl
  rw [newStamps, hstamps, List.filter_singleton]
  cases decide (version.stamp ∉ c.versions.map Version.stamp) <;> simp [List.eraseDups_cons]

/-- A version that is offered is found afterwards, or no byte has changed. -/
theorem merged_start_cases (replace : Bool) (nid : Nid) (kind : ComponentKind) {version : Version}
    {existing? : Option Bytes} (hfields : version.fields.length < UInt32.size)
    (hroom : ∀ existing, existing? = some existing →
      ∀ c, decode existing = .ok c → c.size + 1 < UInt32.size) :
    let merged := SpineStore.merged (mergePayload replace) (start nid kind version).encode existing?
    existing? = some merged ∨ ∃ c, decode merged = .ok c ∧ c.nid = nid ∧
      c.version? version.stamp = some version := by
  intro merged
  have hoffered := decode_encode (fits_start nid kind hfields)
  cases existing? with
  | none => exact Or.inr ⟨_, hoffered, rfl, by simp [version?, start]⟩
  | some existing =>
    obtain hkept | ⟨stored, offered, hstored, hread, hnid⟩ :=
      kept_or_merged replace existing (start nid kind version).encode
    · exact Or.inl (congrArg some hkept.symm)
    · obtain rfl := Except.ok.inj (hoffered.symm.trans hread)
      have hlength := length_newStamps_start_le stored nid kind version
      have hsize := hroom existing rfl stored hstored
      have hmerged := decode_mergePayload_of_decode replace hstored hoffered hnid (by omega)
      have hown := (nid_recordAll replace stored [version]).trans hnid.symm
      cases replace with
      | true => exact Or.inr ⟨_, hmerged, hown, Version.find?_insertInto version stored.versions⟩
      | false =>
        cases hrecorded : stored.version? version.stamp with
        | none =>
          refine Or.inr ⟨_, hmerged, hown, ?_⟩
          change (stored.append version).version? version.stamp = _
          rw [version?_append, hrecorded, if_pos rfl, Option.none_or]
        | some recorded =>
          have hmem : version.stamp ∈ stored.versions.map Version.stamp := by
            refine not_not.mp fun hnew => ?_
            rw [version?_eq_none_iff.mpr hnew] at hrecorded
            cases hrecorded
          have hkept := mergePayload_of_subset hstored hoffered hnid (by simpa [start] using hmem)
          exact Or.inl (congrArg some hkept.symm)

end Chronology

namespace StampHistory

variable {existing update : Bytes} {history : StampHistory} {fields : StampFields}

/-- The fields that are offered to an open history and change it come last. -/
theorem mergePayload_of_change (h : decode existing = .ok history)
    (hopen : history.current.isUncommitted) (hne : history.current ≠ fields) :
    mergePayload existing (start fields).encode =
      encode { earlier := history.versions, current := fields } := by
  have hpush : history.push fields = { earlier := history.versions, current := fields } := by
    rw [push, push?, if_pos ⟨hne, hopen⟩]
    rfl
  rw [mergePayload_start h, hpush, if_neg]
  intro heq
  exact hne (congrArg current heq).symm

/-- What is read where fields were taken. -/
theorem decode_mergePayload_of_change (h : decode existing = .ok history)
    (hopen : history.current.isUncommitted) (hne : history.current ≠ fields)
    (hroom : history.versions.length + 1 < UInt32.size) :
    decode (mergePayload existing (start fields).encode) =
      .ok { earlier := history.versions, current := fields } := by
  rw [mergePayload_of_change h hopen hne]
  exact decode_encode (by simpa [versions] using hroom)

/-- Bytes that are no history stay, and so does a history that is closed or has these fields. -/
theorem mergePayload_of_refused
    (h : ∀ history, decode existing = .ok history → history.current.isUncommitted →
      history.current = fields) : mergePayload existing (start fields).encode = existing := by
  cases hdecode : decode existing with
  | error error => simp only [mergePayload, hdecode]
  | ok history =>
    have hkept : history.push fields = history := by
      rw [push, push?, if_neg]
      · rfl
      · rintro ⟨hne, hopen⟩
        exact hne (h history hdecode hopen)
    rw [mergePayload_start hdecode, if_pos hkept]

/-- No byte changes, or an open history takes other fields. -/
theorem kept_or_taken (existing : Bytes) (fields : StampFields) :
    mergePayload existing (start fields).encode = existing ∨ ∃ history,
      decode existing = .ok history ∧ history.current.isUncommitted ∧ history.current ≠ fields := by
  by_cases htaken : ∃ history, decode existing = .ok history ∧
      history.current.isUncommitted ∧ history.current ≠ fields
  · exact Or.inr htaken
  · refine Or.inl (mergePayload_of_refused fun history hdecode hopen => ?_)
    exact not_not.mp fun hne => htaken ⟨history, hdecode, hopen, hne⟩

/-- Fields that were taken change no byte when they are offered again, however many entries the
history has by then. -/
theorem mergePayload_again (existing : Bytes) (fields : StampFields) :
    mergePayload (mergePayload existing (start fields).encode) (start fields).encode =
      mergePayload existing (start fields).encode := by
  obtain hkept | ⟨history, hdecode, hopen, hne⟩ := kept_or_taken existing fields
  · rw [hkept, hkept]
  · rw [mergePayload_of_change hdecode hopen hne]
    refine mergePayload_of_refused fun other hother _ => ?_
    exact congrArg current (eq_of_decode_encode hother)

/-- Fields that are offered are effective afterwards, or no byte has changed. -/
theorem offered_cases (fields : StampFields) {existing? : Option Bytes}
    (hroom : ∀ existing, existing? = some existing → ∀ history, decode existing = .ok history →
      history.versions.length + 1 < UInt32.size) :
    existing? = some (offered fields existing?) ∨
      ∃ history, decode (offered fields existing?) = .ok history ∧ history.current = fields := by
  cases existing? with
  | none => exact Or.inr ⟨_, decode_start fields, rfl⟩
  | some existing =>
    obtain hkept | ⟨history, hdecode, hopen, hne⟩ := kept_or_taken existing fields
    · exact Or.inl (congrArg some hkept.symm)
    · have hread := decode_mergePayload_of_change hdecode hopen hne (hroom existing rfl _ hdecode)
      exact Or.inr ⟨_, hread, rfl⟩

end StampHistory

/-- **Merging settles.** As long as four bytes count the versions, an update that is merged again
changes no byte, whatever is stored, whatever is offered and however many versions share a stamp.
Bytes stay when one side is no chronology or the nids differ. Otherwise a chronology of the same nid
and kind is read, with the stamps that were stored, in their order, and behind them the new ones,
each where it was first offered. Without replacement no stored version changes, and nothing does
when every stamp was stored. A stamp takes the one entry that is offered if it is open and the entry
is a change, its bytes stay otherwise, and either way the entry changes no byte when it is merged
again. -/
theorem merging_settles :
    (∀ (replace : Bool) (existing update : Bytes),
      (∀ stored offered, Chronology.decode existing = .ok stored →
        Chronology.decode update = .ok offered → offered.nid = stored.nid →
          stored.size + (Chronology.newStamps stored offered).length < UInt32.size) →
      let merged := Chronology.mergePayload replace existing update
      Chronology.mergePayload replace merged update = merged ∧
      ((∀ stored offered, Chronology.decode existing = .ok stored →
        Chronology.decode update = .ok offered → offered.nid ≠ stored.nid) →
          merged = existing) ∧
      ∀ stored offered, Chronology.decode existing = .ok stored →
        Chronology.decode update = .ok offered → offered.nid = stored.nid →
          ∃ c, Chronology.decode merged = .ok c ∧ c.nid = stored.nid ∧ c.kind = stored.kind ∧
            c.versions.map Version.stamp = stored.versions.map Version.stamp ++
              Chronology.newStamps stored offered ∧
            (replace = false → stored.versions <+: c.versions ∧
              (offered.versions.map Version.stamp ⊆ stored.versions.map Version.stamp →
                merged = existing))) ∧
    ∀ (existing update : Bytes) (fields : StampFields),
      StampHistory.decode update = .ok (.start fields) →
      let merged := StampHistory.mergePayload existing update
      StampHistory.mergePayload merged update = merged ∧
      (∀ history, StampHistory.decode existing = .ok history →
        history.current.isUncommitted → history.current ≠ fields →
          ∃ history', merged = history'.encode ∧
            history'.versions = history.versions ++ [fields] ∧
            (history.versions.length + 1 < UInt32.size →
              StampHistory.decode merged = .ok history')) ∧
      ((∀ history, StampHistory.decode existing = .ok history →
        history.current.isUncommitted → history.current = fields) → merged = existing) := by
  constructor
  · intro replace existing update hroom merged
    refine ⟨Chronology.mergePayload_again replace hroom,
      Chronology.mergePayload_of_foreign replace, ?_⟩
    intro stored offered hstored hoffered hnid
    refine ⟨_, Chronology.decode_mergePayload_of_decode replace hstored hoffered hnid
      (hroom stored offered hstored hoffered hnid), Chronology.nid_recordAll _ _ _,
      Chronology.kind_recordAll _ _ _, Chronology.stamps_recordAll_eq replace stored offered, ?_⟩
    rintro rfl
    exact ⟨Chronology.prefix_recordAll_append _ _,
      Chronology.mergePayload_of_subset hstored hoffered hnid⟩
  · intro existing update fields hupdate merged
    obtain rfl : update = (StampHistory.start fields).encode :=
      (StampHistory.exact_read.decode_eq_ok_iff.mp hupdate).2
    refine ⟨StampHistory.mergePayload_again existing fields, ?_,
      StampHistory.mergePayload_of_refused⟩
    intro history hdecode hopen hne
    exact ⟨_, StampHistory.mergePayload_of_change hdecode hopen hne, rfl,
      StampHistory.decode_mergePayload_of_change hdecode hopen hne⟩

/-- An update that replaces one version and offers another stamp twice, and the commit of a
draft. -/
theorem merging_settles_repeated :
    let stored : Chronology := .start ⟨7⟩ .concept ⟨⟨1⟩, [10]⟩
    let offered : Chronology :=
      { nid := ⟨7⟩, kind := .concept, ne_nil := by simp
        versions := [⟨⟨2⟩, [20]⟩, ⟨⟨1⟩, [11]⟩, ⟨⟨2⟩, [21]⟩] }
    let merged := Chronology.mergePayload true stored.encode offered.encode
    let draft := StampFields.draft .active ⟨4⟩ ⟨5⟩ ⟨6⟩
    let committed := StampHistory.mergePayload (StampHistory.start draft).encode
      (StampHistory.start (draft.committedAt 9)).encode
    (Chronology.mergePayload true merged offered.encode = merged ∧
      ∃ c, Chronology.decode merged = .ok c ∧ c.versions.map Version.stamp = [⟨1⟩, ⟨2⟩]) ∧
    StampHistory.mergePayload committed (StampHistory.start (draft.committedAt 9)).encode =
      committed ∧
    ∃ history, StampHistory.decode committed = .ok history ∧
      history.versions = [draft, draft.committedAt 9] := by
  intro stored offered merged draft committed
  have hstored : Chronology.decode stored.encode = .ok stored :=
    Chronology.decode_encode (Chronology.fits_start _ _ (by decide))
  have hoffered : Chronology.decode offered.encode = .ok offered :=
    Chronology.decode_encode ⟨by decide, by decide⟩
  have hstart := StampHistory.decode_start draft
  constructor
  · obtain ⟨hagain, -, hread⟩ := merging_settles.1 true stored.encode offered.encode (by
      intro _ _ h h' _
      rw [hstored] at h
      rw [hoffered] at h'
      cases h
      cases h'
      decide)
    obtain ⟨c, hdecode, -, -, hstamps, -⟩ := hread stored offered hstored hoffered rfl
    exact ⟨hagain, c, hdecode, hstamps⟩
  · obtain ⟨hagain, htaken, -⟩ := merging_settles.2 (StampHistory.start draft).encode _
      (draft.committedAt 9) (StampHistory.decode_start _)
    obtain ⟨history, -, hversions, hread⟩ := htaken _ hstart (by decide) (by decide)
    exact ⟨hagain, history, hread (by decide), hversions⟩

end Chronicle
