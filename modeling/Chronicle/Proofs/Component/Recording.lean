import Chronicle.Proofs.Component.Chronology

/-!
# Recording a version

A version is recorded in place of the one under its stamp, or that one outlives it. Either way, only
what is recorded under this stamp can change, and versions of distinct stamps stay so. As long as
four bytes count the versions, they are read back from what is stored.
-/

namespace Chronicle.Chronology

variable {c : Chronology} {nid : Nid} {kind : ComponentKind} {version : Version} {payload : Bytes}
  {before after : List Version}

/-- What recording a version may do to the versions of a component. -/
structure Takes (version : Version) (before after : List Version) : Prop where
  mem : ∀ v ∈ after, v = version ∨ v ∈ before
  nodup : (before.map Version.stamp).Nodup → (after.map Version.stamp).Nodup
  others : after.filter (fun v => v.stamp ≠ version.stamp) =
    before.filter fun v => v.stamp ≠ version.stamp

/-- Inserting into a list takes the version up, in the place of its stamp or at the end. -/
theorem takes_insertInto (version : Version) (versions : List Version) :
    Takes version versions (version.insertInto versions) := by
  induction versions with
  | nil => exact ⟨by simp [Version.insertInto], by simp [Version.insertInto],
      by simp [Version.insertInto]⟩
  | cons first rest ih =>
    unfold Version.insertInto
    split
    · rename_i hstamp
      constructor
      · intro v hv
        rcases List.mem_cons.mp hv with rfl | hmem
        · exact Or.inl rfl
        · exact Or.inr (List.mem_cons_of_mem first hmem)
      · intro hnodup
        rwa [List.map_cons, ← hstamp]
      · rw [List.filter_cons_of_neg (by simp), List.filter_cons_of_neg (by simp [hstamp])]
    · rename_i hstamp
      constructor
      · intro v hv
        rcases List.mem_cons.mp hv with rfl | hmem
        · exact Or.inr List.mem_cons_self
        · exact (ih.mem v hmem).imp_right (List.mem_cons_of_mem first)
      · intro hnodup
        rw [List.map_cons, List.nodup_cons] at hnodup ⊢
        refine ⟨fun hmem => ?_, ih.nodup hnodup.2⟩
        obtain ⟨v, hv, heq⟩ := List.mem_map.mp hmem
        rcases ih.mem v hv with rfl | hrest
        · exact hstamp heq.symm
        · exact hnodup.1 (heq ▸ List.mem_map_of_mem hrest)
      · rw [List.filter_cons_of_pos (by simpa using hstamp),
          List.filter_cons_of_pos (by simpa using hstamp), ih.others]

/-- Appending takes up a version whose stamp is new and keeps all others. -/
theorem takes_append (c : Chronology) (version : Version) :
    Takes version c.versions (c.append version).versions := by
  cases hrecorded : c.version? version.stamp with
  | some recorded =>
    rw [append_of_recorded (by rw [hrecorded]; rfl)]
    exact ⟨fun v hv => Or.inr hv, id, rfl⟩
  | none =>
    rw [versions_append_of_new hrecorded]
    constructor
    · intro v hv
      rcases List.mem_append.mp hv with hmem | hlast
      · exact Or.inr hmem
      · exact Or.inl (List.mem_singleton.mp hlast)
    · intro hnodup
      rw [List.map_append, List.map_singleton]
      exact hnodup.append (List.nodup_singleton _)
        (by simpa using version?_eq_none_iff.mp hrecorded)
    · rw [List.filter_append, List.filter_cons_of_neg (by simp), List.filter_nil, List.append_nil]

/-- A first version is read back under its stamp, whatever becomes of its bytes. -/
theorem versions_of_decode_start (h : decode (start nid kind version).encode = .ok c) :
    ∃ fields, c.versions = [⟨version.stamp, fields⟩] := by
  rw [decode, Reader.decode_eq_ok_iff, read, encode] at h
  simp only [List.cons_append, List.nil_append, List.append_assoc] at h
  rw [Reader.bind_of_ok (Reader.byte_cons _ _)] at h
  simp only [ne_eq, not_true_eq_false, if_false] at h
  rw [Reader.bind_of_ok (Reader.byte_cons _ _), ComponentKind.ofCode_code] at h
  dsimp only at h
  rw [Reader.bind_of_ok (Reader.nid_wire _ _),
    Reader.bind_of_ok (Reader.count_wire (show (start nid kind version).versions.length <
      UInt32.size from show 1 < UInt32.size by decide) _)] at h
  obtain ⟨first, _, hfirst, h⟩ := Reader.bind_eq_ok_iff.mp h
  obtain ⟨rest, _, hrest, h⟩ := Reader.bind_eq_ok_iff.mp h
  obtain ⟨rfl, -⟩ := Reader.pure_eq_ok_iff.mp hrest
  obtain ⟨rfl, -⟩ := Reader.pure_eq_ok_iff.mp h
  have hbytes : (start nid kind version).versions.flatMap Version.encode =
      Wire.nid version.stamp ++ Wire.block version.fields := by
    simp [start, Version.encode]
  rw [hbytes, Version.read, Reader.bind_of_ok (Reader.nid_wire _ _)] at hfirst
  obtain ⟨fields, _, -, hread⟩ := Reader.bind_eq_ok_iff.mp hfirst
  obtain ⟨rfl, -⟩ := Reader.pure_eq_ok_iff.mp hread
  exact ⟨fields, rfl⟩

/-- The versions in a payload. There are none in what is no chronology. -/
def versionsOf (payload? : Option Bytes) : List Version :=
  recordedOf (payload?.bind fun payload => (decode payload).toOption)

/-- A payload that decodes holds the versions of its chronology. -/
theorem versionsOf_of_decode (h : decode payload = .ok c) :
    versionsOf (some payload) = c.versions := by
  rw [versionsOf, Option.bind_some, h]
  rfl

/-- A payload that does not decode holds no version. -/
theorem versionsOf_of_error {error : DecodeError} (h : decode payload = .error error) :
    versionsOf (some payload) = [] := by
  rw [versionsOf, Option.bind_some, h]
  rfl

/-- Both ways of recording a version take it up. -/
theorem takes_recorded (replace : Bool) (c : Chronology) (version : Version) :
    Takes version c.versions ((if replace then insert else append) c version).versions := by
  cases replace with
  | true => exact takes_insertInto version c.versions
  | false => exact takes_append c version

/-- A chronology into which a version was merged is read back with it, whatever became of the bytes
of the version. -/
theorem decode_mergePayload {update : Chronology} {stamp : Nid} (replace : Bool)
    (hstored : decode payload = .ok c)
    (hupdate : decode (start nid kind version).encode = .ok update) (hnid : update.nid = c.nid)
    (hnodup : (c.versions.map Version.stamp).Nodup)
    (hroom : stamp ∉ c.versions.map Version.stamp) (hne : stamp ≠ version.stamp) :
    ∃ fields, decode (mergePayload replace payload (start nid kind version).encode) =
      .ok ((if replace then insert else append) c ⟨version.stamp, fields⟩) := by
  obtain ⟨fields, hversions⟩ := versions_of_decode_start hupdate
  let offered : Version := ⟨version.stamp, fields⟩
  let merged := (if replace then insert else append) c offered
  have hmerged : mergePayload replace payload (start nid kind version).encode = merged.encode := by
    simp only [mergePayload, hstored, hupdate]
    rw [if_pos hnid, hversions]
    rfl
  have htakes : Takes offered c.versions merged.versions := takes_recorded replace c offered
  have hfree : stamp ∉ merged.versions.map Version.stamp := by
    intro hmem
    obtain ⟨v, hv, rfl⟩ := List.mem_map.mp hmem
    rcases htakes.mem v hv with rfl | hrecorded
    · exact hne rfl
    · exact hroom (List.mem_map_of_mem hrecorded)
  have hfits : merged.Fits := by
    apply fits_of_nodup (htakes.nodup hnodup) hfree
    intro v hv
    rcases htakes.mem v hv with rfl | hrecorded
    · have hread := (fits_of_decode hupdate).fields_lt
      rw [hversions] at hread
      exact hread offered (List.mem_singleton_self _)
    · exact (fits_of_decode hstored).fields_lt v hrecorded
  exact ⟨fields, by rw [hmerged, decode_encode hfits]⟩

/-- The chronology in a payload, if there is one. -/
def decoded? (payload? : Option Bytes) : Option Chronology :=
  payload?.bind fun payload => (decode payload).toOption

/-- A slot holds a chronology exactly if it has a payload that decodes to it. -/
theorem decoded?_eq_some_iff {payload? : Option Bytes} :
    decoded? payload? = some c ↔ ∃ payload, payload? = some payload ∧ decode payload = .ok c := by
  have hread (payload : Bytes) : (decode payload).toOption = some c ↔ decode payload = .ok c := by
    cases decode payload <;> simp [Except.toOption]
  rw [decoded?, Option.bind_eq_some_iff]
  simp only [hread]

/-- Four bytes count the bytes of a version that was read. -/
theorem length_fields_lt {payload? : Option Bytes} {stamp : Nid}
    (hrecorded : decoded? payload? = some c) (hversion : c.version? stamp = some version) :
    version.fields.length < UInt32.size := by
  obtain ⟨payload, -, hdecode⟩ := decoded?_eq_some_iff.mp hrecorded
  exact (fits_of_decode hdecode).fields_lt version (List.mem_of_find?_eq_some hversion)

/-- What recording a version makes of a payload: it starts a chronology where nothing is stored, a
chronology that is stored takes it, or what is stored stays. -/
theorem decoded?_merged {stamp : Nid} (nid : Nid) (kind : ComponentKind) (replace : Bool)
    (payload? : Option Bytes)
    (hnodup : ∀ c, decoded? payload? = some c → (c.versions.map Version.stamp).Nodup)
    (hroom : ∀ c, decoded? payload? = some c → stamp ∉ c.versions.map Version.stamp)
    (hne : stamp ≠ version.stamp) :
    let after := decoded? (some (SpineStore.merged (mergePayload replace)
      (start nid kind version).encode payload?))
    after = decoded? payload? ∨
      (∃ c fields, payload? = none ∧ after = some c ∧ c.versions = [⟨version.stamp, fields⟩]) ∨
      ∃ c fields, decoded? payload? = some c ∧
        after = some ((if replace then insert else append) c ⟨version.stamp, fields⟩) := by
  intro after
  cases payload? with
  | none =>
    have hafter : after = (decode (start nid kind version).encode).toOption := rfl
    cases hdecode : decode (start nid kind version).encode with
    | error error => exact Or.inl (by rw [hafter, hdecode]; rfl)
    | ok c =>
      obtain ⟨fields, hversions⟩ := versions_of_decode_start hdecode
      exact Or.inr (Or.inl ⟨c, fields, rfl, by rw [hafter, hdecode]; rfl, hversions⟩)
  | some payload =>
    have hafter : after =
        (decode (mergePayload replace payload (start nid kind version).encode)).toOption := rfl
    have hkept (h : mergePayload replace payload (start nid kind version).encode = payload) :
        after = decoded? (some payload) := by
      rw [hafter, h]
      rfl
    cases hstored : decode payload with
    | error error => exact Or.inl (hkept (by simp only [mergePayload, hstored]))
    | ok c =>
      have hfound : decoded? (some payload) = some c := by
        rw [decoded?, Option.bind_some, hstored]
        rfl
      cases hupdate : decode (start nid kind version).encode with
      | error error => exact Or.inl (hkept (by simp only [mergePayload, hstored, hupdate]))
      | ok update =>
        by_cases hnid : update.nid = c.nid
        · obtain ⟨fields, hdecode⟩ := decode_mergePayload replace hstored hupdate hnid
            (hnodup c hfound) (hroom c hfound) hne
          refine Or.inr (Or.inr ⟨c, fields, hfound, ?_⟩)
          rw [hafter, hdecode]
          rfl
        · exact Or.inl (hkept (by simp only [mergePayload, hstored, hupdate, if_neg hnid]))

/-- The versions in a payload stay as they are, or take one under the stamp of a version that is
recorded. -/
theorem versionsOf_merged {stamp : Nid} (nid : Nid) (kind : ComponentKind) (replace : Bool)
    (payload? : Option Bytes)
    (hnodup : ((versionsOf payload?).map Version.stamp).Nodup)
    (hroom : stamp ∉ (versionsOf payload?).map Version.stamp) (hne : stamp ≠ version.stamp) :
    let after := versionsOf (some (SpineStore.merged (mergePayload replace)
      (start nid kind version).encode payload?))
    after = versionsOf payload? ∨
      ∃ fields, Takes ⟨version.stamp, fields⟩ (versionsOf payload?) after := by
  intro after
  have hversions {payload? : Option Bytes} {c : Chronology} (h : decoded? payload? = some c) :
      versionsOf payload? = c.versions := congrArg recordedOf h
  rcases decoded?_merged nid kind replace payload? (fun c hc => hversions hc ▸ hnodup)
    (fun c hc => hversions hc ▸ hroom) hne with
    hsame | ⟨c, fields, rfl, hstarted, hsingle⟩ | ⟨c, fields, hfound, htaken⟩
  · exact Or.inl (congrArg recordedOf hsame)
  · have hafter : after = [⟨version.stamp, fields⟩] := (hversions hstarted).trans hsingle
    rw [hafter]
    exact Or.inr ⟨fields, takes_insertInto ⟨version.stamp, fields⟩ []⟩
  · have hafter : after = _ := hversions htaken
    rw [hafter, hversions hfound]
    exact Or.inr ⟨fields, takes_recorded replace c _⟩

end Chronicle.Chronology
