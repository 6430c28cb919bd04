import Chronicle.Proofs.Component.Recording
import Chronicle.Proofs.Spine.Memory
import Chronicle.Proofs.Store.StampActions

/-!
# Importing records again

A record is imported by committing its stamp and appending what it says under this stamp. If equal
committed stamps share one nid, everything that an import needs to find again stays in memory: the
UUID of a stamp stays mapped, a closed stamp stays to the last byte, and a version that was recorded
outlives all later ones. So whoever imports the same records again, changes nothing.
-/

namespace Chronicle

/-- What a record of an import says: who changed which component, and to what. -/
structure ImportRecord where
  fields : StampFields
  component : Nid
  kind : ComponentKind
  content : Bytes
  deriving DecidableEq

/-! ## What becomes of a payload -/

/-- A closed stamp stays to the last byte, and a chronology keeps its component and its versions. -/
structure Preserves (before after : Bytes) : Prop where
  closed : ∀ history, StampHistory.decode before = .ok history →
    history.current.isUncommitted = false → after = before
  recorded : ∀ c, Chronology.decode before = .ok c → ∃ c', Chronology.decode after = .ok c' ∧
    c'.nid = c.nid ∧ ∀ stamp version, c.version? stamp = some version →
      c'.version? stamp = some version

private theorem preserves_refl (payload : Bytes) : Preserves payload payload :=
  ⟨fun _ _ _ => rfl, fun c hdecode => ⟨c, hdecode, rfl, fun _ _ => id⟩⟩

private theorem Preserves.trans {first second third : Bytes} (h : Preserves first second)
    (h' : Preserves second third) : Preserves first third := by
  constructor
  · intro history hdecode hclosed
    obtain rfl := h.closed history hdecode hclosed
    exact h'.closed history hdecode hclosed
  · intro c hdecode
    obtain ⟨c', hdecode', hnid, hversions⟩ := h.recorded c hdecode
    obtain ⟨c'', hdecode'', hnid', hversions'⟩ := h'.recorded c' hdecode'
    exact ⟨c'', hdecode'', hnid'.trans hnid, fun stamp version hversion =>
      hversions' stamp version (hversions stamp version hversion)⟩

/-- Closed fields that were offered leave a closed stamp. -/
theorem StampHistory.preserves_offered {fields : StampFields} {payload? : Option Bytes}
    {history : StampHistory} (hfields : fields.isUncommitted = false)
    (h : decode (offered fields payload?) = .ok history) :
    history.current.isUncommitted = false ∧
      ∀ payload, payload? = some payload → Preserves payload (offered fields payload?) := by
  cases payload? with
  | none =>
    rw [decode_offered_none] at h
    cases h
    exact ⟨hfields, fun _ hnone => by cases hnone⟩
  | some payload =>
    cases hstored : decode payload with
    | error error =>
      rw [offered_of_error hstored, hstored] at h
      cases h
    | ok stored =>
      have hoffered : offered fields (some payload) = _ := mergePayload_start hstored
      cases hopen : stored.current.isUncommitted with
      | false =>
        rw [push_of_closed hopen, if_pos rfl] at hoffered
        rw [hoffered, hstored] at h
        cases h
        refine ⟨hopen, ?_⟩
        rintro _ ⟨⟩
        rw [hoffered]
        exact preserves_refl payload
      | true =>
        have hpush : stored.push fields ≠ stored := by
          intro hsame
          have hcurrent : (stored.push fields).current = fields := current_push_of_open hopen
          rw [hsame] at hcurrent
          rw [hcurrent, hfields] at hopen
          cases hopen
        rw [if_neg hpush] at hoffered
        rw [hoffered] at h
        obtain rfl := eq_of_decode_encode h
        refine ⟨by rw [current_push_of_open hopen, hfields], ?_⟩
        rintro _ ⟨⟩
        constructor
        · intro history hdecode hclosed
          rw [hstored] at hdecode
          cases hdecode
          rw [hopen] at hclosed
          cases hclosed
        · intro c hdecode
          obtain ⟨error, herror⟩ := Chronology.exists_error_of_stamp hstored
          rw [herror] at hdecode
          cases hdecode

/-- A version that was appended leaves the ones that were recorded before. -/
theorem Chronology.preserves_appended {nid : Nid} {kind : ComponentKind} {version : Version}
    {payload : Bytes} {c : Chronology} (hlength : version.fields.length < UInt32.size)
    (h : decode (mergePayload false payload (start nid kind version).encode) = .ok c) :
    Preserves payload (mergePayload false payload (start nid kind version).encode) := by
  have hupdate := decode_encode (fits_start nid kind hlength)
  cases hstored : decode payload with
  | error error =>
    simp only [mergePayload, hstored]
    exact preserves_refl payload
  | ok stored =>
    by_cases hnid : stored.nid = nid
    · rw [mergePayload_start hstored hnid hlength] at h ⊢
      constructor
      · intro history hdecode hclosed
        obtain ⟨error, herror⟩ := exists_error_of_stamp hdecode
        rw [hstored] at herror
        cases herror
      · intro before hdecode
        rw [hstored] at hdecode
        cases hdecode
        have hfields : ∀ v ∈ (stored.append version).versions,
            v.fields.length < UInt32.size := by
          intro v hv
          rcases (takes_append stored version).mem v hv with rfl | hold
          · exact hlength
          · exact (fits_of_decode hstored).fields_lt v hold
        obtain rfl := eq_of_decode_encode hfields h
        refine ⟨_, h, nid_append stored version, fun stamp found hfound => ?_⟩
        rw [version?_append, hfound, Option.some_or]
    · have hne : ¬ (start nid kind version).nid = stored.nid := fun heq => hnid heq.symm
      simp only [mergePayload, hstored, hupdate, if_neg hne]
      exact preserves_refl payload

namespace Store

variable {s t u : Store} {fields : StampFields} {stamp nid : Nid} {kind : ComponentKind}
  {version : Version}

/-! ## What importing does to a store -/

/-- Nothing that was mapped, reached or in memory is lost. -/
structure Advances (s t : Store) : Prop where
  config_eq : t.config = s.config
  maxAttempts_eq : t.spines.maxAttempts = s.spines.maxAttempts
  mapped : ∀ uuid nid, s.registry.nid? uuid = some nid → t.registry.nid? uuid = some nid
  reaches : ∀ nid, s.spines.Reaches nid → t.spines.Reaches nid
  holds : ∀ nid payload, s.spines.Holds nid payload →
    ∃ after, t.spines.Holds nid after ∧ Preserves payload after

private theorem advances_refl (s : Store) : s.Advances s :=
  ⟨rfl, rfl, fun _ _ => id, fun _ => id, fun _ payload h => ⟨payload, h, preserves_refl payload⟩⟩

private theorem Advances.trans (h : s.Advances t) (h' : t.Advances u) : s.Advances u where
  config_eq := h'.config_eq.trans h.config_eq
  maxAttempts_eq := h'.maxAttempts_eq.trans h.maxAttempts_eq
  mapped uuid nid hmapped := h'.mapped uuid nid (h.mapped uuid nid hmapped)
  reaches nid hreaches := h'.reaches nid (h.reaches nid hreaches)
  holds nid payload hheld := by
    obtain ⟨middle, hmiddle, hpreserves⟩ := h.holds nid payload hheld
    obtain ⟨after, hafter, hpreserves'⟩ := h'.holds nid middle hmiddle
    exact ⟨after, hafter, hpreserves.trans hpreserves'⟩

private theorem advances_resolve {id : PublicId} {registry : Registry}
    (h : s.registry.resolve id = .ok (nid, registry)) : s.Advances { s with registry } :=
  { advances_refl s with
    mapped := fun _ _ hmapped => (Registry.resolves_of_resolve h).nid?_of_some hmapped }

private theorem advances_retains {spines : SpineStore} (h : s.spines.Retains spines) :
    s.Advances { s with spines } :=
  { advances_refl s with
    maxAttempts_eq := h.maxAttempts_eq
    reaches := fun _ => h.reaches
    holds := fun _ payload hheld => ⟨payload, h.holds hheld, preserves_refl payload⟩ }

/-- A merge loses nothing if it preserves what it replaces. -/
theorem advances_merges {spines : SpineStore} {payload next : Bytes}
    {combine : Bytes → Bytes → Bytes}
    (h : SpineStore.Merges s.spines nid payload combine next spines)
    (hpreserves : ∀ held, s.spines.Holds nid held → Preserves held next) :
    s.Advances { s with spines } :=
  { advances_refl s with
    maxAttempts_eq := h.maxAttempts_eq
    reaches := h.reaches
    holds := fun other held hheld => by
      by_cases hother : other = nid
      · subst hother
        exact ⟨next, h.holds, hpreserves held hheld⟩
      · exact ⟨held, h.others other held hother hheld, preserves_refl held⟩ }

/-- Offering fields to the stamp again changes nothing: it is closed, and not because it was
canceled. -/
structure Settles (s : Store) (fields : StampFields) (stamp : Nid) : Prop where
  attempts_pos : 0 < s.spines.maxAttempts
  closed : ∃ payload history, s.spines.Holds stamp payload ∧
    StampHistory.decode payload = .ok history ∧ history.current.isUncommitted = false ∧
    ¬ (history.current ≠ fields ∧ history.current.isCanceled = true)

/-- Committing fields again answers a stamp that is there. -/
structure Commits (s : Store) (fields : StampFields) (stamp : Nid) : Prop where
  settles : s.Settles fields stamp
  time : Time.isSentinel fields.time = false
  mapped : s.registry.nid? fields.contentUuid = some stamp
  named : ∃ id, PublicId.ofUuid fields.contentUuid = .ok id

/-- Appending a version again finds it. -/
structure Confirms (s : Store) (nid : Nid) (version : Version) : Prop where
  reaches : s.spines.Reaches version.stamp
  recorded : ∃ payload c, s.spines.Holds nid payload ∧ Chronology.decode payload = .ok c ∧
    records c nid version = true

/-- Fields stay settled in every later store. -/
theorem Settles.advances (h : s.Settles fields stamp) (hst : s.Advances t) :
    t.Settles fields stamp := by
  obtain ⟨hattempts, payload, history, hheld, hdecode, hclosed, hcurrent⟩ := h
  obtain ⟨after, hafter, hpreserves⟩ := hst.holds stamp payload hheld
  obtain rfl := hpreserves.closed history hdecode hclosed
  exact ⟨by rwa [hst.maxAttempts_eq], after, history, hafter, hdecode, hclosed, hcurrent⟩

/-- A commit that would find its stamp finds it in every later store. -/
theorem Commits.advances (h : s.Commits fields stamp) (hst : s.Advances t) :
    t.Commits fields stamp :=
  ⟨h.settles.advances hst, h.time, hst.mapped _ _ h.mapped, h.named⟩

/-- A version that is recorded is so in every later store. -/
theorem Confirms.advances (h : s.Confirms nid version) (hst : s.Advances t) :
    t.Confirms nid version := by
  obtain ⟨hreaches, payload, c, hheld, hdecode, hrecords⟩ := h
  obtain ⟨after, hafter, hpreserves⟩ := hst.holds nid payload hheld
  obtain ⟨c', hdecode', hnid, hversions⟩ := hpreserves.recorded c hdecode
  refine ⟨hst.reaches _ hreaches, after, c', hafter, hdecode', ?_⟩
  simp only [records, decide_eq_true_eq, Option.map_eq_some_iff] at hrecords ⊢
  obtain ⟨hcomponent, found, hfound, hfields⟩ := hrecords
  exact ⟨hnid.trans hcomponent, found, hversions _ _ hfound, hfields⟩

/-! ## Importing a record -/

/-- A payload that is looked up lies in memory afterwards. -/
theorem ends_lookup_held (s : Store) (nid : Nid) :
    Ends (infallible (onSpines (SpineStore.lookup nid))) s
      (fun payload? t => s.Advances t ∧ ∀ payload, payload? = some payload →
        t.spines.Holds nid payload ∧ t.spines.Reaches nid) fun _ _ => False :=
  ends_infallible ⟨advances_retains (SpineStore.retains_lookup s.spines nid),
    fun _ hpayload => SpineStore.holds_of_lookup (Prod.ext hpayload rfl)⟩

/-- A stamp that is found is in memory then, and in reach. -/
theorem ends_stamp_held (s : Store) (stamp : Nid) :
    Ends (Store.stamp stamp) s
      (fun fields t => s.Advances t ∧ t.spines.Reaches stamp ∧ ∃ payload history,
        t.spines.Holds stamp payload ∧ StampHistory.decode payload = .ok history ∧
          history.current = fields) fun _ _ => True := by
  have hhistory : Ends (stampHistory stamp) s
      (fun history t => s.Advances t ∧ t.spines.Reaches stamp ∧ ∃ payload,
        t.spines.Holds stamp payload ∧ StampHistory.decode payload = .ok history)
      fun _ _ => True := by
    apply ((ends_lookup_held s stamp).weaken fun _ _ h => h.elim).bind
    rintro payload? t ⟨hst, hfound⟩
    cases payload? with
    | none => exact ends_throw trivial
    | some payload =>
      obtain ⟨hheld, hreaches⟩ := hfound payload rfl
      exact ends_outcome (fun history hdecode => ⟨hst, hreaches, payload, hheld, hdecode⟩)
        fun _ _ => trivial
  apply hhistory.bind
  rintro history t ⟨hst, hreaches, payload, hheld, hdecode⟩
  exact ends_pure ⟨hst, hreaches, payload, history, hheld, hdecode, rfl⟩

private theorem ends_merge_held (s : Store) (nid : Nid) (payload : Bytes)
    (combine : Bytes → Bytes → Bytes) :
    Ends (tryOnSpines (SpineStore.merge nid payload combine)) s
      (fun next t => ∃ spines, t = { s with spines } ∧
        SpineStore.Merges s.spines nid payload combine next spines) fun _ _ => True := by
  apply ends_tryOnSpines
  cases hmerge : SpineStore.merge nid payload combine s.spines with
  | ok next spines => exact ends_of_ok hmerge ⟨spines, rfl, SpineStore.merges_of_ok hmerge⟩
  | error error spines => exact ends_of_error hmerge trivial

/-- Closed fields that are offered to a stamp settle it. -/
theorem ends_offerFields_held (s : Store) (stamp : Nid)
    (hfields : fields.isUncommitted = false) :
    Ends (offerFields stamp fields) s
      (fun current t => s.Advances t ∧ t.registry = s.registry ∧
        (¬ (current ≠ fields ∧ current.isCanceled = true) → t.Settles fields stamp))
      fun _ _ => True := by
  apply (ends_merge_held s stamp _ _).bind
  rintro next _ ⟨spines, rfl, hmerges⟩
  obtain ⟨existing?, hnext, hexisting⟩ := hmerges.next_eq
  apply ((ends_outcome_known (StampHistory.decode next) _).weaken fun _ _ _ => trivial).bind
  rintro history _ ⟨hdecode, rfl⟩
  have hoffered : StampHistory.decode (StampHistory.offered fields existing?) = .ok history := by
    rw [← hdecode, hnext]
    rfl
  obtain ⟨hclosed, hpreserves⟩ := StampHistory.preserves_offered hfields hoffered
  have hadvances : s.Advances { s with spines } := by
    apply advances_merges hmerges
    intro held hheld
    rw [hnext]
    exact hpreserves held (hexisting held hheld)
  refine ends_pure ⟨hadvances, rfl, fun hcurrent => ?_⟩
  refine ⟨?_, next, history, hmerges.holds, hdecode, hclosed, hcurrent⟩
  rw [hadvances.maxAttempts_eq]
  exact hmerges.attempts_pos

/-- Work that is not canceled is committed at any time that is not reserved. -/
theorem isCommitted_of_time (hstatus : fields.status ≠ .canceled)
    (htime : Time.isSentinel fields.time = false) : fields.isCommitted = true := by
  rw [Time.isSentinel, Bool.or_eq_false_iff] at htime
  simp [StampFields.isCommitted, StampFields.isCanceled, hstatus, htime.2, bne, htime.1]

/-- Committing fields leaves them committed under the UUID that follows from them. -/
theorem ends_commitStamp_held (hdedup : s.config.stampDedup = .committed)
    (hstatus : fields.status ≠ .canceled) (fresh : Uuid) :
    Ends (commitStamp fields fresh) s
      (fun stamp t => s.Advances t ∧ t.Commits fields stamp) fun _ _ => True := by
  rw [commitStamp]
  split
  · exact ends_throw_bind trivial
  · rename_i htime
    rw [Bool.not_eq_true] at htime
    have hcommitted := isCommitted_of_time hstatus htime
    have huuid : s.stampUuid fields fresh = fields.contentUuid := if_pos ⟨hdedup, hcommitted⟩
    change Ends (createStamp fields (s.stampUuid fields fresh)) s _ _
    rw [huuid]
    apply ((ends_outcome_known (PublicId.ofUuid fields.contentUuid) s).weaken
      fun _ _ _ => trivial).bind
    rintro id _ ⟨hofUuid, rfl⟩
    apply ((ends_resolve_registry s id).weaken fun _ _ _ => trivial).bind
    rintro stamp _ ⟨registry, hresolve, rfl⟩
    have hmapped := (Registry.resolves_of_resolve hresolve).nid?_single
      (Registry.uuids_of_ofUuid hofUuid)
    apply (ends_offerFields_held { s with registry } stamp
      (StampFields.isUncommitted_of_isCommitted hcommitted)).bind
    rintro current t ⟨hadvances, hregistry, hsettles⟩
    dsimp only
    split
    · exact ends_throw_bind trivial
    · rename_i hcurrent
      refine ends_pure ⟨(advances_resolve hresolve).trans hadvances, hsettles hcurrent, htime, ?_,
        id, hofUuid⟩
      rw [hregistry]
      exact hmapped

/-- A version under a settled stamp is appended, never put in place of another one. -/
theorem ends_appendVersion_held (nid : Nid) (kind : ComponentKind)
    (hlength : version.fields.length < UInt32.size) (h : s.Settles fields version.stamp) :
    Ends (appendVersion nid kind version) s
      (fun _ t => s.Advances t ∧ t.Confirms nid version) fun _ _ => True := by
  unfold appendVersion
  apply (ends_stamp_held s version.stamp).bind
  rintro current t ⟨hst, hreaches, payload, history, hheld, hdecode, rfl⟩
  have hclosed : history.current.isUncommitted = false := by
    obtain ⟨-, payload', history', hheld', hdecode', hclosed', -⟩ := h.advances hst
    obtain rfl := hheld.unique hheld'
    rw [hdecode] at hdecode'
    cases hdecode'
    exact hclosed'
  rw [hclosed]
  apply (ends_merge_held t nid _ _).bind
  rintro next _ ⟨spines, rfl, hmerges⟩
  obtain ⟨existing?, hnext, hexisting⟩ := hmerges.next_eq
  apply ((ends_outcome_known (Chronology.decode next) _).weaken fun _ _ _ => trivial).bind
  rintro c _ ⟨hchronology, rfl⟩
  have hadvances : t.Advances { t with spines } := by
    apply advances_merges hmerges
    intro held hheld
    rw [hexisting held hheld] at hnext
    rw [hnext] at hchronology ⊢
    exact Chronology.preserves_appended hlength hchronology
  split
  · exact ends_throw_bind trivial
  · rename_i hrecorded
    rw [Bool.not_eq_true', Bool.not_eq_false] at hrecorded
    exact ends_pure ⟨hst.trans hadvances, hadvances.reaches _ hreaches, next, c, hmerges.holds,
      hchronology, hrecorded⟩

/-- A record whose import would find everything again: its stamp, and its content under it. -/
structure Imported (s : Store) (record : ImportRecord) (stamp : Nid) : Prop where
  commits : s.Commits record.fields stamp
  confirms : s.Confirms record.component { stamp, fields := record.content }

/-- A record that was imported is so in every later store. -/
theorem Imported.advances {record : ImportRecord} (h : s.Imported record stamp)
    (hst : s.Advances t) : t.Imported record stamp :=
  ⟨h.commits.advances hst, h.confirms.advances hst⟩

/-- Imports a record, and answers its stamp. The UUID is one that nothing else has. -/
def importRecord (record : ImportRecord) (fresh : Uuid) : Action Nid := do
  let stamp ← commitStamp record.fields fresh
  let _ ← appendVersion record.component record.kind { stamp, fields := record.content }
  return stamp

/-- Imports some records one after another, each with a UUID that nothing else has. -/
def importAll : List (ImportRecord × Uuid) → Action (List Nid)
  | [] => return []
  | (record, fresh) :: imports => do
    let stamp ← importRecord record fresh
    let stamps ← importAll imports
    return stamp :: stamps

/-- A record that is not canceled, and whose content is counted in four bytes. Reserved times need
not be excluded, because no record with one is ever imported. -/
structure Importable (record : ImportRecord) : Prop where
  status_ne : record.fields.status ≠ .canceled
  length_lt : record.content.length < UInt32.size

instance (record : ImportRecord) : Decidable (Importable record) :=
  decidable_of_iff (record.fields.status ≠ .canceled ∧ record.content.length < UInt32.size)
    ⟨fun h => ⟨h.1, h.2⟩, fun h => ⟨h.status_ne, h.length_lt⟩⟩

/-- Importing a record loses nothing, and its import would find everything again. -/
theorem ends_importRecord {record : ImportRecord} (hdedup : s.config.stampDedup = .committed)
    (h : Importable record) (fresh : Uuid) :
    Ends (importRecord record fresh) s
      (fun stamp t => s.Advances t ∧ t.Imported record stamp) fun _ _ => True := by
  apply (ends_commitStamp_held hdedup h.status_ne fresh).bind
  rintro stamp t ⟨hst, hcommits⟩
  have happend : Ends (appendVersion record.component record.kind
      { stamp, fields := record.content }) t _ _ :=
    ends_appendVersion_held record.component record.kind h.length_lt hcommits.settles
  apply happend.bind
  rintro c u ⟨htu, hconfirms⟩
  exact ends_pure ⟨hst.trans htu, hcommits.advances htu, hconfirms⟩

/-- Importing records loses nothing, and their imports would find everything again. -/
theorem ends_importAll {imports : List (ImportRecord × Uuid)}
    (hdedup : s.config.stampDedup = .committed) (h : ∀ entry ∈ imports, Importable entry.1) :
    Ends (importAll imports) s (fun stamps t => s.Advances t ∧
      List.Forall₂ t.Imported (imports.map Prod.fst) stamps) fun _ _ => True := by
  induction imports generalizing s with
  | nil => exact ends_pure ⟨advances_refl s, .nil⟩
  | cons entry imports ih =>
    obtain ⟨record, fresh⟩ := entry
    rw [List.forall_mem_cons] at h
    apply (ends_importRecord hdedup h.1 fresh).bind
    rintro stamp t ⟨hst, himported⟩
    apply (ih (hst.config_eq ▸ hdedup) h.2).bind
    rintro stamps u ⟨htu, hrest⟩
    exact ends_pure ⟨hst.trans htu, .cons (himported.advances htu) hrest⟩

/-! ## Importing it again -/

/-- A store differs from another one in its spines only, and these hold the same payloads. -/
def SamePayloads (s t : Store) : Prop :=
  ∃ spines, t = { s with spines } ∧ s.spines.SamePayloads spines

private theorem samePayloads_refl (s : Store) : s.SamePayloads s :=
  ⟨s.spines, rfl, .refl s.spines⟩

private theorem SamePayloads.trans (h : s.SamePayloads t) (h' : t.SamePayloads u) :
    s.SamePayloads u := by
  obtain ⟨spines, rfl, hsame⟩ := h
  obtain ⟨spines', rfl, hsame'⟩ := h'
  exact ⟨spines', rfl, hsame.trans hsame'⟩

private theorem SamePayloads.advances (h : s.SamePayloads t) : s.Advances t := by
  obtain ⟨spines, rfl, hsame⟩ := h
  exact { advances_refl s with
    maxAttempts_eq := hsame.maxAttempts_eq
    reaches := fun _ => hsame.reaches
    holds := fun _ payload hheld => ⟨payload, hsame.holds hheld, preserves_refl payload⟩ }

/-- A merge that adds nothing changes no payload. -/
theorem ends_merge_same {payload held : Bytes} {combine : Bytes → Bytes → Bytes}
    (h : s.spines.Holds nid held) (hattempts : 0 < s.spines.maxAttempts)
    (hcombine : combine held payload = held) :
    Ends (tryOnSpines (SpineStore.merge nid payload combine)) s
      (fun next t => next = held ∧ s.SamePayloads t) fun _ _ => False := by
  obtain ⟨spines, hmerge, hsame⟩ := h.exists_merge hattempts hcombine
  exact ends_tryOnSpines (ends_of_ok hmerge ⟨rfl, spines, rfl, hsame⟩)

/-- Fields that are settled are offered without a change. -/
theorem Settles.ends_offerFields (h : s.Settles fields stamp) :
    Ends (offerFields stamp fields) s
      (fun current t => ¬ (current ≠ fields ∧ current.isCanceled = true) ∧ s.SamePayloads t)
      fun _ _ => False := by
  obtain ⟨hattempts, payload, history, hheld, hdecode, hclosed, hcurrent⟩ := h
  have hkept : StampHistory.mergePayload payload (StampHistory.start fields).encode = payload := by
    rw [StampHistory.mergePayload_start hdecode, StampHistory.push_of_closed hclosed, if_pos rfl]
  apply (ends_merge_same hheld hattempts hkept).bind
  rintro next t ⟨rfl, hst⟩
  apply (ends_outcome_of_ok hdecode t).bind
  rintro _ _ ⟨rfl, rfl⟩
  exact ends_pure ⟨hcurrent, hst⟩

/-- Committing a stamp that is there answers it and changes no payload. -/
theorem Commits.ends_commitStamp (h : s.Commits fields stamp)
    (hdedup : s.config.stampDedup = .committed) (hstatus : fields.status ≠ .canceled)
    (fresh : Uuid) :
    Ends (commitStamp fields fresh) s (fun found t => found = stamp ∧ s.SamePayloads t)
      fun _ _ => False := by
  have huuid : s.stampUuid fields fresh = fields.contentUuid :=
    if_pos ⟨hdedup, isCommitted_of_time hstatus h.time⟩
  obtain ⟨id, hofUuid⟩ := h.named
  have hresolve := Registry.resolve_of_nid? (Registry.uuids_of_ofUuid hofUuid) h.mapped
  rw [commitStamp, if_neg (by rw [h.time]; exact Bool.false_ne_true)]
  change Ends (createStamp fields (s.stampUuid fields fresh)) s _ _
  rw [huuid, createStamp, hofUuid]
  have hresolved : Ends (resolve id) s (fun found t => found = stamp ∧ s = t)
      fun _ _ => False := by
    simp only [Ends, resolve, hresolve]
    trivial
  apply hresolved.bind
  rintro _ _ ⟨rfl, rfl⟩
  apply h.settles.ends_offerFields.bind
  rintro current t ⟨hcurrent, hst⟩
  dsimp only
  rw [if_neg hcurrent]
  exact ends_pure ⟨rfl, hst⟩

/-- A settled stamp that is reached is answered from memory. -/
theorem Settles.ends_stamp (h : s.Settles fields stamp) (hreaches : s.spines.Reaches stamp) :
    Ends (Store.stamp stamp) s (fun current t => current.isUncommitted = false ∧ s = t)
      fun _ _ => False := by
  obtain ⟨-, payload, history, hheld, hdecode, hclosed, -⟩ := h
  have hlookup : onSpines (SpineStore.lookup stamp) s = (some payload, s) := by
    simp only [onSpines, hheld.lookup hreaches]
  have hfound : Ends (infallible (onSpines (SpineStore.lookup stamp))) s
      (fun payload? t => payload? = some payload ∧ s = t) fun _ _ => False :=
    ends_infallible (by rw [hlookup]; exact ⟨rfl, rfl⟩)
  have hhistory : Ends (stampHistory stamp) s (fun found t => found = history ∧ s = t)
      fun _ _ => False := by
    apply hfound.bind
    rintro _ _ ⟨rfl, rfl⟩
    exact ends_outcome_of_ok hdecode s
  apply hhistory.bind
  rintro _ _ ⟨rfl, rfl⟩
  exact ends_pure ⟨hclosed, rfl⟩

/-- Appending a version that is recorded changes no payload. -/
theorem Confirms.ends_appendVersion (h : s.Confirms nid version) (kind : ComponentKind)
    (hlength : version.fields.length < UInt32.size) (hsettles : s.Settles fields version.stamp) :
    Ends (appendVersion nid kind version) s (fun _ t => s.SamePayloads t) fun _ _ => False := by
  obtain ⟨hreaches, payload, c, hheld, hdecode, hrecords⟩ := h
  have hkept : Chronology.mergePayload false payload
      (Chronology.start nid kind version).encode = payload := by
    simp only [records, decide_eq_true_eq, Option.map_eq_some_iff] at hrecords
    obtain ⟨hnid, found, hfound, -⟩ := hrecords
    rw [Chronology.mergePayload_start hdecode hnid hlength,
      Chronology.append_of_recorded (by rw [hfound]; rfl)]
    exact (Chronology.exact_read.decode_eq_ok_iff.mp hdecode).2.symm
  unfold appendVersion
  apply (hsettles.ends_stamp hreaches).bind
  rintro current _ ⟨hclosed, rfl⟩
  rw [hclosed]
  apply (ends_merge_same hheld hsettles.attempts_pos hkept).bind
  rintro next t ⟨rfl, hst⟩
  apply (ends_outcome_of_ok hdecode t).bind
  rintro _ _ ⟨rfl, rfl⟩
  rw [if_neg (by rw [hrecords]; exact Bool.false_ne_true)]
  exact ends_pure hst

/-- Importing a record again answers its stamp and changes no payload. -/
theorem Imported.ends_importRecord {record : ImportRecord} (h : s.Imported record stamp)
    (hdedup : s.config.stampDedup = .committed) (hrecord : Importable record) (fresh : Uuid) :
    Ends (importRecord record fresh) s (fun found t => found = stamp ∧ s.SamePayloads t)
      fun _ _ => False := by
  apply (h.commits.ends_commitStamp hdedup hrecord.status_ne fresh).bind
  rintro _ t ⟨rfl, hst⟩
  have hthere := h.advances hst.advances
  apply (hthere.confirms.ends_appendVersion record.kind hrecord.length_lt
    hthere.commits.settles).bind
  rintro c u htu
  exact ends_pure ⟨rfl, hst.trans htu⟩

/-- Importing records again answers their stamps and changes no payload. -/
theorem ends_importAll_again {imports : List (ImportRecord × Uuid)} {stamps : List Nid}
    (hdedup : s.config.stampDedup = .committed) (hrecords : ∀ entry ∈ imports, Importable entry.1)
    (h : List.Forall₂ s.Imported (imports.map Prod.fst) stamps) :
    Ends (importAll imports) s (fun found t => found = stamps ∧ s.SamePayloads t)
      fun _ _ => False := by
  induction imports generalizing s stamps with
  | nil =>
    cases h
    exact ends_pure ⟨rfl, samePayloads_refl s⟩
  | cons entry imports ih =>
    obtain ⟨record, fresh⟩ := entry
    rw [List.forall_mem_cons] at hrecords
    cases h with
    | cons himported hrest =>
      apply (himported.ends_importRecord hdedup hrecords.1 fresh).bind
      rintro _ t ⟨rfl, hst⟩
      have hadvances := hst.advances
      apply (ih (hadvances.config_eq ▸ hdedup) hrecords.2
        (hrest.imp fun _ _ hthere => hthere.advances hadvances)).bind
      rintro _ u ⟨rfl, htu⟩
      exact ends_pure ⟨rfl, hst.trans htu⟩

/-- **Importing again changes nothing.** If equal committed stamps share one nid and a list of
records could be imported, then it can be imported again, whatever UUIDs are at hand this time. The
same stamps are answered, and nothing else in the store changes than spines in memory, the payloads
of which stay as they are: no nid is handed out, no UUID is mapped, nothing is read and nothing
written, and every look-up finds the same bytes. -/
theorem import_idempotent {imports again : List (ImportRecord × Uuid)} {stamps : List Nid}
    (hdedup : s.config.stampDedup = .committed) (hrecords : ∀ entry ∈ imports, Importable entry.1)
    (himport : importAll imports s = .ok stamps t)
    (hagain : again.map Prod.fst = imports.map Prod.fst) :
    ∃ u, importAll again t = .ok stamps u ∧ u.registry = t.registry ∧ t.SamePayloads u ∧
      ∀ nid, (SpineStore.lookup nid u.spines).1 = (SpineStore.lookup nid t.spines).1 := by
  obtain ⟨hst, himported⟩ := (ends_importAll hdedup hrecords).of_ok himport
  have hrecords' : ∀ entry ∈ again, Importable entry.1 := by
    intro entry hentry
    obtain ⟨other, hother, heq⟩ := List.mem_map.mp (hagain ▸ List.mem_map_of_mem hentry)
    exact heq ▸ hrecords other hother
  obtain ⟨_, u, hrun, rfl, hsame⟩ :=
    (ends_importAll_again (hst.config_eq ▸ hdedup) hrecords' (hagain ▸ himported)).exists_ok
  obtain ⟨spines, rfl, hpayloads⟩ := hsame
  exact ⟨_, hrun, rfl, ⟨spines, rfl, hpayloads⟩, hpayloads.lookup⟩

/-- Three records of one change, the last of which repeats the first, share a stamp. -/
theorem import_idempotent_repeated :
    ∃ (s t u : Store) (imports again : List (ImportRecord × Uuid)) (stamp : Nid),
      s.config.stampDedup = .committed ∧ (∀ entry ∈ imports, Importable entry.1) ∧
      importAll imports s = .ok [stamp, stamp, stamp] t ∧
      again.map Prod.fst = imports.map Prod.fst ∧ (∀ entry ∈ again, entry ∉ imports) ∧
      importAll again t = .ok [stamp, stamp, stamp] u ∧ u.registry = t.registry ∧
      t.SamePayloads u ∧
      ∀ nid, (SpineStore.lookup nid u.spines).1 = (SpineStore.lookup nid t.spines).1 := by
  let nid (n : Int32) : Nid := ⟨Nid.first.raw + n⟩
  let fields : StampFields :=
    { status := .active, time := 5, author := nid 7, module := nid 8, path := nid 9 }
  let first : ImportRecord := { fields, component := nid 4, kind := .concept, content := [1] }
  let second : ImportRecord := { fields, component := nid 5, kind := .pattern, content := [2, 3] }
  let imports : List (ImportRecord × Uuid) := [(first, ⟨1⟩), (second, ⟨2⟩), (first, ⟨3⟩)]
  let again : List (ImportRecord × Uuid) := [(first, ⟨4⟩), (second, ⟨5⟩), (first, ⟨6⟩)]
  let s : Store :=
    { rooted := false, config := { spineSize := 4, stampDedup := .committed }, registry := .empty
      paths := .empty, spines := SpineStore.ofMedium Medium.inMemory 4 1 1, pool := {} }
  have hrecords : ∀ entry ∈ imports, Importable entry.1 := by decide
  have hanswer : (attempt (importAll imports) s).1.toOption =
      some [Nid.first, Nid.first, Nid.first] := by
    decide +kernel
  cases hrun : importAll imports s with
  | error error t =>
    rw [attempt, hrun] at hanswer
    cases hanswer
  | ok stamps t =>
    rw [attempt, hrun] at hanswer
    obtain rfl := Option.some.inj hanswer
    have hsame : again.map Prod.fst = imports.map Prod.fst := rfl
    obtain ⟨u, hagain⟩ := import_idempotent rfl hrecords hrun hsame
    exact ⟨s, t, u, imports, again, Nid.first, rfl, hrecords, hrun, hsame, by decide, hagain⟩

end Store

end Chronicle
