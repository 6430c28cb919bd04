import Chronicle.Proofs.Calculator.Found
import Chronicle.Proofs.Component.Chronology
import Chronicle.Proofs.Store.StampActions
import Chronicle.Store.Views

/-!
# The order of appends

Versions of distinct committed stamps can be appended to a component in any order. What becomes of
each of them is decided by what was recorded under its stamp before all of them: a version under a
new stamp is recorded, one that is recorded already is confirmed, and one that says something else
is rejected. So the record holds the same versions in the end, and every view sees the same.
-/

namespace Chronicle

open Chronology (Fits StoredAs offered offeredAll recordedFor recordedOf verdict)

variable {content content' : Nid → Option Bytes} {nid : Nid} {kind : ComponentKind}
  {version : Version} {versions versions' : List Version} {recorded? : Option Chronology}

namespace Store

variable {s t : Store}

/-- A store differs from another one in its spines only, and these are steady. -/
def Showing (s : Store) (content : Nid → Option Bytes) (t : Store) : Prop :=
  ∃ spines, t = { s with spines } ∧ spines.Steady content

private theorem Showing.steady (h : s.Showing content t) : t.spines.Steady content := by
  obtain ⟨spines, rfl, hsteady⟩ := h
  exact hsteady

private theorem Showing.trans {u : Store} (h : s.Showing content t) (h' : t.Showing content' u) :
    s.Showing content' u := by
  obtain ⟨spines, rfl, -⟩ := h
  obtain ⟨spines', rfl, hsteady⟩ := h'
  exact ⟨spines', rfl, hsteady⟩

/-! ## One append -/

/-- Over a steady store a look-up finds what is shown. -/
theorem ends_lookup_showing (h : s.spines.Steady content) (nid : Nid) :
    Ends (infallible (onSpines (SpineStore.lookup nid))) s
      (fun payload? t => payload? = content nid ∧ s.Showing content t) fun _ _ => False := by
  obtain ⟨spines, hlookup, hsteady⟩ := h.lookup nid
  have hrun : onSpines (SpineStore.lookup nid) s = (content nid, { s with spines }) := by
    simp only [onSpines, hlookup]
  apply ends_infallible
  rw [hrun]
  exact ⟨rfl, spines, rfl, hsteady⟩

/-- A stamp that is stored is answered. -/
theorem ends_stamp_showing {stamp : Nid} {fields : StampFields} (h : s.spines.Steady content)
    (hstored : StampFields.storedIn? content stamp = some fields) :
    Ends (Store.stamp stamp) s (fun found t => found = fields ∧ s.Showing content t)
      fun _ _ => False := by
  obtain ⟨history, hhistory, rfl⟩ := Option.map_eq_some_iff.mp hstored
  obtain ⟨payload, hpayload, hdecode⟩ := exists_of_storedIn? hhistory
  have hread : Ends (stampHistory stamp) s (fun found t => found = history ∧ s.Showing content t)
      fun _ _ => False := by
    apply (ends_lookup_showing h stamp).bind
    rintro payload? t ⟨rfl, ht⟩
    rw [hpayload]
    apply ends_outcome
    · intro found hfound
      rw [hdecode] at hfound
      cases hfound
      exact ⟨rfl, ht⟩
    · intro error herror
      rw [hdecode] at herror
      cases herror
  apply hread.bind
  rintro found t ⟨rfl, ht⟩
  exact ends_pure ⟨rfl, ht⟩

/-- Over a steady store a merge shows what it installs. -/
theorem ends_merge_showing (h : s.spines.Steady content) (hnid : Nid.first.raw ≤ nid.raw)
    (payload : Bytes) (combine : Bytes → Bytes → Bytes) :
    Ends (tryOnSpines (SpineStore.merge nid payload combine)) s
      (fun next t => next = SpineStore.merged combine payload (content nid) ∧
        s.Showing (replaced content nid next) t) fun _ _ => False := by
  apply ends_tryOnSpines
  cases hplace : s.spines.place? nid with
  | none =>
    rw [SpineStore.place?_eq_none_iff] at hplace
    exact absurd hplace (Int32.not_lt.mpr hnid)
  | some place =>
    obtain ⟨after, hattempt, hsteady⟩ := h.merge hplace payload combine
    exact ends_of_ok (eq_of_attempt_ok hattempt) ⟨rfl, after, rfl, hsteady⟩

/-- What a merge leaves of a component is what is offered to it. -/
theorem merged_start (hslot : StoredAs content nid recorded?)
    (hlength : version.fields.length < UInt32.size) :
    SpineStore.merged (Chronology.mergePayload false)
        (Chronology.start nid kind version).encode (content nid) =
      (offered nid kind version recorded?).encode := by
  cases recorded? with
  | none =>
    rw [show content nid = none from hslot]
    rfl
  | some c =>
    obtain ⟨hnid, payload, hpayload, hdecode⟩ := hslot
    rw [hpayload]
    exact Chronology.mergePayload_start hdecode hnid hlength

/-- What becomes of an offered version is stored as it should be. -/
theorem storedAs_offered (hslot : StoredAs content nid recorded?)
    (hfits : (offered nid kind version recorded?).Fits) :
    StoredAs (replaced content nid (offered nid kind version recorded?).encode) nid
      (some (offered nid kind version recorded?)) := by
  refine ⟨?_, _, if_pos rfl, Chronology.decode_encode hfits⟩
  cases recorded? with
  | none => rfl
  | some c => exact (Chronology.nid_append c version).trans hslot.1

/-- Whether a version is recorded in the end is decided by what was recorded before. -/
theorem records_offered (hnid : (offered nid kind version recorded?).nid = nid) :
    verdict nid recorded? version =
      if records (offered nid kind version recorded?) nid version then .ok ()
      else .error (.versionRejected nid version.stamp) := by
  have hfound := Chronology.recordedFor_offered nid kind version recorded? version.stamp
  change Chronology.version? _ version.stamp = _ at hfound
  rw [verdict, records, hnid, hfound]
  cases recordedFor recorded? version.stamp with
  | none => simp
  | some found => simp

/-- Appending a version under a committed stamp to a component for which nothing else is stored. -/
theorem ends_appendVersion_committed {fields : StampFields} (h : s.spines.Steady content)
    (hslot : StoredAs content nid recorded?) (hnid : Nid.first.raw ≤ nid.raw)
    (hstored : StampFields.storedIn? content version.stamp = some fields)
    (hcommitted : fields.isUncommitted = false)
    (hlength : version.fields.length < UInt32.size)
    (hfits : (offered nid kind version recorded?).Fits) :
    Ends (appendVersion nid kind version) s
      (fun _ t => verdict nid recorded? version = .ok () ∧
        s.Showing (replaced content nid (offered nid kind version recorded?).encode) t)
      fun error t => verdict nid recorded? version = .error error ∧
        s.Showing (replaced content nid (offered nid kind version recorded?).encode) t := by
  have hafter := storedAs_offered hslot hfits
  have hverdict : verdict nid recorded? version = _ := records_offered hafter.1
  unfold appendVersion
  apply ((ends_stamp_showing h hstored).mono (fun _ _ h => h) (fun _ _ h => h.elim)).bind
  rintro found t ⟨rfl, ht⟩
  rw [hcommitted]
  apply ((ends_merge_showing ht.steady hnid _ _).mono (fun _ _ h => h) (fun _ _ h => h.elim)).bind
  rintro stored u ⟨hmerged, hu⟩
  rw [merged_start hslot hlength] at hmerged
  subst hmerged
  have hshowing := ht.trans hu
  have hdecoded := ends_outcome_of_ok (Chronology.decode_encode hfits) u
  apply (hdecoded.weaken fun _ _ h => h.elim).bind
  rintro c _ ⟨rfl, rfl⟩
  split
  · rename_i hrejected
    rw [Bool.not_eq_true'] at hrejected
    rw [hrejected] at hverdict
    exact ends_throw_bind ⟨hverdict, hshowing⟩
  · rename_i hrecorded
    rw [Bool.not_eq_true', Bool.not_eq_false] at hrecorded
    rw [hrecorded] at hverdict
    exact ends_pure ⟨hverdict, hshowing⟩

/-- Below the first nid there is no place for a component. -/
theorem ends_appendVersion_below {fields : StampFields} (h : s.spines.Steady content)
    (hnid : nid.raw < Nid.first.raw)
    (hstored : StampFields.storedIn? content version.stamp = some fields) :
    Ends (appendVersion nid kind version) s (fun _ _ => False)
      fun error t => error = .notFound (.nid nid) ∧ s.Showing content t := by
  unfold appendVersion
  apply ((ends_stamp_showing h hstored).mono (fun _ _ h => h) (fun _ _ h => h.elim)).bind
  rintro found t ⟨-, ht⟩
  have hplace : t.spines.place? nid = none := SpineStore.place?_eq_none_iff.mpr hnid
  have hmerge (payload : Bytes) (combine : Bytes → Bytes → Bytes) :
      Ends (tryOnSpines (SpineStore.merge nid payload combine)) t (fun _ _ => False)
        fun error u => error = .notFound (.nid nid) ∧ s.Showing content u := by
    apply ends_tryOnSpines
    exact ends_of_error
      (eq_of_attempt_error (SpineStore.attempt_merge_of_none hplace payload combine)) ⟨rfl, ht⟩
  apply (hmerge _ _).bind
  rintro stored u hnever
  exact hnever.elim

/-! ## Some appends -/

/-- Appends some versions one after another, and notes what becomes of each. -/
def appendAll (nid : Nid) (kind : ComponentKind) :
    List Version → StateM Store (List (Version × Except StoreError Unit))
  | [] => return []
  | version :: versions => do
    let answer ← attempt (appendVersion nid kind version)
    let rest ← appendAll nid kind versions
    return (version, answer.map fun _ => ()) :: rest

private theorem appendAll_cons (s : Store) :
    appendAll nid kind (version :: versions) s =
      let (answer, t) := attempt (appendVersion nid kind version) s
      let (rest, u) := appendAll nid kind versions t
      ((version, answer.map fun _ => ()) :: rest, u) :=
  rfl

/-- What it takes for versions to be appended: nothing but a chronology of distinct stamps is stored
for the component, the stamps of the versions are distinct and not open, four bytes count the bytes
of each, and some nid is the stamp of none. -/
structure Appendable (content : Nid → Option Bytes) (nid : Nid) (recorded? : Option Chronology)
    (versions : List Version) : Prop where
  slot : StoredAs content nid recorded?
  recorded : ((recordedOf recorded?).map Version.stamp).Nodup
  stamped : ∀ v ∈ versions, ∃ fields, StampFields.storedIn? content v.stamp = some fields ∧
    fields.isUncommitted = false
  stamps : (versions.map Version.stamp).Nodup
  lengths : ∀ v ∈ versions, v.fields.length < UInt32.size
  room : ∃ stamp, stamp ∉ (recordedOf recorded? ++ versions).map Version.stamp

/-- No stamp is stored for a component. -/
theorem storedIn?_of_storedAs (h : StoredAs content nid recorded?) :
    StampHistory.storedIn? content nid = none := by
  unfold StampHistory.storedIn?
  cases recorded? with
  | none =>
    rw [show content nid = none from h]
    rfl
  | some c =>
    obtain ⟨-, payload, hpayload, hdecode⟩ := h
    rw [hpayload, Option.bind_some]
    exact StampHistory.not_decode_of_head? (Chronology.head?_of_decode hdecode) (by decide)

/-- The first of some versions that can be appended fits. -/
theorem Appendable.fits (h : Appendable content nid recorded? (version :: versions)) :
    (offered nid kind version recorded?).Fits := by
  obtain ⟨stamp, hroom⟩ := h.room
  simp only [List.map_append, List.map_cons, List.mem_append, List.mem_cons, not_or] at hroom
  refine Chronology.fits_offered ?_ (h.lengths version List.mem_cons_self) h.recorded hroom.1
    hroom.2.1
  rintro c rfl
  obtain ⟨-, payload, -, hdecode⟩ := h.slot
  exact Chronology.fits_of_decode hdecode

/-- After the first version the others can be appended still. -/
theorem Appendable.next (h : Appendable content nid recorded? (version :: versions)) :
    Appendable (replaced content nid (offered nid kind version recorded?).encode) nid
      (some (offered nid kind version recorded?)) versions where
  slot := storedAs_offered h.slot h.fits
  recorded := Chronology.nodup_offered h.recorded
  stamped v hv := by
    obtain ⟨fields, hstored, hclosed⟩ := h.stamped v (List.mem_cons_of_mem version hv)
    have hne : v.stamp ≠ nid := by
      intro heq
      rw [StampFields.storedIn?, heq, storedIn?_of_storedAs h.slot] at hstored
      cases hstored
    refine ⟨fields, ?_, hclosed⟩
    rw [StampFields.storedIn?, storedIn?_replaced, if_neg hne]
    exact hstored
  stamps := (List.nodup_cons.mp h.stamps).2
  lengths v hv := h.lengths v (List.mem_cons_of_mem version hv)
  room := by
    obtain ⟨stamp, hroom⟩ := h.room
    refine ⟨stamp, fun hmem => hroom ?_⟩
    obtain ⟨v, hv, rfl⟩ := List.mem_map.mp hmem
    apply List.mem_map_of_mem
    rcases List.mem_append.mp hv with hrecorded | hlater
    · rcases Chronology.mem_recordedOf_offered hrecorded with hold | rfl
      · exact List.mem_append_left _ hold
      · exact List.mem_append_right _ List.mem_cons_self
    · exact List.mem_append_right _ (List.mem_cons_of_mem version hlater)

/-- Versions can be appended in any order. -/
theorem Appendable.perm (h : Appendable content nid recorded? versions)
    (hperm : versions.Perm versions') : Appendable content nid recorded? versions' where
  slot := h.slot
  recorded := h.recorded
  stamped v hv := h.stamped v (hperm.mem_iff.mpr hv)
  stamps := (hperm.map _).nodup_iff.mp h.stamps
  lengths v hv := h.lengths v (hperm.mem_iff.mpr hv)
  room := by
    obtain ⟨stamp, hroom⟩ := h.room
    exact ⟨stamp, fun hmem => hroom (((hperm.append_left _).map _).mem_iff.mpr hmem)⟩

/-- What becomes of versions that are appended, and what is stored in the end. -/
theorem appendAll_eq (kind : ComponentKind) (hs : s.spines.Steady content)
    (hnid : Nid.first.raw ≤ nid.raw) (h : Appendable content nid recorded? versions) :
    ∃ content' t, appendAll nid kind versions s =
        (versions.map fun v => (v, verdict nid recorded? v), t) ∧
      s.Showing content' t ∧ StoredAs content' nid (offeredAll nid kind recorded? versions) ∧
      ∀ other, other ≠ nid → content' other = content other := by
  induction versions generalizing s content recorded? with
  | nil => exact ⟨content, s, rfl, ⟨s.spines, rfl, hs⟩, h.slot, fun _ _ => rfl⟩
  | cons version rest ih =>
    obtain ⟨fields, hstored, hclosed⟩ := h.stamped version List.mem_cons_self
    have hlength := h.lengths version List.mem_cons_self
    have hfits : (offered nid kind version recorded?).Fits := h.fits
    have hends := ends_appendVersion_committed hs h.slot hnid hstored hclosed hlength hfits
    obtain ⟨answer, t, hrun, hanswer, ht⟩ : ∃ answer t,
        attempt (appendVersion nid kind version) s = (answer, t) ∧
          answer.map (fun _ => ()) = verdict nid recorded? version ∧
          s.Showing (replaced content nid (offered nid kind version recorded?).encode) t := by
      cases hx : appendVersion nid kind version s with
      | ok c t =>
        obtain ⟨hverdict, ht⟩ := hends.of_ok hx
        exact ⟨.ok c, t, by rw [attempt, hx], hverdict.symm, ht⟩
      | error error t =>
        obtain ⟨hverdict, ht⟩ := hends.of_error hx
        exact ⟨.error error, t, by rw [attempt, hx], hverdict.symm, ht⟩
    obtain ⟨content', u, hrest, hu, hslot, hkept⟩ := ih ht.steady h.next
    refine ⟨content', u, ?_, ht.trans hu, hslot, fun other hother => ?_⟩
    · have hverdicts : (rest.map fun v =>
          (v, verdict nid (some (offered nid kind version recorded?)) v)) =
          rest.map fun v => (v, verdict nid recorded? v) := by
        apply List.map_congr_left
        intro v hv
        have hne : version.stamp ≠ v.stamp := by
          intro heq
          have hstamps := (List.nodup_cons.mp h.stamps).1
          exact hstamps (heq ▸ List.mem_map_of_mem hv)
        rw [Chronology.verdict_offered hne]
      rw [appendAll_cons, hrun]
      simp only [hrest, hanswer, hverdicts, List.map_cons]
    · rw [hkept other hother, replaced, if_neg hother]

/-- Below the first nid every version is refused. -/
theorem appendAll_below (kind : ComponentKind) (hs : s.spines.Steady content)
    (hnid : nid.raw < Nid.first.raw)
    (hstamped : ∀ v ∈ versions, ∃ fields, StampFields.storedIn? content v.stamp = some fields) :
    ∃ t, appendAll nid kind versions s =
        (versions.map fun v => (v, .error (.notFound (.nid nid))), t) ∧ s.Showing content t := by
  induction versions generalizing s with
  | nil => exact ⟨s, rfl, s.spines, rfl, hs⟩
  | cons version rest ih =>
    obtain ⟨fields, hstored⟩ := hstamped version List.mem_cons_self
    have hends : Ends (appendVersion nid kind version) s _ _ :=
      ends_appendVersion_below hs hnid hstored
    cases hx : appendVersion nid kind version s with
    | ok c t => exact (hends.of_ok hx).elim
    | error error t =>
      obtain ⟨rfl, ht⟩ := hends.of_error hx
      obtain ⟨u, hrest, hu⟩ := ih ht.steady fun v hv => hstamped v (List.mem_cons_of_mem version hv)
      refine ⟨u, ?_, ht.trans hu⟩
      rw [appendAll_cons, attempt, hx]
      simp only [hrest]
      rfl

/-! ## What is seen afterwards -/

/-- The state in which the calculator of a coordinate is asked. -/
def handed (s : Store) (coordinate : Coordinate) : Calculator :=
  (calculator coordinate s).2.pool.get (calculator coordinate s).1 (calculator coordinate s).2.scene

/-- What a coordinate is answered follows from its calculator and from what the store shows. -/
theorem latest_showing (ht : s.Showing content t) (coordinate : Coordinate) (component : Nid) :
    (latest coordinate component t).1 =
      (content component).elim .absent
        (((s.handed coordinate).refreshed (calculator coordinate s).2.scene).view
          content).latestIn := by
  obtain ⟨spines, rfl, hsteady⟩ := ht
  obtain ⟨c, spines', hrun, -⟩ :=
    Calculator.answers_latest_found (calculator coordinate s).2.scene (s.handed coordinate) content
      component _ spines ⟨rfl, hsteady.shows⟩
  exact congrArg (fun result => result.1.1) hrun

/-- The versions of a component for which nothing but a chronology may be stored. -/
theorem versionsOf_of_storedAs (h : StoredAs content nid recorded?) :
    Chronology.versionsOf (content nid) = recordedOf recorded? := by
  cases recorded? with
  | none =>
    rw [show content nid = none from h]
    rfl
  | some c =>
    obtain ⟨-, payload, hpayload, hdecode⟩ := h
    rw [hpayload, Chronology.versionsOf_of_decode hdecode]
    rfl

/-- Stores that show the same but for the order of one record answer the same. -/
theorem latest_reordered {t' : Store} {recorded?' : Option Chronology} (ht : s.Showing content t)
    (ht' : s.Showing content' t') (hslot : StoredAs content nid recorded?)
    (hslot' : StoredAs content' nid recorded?')
    (hkept : ∀ other, other ≠ nid → content' other = content other)
    (hperm : (recordedOf recorded?).Perm (recordedOf recorded?'))
    (hstamps : ((recordedOf recorded?).map Version.stamp).Nodup)
    (coordinate : Coordinate) (component : Nid) :
    (latest coordinate component t).1 = (latest coordinate component t').1 := by
  rw [latest_showing ht, latest_showing ht']
  generalize (s.handed coordinate).refreshed (calculator coordinate s).2.scene = c
  have hstored (stamp : Nid) :
      StampFields.storedIn? content' stamp = StampFields.storedIn? content stamp := by
    unfold StampFields.storedIn?
    by_cases hstamp : stamp = nid
    · rw [hstamp, storedIn?_of_storedAs hslot, storedIn?_of_storedAs hslot']
    · rw [StampHistory.storedIn?, StampHistory.storedIn?, hkept stamp hstamp]
  have hview : c.view content' = c.view content := by
    unfold Calculator.view Calculator.foundIn?
    simp only [hstored]
  rw [hview, View.elim_latestIn, View.elim_latestIn]
  by_cases hcomponent : component = nid
  · rw [hcomponent, versionsOf_of_storedAs hslot, versionsOf_of_storedAs hslot']
    exact View.latest_perm _ hperm hstamps
  · rw [hkept component hcomponent]

/-- The chronology that is stored for a component. -/
theorem attempt_chronology_some {c : Chronology} (ht : s.Showing content t)
    (hslot : StoredAs content nid (some c)) : (attempt (chronology nid) t).1 = .ok c := by
  obtain ⟨-, payload, hpayload, hdecode⟩ := hslot
  have hends : Ends (chronology nid) t (fun found _ => found = c) fun _ _ => False := by
    apply (ends_lookup_showing ht.steady nid).bind
    rintro payload? u ⟨rfl, -⟩
    rw [hpayload]
    apply ends_outcome
    · intro found hfound
      exact Except.ok.inj (hfound.symm.trans hdecode)
    · intro error herror
      rw [hdecode] at herror
      cases herror
  cases hx : chronology nid t with
  | ok found u => rw [attempt, hx, hends.of_ok hx]
  | error error u => exact (hends.of_error hx).elim

private theorem attempt_chronology_none (ht : s.Showing content t) (hnone : content nid = none) :
    (attempt (chronology nid) t).1 = .error (.notFound (.nid nid)) := by
  have hends : Ends (chronology nid) t (fun _ _ => False)
      fun error _ => error = .notFound (.nid nid) := by
    apply ((ends_lookup_showing ht.steady nid).mono (fun _ _ h => h) (fun _ _ h => h.elim)).bind
    rintro payload? u ⟨rfl, -⟩
    rw [hnone]
    exact ends_throw rfl
  cases hx : chronology nid t with
  | ok found u => exact (hends.of_ok hx).elim
  | error error u => rw [attempt, hx, hends.of_error hx]

/-- Two ways of appending versions to a component come to the same: the same becomes of every
version, the same versions are recorded, each that was accepted exactly once, and every coordinate
is answered the same. -/
structure SameAppends (nid : Nid)
    (first second : List (Version × Except StoreError Unit) × Store) : Prop where
  verdicts : first.1.Perm second.1
  record : (∃ error, (attempt (chronology nid) first.2).1 = .error error ∧
      (attempt (chronology nid) second.2).1 = .error error ∧ ∀ v, (v, .ok ()) ∉ first.1) ∨
    ∃ c c', (attempt (chronology nid) first.2).1 = .ok c ∧
      (attempt (chronology nid) second.2).1 = .ok c' ∧ c.nid = nid ∧ c'.nid = nid ∧
      c'.kind = c.kind ∧ c.versions.Perm c'.versions ∧ (c.versions.map Version.stamp).Nodup ∧
      ∀ v, (v, .ok ()) ∈ first.1 → c.versions.count v = 1 ∧ c'.versions.count v = 1
  answers : ∀ coordinate component,
    (latest coordinate component first.2).1 = (latest coordinate component second.2).1

/-- Below the first nid, all appends fail alike. -/
theorem sameAppends_below (kind : ComponentKind) (hs : s.spines.Steady content)
    (hnid : nid.raw < Nid.first.raw)
    (hstamped : ∀ v ∈ versions, ∃ fields, StampFields.storedIn? content v.stamp = some fields)
    (hperm : versions.Perm versions') :
    SameAppends nid (appendAll nid kind versions s) (appendAll nid kind versions' s) := by
  have hnone : content nid = none := by
    rw [← hs.shows [] nid]
    simp only [SpineStore.afterLookups, List.foldl_nil, SpineStore.lookup,
      SpineStore.place?_eq_none_iff.mpr hnid]
  obtain ⟨t, hfirst, ht⟩ := appendAll_below kind hs hnid hstamped
  obtain ⟨t', hsecond, ht'⟩ := appendAll_below kind hs hnid
    fun v hv => hstamped v (hperm.mem_iff.mpr hv)
  rw [hfirst, hsecond]
  constructor
  · exact hperm.map _
  · exact Or.inl ⟨_, attempt_chronology_none ht hnone, attempt_chronology_none ht' hnone, by simp⟩
  · intro coordinate component
    rw [latest_showing ht, latest_showing ht']

/-- Versions that can be appended come to the same in any order. -/
theorem sameAppends_of_appendable (kind : ComponentKind) (hs : s.spines.Steady content)
    (hnid : Nid.first.raw ≤ nid.raw) (h : Appendable content nid recorded? versions)
    (hperm : versions.Perm versions') :
    SameAppends nid (appendAll nid kind versions s) (appendAll nid kind versions' s) := by
  obtain ⟨shown, t, hfirst, ht, hstored, hkept⟩ := appendAll_eq kind hs hnid h
  obtain ⟨shown', t', hsecond, ht', hstored', hkept'⟩ :=
    appendAll_eq kind hs hnid (h.perm hperm)
  have hsame := Chronology.recordedOf_offeredAll_perm nid kind recorded? h.stamps hperm
  have hapart := Chronology.nodup_offeredAll nid kind h.recorded h.stamps
  have hnone : offeredAll nid kind recorded? versions = none ↔
      offeredAll nid kind recorded? versions' = none := by
    rw [Chronology.offeredAll_eq_none_iff, Chronology.offeredAll_eq_none_iff,
      ← List.length_eq_zero_iff, ← List.length_eq_zero_iff, hperm.length_eq]
  have haccepted (v : Version)
      (hv : (v, .ok ()) ∈ versions.map fun v => (v, verdict nid recorded? v)) :
      v ∈ recordedOf (offeredAll nid kind recorded? versions) := by
    obtain ⟨w, hw, heq⟩ := List.mem_map.mp hv
    rw [Prod.mk.injEq] at heq
    obtain ⟨rfl, hverdict⟩ := heq
    exact Chronology.mem_of_verdict_ok h.stamps hw hverdict
  rw [hfirst, hsecond]
  constructor
  · exact hperm.map _
  · cases hlast : offeredAll nid kind recorded? versions with
    | none =>
      rw [hlast] at haccepted hstored
      rw [hnone.mp hlast] at hstored'
      refine Or.inl ⟨_, attempt_chronology_none ht hstored,
        attempt_chronology_none ht' hstored', fun v hv => ?_⟩
      cases haccepted v hv
    | some c =>
      obtain ⟨c', hlast'⟩ : ∃ c', offeredAll nid kind recorded? versions' = some c' := by
        apply Option.ne_none_iff_exists'.mp
        rw [ne_eq, ← hnone, hlast]
        exact Option.some_ne_none c
      have hkind := Chronology.kind_offeredAll hlast
      have hkind' := Chronology.kind_offeredAll hlast'
      rw [hlast] at haccepted hstored hsame hapart
      rw [hlast'] at hstored' hsame
      refine Or.inr ⟨c, c', attempt_chronology_some ht hstored,
        attempt_chronology_some ht' hstored', hstored.1, hstored'.1, hkind'.trans hkind.symm,
        hsame, hapart, fun v hv => ?_⟩
      have hcount := List.count_eq_one_of_mem hapart.of_map (haccepted v hv)
      exact ⟨hcount, (hsame.count_eq v).symm.trans hcount⟩
  · have hagree (other : Nid) (hother : other ≠ nid) : shown' other = shown other :=
      (hkept' other hother).trans (hkept other hother).symm
    exact latest_reordered ht ht' hstored hstored' hagree hsame hapart

/-- **The order of appends does not matter.** Versions of distinct committed stamps are appended to
a component for which nothing is stored, or its own chronology of distinct stamps. Any two orders
come to the same, whatever the calculators of the store remember. Four bytes count the bytes of each
version and, because some nid is the stamp of none, the versions. -/
theorem appends_commute (kind : ComponentKind) (hs : s.spines.Steady content)
    (hslot : StoredAs content nid recorded?)
    (hrecorded : ((recordedOf recorded?).map Version.stamp).Nodup)
    (hcommitted : ∀ v ∈ versions, ∃ fields,
      StampFields.storedIn? content v.stamp = some fields ∧ fields.isCommitted = true)
    (hstamps : (versions.map Version.stamp).Nodup)
    (hlengths : ∀ v ∈ versions, v.fields.length < UInt32.size)
    (hroom : ∃ stamp, stamp ∉ (recordedOf recorded? ++ versions).map Version.stamp)
    (hperm : versions.Perm versions') :
    SameAppends nid (appendAll nid kind versions s) (appendAll nid kind versions' s) := by
  by_cases hnid : nid.raw < Nid.first.raw
  · apply sameAppends_below kind hs hnid _ hperm
    intro v hv
    obtain ⟨fields, hstored, -⟩ := hcommitted v hv
    exact ⟨fields, hstored⟩
  · have hclosed (v : Version) (hv : v ∈ versions) : ∃ fields,
        StampFields.storedIn? content v.stamp = some fields ∧ fields.isUncommitted = false := by
      obtain ⟨fields, hstored, hfields⟩ := hcommitted v hv
      exact ⟨fields, hstored, StampFields.isUncommitted_of_isCommitted hfields⟩
    exact sameAppends_of_appendable kind hs (Int32.not_lt.mp hnid)
      ⟨hslot, hrecorded, hclosed, hstamps, hlengths, hroom⟩ hperm

/-- One version is rejected and one accepted, in either order. -/
theorem appends_commute_two :
    ∃ (s : Store) (content : Nid → Option Bytes) (nid : Nid) (kind : ComponentKind)
      (rejected accepted : Version) (recorded : Chronology),
      s.spines.Steady content ∧ StoredAs content nid (some recorded) ∧
      (appendAll nid kind [rejected, accepted] s).1.map (fun entry => entry.2.toBool) =
        [false, true] ∧
      SameAppends nid (appendAll nid kind [rejected, accepted] s)
        (appendAll nid kind [accepted, rejected] s) := by
  let path : Nid := ⟨0⟩
  let stamp (n : Nat) : Nid := ⟨-2147483647 + Int32.ofNat n⟩
  let fields (n : Nat) : StampFields :=
    { status := .active, time := 5, author := path, module := stamp n, path }
  let nid := stamp 2
  let rejected : Version := ⟨stamp 0, [9]⟩
  let accepted : Version := ⟨stamp 1, [1]⟩
  let recorded : Chronology := .start nid .concept ⟨stamp 0, [0]⟩
  let offer (n : Nat) (payload : Bytes) (s : SpineStore) : SpineStore :=
    (attempt (SpineStore.merge (stamp n) payload fun _ update => update) s).2
  let blank := SpineStore.ofMedium Medium.inMemory 4 1 1
  let first := offer 0 (StampHistory.start (fields 0)).encode blank
  let second := offer 1 (StampHistory.start (fields 1)).encode first
  let spines := offer 2 recorded.encode second
  let content : Nid → Option Bytes := fun nid => (SpineStore.lookup nid spines).1
  have hblank : blank.Steady fun _ => none :=
    (SpineStore.serves_of_blank (fun _ => Std.ExtTreeMap.getElem?_empty) (by decide)
      (by decide)).steady
  have hfirst := hblank.merge_state (show blank.place? (stamp 0) = some ⟨0, 0⟩ by decide +kernel)
    (StampHistory.start (fields 0)).encode fun _ update => update
  have hsecond := hfirst.merge_state (show first.place? (stamp 1) = some ⟨0, 1⟩ by decide +kernel)
    (StampHistory.start (fields 1)).encode fun _ update => update
  have hspines := hsecond.merge_state (show second.place? nid = some ⟨0, 2⟩ by decide +kernel)
    recorded.encode fun _ update => update
  have hsteady : spines.Steady content :=
    ⟨hspines.shows.now, hspines.enclosed, hspines.size_pos, hspines.attempts_pos⟩
  let s : Store :=
    { rooted := false, config := { spineSize := 4 }, registry := .empty, paths := .empty, spines
      pool := {} }
  have hslot : StoredAs content nid (some recorded) :=
    ⟨rfl, recorded.encode, by decide +kernel, Chronology.decode_encode
      (Chronology.fits_start nid .concept (by decide))⟩
  have hcommitted : ∀ v ∈ [rejected, accepted], ∃ fields,
      StampFields.storedIn? content v.stamp = some fields ∧ fields.isCommitted = true := by
    intro v hv
    rcases List.mem_pair.mp hv with rfl | rfl
    · exact ⟨fields 0, by decide +kernel, by decide⟩
    · exact ⟨fields 1, by decide +kernel, by decide⟩
  exact ⟨s, content, nid, .concept, rejected, accepted, recorded, hsteady, hslot,
    by decide +kernel, appends_commute .concept hsteady hslot (by decide) hcommitted (by decide)
      (by decide) ⟨path, by decide⟩ (List.Perm.swap _ _ _)⟩

end Store

end Chronicle
