import Chronicle.Proofs.Component.Merging
import Chronicle.Proofs.Spine.Undisturbed
import Chronicle.Proofs.Store.Opening
import Chronicle.Proofs.Store.Perform
import Chronicle.Proofs.Store.StampActions

/-!
# Refused calls

A stamp or a version is merged into what is stored before it shows whether it was taken. So a call
that is refused has written already. But fields or a version that were taken are found afterwards,
and the call succeeds; where they are not found, the merge has left every byte as it was. This needs
nothing of what is stored, which may be bytes that were merged past the store and are neither a
stamp nor a component.
-/

namespace Chronicle

/-- Four bytes count the entries of whatever is found, and one more. -/
def SpineStore.Roomy (s : SpineStore) : Prop :=
  ∀ nids nid payload, (lookup nid (s.afterLookups nids)).1 = some payload →
    (∀ c, Chronology.decode payload = .ok c → c.size + 1 < UInt32.size) ∧
    ∀ history, StampHistory.decode payload = .ok history →
      history.versions.length + 1 < UInt32.size

private theorem SpineStore.Undisturbed.roomy {s t : SpineStore} (h : Undisturbed s t)
    (hs : s.Roomy) :
    t.Roomy := by
  obtain ⟨nids, hlookups⟩ := h.exists_lookups
  intro later nid payload hpayload
  exact hs (nids ++ later) nid payload ((hlookups later nid).symm.trans hpayload)

namespace Store

variable {s t u opened : Store} {config : Config} {medium next : Medium} {rooted : Bool}
  {usage : Usage} {nid : Nid}

/-- Neither the edges have changed nor anything that look-ups can tell. -/
structure Unaltered (s t : Store) : Prop where
  paths_eq : t.paths = s.paths
  spines : s.spines.Undisturbed t.spines

namespace Unaltered

private theorem refl (h : s.spines.Enclosed) : Unaltered s s :=
  ⟨rfl, .refl h⟩

private theorem trans (h : Unaltered s t) (h' : Unaltered t u) : Unaltered s u :=
  ⟨h'.paths_eq.trans h.paths_eq, h.spines.trans h'.spines⟩

private theorem enclosed (h : Unaltered s t) : t.spines.Enclosed :=
  h.spines.enclosed

private theorem roomy (h : Unaltered s t) (hroom : s.spines.Roomy) : t.spines.Roomy :=
  h.spines.roomy hroom

end Unaltered

/-- What is known once a payload was merged. -/
structure Merged (s : Store) (nid : Nid) (stored : Bytes) (t : Store) : Prop where
  enclosed : t.spines.Enclosed
  found : ∃ after, SpineStore.lookup nid t.spines = (some stored, after)
  unaltered : (SpineStore.lookup nid s.spines).1 = some stored → Unaltered s t

/-! ## Payloads -/

/-- A look-up leaves a store unaltered. -/
theorem unaltered_lookup (h : s.spines.Enclosed) (nid : Nid) :
    Ends (infallible (onSpines (SpineStore.lookup nid))) s (fun _ => Unaltered s)
      fun _ => Unaltered s :=
  ends_infallible ⟨rfl, .lookup h nid⟩

/-- A merge that fails alters nothing. -/
theorem ends_merged (h : s.spines.Enclosed) (nid : Nid) (payload : Bytes)
    (combine : Bytes → Bytes → Bytes) :
    Ends (tryOnSpines (SpineStore.merge nid payload combine)) s
      (fun stored t =>
        stored = SpineStore.merged combine payload (SpineStore.lookup nid s.spines).1 ∧
          Merged s nid stored t)
      fun _ => Unaltered s := by
  refine ends_tryOnSpines ?_
  cases hmerge : SpineStore.merge nid payload combine s.spines with
  | ok stored spines =>
    obtain ⟨hstored, henclosed, hfound, hsame⟩ := SpineStore.undisturbed_of_merge_ok h hmerge
    exact ends_of_ok hmerge ⟨hstored, henclosed, hfound, fun hpayload => ⟨rfl, hsame hpayload⟩⟩
  | error error spines =>
    exact ends_of_error hmerge ⟨rfl, SpineStore.undisturbed_of_merge_error h hmerge⟩

/-! ## Stamps -/

private theorem unaltered_stampHistory (h : s.spines.Enclosed) (nid : Nid) :
    Ends (stampHistory nid) s (fun _ => Unaltered s) fun _ => Unaltered s := by
  refine (unaltered_lookup h nid).bind fun payload? t ht => ?_
  cases payload? with
  | none => exact ends_throw ht
  | some payload => exact ends_outcome (fun _ _ => ht) fun _ _ => ht

private theorem unaltered_stamp (h : s.spines.Enclosed) (nid : Nid) :
    Ends (stamp nid) s (fun _ => Unaltered s) fun _ => Unaltered s :=
  (unaltered_stampHistory h nid).bind fun _ _ ht => ends_pure ht

/-- Fields that are offered are effective afterwards, or nothing is altered. -/
theorem ends_offered (h : s.spines.Enclosed) (hroom : s.spines.Roomy) (nid : Nid)
    (fields : StampFields) :
    Ends (offerFields nid fields) s (fun current t => current = fields ∨ Unaltered s t)
      fun _ => Unaltered s := by
  refine (ends_merged h nid _ _).bind ?_
  rintro stored t ⟨rfl, hmerged⟩
  obtain hkept | ⟨history, hdecode, hcurrent⟩ := StampHistory.offered_cases fields
    fun payload hpayload => (hroom [] nid payload hpayload).2
  · have hsame := hmerged.unaltered hkept
    refine ((ends_outcome_known _ t).weaken fun _ _ heq => heq ▸ hsame).bind ?_
    rintro _ _ ⟨-, rfl⟩
    exact ends_pure (Or.inr hsame)
  · refine ((ends_outcome_of_ok hdecode t).weaken fun _ _ hnever => hnever.elim).bind ?_
    rintro _ _ ⟨rfl, -⟩
    exact ends_pure (Or.inl hcurrent)

/-- A canceled stamp that is reported has not taken the fields. -/
theorem spares_createStamp (h : s.spines.Enclosed) (hroom : s.spines.Roomy) (fields : StampFields)
    (uuid : Uuid) :
    Ends (createStamp fields uuid) s (fun _ _ => True) fun _ => Unaltered s := by
  have hself := Unaltered.refl h
  refine ((ends_outcome_known _ s).weaken fun _ _ heq => heq ▸ hself).bind ?_
  rintro id _ ⟨-, rfl⟩
  refine ((ends_resolve_registry s id).weaken fun _ _ hfailed => hfailed.2 ▸ hself).bind ?_
  rintro nid _ ⟨registry, -, rfl⟩
  have hoffered := ends_offered (s := { s with registry }) h hroom nid fields
  refine (hoffered.weaken fun _ _ ht => ⟨ht.paths_eq, ht.spines⟩).bind fun current t ht => ?_
  dsimp only
  split
  · rename_i hcanceled
    have hsame := ht.resolve_left hcanceled.1
    exact ends_throw_bind ⟨hsame.paths_eq, hsame.spines⟩
  · exact ends_pure trivial

/-- Committing a stamp leaves a store unaltered if it fails. -/
theorem spares_commitStamp (h : s.spines.Enclosed) (hroom : s.spines.Roomy) (fields : StampFields)
    (fresh : Uuid) : Ends (commitStamp fields fresh) s (fun _ _ => True) fun _ => Unaltered s := by
  rw [commitStamp]
  split
  · exact ends_throw_bind (.refl h)
  · exact spares_createStamp h hroom fields _

/-- A stamp that turns out to be committed has not taken the cancellation. -/
theorem spares_cancelStamp (h : s.spines.Enclosed) (hroom : s.spines.Roomy) (nid : Nid) :
    Ends (cancelStamp nid) s (fun _ _ => True) fun _ => Unaltered s := by
  have hmember : Ends (cancelMember nid) s (fun _ _ => True) fun _ => Unaltered s := by
    refine (unaltered_stamp h nid).bind fun current t ht => ?_
    dsimp only
    split
    · exact ends_throw_bind ht
    · refine ((ends_offered ht.enclosed (ht.roomy hroom) nid _).weaken
        fun _ _ hu => ht.trans hu).bind fun settled u hu => ?_
      split
      · rename_i hcommitted
        refine ends_throw (ht.trans (hu.resolve_left ?_))
        rintro rfl
        rw [StampFields.isCommitted_canceled] at hcommitted
        cases hcommitted
      · exact ends_pure trivial
  exact hmember.bind fun _ _ _ => ends_infallible trivial

/-! ## Components and paths -/

/-- What `appendVersion` answers is what is stored then. A version that it does not find there was
not taken. -/
theorem ends_appended (h : s.spines.Enclosed) (nid : Nid) (kind : ComponentKind)
    (version : Version) :
    Ends (appendVersion nid kind version) s
      (fun c t => records c nid version = true ∧ ∃ payload,
        (SpineStore.lookup nid t.spines).1 = some payload ∧ Chronology.decode payload = .ok c)
      fun _ t => s.spines.Roomy → version.fields.length < UInt32.size → Unaltered s t := by
  refine ((unaltered_stamp h version.stamp).weaken fun _ _ ht _ _ => ht).bind fun fields t ht => ?_
  refine ((ends_merged ht.enclosed nid _ _).weaken fun _ _ hu _ _ => ht.trans hu).bind ?_
  rintro stored u ⟨hstored, hmerged⟩
  have hrefused (hmissing : ∀ c, Chronology.decode stored = .ok c → records c nid version = false)
      (hroom : s.spines.Roomy) (hfields : version.fields.length < UInt32.size) :
      Unaltered s u := by
    obtain hkept | ⟨c, hdecode, hnid, hversion⟩ := Chronology.merged_start_cases
      fields.isUncommitted nid kind hfields
      fun payload hpayload => (ht.roomy hroom [] nid payload hpayload).1
    · exact ht.trans (hmerged.unaltered (hkept.trans (congrArg some hstored.symm)))
    · have hrecords : records c nid version = true := by simp [records, hnid, hversion]
      rw [hmissing c ((congrArg Chronology.decode hstored).trans hdecode)] at hrecords
      cases hrecords
  have hread : Ends (outcome (Chronology.decode stored)) u
      (fun c v => Chronology.decode stored = .ok c ∧ u = v)
      fun _ v => s.spines.Roomy → version.fields.length < UInt32.size → Unaltered s v := by
    refine ends_outcome (fun _ hdecode => ⟨hdecode, rfl⟩) fun error hdecode => ?_
    refine hrefused fun c hc => ?_
    rw [hdecode] at hc
    cases hc
  refine hread.bind ?_
  rintro c _ ⟨hdecode, rfl⟩
  dsimp only
  split
  · rename_i hrecords
    refine ends_throw_bind (hrefused fun found hfound => ?_)
    rw [hdecode] at hfound
    cases hfound
    simpa using hrecords
  · rename_i hrecords
    obtain ⟨after, hfound⟩ := hmerged.found
    exact ends_pure ⟨by simpa using hrecords, stored, congrArg Prod.fst hfound, hdecode⟩

/-! ## Calls -/

/-- A call that fails, with what it leaves of a transaction and of the store. Only the creation of a
member is handed the transaction. Four bytes count the fields of a version. -/
inductive Fails (t : Transaction) (s : Store) : Transaction → Store → Prop
  | appendVersion {nid : Nid} {kind : ComponentKind} {version : Version} {error : StoreError}
      {s' : Store} (hfields : version.fields.length < UInt32.size)
      (h : Store.appendVersion nid kind version s = .error error s') : Fails t s t s'
  | commitStamp {fields : StampFields} {fresh : Uuid} {error : StoreError} {s' : Store}
      (h : Store.commitStamp fields fresh s = .error error s') : Fails t s t s'
  | cancelStamp {nid : Nid} {error : StoreError} {s' : Store}
      (h : Store.cancelStamp nid s = .error error s') : Fails t s t s'
  | addPathOrigin {path : Nid} {edge : PathOrigin} {error : StoreError} {s' : Store}
      (h : Store.addPathOrigin path edge s = .error error s') : Fails t s t s'
  | stamp {status : Status} {author module path : Nid} {fresh : Uuid} {error : StoreError}
      {t' : Transaction} {s' : Store}
      (h : Transaction.stamp status author module path fresh (t, s) = .error error (t', s')) :
      Fails t s t' s'

/-- A call that fails leaves its transaction as it was and the store unaltered. -/
theorem Fails.unaltered {t t' : Transaction} {s' : Store} (hfails : Fails t s t' s')
    (h : s.spines.Enclosed) (hroom : s.spines.Roomy) : t' = t ∧ Unaltered s s' := by
  cases hfails with
  | appendVersion hfields hrun =>
    exact ⟨rfl, (ends_appended h _ _ _).of_error hrun hroom hfields⟩
  | commitStamp hrun => exact ⟨rfl, (spares_commitStamp h hroom _ _).of_error hrun⟩
  | cancelStamp hrun => exact ⟨rfl, (spares_cancelStamp h hroom _).of_error hrun⟩
  | @addPathOrigin path edge error s' hrun =>
    refine ⟨rfl, ?_⟩
    rw [addPathOrigin_eq] at hrun
    split at hrun <;> cases hrun
    exact .refl h
  | @stamp status author module path fresh error t' s' hrun =>
    cases hstate : t.state with
    | uncommitted =>
      rw [Transaction.stamp_of_open hstate] at hrun
      split at hrun <;> cases hrun
      rename_i hcreate
      exact ⟨rfl, (spares_createStamp h hroom _ _).of_error hcreate⟩
    | _ =>
      rw [Transaction.stamp, Transaction.checkOpen_bind, hstate] at hrun
      cases hrun
      exact ⟨rfl, .refl h⟩

/-! ## Sessions -/

/-- What the payloads keep whenever one of them changes and whatever medium they are on, they keep
in every session. -/
theorem invariant_spines {I : SpineStore → Prop}
    (htransition : ∀ {before event after}, SpineStore.Transition before event after →
      I before → I after)
    (hmedium : ∀ {spines} (medium : Medium), I spines → I { spines with medium }) :
    Invariant unrestrictedRules fun s => I s.spines :=
  invariant_of_change fun h hchange => by
    cases hchange with
    | touched hchanged => exact htransition hchanged h
    | installed _ hchanged => exact htransition hchanged h
    | flushed _ hchanged => exact htransition hchanged h
    | identity => exact hmedium _ h
    | paths => exact hmedium _ h
    | accessed => exact hmedium _ h
    | _ => exact h

/-- Whatever was done with a store, spines in memory lie in the directory. -/
theorem enclosed_session (hopen : overMedium config rooted medium = .ok opened next)
    (hs : Session usage opened s) : s.spines.Enclosed := by
  refine (invariant_spines SpineStore.Transition.enclosed fun _ h => h).session ?_
    (fun s operation _ _ => unrestricted_permits s operation) hs
  intro index spine hspine
  rw [(opens_of_overMedium hopen).loaded_eq.1] at hspine
  cases Std.ExtTreeMap.getElem?_empty.symm.trans hspine

/-- **Refused calls change nothing.** Whatever was done with a store before, payloads merged past it
included, and as long as four bytes count what is stored: a call that fails leaves the transaction,
every edge and every payload as they were. If reads fail, which payloads are found can depend on the
look-ups that were made; then the store answers as it would have after some look-ups, and what was
found before the call is found after it. A version that `appendVersion` answers is stored with its
fields under its stamp, in a chronology of its component. -/
theorem refused_calls_change_nothing
    (hopen : overMedium config rooted medium = .ok opened next) (hs : Session usage opened s)
    (hroom : s.spines.Roomy) :
    (∀ t t' s', Fails t s t' s' →
      t' = t ∧ (∀ path, s'.pathOrigins path = s.pathOrigins path) ∧
      (s.spines.Ready → ∀ nid,
        (SpineStore.lookup nid s'.spines).1 = (SpineStore.lookup nid s.spines).1) ∧
      (∀ before nid, Session usage opened before →
        Operation.perform before (.payloads (.lookup nid)) = s →
          (SpineStore.lookup nid s'.spines).1 = (SpineStore.lookup nid before.spines).1) ∧
      ∃ nids, ∀ later nid, (SpineStore.lookup nid (s'.spines.afterLookups later)).1 =
        (SpineStore.lookup nid (s.spines.afterLookups (nids ++ later))).1) ∧
    ∀ nid kind version c s', appendVersion nid kind version s = .ok c s' →
      c.nid = nid ∧ (c.version? version.stamp).map Version.fields = some version.fields ∧
      ∃ payload, (SpineStore.lookup nid s'.spines).1 = some payload ∧
        Chronology.decode payload = .ok c := by
  have henclosed := enclosed_session hopen hs
  constructor
  · intro t t' s' hfails
    obtain ⟨rfl, hpaths, hspines⟩ := hfails.unaltered henclosed hroom
    refine ⟨rfl, fun path => by rw [pathOrigins, pathOrigins, hpaths], fun hready nid => ?_,
      fun before nid hbefore hlookup => ?_, hspines.exists_lookups⟩
    · exact hspines.shows (hready.shows henclosed) [] nid
    · obtain ⟨nids, hlookups⟩ := hspines.exists_lookups
      refine (hlookups [] nid).trans ?_
      rw [← hlookup]
      exact SpineStore.lookup_again (enclosed_session hopen hbefore) nid _
  · intro nid kind version c s' hrun
    obtain ⟨hrecords, hpayload⟩ := (ends_appended henclosed nid kind version).of_ok hrun
    obtain ⟨hnid, hfields⟩ : c.nid = nid ∧
        (c.version? version.stamp).map Version.fields = some version.fields := by
      simpa [records] using hrecords
    exact ⟨hnid, hfields, hpayload⟩

/-- A version is refused by bytes that were merged past the store, and taken elsewhere. -/
theorem refused_calls_change_nothing_foreign :
    ∃ opened next stamp fields foreign other error s' c s'',
      overMedium { spineSize := 4 } false Medium.inMemory = .ok opened next ∧
      let first : Operation :=
        .payloads (.merge stamp (StampHistory.start fields).encode fun existing _ => existing)
      let second : Operation := .payloads (.merge foreign [0xff] fun existing _ => existing)
      let s := second.perform (first.perform opened)
      (appendVersion foreign .concept ⟨stamp, [1]⟩ s = .error error s' ∧
        (SpineStore.lookup foreign s'.spines).1 = (SpineStore.lookup foreign s.spines).1) ∧
      appendVersion other .concept ⟨stamp, [1]⟩ s = .ok c s'' ∧ c.nid = other := by
  let stamp : Nid := ⟨-2147483642⟩
  let foreign : Nid := ⟨-2147483641⟩
  let other : Nid := ⟨-2147483640⟩
  let fields : StampFields := ⟨.active, 5, stamp, stamp, stamp⟩
  let first : Operation :=
    .payloads (.merge stamp (StampHistory.start fields).encode fun existing _ => existing)
  let second : Operation := .payloads (.merge foreign [0xff] fun existing _ => existing)
  obtain ⟨opened, next, hopen, hplace, hplace', herror, hok⟩ :
      ∃ opened next, overMedium { spineSize := 4 } false Medium.inMemory = .ok opened next ∧
        opened.spines.place? stamp = some ⟨1, 1⟩ ∧
        (first.perform opened).spines.place? foreign = some ⟨1, 2⟩ ∧
        let s := second.perform (first.perform opened)
        (attempt (appendVersion foreign .concept ⟨stamp, [1]⟩) s).1 =
          .error (.decode (.unknownTag 0xff)) ∧
        (attempt (appendVersion other .concept ⟨stamp, [1]⟩) s).1 =
          .ok (.start other .concept ⟨stamp, [1]⟩) :=
    ⟨_, _, rfl, by decide +kernel, by decide +kernel, by decide +kernel, by decide +kernel⟩
  have hs : Session ⟨fun _ => True, fun _ _ => True⟩ opened
      (second.perform (first.perform opened)) :=
    (Session.opened.andThen first trivial).andThen second trivial
  have hserves : opened.spines.Serves fun _ => none := by
    obtain ⟨read, hsame, hspines⟩ := (opens_of_overMedium hopen).spines
    rw [hspines]
    refine SpineStore.serves_of_blank (fun index => ?_) (by decide) (by decide)
    rw [Backing.blob?, hsame.backing]
    exact Backing.blank_inMemory.blob? index
  have hsteady := (hserves.steady.merge_state hplace (StampHistory.start fields).encode
    fun existing _ => existing).merge_state hplace' [0xff] fun existing _ => existing
  have hroom : (second.perform (first.perform opened)).spines.Roomy := by
    intro nids nid payload hpayload
    have hshown := (hsteady.shows nids nid).symm.trans hpayload
    split at hshown
    · obtain rfl : [0xff] = payload := Option.some.inj hshown
      exact ⟨fun _ h => (by cases h), fun _ h => (by cases h)⟩
    · split at hshown
      · obtain rfl : (StampHistory.start fields).encode = payload := Option.some.inj hshown
        have hstart := StampHistory.decode_start fields
        constructor
        · obtain ⟨error, herror⟩ := Chronology.exists_error_of_stamp hstart
          intro _ h
          rw [herror] at h
          cases h
        · intro _ h
          rw [hstart] at h
          cases h
          decide
      · cases hshown
  obtain ⟨hrefused, htaken⟩ := refused_calls_change_nothing hopen hs hroom
  have hfails := Fails.appendVersion (t := { name := "work" }) (by decide) (error_of_attempt herror)
  obtain ⟨-, -, -, -, nids, hkept⟩ := hrefused _ _ _ hfails
  exact ⟨opened, next, stamp, fields, foreign, other, _, _, _, _, hopen,
    ⟨error_of_attempt herror, (hkept [] foreign).trans (hsteady.shows.now _ foreign)⟩,
    ok_of_attempt hok, (htaken _ _ _ _ _ (ok_of_attempt hok)).1⟩

end Store

end Chronicle
