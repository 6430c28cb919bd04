import Chronicle.Proofs.Store.Opening
import Chronicle.Proofs.Store.Revision
import Chronicle.Proofs.Transaction
import Chronicle.Store.Components

/-!
# What actions do to stamps

The actions on stamps and components look payloads up and merge payloads, and change nothing else in
a store but the registry. This file follows them through what the store serves: which stamps they
create, which they change, which they leave as they are, and to which paths they keep.
-/

namespace Chronicle

open StampHistory (storedIn? push_of_closed current_push_of_open)

namespace StampFields

/-- Fields that are committed at an ordinary time are not open. -/
theorem isUncommitted_committedAt {fields : StampFields} {time : Int64}
    (h : Time.isSentinel time = false) : (fields.committedAt time).isUncommitted = false := by
  rw [Time.isSentinel, Bool.or_eq_false_iff] at h
  simp [isUncommitted, committedAt, h.1]

/-- Committed fields are not open. -/
theorem isUncommitted_of_isCommitted {fields : StampFields} (h : fields.isCommitted = true) :
    fields.isUncommitted = false := by
  rw [isCommitted, Bool.and_eq_true] at h
  rw [isUncommitted, h.1, Bool.true_and]
  simpa using h.2

/-- Committed and canceled fields are not open. -/
theorem isUncommitted_of_closed {fields : StampFields}
    (h : fields.isCommitted = true ∨ fields.isCanceled = true) : fields.isUncommitted = false := by
  rcases h with hcommitted | hcanceled
  · exact isUncommitted_of_isCommitted hcommitted
  · rw [isUncommitted, hcanceled]
    rfl

private theorem isCanceled_of_closed {fields : StampFields}
    (hcommitted : fields.isCommitted = false)
    (hopen : fields.isUncommitted = false) : fields.isCanceled = true := by
  cases hcanceled : fields.isCanceled with
  | true => rfl
  | false => simp_all [isCommitted, isUncommitted]

/-- Canceling makes fields canceled. -/
theorem isCanceled_canceled (fields : StampFields) : fields.canceled.isCanceled = true := by
  simp [isCanceled, canceled]

/-- Canceled fields are not open. -/
theorem isUncommitted_canceled (fields : StampFields) : fields.canceled.isUncommitted = false := by
  simp [isUncommitted, isCanceled_canceled]

/-- Canceled fields are not committed. -/
theorem isCommitted_of_isCanceled {fields : StampFields} (h : fields.isCanceled = true) :
    fields.isCommitted = false := by
  rw [isCommitted, h]
  rfl

/-- Canceling leaves no fields committed. -/
theorem isCommitted_canceled (fields : StampFields) : fields.canceled.isCommitted = false :=
  isCommitted_of_isCanceled (isCanceled_canceled fields)

end StampFields

/-- A stamp is canceled by its canceled fields, if it is not committed. -/
theorem StampHistory.isCanceled_push_canceled {history : StampHistory}
    (h : history.current.isCommitted = false) :
    (history.push history.current.canceled).current.isCanceled = true := by
  cases hopen : history.current.isUncommitted with
  | true =>
    rw [current_push_of_open hopen]
    exact StampFields.isCanceled_canceled history.current
  | false =>
    rw [push_of_closed hopen]
    exact StampFields.isCanceled_of_closed h hopen

namespace Store

variable {s t u : Store} {content content' : Nid → Option Bytes} {nid : Nid} {fields : StampFields}
  {drawn known : Uuid → Prop} {region : Nid → Prop} {uuid : Uuid}

/-- A store differs from another one in its spines only, and these serve some content. -/
def Serving (s : Store) (content : Nid → Option Bytes) (t : Store) : Prop :=
  ∃ spines, t = { s with spines } ∧ spines.Serves content

/-- The spines of such a store serve the content. -/
theorem Serving.serves (h : s.Serving content t) : t.spines.Serves content := by
  obtain ⟨spines, rfl, hserves⟩ := h
  exact hserves

private theorem Serving.registry_eq (h : s.Serving content t) : t.registry = s.registry := by
  obtain ⟨spines, rfl, -⟩ := h
  rfl

/-- Two stretches over which only the spines change are one. -/
theorem Serving.trans (h : s.Serving content t) (h' : t.Serving content' u) :
    s.Serving content' u := by
  obtain ⟨spines, rfl, -⟩ := h
  obtain ⟨spines', rfl, hserves⟩ := h'
  exact ⟨spines', rfl, hserves⟩

private theorem serving_self (h : s.spines.Serves content) : s.Serving content s :=
  ⟨s.spines, rfl, h⟩

/-! ## Payloads -/

/-- A look-up answers what is served. -/
theorem ends_lookup (h : s.spines.Serves content) (nid : Nid) :
    Ends (infallible (onSpines (SpineStore.lookup nid))) s
      (fun payload? t => payload? = content nid ∧ s.Serving content t) fun _ _ => False := by
  obtain ⟨spines, hlookup, hserves⟩ := h.lookup nid
  have hrun : onSpines (SpineStore.lookup nid) s = (content nid, { s with spines }) := by
    simp only [onSpines, hlookup]
  refine ends_infallible ?_
  rw [hrun]
  exact ⟨rfl, spines, rfl, hserves⟩

/-- Only below the first nid a merge fails. -/
theorem ends_merge (h : s.spines.Serves content) (nid : Nid) (payload : Bytes)
    (combine : Bytes → Bytes → Bytes) :
    Ends (tryOnSpines (SpineStore.merge nid payload combine)) s
      (fun next t => next = SpineStore.merged combine payload (content nid) ∧
        s.Serving (replaced content nid next) t)
      fun _ t => nid.raw < Nid.first.raw ∧ s.Serving content t := by
  refine ends_tryOnSpines ?_
  cases hplace : s.spines.place? nid with
  | none =>
    exact ends_of_error
      (eq_of_attempt_error (SpineStore.attempt_merge_of_none hplace payload combine))
      ⟨SpineStore.place?_eq_none_iff.mp hplace, serving_self h⟩
  | some place =>
    obtain ⟨after, hattempt, hserves⟩ := h.merge hplace payload combine
    exact ends_of_ok (eq_of_attempt_ok hattempt) ⟨rfl, after, rfl, hserves⟩

/-! ## Stamps -/

/-- The history of a stamp is answered exactly if one is served. -/
theorem ends_stampHistory (h : s.spines.Serves content) (nid : Nid) :
    Ends (stampHistory nid) s
      (fun history t => storedIn? content nid = some history ∧ s.Serving content t)
      fun _ t => storedIn? content nid = none ∧ s.Serving content t := by
  refine ((ends_lookup h nid).weaken fun _ _ hnever => hnever.elim).bind ?_
  rintro payload? t ⟨rfl, ht⟩
  have hstored : storedIn? content nid =
      (content nid).bind fun payload => (StampHistory.decode payload).toOption := rfl
  cases hpayload : content nid with
  | none => exact ends_throw ⟨by rw [hstored, hpayload, Option.bind_none], ht⟩
  | some payload =>
    rw [hpayload, Option.bind_some] at hstored
    refine ends_outcome (fun history hdecode => ⟨?_, ht⟩) fun error hdecode => ⟨?_, ht⟩
    · rw [hstored, hdecode]
      rfl
    · rw [hstored, hdecode]
      rfl

/-- The fields of a stamp are answered exactly if its history is served. -/
theorem ends_stamp (h : s.spines.Serves content) (nid : Nid) :
    Ends (stamp nid) s
      (fun fields t =>
        (∃ history, storedIn? content nid = some history ∧ history.current = fields) ∧
        s.Serving content t)
      fun _ t => storedIn? content nid = none ∧ s.Serving content t :=
  (ends_stampHistory h nid).bind fun history _ ⟨hhistory, ht⟩ =>
    ends_pure ⟨⟨history, hhistory, rfl⟩, ht⟩

/-- Fields are offered before it shows whether the nid has a stamp. -/
theorem ends_offer (h : s.spines.Serves content) (nid : Nid) (fields : StampFields) :
    Ends (offerFields nid fields) s
      (fun current t => (∃ history, storedIn? (offering content nid fields) nid = some history ∧
        history.current = current) ∧ s.Serving (offering content nid fields) t)
      fun _ t => nid.raw < Nid.first.raw ∧ s.Serving content t ∨
        storedIn? (offering content nid fields) nid = none ∧
          s.Serving (offering content nid fields) t := by
  refine ((ends_merge h nid _ _).weaken fun _ _ hfailed => Or.inl hfailed).bind ?_
  rintro stored t ⟨rfl, ht⟩
  have hserved : storedIn? (offering content nid fields) nid =
      (StampHistory.decode (StampHistory.offered fields (content nid))).toOption := by
    rw [offering, storedIn?_replaced, if_pos rfl]
  have hdecoded : Ends (outcome (StampHistory.decode (StampHistory.offered fields (content nid)))) t
      (fun history u => storedIn? (offering content nid fields) nid = some history ∧
        s.Serving (offering content nid fields) u)
      fun _ u => storedIn? (offering content nid fields) nid = none ∧
        s.Serving (offering content nid fields) u := by
    refine ends_outcome (fun history hdecode => ⟨?_, ht⟩) fun error hdecode => ⟨?_, ht⟩
    · rw [hserved, hdecode]
      rfl
    · rw [hserved, hdecode]
      rfl
  exact (hdecoded.weaken fun _ _ hfailed => Or.inr hfailed).bind fun history u hpost =>
    ends_pure ⟨⟨history, hpost.1, rfl⟩, hpost.2⟩

/-- Offering fields fails where something else than a stamp is stored, and changes nothing then. -/
theorem ends_offerFields (h : s.spines.Serves content) (nid : Nid) (fields : StampFields)
    (hsingle : ∀ history, storedIn? content nid = some history →
      history.current.isUncommitted = true → history.earlier = []) :
    Ends (offerFields nid fields) s
      (fun current t => (∃ history, storedIn? (offering content nid fields) nid = some history ∧
        history.current = current) ∧ s.Serving (offering content nid fields) t)
      fun _ t => s.Serving content t := by
  refine (ends_offer h nid fields).weaken ?_
  rintro _ t (⟨-, ht⟩ | ⟨hnone, ht⟩)
  · exact ht
  · -- Neither nothing was stored nor a stamp.
    cases hpayload : content nid with
    | none =>
      rw [storedIn?_offering_of_none hpayload] at hnone
      cases hnone
    | some payload =>
      cases hstored : storedIn? content nid with
      | none => rwa [← offering_of_other fields hpayload hstored]
      | some history =>
        rw [storedIn?_offering_of_some hstored (hsingle history hstored)] at hnone
        cases hnone

/-- Committing a member commits an open stamp. -/
theorem ends_commitMember (h : s.spines.Serves content)
    (hs : Stamped drawn known s.registry content) {time : Int64}
    (htime : Time.isSentinel time = false) (nid : Nid) (hregion : LiesIn region content nid) :
    Ends (commitMember time nid) s
      (fun _ t => ∃ content', s.Serving content' t ∧ Stamped drawn known s.registry content' ∧
        Revisions region content content')
      fun _ t => ∃ content', s.Serving content' t ∧ Stamped drawn known s.registry content' ∧
        Revisions region content content' := by
  refine ((ends_stamp h nid).weaken fun _ t ht => ⟨content, ht.2, hs, .refl⟩).bind ?_
  rintro fields t ⟨⟨history, hhistory, rfl⟩, ht⟩
  have hoffered := ends_offerFields ht.serves nid (history.current.committedAt time) (hs.single nid)
  refine (hoffered.weaken fun _ u hu => ⟨content, ht.trans hu, hs, .refl⟩).bind ?_
  rintro current u ⟨-, hu⟩
  have hstamped : Stamped drawn known s.registry
      (offering content nid (history.current.committedAt time)) :=
    hs.offer (hs.allocated nid history hhistory)
      (fun _ hopen => by
        rw [StampFields.isUncommitted_committedAt htime] at hopen
        cases hopen)
      fun _ _ _ => StampFields.isUncommitted_committedAt htime
  have hrevisions : Revisions region content
      (offering content nid (history.current.committedAt time)) :=
    .single (.offered (hs.allocated nid history hhistory).1 (hs.single nid)
      (fun _ hfound _ => hregion _ (storedIn?_of_history hfound))
      (hregion history.current (storedIn?_of_history hhistory)))
  split
  · exact ends_pure ⟨_, ht.trans hu, hstamped, hrevisions⟩
  · split
    · exact ends_throw ⟨_, ht.trans hu, hstamped, hrevisions⟩
    · exact ends_throw ⟨_, ht.trans hu, hstamped, hrevisions⟩

/-- Canceling a member cancels an open stamp, or fails and changes nothing. Nothing else changes,
and nothing at all if the stamp keeps its fields. -/
theorem ends_cancelMember (h : s.spines.Serves content)
    (hs : Stamped drawn known s.registry content) (nid : Nid)
    (hregion : LiesIn region content nid) :
    Ends (cancelMember nid) s
      (fun _ t => ∃ content', s.Serving content' t ∧ Stamped drawn known s.registry content' ∧
        Revisions region content content' ∧ ∃ fields,
          StampFields.storedIn? content' nid = some fields ∧
          (StampFields.storedIn? content nid = some fields → content' = content))
      fun _ t => s.Serving content t := by
  refine ((ends_stamp h nid).weaken fun _ _ ht => ht.2).bind ?_
  rintro fields t ⟨⟨history, hhistory, rfl⟩, ht⟩
  dsimp only
  split
  · exact ends_throw_bind ht
  · rename_i hcommitted
    have hoffered := ends_offerFields ht.serves nid history.current.canceled (hs.single nid)
    refine (hoffered.weaken fun _ u hu => ht.trans hu).bind ?_
    rintro settled u ⟨⟨history', hhistory', rfl⟩, hu⟩
    have hstored := storedIn?_of_history hhistory'
    rw [storedIn?_offering_of_some hhistory (hs.single nid history hhistory), Option.some.injEq]
      at hhistory'
    have hsettled : history'.current.isCommitted = false := by
      rw [← hhistory']
      exact StampFields.isCommitted_of_isCanceled
        (StampHistory.isCanceled_push_canceled (by simpa using hcommitted))
    rw [hsettled]
    refine ends_pure ⟨_, ht.trans hu, ?_, ?_, history'.current, hstored, fun hsame => ?_⟩
    · exact hs.offer (hs.allocated nid history hhistory)
        (fun _ hopen => by
          rw [StampFields.isUncommitted_canceled] at hopen
          cases hopen)
        fun _ _ _ => StampFields.isUncommitted_canceled _
    · exact .single (.offered (hs.allocated nid history hhistory).1 (hs.single nid)
        (fun _ hfound _ => hregion _ (storedIn?_of_history hfound))
        (hregion history.current (storedIn?_of_history hhistory)))
    · refine offering_of_closed _ hhistory ?_
      rw [storedIn?_of_history hhistory, Option.some.injEq, ← hhistory'] at hsame
      cases hopen : history.current.isUncommitted with
      | false => rfl
      | true =>
        rw [current_push_of_open hopen] at hsame
        rw [hsame, StampFields.isUncommitted_canceled] at hopen
        exact hopen.symm

/-- A store differs from another one in its registry and its spines only. These hold stamps as they
should be, and what is stored has been revised in a region. -/
structure Alters (drawn known : Uuid → Prop) (region : Nid → Prop) (s : Store)
    (content : Nid → Option Bytes) (t : Store) (content' : Nid → Option Bytes) : Prop where
  store_eq : ∃ registry spines, t = { s with registry, spines }
  serves : t.spines.Serves content'
  stamped : Stamped drawn known t.registry content'
  revisions : Revisions region content content'

/-- A store in which stamps are as they should be alters to itself. -/
theorem alters_self (h : s.spines.Serves content) (hs : Stamped drawn known s.registry content) :
    Alters drawn known region s content s content :=
  ⟨⟨s.registry, s.spines, rfl⟩, h, hs, .refl⟩

/-- What is altered twice in a region is altered in it. -/
theorem Alters.trans {content'' : Nid → Option Bytes}
    (h : Alters drawn known region s content t content')
    (h' : Alters drawn known region t content' u content'') :
    Alters drawn known region s content u content'' := by
  obtain ⟨registry, spines, rfl⟩ := h.store_eq
  obtain ⟨registry', spines', hu⟩ := h'.store_eq
  exact ⟨⟨registry', spines', hu⟩, h'.serves, h'.stamped, h.revisions.trans h'.revisions⟩

/-- Where only the spines differ and what they serve was revised in a region, the store is altered
in it. -/
theorem Serving.alters (h : s.Serving content' t) (hs : Stamped drawn known s.registry content')
    (hrevisions : Revisions region content content') :
    Alters drawn known region s content t content' := by
  obtain ⟨spines, rfl, hserves⟩ := h
  exact ⟨⟨s.registry, spines, rfl⟩, hserves, hs, hrevisions⟩

/-- Resolving a public id changes the registry only. -/
theorem ends_resolve_registry (s : Store) (id : PublicId) :
    Ends (resolve id) s
      (fun nid t => ∃ registry, s.registry.resolve id = .ok (nid, registry) ∧
        t = { s with registry })
      fun _ t => (∃ error, s.registry.resolve id = .error error) ∧ s = t := by
  cases hresolve : s.registry.resolve id with
  | error error =>
    have hrun : resolve id s = .error (.configuration error) s := by
      simp only [resolve, hresolve]
    exact ends_of_error hrun ⟨⟨error, rfl⟩, rfl⟩
  | ok found =>
    obtain ⟨nid, registry⟩ := found
    have hrun : resolve id s = .ok nid { s with registry } := by
      simp only [resolve, hresolve]
    exact ends_of_ok hrun ⟨registry, rfl, rfl⟩

/-- Resolving a public id changes no stamp, if no open stamp has one of its UUIDs. -/
theorem ends_resolve (region : Nid → Prop) {id : PublicId} (h : s.spines.Serves content)
    (hs : Stamped drawn known s.registry content) (hknown : ∀ uuid ∈ id.uuids, known uuid)
    (hid : ∀ uuid ∈ id.uuids, ∀ nid history, s.registry.nid? uuid = some nid →
      storedIn? content nid = some history → history.current.isUncommitted = false) :
    Ends (resolve id) s
      (fun nid t => ∃ registry, s.registry.resolve id = .ok (nid, registry) ∧
        t = { s with registry } ∧ Alters drawn known region s content t content)
      fun _ t => s = t := by
  refine (ends_resolve_registry s id).mono ?_ fun _ _ hfailed => hfailed.2
  rintro nid _ ⟨registry, hresolve, rfl⟩
  refine ⟨registry, hresolve, rfl, ⟨registry, s.spines, rfl⟩, h, ?_, .refl⟩
  exact hs.resolve hresolve hknown fun uuid huuid history => hid uuid huuid nid history

/-- Creating a stamp leaves every stamp as it is. A stamp under a new UUID has the path that it was
created on. -/
theorem ends_createStamp (h : s.spines.Serves content)
    (hs : Stamped drawn known s.registry content) (hknown : known uuid)
    (hnew : drawn uuid → s.registry.nid? uuid = none)
    (hfields : fields.isUncommitted = true → drawn uuid) (hpath : region fields.path) :
    Ends (createStamp fields uuid) s
      (fun nid t => ∃ content', Alters drawn known region s content t content' ∧
        Extends content content' ∧ (s.registry.nid? uuid = none → LiesIn region content' nid))
      fun _ t => ∃ content', Alters drawn known region s content t content' ∧
        Extends content content' := by
  have hsame : Extends content content := fun _ _ hfound => hfound
  have hid : Ends (outcome (PublicId.ofUuid uuid)) s (fun id t => id.uuids = [uuid] ∧ s = t)
      fun _ t => ∃ content', Alters drawn known region s content t content' ∧
        Extends content content' :=
    ends_outcome (fun id hofUuid => ⟨Registry.uuids_of_ofUuid hofUuid, rfl⟩)
      fun _ _ => ⟨content, alters_self h hs, hsame⟩
  refine hid.bind ?_
  rintro id _ ⟨huuids, rfl⟩
  have hresolved : Ends (resolve id) s
      (fun nid t => ∃ registry, s.registry.resolve id = .ok (nid, registry) ∧
        t = { s with registry } ∧ Alters drawn known region s content t content)
      fun _ t => s = t := by
    refine ends_resolve region h hs ?_ ?_
    · rw [huuids, List.forall_mem_singleton]
      exact hknown
    · rw [huuids, List.forall_mem_singleton]
      exact fun nid history => hs.closed_of_nid? hnew
  refine (hresolved.mono (fun _ _ hpost => hpost) ?_).bind ?_
  · rintro _ _ rfl
    exact ⟨content, alters_self h hs, hsame⟩
  rintro nid t ⟨registry, hresolve, rfl, ht⟩
  obtain ⟨hstamped, hclosed⟩ := hs.create hresolve huuids hknown hnew hfields
  have hresolves := Registry.resolves_of_resolve hresolve
  have hrevisions : Revisions region content (offering content nid fields) := by
    refine .single (.offered (hresolves.allocated hs.consistent).1 (hs.single nid) ?_ hpath)
    intro history hhistory hopen
    rw [hclosed history hhistory] at hopen
    cases hopen
  have hoffered := ends_offerFields ht.serves nid fields (hs.single nid)
  refine (hoffered.weaken fun _ u hu =>
    ⟨content, ht.trans (hu.alters ht.stamped .refl), hsame⟩).bind ?_
  rintro current u ⟨-, hu⟩
  have halters := ht.trans (hu.alters hstamped hrevisions)
  have hextends : Extends content (offering content nid fields) := extends_offering hclosed
  dsimp only
  split
  · exact ends_throw_bind ⟨_, halters, hextends⟩
  · refine ends_pure ⟨_, halters, hextends, fun hunused => ?_⟩
    refine LiesIn.revisions (fun found hfound => ?_) hrevisions
    rw [StampFields.storedIn?, hs.unstored_of_resolve hresolve huuids hunused] at hfound
    cases hfound

/-- Recording a committed stamp leaves every stamp as it is. Its UUID is a new one, or one that
follows from the fields and was not drawn. -/
theorem ends_commitStamp {fresh : Uuid} (h : s.spines.Serves content)
    (hs : Stamped drawn known s.registry content) (hknown : known (s.stampUuid fields fresh))
    (hnew : drawn (s.stampUuid fields fresh) →
      s.registry.nid? (s.stampUuid fields fresh) = none) (hpath : region fields.path) :
    Ends (commitStamp fields fresh) s
      (fun _ t => ∃ content', Alters drawn known region s content t content' ∧
        Extends content content')
      fun _ t => ∃ content', Alters drawn known region s content t content' ∧
        Extends content content' := by
  rw [commitStamp]
  split
  · exact ends_throw_bind ⟨content, alters_self h hs, fun _ _ hfound => hfound⟩
  · rename_i htime
    have hopen : fields.isUncommitted = true → drawn (s.stampUuid fields fresh) := by
      -- No open stamp has an ordinary time.
      intro hopen
      simp only [StampFields.isUncommitted, Bool.and_eq_true] at hopen
      simp [Time.isSentinel, hopen.2] at htime
    refine (ends_createStamp h hs hknown hnew hopen hpath).mono ?_ fun _ _ hpost => hpost
    rintro nid t ⟨content', halters, hextends, -⟩
    exact ⟨content', halters, hextends⟩

/-! ## Components -/

/-- A store differs from another one in payloads that are no stamps, for versions under stamps of a
region. -/
def Records (region : Nid → Prop) (s : Store) (content : Nid → Option Bytes) (t : Store) : Prop :=
  ∃ content', s.Serving content' t ∧
    (∀ nid, storedIn? content' nid = storedIn? content nid) ∧ Revisions region content content'

private theorem Serving.records (h : s.Serving content t) : s.Records region content t :=
  ⟨content, h, fun _ => rfl, .refl⟩

/-- Recording a version changes no stamp. -/
theorem ends_appendVersion (h : s.spines.Serves content) (nid : Nid) (kind : ComponentKind)
    (version : Version) (hregion : LiesIn region content version.stamp) :
    Ends (appendVersion nid kind version) s (fun _ t => s.Records region content t)
      fun _ t => s.Records region content t := by
  refine ((ends_stamp h version.stamp).weaken fun _ _ ht => ht.2.records).bind ?_
  rintro fields t ⟨⟨history, hhistory, rfl⟩, ht⟩
  have hstored := storedIn?_of_history hhistory
  refine ((ends_merge ht.serves nid _ _).weaken fun _ _ hu =>
    (ht.trans hu.2).records).bind ?_
  rintro stored u ⟨rfl, hu⟩
  have hpost : s.Records region content u :=
    ⟨_, ht.trans hu, fun other => storedIn?_recording ..,
      .single (.recorded hstored (hregion _ hstored) nid kind)⟩
  have hdecoded {x : Except DecodeError Chronology} :
      Ends (outcome x) u (fun _ v => s.Records region content v)
        fun _ v => s.Records region content v :=
    ends_outcome (fun _ _ => hpost) fun _ _ => hpost
  refine hdecoded.bind fun chronology v hv => ?_
  dsimp only
  split
  · exact ends_throw_bind hv
  · exact ends_pure hv

/-- A chronology is answered as it is served. -/
theorem ends_chronology (h : s.spines.Serves content) (nid : Nid) :
    Ends (chronology nid) s
      (fun c t => Chronology.decoded? (content nid) = some c ∧ s.Serving content t)
      fun _ t => s.Serving content t := by
  refine ((ends_lookup h nid).weaken fun _ _ hnever => hnever.elim).bind ?_
  rintro payload? t ⟨rfl, ht⟩
  cases content nid with
  | none => exact ends_throw ht
  | some payload =>
    refine ends_outcome (fun c hdecode => ⟨?_, ht⟩) fun _ _ => ht
    rw [Chronology.decoded?, Option.bind_some, hdecode]
    rfl

/-- A version that is retracted leaves stamps as they should be, and the caches are reset. If it
fails, they are not, and no stamp has changed as long as that of the version has not. -/
theorem ends_cancelVersion {fresh : Uuid} (h : s.spines.Serves content)
    (hs : Stamped drawn known s.registry content) (hknown : known fresh)
    (hnew : s.registry.nid? fresh = none) (nid stampNid : Nid)
    (hregion : LiesIn region content stampNid) :
    Ends (cancelVersion nid stampNid fresh) s
      (fun _ t => ∃ u content', Alters drawn known region s content u content' ∧
        t = (resetCaches u).2)
      fun _ t => ∃ content', Alters drawn known region s content t content' ∧
        (content' stampNid = content stampNid → Extends content content') := by
  have hsame {t : Store} (ht : s.Serving content t) : ∃ content',
      Alters drawn known region s content t content' ∧
        (content' stampNid = content stampNid → Extends content content') :=
    ⟨content, ht.alters hs .refl, fun _ _ _ hfound => hfound⟩
  refine ((ends_chronology h nid).weaken fun _ _ => hsame).bind ?_
  rintro recorded t ⟨-, ht⟩
  cases recorded.version? stampNid with
  | none => exact ends_throw (hsame ht)
  | some version =>
    refine ((ends_stamp ht.serves stampNid).weaken fun _ _ hu => hsame (ht.trans hu.2)).bind ?_
    rintro fields u ⟨⟨history, hhistory, rfl⟩, hu⟩
    have hpath : region history.current.path := hregion _ (storedIn?_of_history hhistory)
    have hrest {content' : Nid → Option Bytes} {v : Store} (hv : s.Serving content' v)
        (hstamped : Stamped drawn known s.registry content')
        (hrevisions : Revisions region content content') {kept : StampFields}
        (hstored : StampFields.storedIn? content' stampNid = some kept)
        (hkept : StampFields.storedIn? content stampNid = some kept → content' = content) :
        Ends (do
          let canceled ← createStamp history.current.canceled fresh
          let _ ← appendVersion nid recorded.kind { stamp := canceled, fields := version.fields }
          infallible resetCaches
          return canceled) v
        (fun _ t => ∃ u content', Alters drawn known region s content u content' ∧
          t = (resetCaches u).2)
        fun _ t => ∃ content', Alters drawn known region s content t content' ∧
          (content' stampNid = content stampNid → Extends content content') := by
      have hunused : v.registry.nid? fresh = none := hv.registry_eq ▸ hnew
      have hopen : history.current.canceled.isUncommitted = true → drawn fresh := by
        intro hopen
        rw [StampFields.isUncommitted_canceled] at hopen
        cases hopen
      -- What only adds stamps leaves that of the version, so this one was not canceled either.
      have hextends {last : Nid → Option Bytes} (hadds : Extends content' last)
          (hlast : last stampNid = content stampNid) : Extends content last := by
        have hfound := hadds stampNid kept hstored
        rw [StampFields.storedIn?, storedIn?, hlast] at hfound
        rwa [hkept hfound] at hadds
      refine ((ends_createStamp hv.serves (hv.registry_eq ▸ hstamped) hknown (fun _ => hunused)
        hopen hpath).weaken ?_).bind ?_
      · rintro _ w ⟨created, hw, hadds⟩
        exact ⟨created, (hv.alters hstamped hrevisions).trans hw, hextends hadds⟩
      rintro canceled w ⟨created, hw, hadds, hlies⟩
      have happended {x : Store} (hx : w.Records region created x) : ∃ appended,
          Alters drawn known region s content x appended ∧ Extends content' appended := by
        obtain ⟨appended, hx, hsame, hrecorded⟩ := hx
        refine ⟨appended, ((hv.alters hstamped hrevisions).trans hw).trans
          (hx.alters (hw.stamped.congr hsame) hrecorded), fun stamp fields hfields => ?_⟩
        exact extends_of_storedIn?_eq hsame stamp fields (hadds stamp fields hfields)
      refine ((ends_appendVersion hw.serves nid recorded.kind _ (hlies hunused)).weaken ?_).bind ?_
      · intro _ x hx
        obtain ⟨appended, halters, hadds'⟩ := happended hx
        exact ⟨appended, halters, hextends hadds'⟩
      intro _ x hx
      obtain ⟨appended, halters, -⟩ := happended hx
      have hreset : Ends (infallible resetCaches) x
          (fun _ t => ∃ u content', Alters drawn known region s content u content' ∧
            t = (resetCaches u).2)
          fun _ t => ∃ content', Alters drawn known region s content t content' ∧
            (content' stampNid = content stampNid → Extends content content') :=
        ends_infallible ⟨x, appended, halters, rfl⟩
      exact hreset.bind fun _ _ hpost => ends_pure hpost
    have hfound := ht.trans hu
    dsimp only
    split
    · have hcanceled := ends_cancelMember hfound.serves (hfound.registry_eq ▸ hs) stampNid hregion
      refine (hcanceled.weaken fun _ _ hv => hsame (hfound.trans hv)).bind ?_
      rintro _ v ⟨content', hv, hstamped, hrevisions, kept, hstored, hkept⟩
      exact hrest (hfound.trans hv) (hfound.registry_eq ▸ hstamped) hrevisions hstored hkept
    · exact hrest hfound hs .refl (storedIn?_of_history hhistory) fun _ => rfl

end Store

end Chronicle
