import Chronicle.Proofs.Store.Retraction

/-!
# Retractions that fail

A retraction that fails is not taken back: a stamp that was canceled by then stays canceled, and a
stamp that was created stays. What can be left behind is confined to the three nids that the steps
write to. The second step fails only where something else is stored for the nid of the new stamp,
or where no nid is left, and the third one only where the chronology is not that of the component
or has no room. So where nothing of this is in the way, a retraction fails before its first step or
not at all.

A failed retraction does not reset the caches either. As long as the stamp of the version was not
touched, only stamps were added, and for that no cache has to be reset. Once it was, calculators
that have seen the stamp open go on to answer as if it were, until the caches are reset.
-/

namespace Chronicle

open StampHistory (storedIn?)

variable {l m n o : Ledger} {nid stamp copy other : Nid} {fresh : Uuid} {recorded : Chronology}
  {version : Version} {history : StampHistory}

/-! ## Copies that are not taken -/

/-- A chronology that has no version under the stamp of a copy is found with the copy once it took
it. -/
theorem records_append {copied : Version} (hown : recorded.nid = nid)
    (hnew : recorded.version? copied.stamp = none) :
    Store.records (recorded.append copied) nid copied = true := by
  have hversion := Chronology.version?_append recorded copied copied.stamp
  rw [hnew, if_pos rfl, Option.none_or] at hversion
  simp [Store.records, Chronology.nid_append, hown, hversion]

/-- A chronology that took a copy is read with it if four bytes count its versions. -/
theorem Copies.decoded {copied : Version} (h : Copies nid recorded copied n o)
    (hown : recorded.nid = nid) (hrecorded : Chronology.decoded? (n.content nid) = some recorded)
    (hlength : copied.fields.length < UInt32.size) (hroom : recorded.size + 1 < UInt32.size) :
    Chronology.decoded? (o.content nid) = some (recorded.append copied) := by
  obtain ⟨payload, -, hdecode⟩ := Chronology.decoded?_eq_some_iff.mp hrecorded
  have hfits := Chronology.fits_of_decode hdecode
  refine Chronology.decoded?_eq_some_iff.mpr ⟨_, h.own hown, Chronology.decode_encode ⟨?_, ?_⟩⟩
  · cases hversion : recorded.version? copied.stamp with
    | some found =>
      rw [Chronology.append_of_recorded (by rw [hversion]; rfl)]
      exact hfits.length_lt
    | none =>
      rw [Chronology.versions_append_of_new hversion, List.length_append]
      exact hroom
  · intro v hv
    rcases (Chronology.takes_append recorded copied).mem v hv with rfl | hbefore
    · exact hlength
    · exact hfits.fields_lt v hbefore

/-- A chronology that has a version under the stamp of a copy stays, to the last byte. -/
theorem Copies.content_of_recorded {copied : Version} (h : Copies nid recorded copied n o)
    (hown : recorded.nid = nid) (hrecorded : Chronology.decoded? (n.content nid) = some recorded)
    (hsome : (recorded.version? copied.stamp).isSome) : o.content nid = n.content nid := by
  obtain ⟨payload, hpayload, hdecode⟩ := Chronology.decoded?_eq_some_iff.mp hrecorded
  rw [h.own hown, Chronology.append_of_recorded hsome, hpayload,
    (Chronology.exact_read.decode_eq_ok_iff.mp hdecode).2]

/-- A copy is refused where it does not belong, where its stamp has a version, or for want of room,
and only in the last case the chronology is not what it was. -/
theorem Copies.refused {copied : Version} (h : Copies nid recorded copied n o)
    (hrecorded : Chronology.decoded? (n.content nid) = some recorded)
    (hlength : copied.fields.length < UInt32.size)
    (hrefused : ∀ c, Chronology.decoded? (o.content nid) = some c →
      Store.records c nid copied = false) :
    ((recorded.nid ≠ nid ∨ (recorded.version? copied.stamp).isSome) ∧
        o.content nid = n.content nid) ∨
      recorded.size + 1 = UInt32.size := by
  by_cases hown : recorded.nid = nid
  · cases hversion : recorded.version? copied.stamp with
    | some found =>
      have hsome : (recorded.version? copied.stamp).isSome := by rw [hversion]; rfl
      exact Or.inl ⟨Or.inr rfl, h.content_of_recorded hown hrecorded hsome⟩
    | none =>
      refine Or.inr ?_
      by_contra hroom
      obtain ⟨payload, -, hdecode⟩ := Chronology.decoded?_eq_some_iff.mp hrecorded
      have hlt : recorded.size < UInt32.size := (Chronology.fits_of_decode hdecode).length_lt
      have hfound := hrefused _ (h.decoded hown hrecorded hlength (by omega))
      rw [records_append hown hversion] at hfound
      cases hfound
  · exact Or.inl ⟨Or.inl hown, h.foreign hown⟩

/-! ## What is left behind -/

/-- What a failed retraction may leave for a nid. -/
inductive Residue (nid stamp : Nid) (fresh : Uuid) (recorded : Chronology) (history : StampHistory)
    (registry : Registry) (before after : Nid → Option Bytes) (other : Nid) : Prop
  | same (h : after other = before other)
  /-- The stamp of the version was open and is canceled. -/
  | closed (hother : other = stamp) (hopen : history.current.isUncommitted = true)
      (h : after other = some (StampHistory.encode
        { earlier := history.versions, current := history.current.canceled }))
  /-- The canceled fields were offered to the nid of the new stamp. -/
  | created (hother : registry.nid? fresh = some other)
      (h : after other = some (StampHistory.offered history.current.canceled (before other)))
  /-- The chronology has one version more than four bytes count. -/
  | full (hother : other = nid) (hfull : recorded.size + 1 = UInt32.size)

/-- What canceling leaves is a residue. -/
theorem Cancels.residue {registry : Registry} (h : Cancels stamp history l m)
    {after : Nid → Option Bytes} (hafter : after other = m.content other) :
    Residue nid stamp fresh recorded history registry l.content after other := by
  by_cases hother : other = stamp
  · subst hother
    cases hopen : history.current.isUncommitted with
    | true => exact .closed rfl hopen (hafter.trans (h.opened hopen))
    | false => exact .same (hafter.trans (congrFun (h.closed hopen) other))
  · exact .same (hafter.trans (h.others other hother))

private theorem Creates.nid?_eq {uuid : Uuid} {fields : StampFields}
    (h : Creates uuid fields m copy n) :
    n.registry.nid? uuid = some copy := by
  obtain ⟨id, huuids, hresolve⟩ := h.resolved
  exact (Registry.resolves_of_resolve hresolve).nid?_single huuids

/-- What creating the new stamp leaves is a residue. -/
theorem Creates.residue (h : Creates fresh history.current.canceled m copy n)
    (hhistory : storedIn? l.content stamp = some history) (hcancels : Cancels stamp history l m)
    {after : Nid → Option Bytes} (hafter : after other = n.content other) :
    Residue nid stamp fresh recorded history n.registry l.content after other := by
  by_cases hstamp : other = stamp
  · refine hcancels.residue ?_
    rw [hafter, h.content_eq, hstamp, hcancels.offering_eq hhistory]
  · by_cases hcopy : other = copy
    · subst hcopy
      refine .created h.nid?_eq ?_
      rw [hafter, h.content_eq, offering, replaced, if_pos rfl, hcancels.others other hstamp]
    · refine .same ?_
      rw [hafter, h.content_ne hcopy, hcancels.others other hstamp]

namespace Store

variable {s t opened : Store} {config : Config} {medium next : Medium} {rooted : Bool}

/-- A failed retraction leaves nothing behind, or it found what it takes and got stuck later. -/
theorem FailsToRetract.residue (h : FailsToRetract config nid stamp fresh l t) :
    ∃ m, t.Bears config m ∧ (m = l ∨ ∃ recorded version history,
      Retractable l.content nid stamp recorded version history ∧ ∀ other,
        Residue nid stamp fresh recorded history m.registry l.content m.content other) := by
  cases h with
  | unchanged ht => exact ⟨l, ht, Or.inl rfl⟩
  | @closed recorded version history m hfound hclosed _ ht =>
    have hcancels := hclosed.cancels hfound.history_eq
    exact ⟨m, ht, Or.inr ⟨recorded, version, history, hfound, fun _ => hcancels.residue rfl⟩⟩
  | @created recorded version history copy m n hfound hclosed hcreates _ ht =>
    have hcancels := hclosed.cancels hfound.history_eq
    exact ⟨n, ht, Or.inr ⟨recorded, version, history, hfound, fun _ =>
      hcreates.residue hfound.history_eq hcancels rfl⟩⟩
  | @recorded recorded version history copy m n o hfound hclosed hcreates hrecorded hrefused ht =>
    have hcancels := hclosed.cancels hfound.history_eq
    have hcopies := hfound.copies hcancels hcreates hrecorded
    refine ⟨o, ht, Or.inr ⟨recorded, version, history, hfound, fun other => ?_⟩⟩
    rw [hcopies.registry_eq]
    by_cases hother : other = nid
    · subst hother
      have hread := hfound.reread hcancels hcreates
      have hlength := Chronology.length_fields_lt hread hfound.version_eq
      obtain ⟨-, hsame⟩ | hfull := hcopies.refused hread hlength hrefused
      · exact hcreates.residue hfound.history_eq hcancels hsame
      · exact .full rfl hfull
    · exact hcreates.residue hfound.history_eq hcancels (hcopies.others other hother)

/-- Nothing is in the way of a retraction: a nid without a payload is there for the new stamp, the
chronology is that of the component, and there is room for an entry and for a version. -/
structure Unobstructed (registry : Registry) (content : Nid → Option Bytes) (nid stamp : Nid)
    (fresh : Uuid) : Prop where
  free : ∃ id copy after, id.uuids = [fresh] ∧ registry.resolve id = .ok (copy, after) ∧
    content copy = none ∧ ∀ recorded, Chronology.decoded? (content nid) = some recorded →
      recorded.version? copy = none
  own : ∀ recorded, Chronology.decoded? (content nid) = some recorded →
    recorded.nid = nid ∧ recorded.size + 1 < UInt32.size
  room : ∀ history, storedIn? content stamp = some history →
    history.versions.length + 1 < UInt32.size

/-- The nid of the new stamp is the one that is there for it. -/
theorem Unobstructed.free_of_creates (h : Unobstructed l.registry l.content nid stamp fresh)
    {fields : StampFields} (hcancels : Cancels stamp history l m)
    (hcreates : Creates fresh fields m copy n) : l.content copy = none ∧
      ∀ recorded, Chronology.decoded? (l.content nid) = some recorded →
        recorded.version? copy = none := by
  obtain ⟨id, found, after, huuids, hresolve, hfree⟩ := h.free
  obtain ⟨id', huuids', hresolve'⟩ := hcreates.resolved
  rw [hcancels.registry_eq, PublicId.ext (huuids'.trans huuids.symm), hresolve, Except.ok.injEq,
    Prod.mk.injEq] at hresolve'
  exact hresolve'.1 ▸ hfree

/-- Where nothing is in the way, a retraction fails before its first step. -/
theorem FailsToRetract.bears_of_unobstructed (h : FailsToRetract config nid stamp fresh l t)
    (hfree : Unobstructed l.registry l.content nid stamp fresh) : t.Bears config l := by
  cases h with
  | unchanged ht => exact ht
  | @closed recorded version history m hfound hclosed hstuck ht =>
    -- The canceled entry is read back, and the UUID leads to a nid.
    have hcancels := hclosed.cancels hfound.history_eq
    obtain hnone | hid := hstuck
    · have hsome := hcancels.isSome_stored hfound.history_eq (hfree.room _ hfound.history_eq)
      rw [hnone] at hsome
      cases hsome
    · obtain ⟨id, _, _, huuids, hresolve, -⟩ := hfree.free
      exact absurd (hcancels.registry_eq ▸ hresolve) (hid id huuids _)
  | @created recorded version history copy m n hfound hclosed hcreates hother ht =>
    -- The stamp starts at a nid where nothing is stored.
    have hcancels := hclosed.cancels hfound.history_eq
    obtain ⟨hnone, -⟩ := hfree.free_of_creates hcancels hcreates
    have hstamp : copy ≠ stamp := by
      rintro rfl
      obtain ⟨_, hpayload, -⟩ := exists_of_storedIn? hfound.history_eq
      rw [hnone] at hpayload
      cases hpayload
    rw [← hcancels.others copy hstamp] at hnone
    refine absurd rfl (hother (.start history.current.canceled) ?_)
    rw [hcreates.content_eq, storedIn?_offering_of_none hnone]
  | @recorded recorded version history copy m n o hfound hclosed hcreates hrecorded hrefused ht =>
    have hcancels := hclosed.cancels hfound.history_eq
    have hcopies := hfound.copies hcancels hcreates hrecorded
    have hread := hfound.reread hcancels hcreates
    -- The chronology takes the copy.
    obtain ⟨hown, hroom⟩ := hfree.own recorded hfound.recorded_eq
    have hnew := (hfree.free_of_creates hcancels hcreates).2 recorded hfound.recorded_eq
    have hlength := Chronology.length_fields_lt hread hfound.version_eq
    obtain ⟨hforeign | hsome, -⟩ | hfull := hcopies.refused hread hlength hrefused
    · exact absurd hown hforeign
    · rw [hnew] at hsome
      cases hsome
    · omega

/-! ## Caches -/

/-- Every calculator answers what one without any memory does: those that the pool holds, however
old they are, and those that the store provides. -/
structure AnswersAfresh (s : Store) : Prop where
  held : ∀ handle c question, s.pool.calculators[handle.number]? = some c →
    (answer handle question s).1 =
      (question.ask s.scene (Calculator.make c.coordinate s.scene) s.spines).1.1
  provided : ∀ coordinate question,
    (answer (calculator coordinate s).1 question (calculator coordinate s).2).1 =
      (question.ask s.scene (Calculator.make coordinate s.scene) s.spines).1.1

/-- A store that coheres answers afresh. -/
theorem Coheres.answersAfresh {past : List Operation} {content : Nid → Option Bytes}
    (h : Coheres config past content s) : s.AnswersAfresh := by
  constructor
  · intro handle c question hc
    refine h.answer_eq ?_ question
    rw [CalculatorPool.views, List.getElem?_map, hc, Option.map_some]
  · intro coordinate question
    obtain ⟨hprovided, -, hview⟩ := h.calculator coordinate
    obtain ⟨-, hgeneration, -⟩ := h.pool.provide coordinate
    have hscene : (Store.calculator coordinate s).2.scene = s.scene :=
      congrArg (Scene.mk s.paths) hgeneration
    have hanswer := hprovided.answer_eq hview question
    rw [hscene] at hanswer
    exact hanswer

/-- Once the caches are reset, every calculator is as it should be, whatever a failed retraction has
left behind. -/
theorem Coheres.reset_of_failed {past : List Operation} {content : Nid → Option Bytes}
    {error : StoreError} (h : Coheres config past content s)
    (hapart : Apart config past (.cancelVersion nid stamp fresh))
    (hrun : cancelVersion nid stamp fresh s = .error error t) :
    ∃ content',
      Coheres config (past ++ [.cancelVersion nid stamp fresh]) content' (resetCaches t).2 := by
  have h' := h.weaken (.cancelVersion nid stamp fresh)
  have hfresh : fresh ∈ (Operation.cancelVersion nid stamp fresh).drawn config :=
    List.mem_singleton_self fresh
  have hlies : LiesIn (fun _ => True) content stamp := fun _ _ => trivial
  have hends := ends_cancelVersion h'.serves h'.stamped (known_append (Or.inr (Or.inl hfresh)))
    (h.nid?_of_drawn hapart hfresh) nid stamp hlies
  obtain ⟨content', halters, -⟩ := hends.of_error hrun
  obtain ⟨content'', hcoheres, -⟩ := h'.reset halters
  exact ⟨content'', hcoheres⟩

/-! ## The whole of it -/

/-- **What a failed retraction leaves behind.** Whatever was done with a store before, payloads
merged past it included, a retraction that fails has left every payload as it was, or it found the
chronology, the version and the history of its stamp, and then: the stamp can have taken one
canceled entry if it was open, a canceled stamp can have been offered to the nid of the new UUID,
the chronology can have outgrown its count, and that is all. Where nothing was in the way, every
payload is as it was.

In a run on a store that was empty, as long as no payload is merged past it, the UUIDs that are
drawn differ from all others, nobody names the UUID of an existing stamp and no other stamp was
canceled for a version that could not be retracted: if the stamp of the version was not touched,
every calculator goes on to answer afresh, whatever follows; and if it was, the same holds from the
moment on at which the caches are reset. -/
theorem retraction_failed (hmedium : medium.Legible)
    (hopen : overMedium config rooted medium = .ok opened next) {before : List Operation}
    {error : StoreError}
    (hrun : cancelVersion nid stamp fresh (opened.performAll before) = .error error t) :
    let s := opened.performAll before
    let payload (s : Store) (nid : Nid) := (SpineStore.lookup nid s.spines).1
    (payload t = payload s ∨ ∃ recorded version history,
        Retractable (payload s) nid stamp recorded version history ∧ ∀ other,
          Residue nid stamp fresh recorded history t.registry (payload s) (payload t) other) ∧
      (Unobstructed s.registry (payload s) nid stamp fresh → payload t = payload s) ∧
      (medium.backing.Blank → opened.Admits before → ∀ after,
        DrawsApart config (before ++ .cancelVersion nid stamp fresh :: after) →
        (payload t stamp = payload s stamp → t.Admits after →
          (t.performAll after).AnswersAfresh) ∧
        ((resetCaches t).2.Admits after → ((resetCaches t).2.performAll after).AnswersAfresh)) := by
  intro s payload
  obtain ⟨l, hs⟩ := bears_performAll hmedium hopen before
  have hbefore : payload s = l.content := funext hs.lookup_eq
  have hfails := (retracts_cancelVersion hs nid stamp fresh).of_error hrun
  refine ⟨?_, fun hfree => ?_, fun hblank hadmits after hdraws => ?_⟩
  · obtain ⟨m, ht, hresidue⟩ := hfails.residue
    have hleft : payload t = m.content := funext ht.lookup_eq
    rw [hbefore, hleft, ht.registry_eq]
    exact hresidue.imp_left (congrArg Ledger.content)
  · rw [hbefore, hs.registry_eq] at hfree
    rw [hbefore]
    exact funext (hfails.bears_of_unobstructed hfree).lookup_eq
  · have hopened := (opens_of_overMedium hopen).coheres hblank
    obtain ⟨⟨_, hcoheres⟩, -⟩ :=
      hopened.run hadmits (.cancelVersion nid stamp fresh :: after) hdraws
    have hperformed : (Operation.cancelVersion nid stamp fresh).perform s = t := by
      rw [Operation.perform, attempt, hrun]
    refine ⟨fun hkept hafter => ?_, fun hafter => ?_⟩
    · -- A stamp that was not touched makes the retraction one more admissible operation.
      have hadmits' : s.Admits (.cancelVersion nid stamp fresh :: after) := by
        refine ⟨fun error' t' hrun' => ?_, hperformed.symm ▸ hafter⟩
        rw [hrun] at hrun'
        cases hrun'
        exact hkept
      obtain ⟨⟨_, hlast⟩, -⟩ := hcoheres.run hadmits' [] (by simpa using hdraws)
      rw [← hperformed]
      exact hlast.answersAfresh
    · obtain ⟨_, hreset⟩ := hcoheres.reset_of_failed (hdraws.apart after) hrun
      obtain ⟨⟨_, hlast⟩, -⟩ := hreset.run hafter [] (by simpa using hdraws)
      exact hlast.answersAfresh

/-- The nid of the new stamp is taken by a component. The stamp of its version is committed and
stays, so that every calculator goes on to answer afresh. -/
theorem retraction_failed_committed :
    ∃ opened next before component member fresh error t,
      overMedium { spineSize := 4 } false Medium.inMemory = .ok opened next ∧
      let s := opened.performAll before
      cancelVersion component member fresh s = .error error t ∧
      (∀ other, other ≠ component →
        (SpineStore.lookup other t.spines).1 = (SpineStore.lookup other s.spines).1) ∧
      t.AnswersAfresh := by
  let path : Nid := ⟨-2147483642⟩
  let member : Nid := ⟨-2147483641⟩
  let component : Nid := ⟨-2147483640⟩
  let before : List Operation :=
    [.resolveAliases [⟨1⟩], .join { name := "work" } .active path path path ⟨2⟩,
      .appendVersion component .concept ⟨member, [1]⟩,
      .commit { name := "work", stamps := [member] } 7]
  obtain ⟨opened, next, hopen, hunknown, hfields, hfails, hnid⟩ :
      ∃ opened next, overMedium { spineSize := 4 } false Medium.inMemory = .ok opened next ∧
        opened.registry.nid? ⟨1⟩ = none ∧
        let s := opened.performAll before
        StampFields.storedIn? (fun nid => (SpineStore.lookup nid s.spines).1) member =
          some ⟨.active, 7, path, path, path⟩ ∧
        let run := attempt (cancelVersion component member ⟨3⟩) s
        run.1 = .error (.decode (.unknownTag 0x43)) ∧ run.2.registry.nid? ⟨3⟩ = some component :=
    ⟨_, _, rfl, by decide +kernel, by decide +kernel, by decide +kernel, by decide +kernel⟩
  have hadmits : opened.Admits before :=
    ⟨proper_of_unknown hunknown, trivial, trivial, trivial, trivial⟩
  have hdraws : DrawsApart { spineSize := 4 }
      (before ++ [.cancelVersion component member ⟨3⟩]) := by
    refine ⟨by decide, by decide, fun uuid huuid status => ?_⟩
    rcases List.mem_pair.mp huuid with rfl | rfl <;> cases status <;> decide
  obtain ⟨hleft, -, hcaches⟩ := retraction_failed (.blank Backing.blank_inMemory) hopen
    (error_of_attempt hfails)
  have hkept (other : Nid) (hother : other ≠ component) : (SpineStore.lookup other
      (attempt (cancelVersion component member ⟨3⟩) (opened.performAll before)).2.spines).1 =
      (SpineStore.lookup other (opened.performAll before).spines).1 := by
    obtain hsame | ⟨recorded, version, history, hfound, hresidue⟩ := hleft
    · exact congrFun hsame other
    · cases hresidue other with
      | same h => exact h
      | closed _ hdraft _ =>
        rw [storedIn?_of_history hfound.history_eq, Option.some.injEq] at hfields
        rw [hfields] at hdraft
        cases hdraft
      | created hcopy _ =>
        rw [hnid, Option.some.injEq] at hcopy
        exact absurd hcopy.symm hother
      | full hnid _ => exact absurd hnid hother
  exact ⟨opened, next, before, component, member, ⟨3⟩, _, _, hopen, error_of_attempt hfails, hkept,
    (hcaches Backing.blank_inMemory hadmits [] hdraws).1 (hkept member (by decide)) trivial⟩

/-- The stamp of a version is canceled although the version is not retracted, and the caches are not
reset: a coordinate that has seen the version goes on to see it until they are. -/
theorem retraction_not_undone :
    ∃ opened next before component member fresh error t coordinate,
      overMedium { spineSize := 4 } false Medium.inMemory = .ok opened next ∧
      let s := opened.performAll before
      cancelVersion component member fresh s = .error error t ∧
      (SpineStore.lookup member t.spines).1 ≠ (SpineStore.lookup member s.spines).1 ∧
      (latest coordinate component t).1 = .single ⟨member, [1]⟩ ∧
      (latest coordinate component (resetCaches t).2).1 = .absent := by
  let path : Nid := ⟨-2147483642⟩
  let member : Nid := ⟨-2147483641⟩
  let component : Nid := ⟨-2147483640⟩
  let coordinate : Coordinate :=
    { allowed := StatusSet.activeOnly, path, time := Time.latest, priority := [], excluded := ∅,
      allowed_nonempty := by decide, canceled_notMem := by decide, priority_nodup := by decide }
  let before : List Operation :=
    [.resolveAliases [⟨1⟩], .join { name := "work" } .active path path path ⟨2⟩,
      .appendVersion component .concept ⟨member, [1]⟩, .calculator coordinate,
      .ask { coordinate, number := 0 } (.latest component)]
  obtain ⟨opened, next, hopen, hfails, hchanged, hstale, hreset⟩ :
      ∃ opened next, overMedium { spineSize := 4 } false Medium.inMemory = .ok opened next ∧
        let s := opened.performAll before
        let run := attempt (cancelVersion component member ⟨3⟩) s
        run.1 = .error (.decode (.unknownTag 0x43)) ∧
          (SpineStore.lookup member run.2.spines).1 ≠ (SpineStore.lookup member s.spines).1 ∧
          (latest coordinate component run.2).1 = .single ⟨member, [1]⟩ ∧
          (latest coordinate component (resetCaches run.2).2).1 = .absent :=
    ⟨_, _, rfl, by decide +kernel, by decide +kernel, by decide +kernel, by decide +kernel⟩
  exact ⟨opened, next, before, component, member, ⟨3⟩, _, _, coordinate, hopen,
    error_of_attempt hfails, hchanged, hstale, hreset⟩

end Store

end Chronicle
