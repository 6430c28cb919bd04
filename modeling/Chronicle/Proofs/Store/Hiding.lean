import Chronicle.Proofs.Store.Isolation
import Chronicle.Proofs.Store.Retraction

/-!
# What retractions hide

No coordinate sees a canceled stamp. So a version disappears once its stamp is canceled, and that is
what a retraction does if the stamp is not committed. A committed stamp is final: the retraction
puts on record that the version was retracted, by a copy that nobody sees, and every coordinate is
answered as before. To hide a committed version takes a newer one.
-/

namespace Chronicle

open Chronology (versionsOf)
open StampFields (storedIn?)
open Calculator (presentRoute)

variable {content : Nid → Option Bytes} {nid stamp copy : Nid} {coordinate : Coordinate}
  {route : Route} {fields : StampFields}

/-- A canceled stamp is visible nowhere. -/
theorem View.not_visible_of_canceled (h : storedIn? content nid = some fields)
    (hcanceled : fields.isCanceled = true) :
    ¬ (View.over coordinate route content).Visible nid := by
  rintro ⟨found, reach, hfound, hsees⟩
  obtain rfl := Option.some.inj (h.symm.trans hfound)
  rw [hsees.not_canceled] at hcanceled
  cases hcanceled

/-- What is no stamp is visible nowhere. -/
theorem View.not_visible_of_none (h : storedIn? content nid = none) :
    ¬ (View.over coordinate route content).Visible nid := by
  rintro ⟨found, reach, hfound, -⟩
  cases h.symm.trans hfound

/-- The versions of a component that are stored are those of its chronology. -/
theorem versionsOf_of_storedIn? {c : Chronology}
    (h : Chronology.storedIn? content nid = some c) : versionsOf (content nid) = c.versions :=
  congrArg Chronology.recordedOf h

namespace Store

/-! ## Retractions of what is closed -/

section

variable {recorded : Chronology} {version : Version} {history : StampHistory}
  {before after : Nid → Option Bytes}

/-- The canceled stamp is the only one that is new or has other fields. -/
theorem Retraction.storedIn?_eq
    (h : Retraction nid stamp copy recorded version history before after)
    (hclosed : history.current.isUncommitted = false) {other : Nid} (hother : other ≠ copy) :
    storedIn? after other = storedIn? before other := by
  have hsame (hpayload : after other = before other) :
      storedIn? after other = storedIn? before other := by
    rw [storedIn?, storedIn?, StampHistory.storedIn?, StampHistory.storedIn?, hpayload]
  by_cases hnid : other = nid
  · subst hnid
    obtain ⟨c, hc, -⟩ := h.copied
    rw [storedIn?, storedIn?, storedIn?_of_chronology hc,
      storedIn?_of_chronology h.found.recorded_eq]
  · by_cases hstamp : other = stamp
    · subst hstamp
      exact hsame (h.closed hclosed)
    · exact hsame (h.others other hother hnid hstamp)

/-- Nobody sees the new stamp, neither before nor afterwards. -/
theorem Retraction.not_visible
    (h : Retraction nid stamp copy recorded version history before after) :
    ¬ (View.over coordinate route before).Visible copy ∧
      ¬ (View.over coordinate route after).Visible copy := by
  refine ⟨View.not_visible_of_none ?_, View.not_visible_of_canceled (storedIn?_of_history h.created)
    (StampFields.isCanceled_canceled history.current)⟩
  rw [storedIn?, StampHistory.storedIn?, h.unused]
  rfl

private theorem Retraction.candidate?_eq
    (h : Retraction nid stamp copy recorded version history before after)
    (hclosed : history.current.isUncommitted = false) :
    (View.over coordinate route after).candidate? =
      (View.over coordinate route before).candidate? := by
  funext v
  by_cases hcopy : v.stamp = copy
  · obtain ⟨hbefore, hafter⟩ : ¬ (View.over coordinate route before).Visible copy ∧
        ¬ (View.over coordinate route after).Visible copy := h.not_visible
    rw [View.candidate?_eq_none (hcopy ▸ hafter), View.candidate?_eq_none (hcopy ▸ hbefore)]
  · simp only [View.candidate?, View.over, h.storedIn?_eq hclosed hcopy]

/-- A component has the same candidates as before: the copy is none. -/
theorem Retraction.candidates_eq
    (h : Retraction nid stamp copy recorded version history before after)
    (hclosed : history.current.isUncommitted = false) (component : Nid) :
    (versionsOf (after component)).filterMap (View.over coordinate route after).candidate? =
      (versionsOf (before component)).filterMap
        (View.over coordinate route before).candidate? := by
  rw [h.candidate?_eq hclosed]
  by_cases hnid : component = nid
  · subst hnid
    obtain ⟨c, hc, -, -, hversions⟩ := h.copied
    have hunseen : (View.over coordinate route before).candidate? ⟨copy, version.fields⟩ = none :=
      View.candidate?_eq_none h.not_visible.1
    rw [versionsOf_of_storedIn? hc, versionsOf_of_storedIn? h.found.recorded_eq, hversions,
      List.filterMap_append, List.filterMap_cons, hunseen, List.filterMap_nil, List.append_nil]
  · by_cases hcopy : component = copy
    · subst hcopy
      rw [versionsOf_of_stamp h.created, h.unused]
      rfl
    · have hsame : after component = before component := by
        by_cases hstamp : component = stamp
        · subst hstamp
          exact h.closed hclosed
        · exact h.others component hcopy hnid hstamp
      rw [hsame]

/-- So every coordinate sees the same latest version of every component. -/
theorem Retraction.latest_eq (h : Retraction nid stamp copy recorded version history before after)
    (hclosed : history.current.isUncommitted = false) (component : Nid) :
    (View.over coordinate route after).latest (versionsOf (after component)) =
      (View.over coordinate route before).latest (versionsOf (before component)) := by
  rw [View.latest_eq_pick, View.latest_eq_pick, h.candidates_eq hclosed component]
  rfl

end

/-! ## Answers of new calculators -/

/-- Nothing becomes a path or an origin. -/
def unlinkingRules : Rules where
  stored := fun _ _ => True
  linked := fun _ _ => False
  identity := fun _ => True
  paths := fun _ => False
  spines := fun _ => True

private theorem invariant_paths (paths : PathGraph) :
    Invariant unlinkingRules fun s => s.paths = paths where
  change h hchange := by
    cases hchange with
    | linked hpath => exact hpath.elim
    | paths hrule => exact hrule.elim
    | _ => exact h
  stored _ _ _ := trivial
  resolved _ _ := trivial
  held _ _ := trivial
  spines _ _ _ := trivial

variable {s t opened : Store} {config : Config} {medium next : Medium} {rooted : Bool}
  {fresh : Uuid}

/-- A retraction changes no route. -/
theorem presentRoute_cancelVersion (h : cancelVersion nid stamp fresh s = .ok copy t)
    (coordinate : Coordinate) :
    presentRoute t.scene coordinate = presentRoute s.scene coordinate := by
  have hpaths : t.paths = s.paths :=
    (((invariant_paths s.paths).keeps_cancelVersion rfl nid stamp fresh).of_ok h).1.holds
  exact congrArg (PathGraph.route · coordinate.path coordinate.time) hpaths

/-- A new calculator answers the latest version that its coordinate sees. -/
theorem latest_over (hnew : s.pool.remembered.find? coordinate = none)
    (hserves : s.spines.Serves content) (component : Nid) :
    (latest coordinate component s).1 =
      (View.over coordinate (presentRoute s.scene coordinate) content).latest
        (versionsOf (content component)) :=
  (latest_new hnew hserves component).trans
    (Calculator.Reply.latest.inj (reply_latest coordinate _ content component))

/-- Nothing that is answered is canceled. -/
theorem stamp_ne_of_mem_latest (hnew : s.pool.remembered.find? coordinate = none)
    (hserves : s.spines.Serves content) (h : storedIn? content stamp = some fields)
    (hcanceled : fields.isCanceled = true) {component : Nid} {v : Version}
    (hv : v ∈ (latest coordinate component s).1.toList) : v.stamp ≠ stamp := by
  rintro rfl
  rw [latest_over hnew hserves] at hv
  have hvisible := (View.mem_front.mp (View.foremost_of_mem_latest hv)).2.visible
  exact View.not_visible_of_canceled h hcanceled hvisible

/-! ## What retractions hide -/

/-- **What a retraction hides.** Whatever was done with a store before, payloads merged past it
included: once a version was retracted whose stamp is not committed, no coordinate sees a version
with this stamp in any component. If the stamp is committed, and a UUID that named nothing was drawn
on a store that was empty and past which no payload was merged, every coordinate sees the same
latest version of every component as a new calculator saw before. -/
theorem retraction_hides (hmedium : medium.Legible)
    (hopen : overMedium config rooted medium = .ok opened next) {operations : List Operation}
    (hrun : cancelVersion nid stamp fresh (opened.performAll operations) = .ok copy t) :
    let s := opened.performAll operations
    ∃ fields, (attempt (Store.stamp stamp) s).1 = .ok fields ∧
      (fields.isCommitted = false → ∀ coordinate component,
        ∀ v ∈ (latest coordinate component t).1.toList, v.stamp ≠ stamp) ∧
      (medium.backing.Blank → (∀ operation ∈ operations, ¬ operation.MergesPayload) →
        s.registry.nid? fresh = none → fields.isCommitted = true → ∀ coordinate component,
          (latest coordinate component t).1 =
            (latest coordinate component (resetCaches s).2).1) := by
  intro s
  obtain ⟨l, hs⟩ := bears_performAll hmedium hopen operations
  obtain ⟨o, hretracts, ht, u, hreset⟩ := (retracts_cancelVersion hs nid stamp fresh).of_ok hrun
  obtain ⟨history, hhistory, hclosed⟩ := hretracts.storedIn?_stamp
  have hnew (coordinate : Coordinate) : t.pool.remembered.find? coordinate = none := by
    rw [hreset]
    rfl
  refine ⟨history.current, hs.stamp_iff.mpr (storedIn?_of_history hhistory), fun hcommitted => ?_,
    fun hblank hmerges hunknown hcommitted => ?_⟩
  · intro coordinate component v hv
    exact stamp_ne_of_mem_latest (hnew coordinate) ht.serves (storedIn?_of_history hclosed)
      (StampHistory.isCanceled_push_canceled hcommitted) hv
  · have haccounted := accounted_performAll hblank hopen hmerges hs
    obtain ⟨-, -, recorded, version, found, hretraction⟩ :=
      hretracts.retraction haccounted (hs.registry_eq ▸ hunknown)
    obtain rfl := Option.some.inj (hretraction.found.history_eq.symm.trans hhistory)
    intro coordinate component
    have hroute : presentRoute t.scene coordinate =
        presentRoute (resetCaches s).2.scene coordinate :=
      presentRoute_cancelVersion hrun coordinate
    have hserves : (resetCaches s).2.spines.Serves l.content := hs.serves
    rw [latest_over (hnew coordinate) ht.serves, latest_over rfl hserves, hroute]
    exact hretraction.latest_eq (StampFields.isUncommitted_of_isCommitted hcommitted) component

/-- A draft is hidden when it is retracted, and a committed version is not. -/
theorem retraction_hides_draft :
    ∃ opened next operations component draft committed fresh copy t copy' t',
      overMedium { spineSize := 4 } false Medium.inMemory = .ok opened next ∧
      let s := opened.performAll operations
      cancelVersion component draft fresh s = .ok copy t ∧
      (∀ coordinate component, ∀ v ∈ (latest coordinate component t).1.toList,
        v.stamp ≠ draft) ∧
      cancelVersion component committed fresh s = .ok copy' t' ∧
      ∀ coordinate component,
        (latest coordinate component t').1 = (latest coordinate component (resetCaches s).2).1 := by
  let path : Nid := ⟨-2147483642⟩
  let component : Nid := ⟨-2147483641⟩
  let draft : Nid := ⟨-2147483640⟩
  let committed : Nid := ⟨-2147483639⟩
  let operations : List Operation :=
    [.resolveAliases [⟨1⟩], .resolveAliases [⟨2⟩],
      .join { name := "work" } .active path path path ⟨3⟩,
      .appendVersion component .concept ⟨draft, [1]⟩,
      .commitStamp ⟨.active, 5, path, path, path⟩ ⟨4⟩,
      .appendVersion component .concept ⟨committed, [2]⟩]
  obtain ⟨opened, next, hopen, hdraft, hcommitted, hunknown, hfirst, hsecond⟩ :
      ∃ opened next, overMedium { spineSize := 4 } false Medium.inMemory = .ok opened next ∧
        let s := opened.performAll operations
        (attempt (stamp draft) s).1 = .ok (.draft .active path path path) ∧
        (attempt (stamp committed) s).1 = .ok ⟨.active, 5, path, path, path⟩ ∧
        s.registry.nid? ⟨5⟩ = none ∧
        (attempt (cancelVersion component draft ⟨5⟩) s).1 = .ok ⟨-2147483638⟩ ∧
        (attempt (cancelVersion component committed ⟨5⟩) s).1 = .ok ⟨-2147483638⟩ :=
    ⟨_, _, rfl, by decide +kernel, by decide +kernel, by decide +kernel, by decide +kernel,
      by decide +kernel⟩
  have hlegible : Medium.inMemory.Legible := .blank Backing.blank_inMemory
  have hmerges : ∀ operation ∈ operations, ¬ operation.MergesPayload := by
    simp [operations, Operation.MergesPayload]
  obtain ⟨fields, hfields, hhidden, -⟩ := retraction_hides hlegible hopen (ok_of_attempt hfirst)
  obtain rfl := Except.ok.inj (hdraft.symm.trans hfields)
  obtain ⟨fields, hfields, -, hkept⟩ := retraction_hides hlegible hopen (ok_of_attempt hsecond)
  obtain rfl := Except.ok.inj (hcommitted.symm.trans hfields)
  exact ⟨opened, next, operations, component, draft, committed, ⟨5⟩, _, _, _, _, hopen,
    ok_of_attempt hfirst, hhidden (by decide), ok_of_attempt hsecond,
    hkept Backing.blank_inMemory hmerges hunknown (by decide)⟩

/-- A committed version is retracted, and is the latest one all the same. -/
theorem retraction_not_hidden :
    ∃ opened next operations coordinate component committed fresh copy t version,
      overMedium { spineSize := 4 } false Medium.inMemory = .ok opened next ∧
      (∀ operation ∈ operations, ¬ operation.MergesPayload) ∧
      cancelVersion component committed fresh (opened.performAll operations) = .ok copy t ∧
      (latest coordinate component t).1 = .single version ∧ version.stamp = committed := by
  let path : Nid := ⟨-2147483642⟩
  let component : Nid := ⟨-2147483641⟩
  let committed : Nid := ⟨-2147483640⟩
  let coordinate : Coordinate :=
    { allowed := StatusSet.activeOnly, path, time := Time.latest, priority := [], excluded := ∅,
      allowed_nonempty := by decide, canceled_notMem := by decide, priority_nodup := by decide }
  let operations : List Operation :=
    [.resolveAliases [⟨1⟩], .resolveAliases [⟨2⟩],
      .commitStamp ⟨.active, 5, path, path, path⟩ ⟨3⟩,
      .appendVersion component .concept ⟨committed, [1]⟩]
  obtain ⟨opened, next, hopen, hcanceled, hlatest⟩ :
      ∃ opened next, overMedium { spineSize := 4 } false Medium.inMemory = .ok opened next ∧
        let run := attempt (cancelVersion component committed ⟨4⟩) (opened.performAll operations)
        run.1 = .ok ⟨-2147483639⟩ ∧
          (latest coordinate component run.2).1 = .single ⟨committed, [1]⟩ :=
    ⟨_, _, rfl, by decide +kernel, by decide +kernel⟩
  refine ⟨opened, next, operations, coordinate, component, committed, ⟨4⟩, _, _, _, hopen, ?_,
    ok_of_attempt hcanceled, hlatest, rfl⟩
  simp [operations, Operation.MergesPayload]

end Store

end Chronicle
