import Chronicle.Proofs.Calculator.Answer
import Chronicle.Proofs.Component.Recording
import Chronicle.Proofs.Resolution
import Chronicle.Proofs.Spine.Shown

/-!
# What a calculator finds

Of each stamp a calculator finds the fields that it remembers, or else those that are stored. Over a
store that shows one content this does not depend on what it was asked before: what it remembers of a
stamp, it would have found. So its answers follow from its coordinate, its route and what it finds,
whether or not these are up to date.
-/

namespace Chronicle

/-- The latest version in a payload. Stamps, and what is no chronology, have none. -/
def View.latestIn (view : View) (payload : Bytes) : Latest Version :=
  if payload.head? = some StampHistory.tag then .absent
  else (Chronology.decode payload).toOption.elim .absent fun chronology =>
    view.latest chronology.versions

/-- Where a payload may be stored, the latest version is that of the versions in it. -/
theorem View.elim_latestIn (view : View) (payload? : Option Bytes) :
    payload?.elim .absent view.latestIn = view.latest (Chronology.versionsOf payload?) := by
  cases payload? with
  | none => rfl
  | some payload =>
    rw [Option.elim_some, latestIn]
    cases hdecode : Chronology.decode payload with
    | error error =>
      rw [Chronology.versionsOf_of_error hdecode]
      split <;> rfl
    | ok chronology =>
      rw [Chronology.versionsOf_of_decode hdecode, Chronology.head?_of_decode hdecode,
        if_neg (by decide)]
      rfl

/-- What does not start as a chronology does has no latest version. -/
theorem View.latestIn_eq_absent {view : View} {payload : Bytes}
    (h : payload.head? ≠ some Chronology.tag) : view.latestIn payload = .absent := by
  unfold View.latestIn
  split
  · rfl
  · cases hdecode : Chronology.decode payload with
    | error error => rfl
    | ok chronology => exact absurd (Chronology.head?_of_decode hdecode) h

namespace Calculator

open SpineStore (Scan)
open StampFields (storedIn?)

variable {content : Nid → Option Bytes} {found : Nid → Option StampFields} {c : Calculator}
  {s : SpineStore}

/-- The fields that a calculator finds for a stamp over some content. -/
def foundIn? (c : Calculator) (content : Nid → Option Bytes) (stamp : Nid) : Option StampFields :=
  (c.remembered? stamp).or (storedIn? content stamp)

/-- A calculator with this coordinate and this route finds these fields over a store that shows this
content. -/
structure Finds (coordinate : Coordinate) (route : Route) (content : Nid → Option Bytes)
    (found : Nid → Option StampFields) (c : Calculator) (s : SpineStore) : Prop where
  coordinate_eq : c.coordinate = coordinate
  route_eq : c.route = route
  found_eq : ∀ stamp, c.foundIn? content stamp = found stamp
  shows : s.Shows content

/-- What a calculator sees over some content. -/
def view (c : Calculator) (content : Nid → Option Bytes) : View where
  coordinate := c.coordinate
  route := c.route
  fieldsOf := c.foundIn? content

private theorem finds_self (c : Calculator) (h : s.Shows content) :
    Finds c.coordinate c.route content (c.foundIn? content) c s :=
  ⟨rfl, rfl, fun _ => rfl, h⟩

/-- If nothing wrong is remembered, then what is found is what is stored. -/
theorem foundIn?_eq_storedIn?
    (h : ∀ stamp fields, c.remembered? stamp = some fields →
      storedIn? content stamp = some fields) :
    c.foundIn? content = storedIn? content := by
  funext stamp
  unfold foundIn?
  cases hfields : c.remembered? stamp with
  | none => rw [Option.none_or]
  | some fields => rw [Option.some_or, h stamp fields hfields]

/-- A sound calculator that has been brought up to date sees what is stored on the present route. -/
theorem Sound.view_eq {scene : Scene} (h : c.Sound scene content) :
    (c.refreshed scene).view content =
      ⟨c.coordinate, presentRoute scene c.coordinate, storedIn? content⟩ := by
  have hcurrent := generation_refreshed c scene
  have hroute := h.refreshed.route_eq hcurrent
  rw [Calculator.view, foundIn?_eq_storedIn? (h.refreshed.remembered hcurrent), hroute,
    coordinate_refreshed]

/-- What is found can be remembered. -/
theorem foundIn?_remember {stamp : Nid} {fields : StampFields}
    (h : c.foundIn? content stamp = some fields) (other : Nid) :
    (c.remember stamp fields).foundIn? content other = c.foundIn? content other := by
  unfold foundIn?
  rw [remembered?_remember]
  by_cases hother : other = stamp
  · rw [if_pos hother, Option.some_or, hother]
    exact h.symm
  · rw [if_neg hother]

section

variable {coordinate : Coordinate} {route : Route}

/-- The fields of a stamp are answered as they are found. -/
theorem answers_foundIn? (stamp : Nid) :
    Answers (Finds coordinate route content found) (Finds coordinate route content found)
      (fields? stamp) (found stamp) := by
  intro c s h
  have hfound := h.found_eq stamp
  obtain ⟨fields, hremembered, hrun⟩ | ⟨hremembered, hrun⟩ := fields?_cases stamp c s
  · rw [foundIn?, hremembered, Option.some_or] at hfound
    exact ⟨c, s, by rw [StateT.run, hrun, hfound], h⟩
  · obtain ⟨t, hlookup, hshows⟩ := h.shows.lookup stamp
    have hstored : storedIn? (fun nid => (SpineStore.lookup nid s).1) stamp = found stamp := by
      rw [← hfound, foundIn?, hremembered, Option.none_or]
      simp only [storedIn?, StampHistory.storedIn?, hlookup]
    rw [hstored, hlookup] at hrun
    refine ⟨_, t, hrun, ?_⟩
    cases hfields : found stamp with
    | none => exact ⟨h.coordinate_eq, h.route_eq, h.found_eq, hshows⟩
    | some fields =>
      refine ⟨h.coordinate_eq, h.route_eq, fun other => ?_, hshows⟩
      rw [Option.elim_some, foundIn?_remember (hfound.trans hfields), h.found_eq]

/-- Every version is paired with the fields that the calculator finds for its stamp. -/
theorem answers_withFound (versions : List Version) :
    Answers (Finds coordinate route content found) (Finds coordinate route content found)
      (withFields versions) (versions.map fun version => (version, found version.stamp)) := by
  induction versions with
  | nil => exact answers_pure fun _ _ hs => hs
  | cons version versions ih =>
    exact (answers_foundIn? version.stamp).bind (ih.bind (answers_pure fun _ _ hs => hs))

end

/-! ## Answers of a calculator as it is -/

section

variable (scene : Scene) (c : Calculator) (content : Nid → Option Bytes)

/-- A calculator as it is, over a store that shows a content. -/
def Meets (c : Calculator) (content : Nid → Option Bytes) (c' : Calculator) (s : SpineStore) :
    Prop :=
  c' = c ∧ s.Shows content

/-- What follows once the calculator has been brought up to date. -/
theorem answers_refreshed {α : Type} {f : Calculator → Scan Calculator α} {a : α}
    {Q : Calculator → SpineStore → Prop}
    (hf : Answers (Finds (c.refreshed scene).coordinate (c.refreshed scene).route content
      ((c.refreshed scene).foundIn? content)) Q (f (c.refreshed scene)) a) :
    Answers (Meets c content) Q (refresh scene >>= f) a := by
  rintro _ s ⟨rfl, hshows⟩
  exact hf _ s (finds_self _ hshows)

/-- The latest version of a chronology is the one in what the calculator sees. -/
theorem answers_latestOf_found (chronology : Chronology) :
    Answers (Meets c content) (fun _ s => s.Shows content) (Calculator.latestOf scene chronology)
      (((c.refreshed scene).view content).latest chronology.versions) := by
  apply answers_refreshed
  exact (answers_withFound chronology.versions).bind (answers_pure fun _ _ hs => hs.shows)

/-- A stamp is visible exactly if it is in what the calculator sees. -/
theorem answers_isVisible_found (stamp : Nid) :
    Answers (Meets c content) (fun _ s => s.Shows content) (Calculator.isVisible scene stamp)
      (decide (((c.refreshed scene).view content).Visible stamp)) := by
  simp only [View.visible_iff_isSome, Bool.decide_eq_true]
  apply answers_refreshed
  exact (answers_foundIn? stamp).bind (answers_pure fun _ _ hs => hs.shows)

/-- The latest version in a payload is the one in what the calculator sees. -/
theorem answers_latestIn_found (payload : Bytes) :
    Answers (Meets c content) (fun _ s => s.Shows content) (latestIn scene payload)
      (((c.refreshed scene).view content).latestIn payload) := by
  unfold latestIn View.latestIn
  split
  · exact answers_pure fun _ _ hs => hs.2
  · cases Chronology.decode payload with
    | ok chronology => exact answers_latestOf_found scene c content chronology
    | error error => exact answers_pure fun _ _ hs => hs.2

/-- The latest version of a nid is the one in what the calculator sees, and absent if nothing is
stored for it. -/
theorem answers_latest_found (nid : Nid) :
    Answers (Meets c content) (fun _ s => s.Shows content) (Calculator.latest scene nid)
      ((content nid).elim .absent ((c.refreshed scene).view content).latestIn) := by
  have hlookup : Answers (Meets c content) (Meets c content)
      (liftM (SpineStore.lookup nid : StateM SpineStore (Option Bytes)) :
        Scan Calculator (Option Bytes)) (content nid) := by
    rintro c' s ⟨hsame, hshows⟩
    obtain ⟨t, hrun, hlater⟩ := hshows.lookup nid
    refine ⟨c', t, ?_, hsame, hlater⟩
    exact congrArg (fun result => ((result.1, c'), result.2)) hrun
  apply hlookup.bind
  cases content nid with
  | none => exact answers_pure fun _ _ hs => hs.2
  | some payload => exact answers_latestIn_found scene c content payload

end

/-- A sound calculator tells whether a stamp is visible on the present route. -/
theorem Sound.isVisible_eq {scene : Scene} (h : c.Sound scene content) (hshows : s.Shows content)
    (stamp : Nid) : (isVisible scene stamp c s).1.1 = decide (View.Visible
      ⟨c.coordinate, presentRoute scene c.coordinate, storedIn? content⟩ stamp) := by
  obtain ⟨_, _, hrun, -⟩ := answers_isVisible_found scene c content stamp c s ⟨rfl, hshows⟩
  rw [h.view_eq] at hrun
  exact congrArg (fun result => result.1.1) hrun

/-- A sound calculator answers the latest of the stored versions on the present route. -/
theorem Sound.latest_eq {scene : Scene} (h : c.Sound scene content) (hshows : s.Shows content)
    (nid : Nid) : (latest scene nid c s).1.1 = View.latest
      ⟨c.coordinate, presentRoute scene c.coordinate, storedIn? content⟩
      (Chronology.versionsOf (content nid)) := by
  obtain ⟨_, _, hrun, -⟩ := answers_latest_found scene c content nid c s ⟨rfl, hshows⟩
  rw [h.view_eq, View.elim_latestIn] at hrun
  exact congrArg (fun result => result.1.1) hrun

/-! ## Resolution -/

/-- **Resolution.** A calculator on any route, which remembers nothing wrong of the stamps that are
stored, answers by the versions in front: the visible ones of the latest time that are on the nearest
paths. Without a visible version there is no answer. Otherwise the only version in front is the
answer, or the one whose module alone is ranked best; and if there is none, all versions in front
contradict each other. -/
theorem latestOf_resolves (scene : Scene) (c : Calculator) (hshows : s.Shows content)
    (hremembered : ∀ stamp fields, (c.refreshed scene).remembered? stamp = some fields →
      storedIn? content stamp = some fields) (chronology : Chronology) :
    let view : View := ⟨c.coordinate, (c.refreshed scene).route, storedIn? content⟩
    let versions := chronology.versions
    let front := view.front versions
    let answer := (Calculator.latestOf scene chronology c s).1.1
    (answer = .absent ↔ ∀ v ∈ versions, ¬ view.Visible v.stamp) ∧
    ((∃ v ∈ versions, view.Visible v.stamp) →
      (∀ v, answer = .single v ↔ front = [v] ∨ view.Unrivalled front v) ∧
      ∀ tied, answer = .contradiction tied ↔
        (∀ v, ¬ (front = [v] ∨ view.Unrivalled front v)) ∧ tied = View.inOrder front) ∧
    ∀ tied, answer = .contradiction tied →
      2 ≤ tied.length ∧ tied.Perm front ∧
      (tied.Pairwise fun a b => a.stamp.raw ≤ b.stamp.raw) ∧
      ∀ v ∈ tied, v ∈ versions ∧ view.Foremost versions v := by
  intro view versions front answer
  have hview : (c.refreshed scene).view content = view := by
    rw [Calculator.view, foundIn?_eq_storedIn? hremembered, coordinate_refreshed]
  have hanswer : answer = view.latest versions := by
    obtain ⟨_, _, hrun, -⟩ := answers_latestOf_found scene c content chronology c s ⟨rfl, hshows⟩
    rw [hview] at hrun
    exact congrArg (fun result => result.1.1) hrun
  have hlone (v : Version) : front = [v] ∨ view.Unrivalled front v ↔ view.Unrivalled front v := by
    constructor
    · rintro (hfront | hv)
      · exact hfront ▸ View.unrivalled_singleton view v
      · exact hv
    · exact Or.inr
  rw [hanswer]
  refine ⟨View.latest_eq_absent_iff, fun hvisible => ⟨fun v => ?_, fun tied => ?_⟩,
    fun tied htied => ?_⟩
  · rw [hlone]
    exact View.latest_eq_single_iff
  · simp only [hlone]
    rw [View.latest_eq_contradiction_iff]
    exact and_iff_right hvisible
  · have hlength := View.two_le_length_of_contradiction htied
    obtain ⟨-, -, rfl⟩ := View.latest_eq_contradiction_iff.mp htied
    have hperm := View.inOrder_perm front
    exact ⟨hlength, hperm, View.sorted_inOrder front,
      fun v hv => View.mem_front.mp (hperm.mem_iff.mp hv)⟩

/-- Of three versions two are newest, and the module of the last one is preferred. -/
theorem latestOf_resolves_preferred :
    ∃ (scene : Scene) (c : Calculator) (content : Nid → Option Bytes) (s : SpineStore)
      (chronology : Chronology) (preferred : Version),
      s.Shows content ∧
      (∀ stamp fields, (c.refreshed scene).remembered? stamp = some fields →
        storedIn? content stamp = some fields) ∧
      (View.front ⟨c.coordinate, (c.refreshed scene).route, storedIn? content⟩
        chronology.versions).length = 2 ∧
      (Calculator.latestOf scene chronology c s).1.1 = .single preferred := by
  let path : Nid := ⟨0⟩
  let stamp (n : Nat) : Nid := ⟨-2147483647 + Int32.ofNat n⟩
  let fields (n : Nat) (time : Int64) : StampFields :=
    { status := .active, time, author := path, module := stamp n, path }
  let payload (n : Nat) (time : Int64) : Bytes := (StampHistory.start (fields n time)).encode
  let blank := SpineStore.ofMedium Medium.inMemory 4 1 1
  let first := (Store.attempt (SpineStore.merge (stamp 0) (payload 0 1) fun _ update => update)
    blank).2
  let second := (Store.attempt (SpineStore.merge (stamp 1) (payload 1 2) fun _ update => update)
    first).2
  let third := (Store.attempt (SpineStore.merge (stamp 2) (payload 2 2) fun _ update => update)
    second).2
  have hblank : blank.Steady fun _ => none :=
    (SpineStore.serves_of_blank (fun _ => Std.ExtTreeMap.getElem?_empty) (by decide)
      (by decide)).steady
  have hfirst := hblank.merge_state (show blank.place? (stamp 0) = some ⟨0, 0⟩ by decide +kernel)
    (payload 0 1) fun _ update => update
  have hsecond := hfirst.merge_state (show first.place? (stamp 1) = some ⟨0, 1⟩ by decide +kernel)
    (payload 1 2) fun _ update => update
  have hthird := hsecond.merge_state (show second.place? (stamp 2) = some ⟨0, 2⟩ by decide +kernel)
    (payload 2 2) fun _ update => update
  let content : Nid → Option Bytes := fun nid => (SpineStore.lookup nid third).1
  have hshows : third.Shows content := hthird.shows.now
  let coordinate : Coordinate :=
    { allowed := StatusSet.activeOnly, path, time := 5, priority := [stamp 2], excluded := ∅,
      allowed_nonempty := by decide, canceled_notMem := by decide, priority_nodup := by decide }
  let scene : Scene := { paths := .empty, generation := 0 }
  let c := (make coordinate scene).remember (stamp 0) (fields 0 1)
  let chronology : Chronology :=
    { nid := path, kind := .concept, ne_nil := by simp
      versions := [⟨stamp 1, [1]⟩, ⟨stamp 0, [0]⟩, ⟨stamp 2, [2]⟩] }
  have hremembered : ∀ other found, (c.refreshed scene).remembered? other = some found →
      storedIn? content other = some found := by
    intro other found hfound
    change c.remembered? other = some found at hfound
    rw [remembered?_remember] at hfound
    split at hfound
    · rename_i heq
      cases hfound
      rw [heq]
      decide +kernel
    · cases hfound
  obtain ⟨-, hanswer, -⟩ := latestOf_resolves scene c hshows hremembered chronology
  obtain ⟨hsingle, -⟩ := hanswer (by decide +kernel)
  exact ⟨scene, c, content, third, chronology, ⟨stamp 2, [2]⟩, hshows, hremembered,
    by decide +kernel, (hsingle _).mpr (Or.inr (by decide +kernel))⟩

end Calculator

end Chronicle
