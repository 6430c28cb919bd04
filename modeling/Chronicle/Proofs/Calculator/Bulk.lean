import Chronicle.Proofs.Calculator.Found
import Chronicle.Proofs.Spine.Undisturbed
import Chronicle.Proofs.Spine.Workers

/-!
# Asking for all latest versions at once

A scan that asks a calculator at every payload brings spines into memory, and so does the calculator
when it looks stamps up. Where reads do not fail neither of them changes what is found. So a
calculator that is up to date answers for each chronology what it would have answered alone, whoever
of the workers asks and in whatever order.
-/

namespace Chronicle

namespace SpineStore

variable {s : SpineStore} {content : Nid → Option Bytes} {index : Nat}

/-- A store that can be read finds what a content says. -/
structure Presents (s : SpineStore) (content : Nid → Option Bytes) : Prop where
  ready : s.Ready
  enclosed : s.Enclosed
  size_pos : 0 < s.spineSize
  lookup_eq : ∀ nid, (lookup nid s).1 = content nid

private theorem Presents.shows (h : s.Presents content) : s.Shows content :=
  fun nids nid => (h.ready.shows h.enclosed nids nid).trans (h.lookup_eq nid)

private theorem Presents.touch (h : s.Presents content)
    (hindex : index < UInt32.size ∨ s.reaches index = true) :
    (SpineStore.touch index s).2.Presents content := by
  have htransition := transition_touch hindex
  refine ⟨htransition.ready h.ready, enclosed_touch h.enclosed index, ?_, fun nid => ?_⟩
  · rw [htransition.spineSize_eq]
    exact h.size_pos
  · rw [lookup_touch h.ready h.enclosed, h.lookup_eq]

/-- What is found is displayed. -/
theorem Presents.displays (h : s.Presents content) : s.Displays content := by
  refine ⟨h.size_pos, fun nid place spine hplace hspine => ?_, fun nid payload hpayload => ?_⟩
  · rw [← h.lookup_eq, lookup_eq_touch h.enclosed hplace, touch_of_loaded hspine]
  · rw [← h.lookup_eq] at hpayload
    exact reaches_of_lookup hpayload

end SpineStore

namespace Calculator

open SpineStore (Scan OutlastsTouch Keeps Visits)
open StampFields (storedIn?)

variable {scene : Scene} {coordinate : Coordinate} {content : Nid → Option Bytes}
  {found : Nid → Option StampFields} {route : Route} {c : Calculator} {s : SpineStore}

/-! ## Calculators that are up to date -/

/-- A calculator of the present generation is up to date already. -/
theorem refreshed_of_current (h : c.generation = scene.generation) : c.refreshed scene = c := by
  rw [refreshed, isStale, h]
  simp

/-- A calculator that is up to date answers by what it finds, and finds the same afterwards. -/
theorem answers_latestIn_current (payload : Bytes) :
    Answers
      (fun c s => c.generation = scene.generation ∧ Finds coordinate route content found c s)
      (Finds coordinate route content found) (latestIn scene payload)
      (View.latestIn ⟨coordinate, route, found⟩ payload) := by
  unfold latestIn View.latestIn
  split
  · exact answers_pure fun _ _ hs => hs.2
  · cases Chronology.decode payload with
    | error error => exact answers_pure fun _ _ hs => hs.2
    | ok chronology =>
      rintro c s ⟨hcurrent, hfinds⟩
      have hfound : c.foundIn? content = found := funext hfinds.found_eq
      refine answers_refreshed scene c content ?_ c s ⟨rfl, hfinds.shows⟩
      rw [refreshed_of_current hcurrent, hfinds.coordinate_eq, hfinds.route_eq, hfound]
      exact (answers_withFound chronology.versions).bind (answers_pure fun _ _ hs => hs)

/-- A calculator is up to date, remembers nothing wrong, and is asked over a store that can be
read. -/
structure Attends (scene : Scene) (coordinate : Coordinate) (content : Nid → Option Bytes)
    (c : Calculator) (s : SpineStore) : Prop where
  current : c.generation = scene.generation
  finds : Finds coordinate (presentRoute scene coordinate) content (storedIn? content) c s
  presents : s.Presents content

/-- What a coordinate sees in a scene and over a content. -/
def present (scene : Scene) (coordinate : Coordinate) (content : Nid → Option Bytes) : View :=
  ⟨coordinate, presentRoute scene coordinate, storedIn? content⟩

/-- A new calculator over a store that can be read is asked as it should be. -/
theorem attends_make (h : s.Presents content) :
    Attends scene coordinate content (make coordinate scene) s := by
  refine ⟨rfl, ⟨rfl, rfl, fun stamp => ?_, h.shows⟩, h⟩
  rw [foundIn?_eq_storedIn? ((sound_make coordinate scene content).remembered rfl)]

/-- Only what is found counts. -/
theorem Attends.over {t : SpineStore} (h : Attends scene coordinate content c s)
    (ht : t.Presents content) : Attends scene coordinate content c t :=
  ⟨h.current, ⟨h.finds.coordinate_eq, h.finds.route_eq, h.finds.found_eq, ht.shows⟩, ht⟩

/-- What is forgotten of a stamp is found again. -/
theorem Attends.evict (h : Attends scene coordinate content c s) (stamp : Nid) :
    Attends scene coordinate content { c with stamps := c.stamps.evict stamp } s := by
  refine ⟨h.current, ⟨h.finds.coordinate_eq, h.finds.route_eq, fun other => ?_, h.finds.shows⟩,
    h.presents⟩
  rw [foundIn?, remembered?_evict]
  split
  · exact Option.none_or
  · exact h.finds.found_eq other

/-- Spines that come into memory make no difference. -/
theorem outlastsTouch_attends : OutlastsTouch (Attends scene coordinate content) :=
  fun _ _ _ hreaches h => h.over (h.presents.touch (Or.inr hreaches))

private theorem generation_fields? (stamp : Nid) (c : Calculator) (s : SpineStore) :
    (fields? stamp c s).1.2.generation = c.generation := by
  unfold fields?
  split
  · rfl
  · split
    split <;> rfl

/-- That a calculator is up to date outlasts its answers. -/
theorem outlastsAnswers_current (scene : Scene) :
    OutlastsAnswers scene fun c _ => c.generation = scene.generation :=
  ⟨fun _ _ _ _ hs => hs, fun c _ _ => generation_refreshed c scene,
    fun stamp c s hs => (generation_fields? stamp c s).trans hs⟩

/-- An answer brings spines into memory and disturbs nothing. -/
theorem Attends.latestIn (h : Attends scene coordinate content c s) (payload : Bytes) :
    ∃ c' s', Calculator.latestIn scene payload c s =
        (((present scene coordinate content).latestIn payload, c'), s') ∧
      Attends scene coordinate content c' s' ∧ Keeps s s' := by
  obtain ⟨c', s', hrun, hfinds⟩ := answers_latestIn_current payload c s ⟨h.current, h.finds⟩
  have hcurrent := (outlastsAnswers_current scene).maintains_latestIn payload c s h.current
  have hspines := (outlastsAnswers_of_touch (Q := fun t => t.Presents content ∧ Keeps s t) scene
    fun _ t index hreaches ht =>
      ⟨ht.1.touch (Or.inr hreaches), ht.2.trans (SpineStore.keeps_touch (Or.inr hreaches))⟩)
    |>.maintains_latestIn payload c s ⟨h.presents, SpineStore.keeps_refl s⟩
  rw [hrun] at hcurrent hspines
  exact ⟨c', s', hrun, ⟨hcurrent, hfinds, hspines.1⟩, hspines.2⟩

/-! ## All answers at once -/

/-- What a view tells of an entry: the latest version, if it starts as a chronology does. -/
def tellLatest (view : View) (entry : Nid × Bytes) : Option (Nid × Latest Version) :=
  if entry.2.head? = some Chronology.tag then some (entry.1, view.latestIn entry.2) else none

/-- Asking a calculator at a payload tells its latest version. -/
theorem visits_noteLatest (scene : Scene) (coordinate : Coordinate)
    (content : Nid → Option Bytes) :
    Visits content (fun carried s => Attends scene coordinate content carried.1 s) Prod.snd
      (tellLatest (present scene coordinate content)) (noteLatest scene) where
  displays h := h.presents.displays
  touch carried s index hreaches h := outlastsTouch_attends carried.1 s index hreaches h
  visit {nid payload carried s} h _ := by
    obtain ⟨c, seen⟩ := carried
    by_cases htag : payload.head? = some Chronology.tag
    · obtain ⟨c', s', hrun, hattends, hkeeps⟩ := h.latestIn payload
      refine ⟨(c', (nid, (present scene coordinate content).latestIn payload) :: seen), s', ?_,
        hkeeps, hattends, ?_⟩
      · simp only [StateT.run, noteLatest, if_pos htag, hrun]
      · simp only [tellLatest, if_pos htag, Option.toList_some, List.singleton_append]
    · refine ⟨(c, seen), s, ?_, SpineStore.keeps_refl s, h, ?_⟩
      · simp only [StateT.run, noteLatest, if_neg htag]
      · simp only [tellLatest, if_neg htag, Option.toList_none, List.nil_append]

/-- The answers for all chronologies of a content, each once and in any order. -/
structure Lists (view : View) (content : Nid → Option Bytes)
    (answers : List (Nid × Latest Version)) : Prop where
  nodup : (answers.map Prod.fst).Nodup
  mem_iff : ∀ nid answer, (nid, answer) ∈ answers ↔ ∃ payload, content nid = some payload ∧
    payload.head? = some Chronology.tag ∧ answer = view.latestIn payload

/-- Answers list the chronologies in any order. -/
theorem Lists.perm {view : View} {answers answers' : List (Nid × Latest Version)}
    (h : Lists view content answers) (hperm : answers'.Perm answers) :
    Lists view content answers' :=
  ⟨((hperm.map Prod.fst).nodup_iff).mpr h.nodup,
    fun nid answer => hperm.mem_iff.trans (h.mem_iff nid answer)⟩

/-- The answers in the order in which a scan visits the payloads. -/
def answersOf (view : View) (content : Nid → Option Bytes) (s : SpineStore) :
    List (Nid × Latest Version) :=
  (entriesFrom content 0 (s.spineLimit * s.spineSize)).filterMap (tellLatest view)

/-- The answers of a scan are sorted by their nids. -/
theorem pairwise_answersOf (view : View) (content : Nid → Option Bytes) (s : SpineStore) :
    (answersOf view content s).Pairwise fun a b => compare a.1 b.1 = .lt := by
  rw [answersOf, List.pairwise_filterMap]
  refine (pairwise_entriesFrom content 0 _).imp fun hlt a ha b hb => ?_
  unfold tellLatest at ha hb
  split at ha <;> cases ha
  split at hb <;> cases hb
  exact hlt

/-- The answers of a scan list every chronology once. -/
theorem lists_answersOf (view : View) (h : s.Displays content) :
    Lists view content (answersOf view content s) := by
  refine ⟨nodup_map_of_pairwise_lt (pairwise_answersOf view content s), fun nid answer => ?_⟩
  simp only [answersOf, List.mem_filterMap, Prod.exists, tellLatest, Option.ite_none_right_eq_some,
    Option.some.injEq, Prod.mk.injEq, mem_entriesFrom_iff]
  constructor
  · rintro ⟨_, payload, ⟨hpayload, -⟩, htag, rfl, rfl⟩
    exact ⟨payload, hpayload, htag, rfl⟩
  · rintro ⟨payload, hpayload, htag, rfl⟩
    obtain ⟨offset, hoffset, hlt⟩ := h.offset_lt hpayload
    exact ⟨nid, payload, ⟨hpayload, offset, hoffset, Nat.zero_le _, by omega⟩, htag, rfl, rfl⟩

section

variable (h : Attends scene coordinate content c s)

include h

/-- A scan answers in ascending order of nids. -/
theorem Attends.latestAll : ∃ c' s', Calculator.latestAll scene c s =
      ((answersOf (present scene coordinate content) content s, c'), s') ∧
    Attends scene coordinate content c' s' := by
  obtain ⟨⟨c', seen⟩, s', hrun, -, hattends, hseen⟩ :=
    (visits_noteLatest scene coordinate content).forEach s (c, []) h
  rw [List.append_nil] at hseen
  refine ⟨c', s', ?_, hattends⟩
  rw [answersOf, ← List.reverse_reverse (List.filterMap _ _), ← hseen]
  exact latestAll_of_forEach hrun

/-- Workers answer the same in some order. -/
theorem Attends.latestAllParallel (workers : Nat) (schedule : List Nat) :
    ∃ answers c' s', Calculator.latestAllParallel workers schedule scene c s =
        ((answers, c'), s') ∧ Attends scene coordinate content c' s' ∧
      answers.Perm (answersOf (present scene coordinate content) content s) := by
  obtain ⟨⟨c', seen⟩, s', hrun, hattends, hperm⟩ :=
    (visits_noteLatest scene coordinate content).forEachParallel workers schedule (c, []) h
  exact ⟨seen.reverse, c', s', latestAllParallel_of_forEach hrun, hattends,
    (List.reverse_perm seen).trans hperm⟩

/-- A look-up comes before the answer for one component. -/
theorem Attends.latest (nid : Nid) : ∃ c' s', Calculator.latest scene nid c s =
      (((content nid).elim .absent (present scene coordinate content).latestIn, c'), s') ∧
    Attends scene coordinate content c' s' := by
  have hlooked := outlastsTouch_attends.lookup h nid
  rw [latest_of_lookup, h.presents.lookup_eq nid]
  cases content nid with
  | none => exact ⟨c, _, rfl, hlooked⟩
  | some payload =>
    obtain ⟨c', s', hlatest, hattends, -⟩ := hlooked.latestIn payload
    exact ⟨c', s', hlatest, hattends⟩

end

end Calculator

end Chronicle
