import Chronicle.Proofs.Calculator.Bulk
import Chronicle.Proofs.Spine.Pinned

/-!
# Answers from spines in memory

If the spine of a component was touched, and so were those of the stamps of its versions, then a
calculator answers by what was found there. It does so alone and in scans, in which it is asked
about other components as well, looks their stamps up and remembers them.
-/

namespace Chronicle.Calculator

open SpineStore (Scan OutlastsTouch Stays Notes PinsAll)
open StampFields (storedIn?)

variable {scene : Scene} {watched : Nid → Prop} {content : Nid → Option Bytes} {view : View}
  {c : Calculator} {s u : SpineStore} {nid : Nid}

/-- A calculator is up to date and finds what a view has of certain stamps. -/
structure Recalls (scene : Scene) (watched : Nid → Prop) (content : Nid → Option Bytes)
    (view : View) (c : Calculator) : Prop where
  current : c.generation = scene.generation
  coordinate_eq : c.coordinate = view.coordinate
  route_eq : c.route = view.route
  found_eq : ∀ stamp, watched stamp → c.foundIn? content stamp = view.fieldsOf stamp

private theorem recalls_refreshed (c : Calculator) (scene : Scene) (watched : Nid → Prop)
    (content : Nid → Option Bytes) :
    Recalls scene watched content ((c.refreshed scene).view content) (c.refreshed scene) :=
  ⟨generation_refreshed c scene, rfl, rfl, fun _ _ => rfl⟩

private theorem Recalls.refreshed (h : Recalls scene watched content view c) :
    c.refreshed scene = c :=
  refreshed_of_current h.current

/-- What is found for a stamp can be remembered, and so can be whatever else is. -/
theorem Recalls.remember {stamp : Nid} {fields : StampFields}
    (h : Recalls scene watched content view c)
    (hfields : watched stamp → c.foundIn? content stamp = some fields) :
    Recalls scene watched content view (c.remember stamp fields) := by
  refine ⟨h.current, h.coordinate_eq, h.route_eq, fun other hother => ?_⟩
  rw [← h.found_eq other hother]
  by_cases hstamp : watched stamp
  · exact foundIn?_remember (hfields hstamp) other
  · have hne : other ≠ stamp := fun heq => hstamp (heq ▸ hother)
    rw [foundIn?, remembered?_remember, if_neg hne]
    rfl

/-- What a look-up finds of a stamp is what is pinned. -/
theorem storedIn?_lookup {stamp : Nid} (h : s.PinsAll watched content) (hstamp : watched stamp) :
    storedIn? (fun nid => (SpineStore.lookup nid s).1) stamp = storedIn? content stamp := by
  simp only [storedIn?, StampHistory.storedIn?, (h stamp hstamp).lookup]

/-- Whatever else a calculator is asked, it goes on finding what was pinned. -/
theorem outlastsAnswers_recalls : OutlastsAnswers scene fun c s =>
    Recalls scene watched content view c ∧ s.PinsAll watched content where
  touch _ s index hreaches h :=
    ⟨h.1, SpineStore.outlastsTouch_pinsAll () s index hreaches h.2⟩
  refresh c s h := by rwa [h.1.refreshed]
  fields stamp c s h := by
    obtain ⟨hrecalls, hpins⟩ := h
    obtain ⟨fields, -, hrun⟩ | ⟨hremembered, hrun⟩ := fields?_cases stamp c s
    · rw [StateT.run, hrun]
      exact ⟨hrecalls, hpins⟩
    · have hafter : (SpineStore.lookup stamp s).2.PinsAll watched content :=
        Scan.maintains_lookup SpineStore.outlastsTouch_pinsAll stamp () s hpins
      rw [StateT.run, hrun]
      refine ⟨?_, hafter⟩
      cases hfields : storedIn? (fun nid => (SpineStore.lookup nid s).1) stamp with
      | none => exact hrecalls
      | some fields =>
        refine hrecalls.remember fun hstamp => ?_
        rw [foundIn?, hremembered, Option.none_or, ← storedIn?_lookup hpins hstamp, hfields]

/-! ## Answers that leave the store as it is -/

section

variable (hpins : u.PinsAll watched content)

include hpins

/-- Over pinned slots a calculator finds the fields its view has, and nothing changes. -/
theorem answers_fields?_of_pins {stamp : Nid} (hstamp : watched stamp) :
    Answers (fun c s => Recalls scene watched content view c ∧ s = u)
      (fun c s => Recalls scene watched content view c ∧ s = u) (fields? stamp)
      (view.fieldsOf stamp) := by
  rintro c _ ⟨hrecalls, rfl⟩
  have hfound := hrecalls.found_eq stamp hstamp
  obtain ⟨fields, hremembered, hrun⟩ | ⟨hremembered, hrun⟩ := fields?_cases stamp c _
  · rw [foundIn?, hremembered, Option.some_or] at hfound
    exact ⟨c, _, by rw [StateT.run, hrun, hfound], hrecalls, rfl⟩
  · have hstored : storedIn? content stamp = view.fieldsOf stamp := by
      rw [← hfound, foundIn?, hremembered, Option.none_or]
    rw [storedIn?_lookup hpins hstamp, hstored, (hpins stamp hstamp).lookup] at hrun
    refine ⟨_, _, hrun, ?_, rfl⟩
    cases hfields : view.fieldsOf stamp with
    | none => exact hrecalls
    | some fields => exact hrecalls.remember fun _ => hfound.trans hfields

private theorem answers_withFields_of_pins {versions : List Version}
    (hversions : ∀ v ∈ versions, watched v.stamp) :
    Answers (fun c s => Recalls scene watched content view c ∧ s = u)
      (fun c s => Recalls scene watched content view c ∧ s = u) (withFields versions)
      (versions.map fun version => (version, view.fieldsOf version.stamp)) := by
  induction versions with
  | nil => exact answers_pure fun _ _ hs => hs
  | cons version versions ih =>
    rw [List.forall_mem_cons] at hversions
    exact (answers_fields?_of_pins hpins hversions.1).bind
      ((ih hversions.2).bind (answers_pure fun _ _ hs => hs))

/-- A calculator that is brought up to date answers by what was pinned. -/
theorem answers_latestIn_of_pins {payload : Bytes}
    (hversions : ∀ v ∈ Chronology.versionsOf (some payload), watched v.stamp) :
    Answers (fun c s => Recalls scene watched content view (c.refreshed scene) ∧ s = u)
      (fun _ s => s = u) (latestIn scene payload) (view.latestIn payload) := by
  unfold latestIn View.latestIn
  split
  · exact answers_pure fun _ _ hs => hs.2
  · cases hdecode : Chronology.decode payload with
    | error error => exact answers_pure fun _ _ hs => hs.2
    | ok chronology =>
      rw [Chronology.versionsOf_of_decode hdecode] at hversions
      have hrest (c : Calculator) (hrecalls : Recalls scene watched content view c) :
          Answers (fun c s => Recalls scene watched content view c ∧ s = u) (fun _ s => s = u)
            (do return c.coordinate.latest c.route (← withFields chronology.versions))
            (view.latest chronology.versions) := by
        rw [hrecalls.coordinate_eq, hrecalls.route_eq]
        exact (answers_withFields_of_pins hpins hversions).bind (answers_pure fun _ _ hs => hs.2)
      intro c s hs
      exact hrest (c.refreshed scene) hs.1 (c.refreshed scene) s hs

/-- The latest version of a component follows from what was pinned for it and for the stamps of its
versions. -/
theorem latest_of_pins (hnid : watched nid)
    (hversions : ∀ v ∈ Chronology.versionsOf (content nid), watched v.stamp) (scene : Scene)
    (c : Calculator) :
    ∃ c', Calculator.latest scene nid c u =
      (((content nid).elim .absent ((c.refreshed scene).view content).latestIn, c'), u) := by
  rw [latest_of_lookup, (hpins nid hnid).lookup]
  cases hfound : content nid with
  | none => exact ⟨c, rfl⟩
  | some payload =>
    rw [hfound] at hversions
    obtain ⟨c', _, hlatest, rfl⟩ := answers_latestIn_of_pins hpins hversions c u
      ⟨recalls_refreshed c scene watched content, rfl⟩
    exact ⟨c', hlatest⟩

end

/-! ## Scans -/

/-- Asking for the latest version in a payload brings a calculator up to date or leaves it as it is.
-/
theorem latestIn_cases (scene : Scene) (payload : Bytes) (c : Calculator) (s : SpineStore) :
    latestIn scene payload c s = latestIn scene payload (c.refreshed scene) s ∨
      latestIn scene payload c s = ((.absent, c), s) := by
  unfold latestIn
  split
  · exact Or.inr rfl
  · cases Chronology.decode payload with
    | error error => exact Or.inr rfl
    | ok chronology =>
      have hsame : (c.refreshed scene).refreshed scene = c.refreshed scene :=
        refreshed_of_current (generation_refreshed c scene)
      let rest (c : Calculator) : Scan Calculator (Latest Version) := do
        return c.coordinate.latest c.route (← withFields chronology.versions)
      have hrun (c : Calculator) : latestOf scene chronology c s =
          rest (c.refreshed scene) (c.refreshed scene) s := rfl
      left
      simp only [hrun, hsame]

/-- A calculator that is asked about any payload goes on finding what was pinned. -/
theorem recalls_latestIn (payload : Bytes)
    (h : Recalls scene watched content view (c.refreshed scene))
    (hpins : s.PinsAll watched content) :
    Recalls scene watched content view ((latestIn scene payload c s).1.2.refreshed scene) ∧
      (latestIn scene payload c s).2.PinsAll watched content := by
  obtain hrun | hrun := latestIn_cases scene payload c s
  · obtain ⟨hrecalls, hafter⟩ := outlastsAnswers_recalls.maintains_latestIn payload
      (c.refreshed scene) s ⟨h, hpins⟩
    rw [hrun]
    exact ⟨by rwa [← hrecalls.refreshed] at hrecalls, hafter⟩
  · rw [hrun]
    exact ⟨h, hpins⟩

/-- A scan that asks a calculator at every payload notes for a component what was pinned. -/
theorem notes_noteLatest (hnid : watched nid)
    (hversions : ∀ v ∈ Chronology.versionsOf (content nid), watched v.stamp) :
    Notes (fun (carried : Calculator × List (Nid × Latest Version)) s =>
        Recalls scene watched content view (carried.1.refreshed scene) ∧ s.PinsAll watched content)
      nid (content nid)
      (fun payload =>
        if payload.head? = some Chronology.tag then some (view.latestIn payload) else none)
      Prod.snd (noteLatest scene) where
  pins h := h.2 nid hnid
  touch _ s index hreaches h := ⟨h.1, SpineStore.outlastsTouch_pinsAll () s index hreaches h.2⟩
  visit {other payload carried s} h hfound := by
    obtain ⟨c, seen⟩ := carried
    by_cases htag : payload.head? = some Chronology.tag
    · have hrun : (noteLatest scene other payload).run (c, seen) s =
          (((), (latestIn scene payload c s).1.2,
              (other, (latestIn scene payload c s).1.1) :: seen),
            (latestIn scene payload c s).2) := by
        simp only [StateT.run, noteLatest, if_pos htag]
        rfl
      have hstays : Stays s (latestIn scene payload c s).2 :=
        (outlastsAnswers_of_touch (Q := Stays s) scene fun _ _ _ hreaches hs =>
          hs.trans (SpineStore.transition_touch (Or.inr hreaches)).stays)
          |>.maintains_latestIn payload c s ⟨rfl, fun _ => id⟩
      rw [hrun]
      refine ⟨recalls_latestIn payload h.1 h.2, hstays, some _, fun hother => ?_, rfl⟩
      rw [hfound hother] at hversions
      obtain ⟨_, _, hanswer, -⟩ := answers_latestIn_of_pins h.2 hversions c s ⟨h.1, rfl⟩
      rw [if_pos htag]
      exact congrArg (fun result => some result.1.1) hanswer
    · have hrun : (noteLatest scene other payload).run (c, seen) s = (((), c, seen), s) := by
        simp only [StateT.run, noteLatest, if_neg htag]
      rw [hrun]
      exact ⟨h, ⟨rfl, fun _ => id⟩, none, fun _ => (if_neg htag).symm, rfl⟩

section

variable (hpins : u.PinsAll watched content) (hsize : 0 < u.spineSize) (hnid : watched nid)
  (hversions : ∀ v ∈ Chronology.versionsOf (content nid), watched v.stamp) (scene : Scene)
  (c : Calculator) (answer : Latest Version)

include hpins hsize hnid hversions

/-- All that is answered for a component when all are asked about is what was pinned. -/
theorem mem_latestAll_of_pins :
    (nid, answer) ∈ (Calculator.latestAll scene c u).1.1 ↔
      ∃ payload, content nid = some payload ∧ payload.head? = some Chronology.tag ∧
        answer = ((c.refreshed scene).view content).latestIn payload := by
  have hmem : (nid, answer) ∈ ((SpineStore.forEach (noteLatest scene)).run (c, []) u).1.2.2 ↔ _ :=
    (notes_noteLatest hnid hversions).mem_forEach hsize
      ⟨recalls_refreshed c scene watched content, hpins⟩ rfl answer
  simp only [Option.bind_eq_some_iff, Option.ite_none_right_eq_some, Option.some.injEq,
    eq_comm (b := answer)] at hmem
  exact List.mem_reverse.trans hmem

/-- Over pinned slots the workers answer for exactly the chronologies of the content, each as the
view does. -/
theorem mem_latestAllParallel_of_pins (workers : Nat) (schedule : List Nat) :
    (nid, answer) ∈ (Calculator.latestAllParallel workers schedule scene c u).1.1 ↔
      ∃ payload, content nid = some payload ∧ payload.head? = some Chronology.tag ∧
        answer = ((c.refreshed scene).view content).latestIn payload := by
  have hmem : (nid, answer) ∈ ((SpineStore.forEachParallel (noteLatest scene) workers schedule).run
      (c, []) u).1.2.2 ↔ _ :=
    (notes_noteLatest hnid hversions).mem_forEachParallel hsize
      ⟨recalls_refreshed c scene watched content, hpins⟩ rfl workers schedule answer
  simp only [Option.bind_eq_some_iff, Option.ite_none_right_eq_some, Option.some.injEq,
    eq_comm (b := answer)] at hmem
  exact List.mem_reverse.trans hmem

end

end Chronicle.Calculator
