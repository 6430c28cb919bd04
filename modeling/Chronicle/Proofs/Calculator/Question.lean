import Chronicle.Calculator.Pool
import Chronicle.Proofs.Spine.Observation

/-!
# Questions to calculators

What a calculator can be asked, as data. Answering a question looks payloads up and does nothing
else to the store.
-/

namespace Chronicle.Calculator

open SpineStore (Scan OutlastsTouch)

/-- What a calculator is asked. -/
inductive Question where
  | stamp (nid : Nid)
  | reach (path : Nid)
  | isVisible (nid : Nid)
  | latest (nid : Nid)
  | latestOf (chronology : Chronology)
  | relativePosition (a b : Nid)

/-- What a calculator answers. -/
inductive Reply where
  | fields (fields : Option StampFields)
  | reach (reach : Option Reach)
  | visible (visible : Bool)
  | latest (latest : Latest Version)
  | position (position : RelativePosition)
  deriving DecidableEq

/-- Asks a question. -/
def Question.ask (scene : Scene) : Question → Scan Calculator Reply
  | stamp nid => .fields <$> Calculator.stamp scene nid
  | reach path => .reach <$> Calculator.reach scene path
  | isVisible nid => .visible <$> Calculator.isVisible scene nid
  | latest nid => .latest <$> Calculator.latest scene nid
  | latestOf chronology => .latest <$> Calculator.latestOf scene chronology
  | relativePosition a b => .position <$> Calculator.relativePosition scene a b

section

variable {α β : Type} {P : Calculator → SpineStore → Prop} {scene : Scene}

private theorem maintains_map {x : Scan Calculator α} (f : α → β) (hx : Scan.Maintains P x) :
    Scan.Maintains P (f <$> x) :=
  fun c s h => hx c s h

/-- What holds of a calculator and a store outlasts that the calculator is brought up to date and
that it remembers the fields of a stamp which the store answers. -/
structure OutlastsAnswers (scene : Scene) (P : Calculator → SpineStore → Prop) : Prop where
  touch : OutlastsTouch P
  refresh : ∀ c s, P c s → P (c.refreshed scene) s
  fields : ∀ stamp, Scan.Maintains P (fields? stamp)

variable (h : OutlastsAnswers scene P)

include h

private theorem OutlastsAnswers.maintains_refresh : Scan.Maintains P (Calculator.refresh scene) :=
  fun c s hs => h.refresh c s hs

private theorem OutlastsAnswers.maintains_withFields (versions : List Version) :
    Scan.Maintains P (withFields versions) := by
  induction versions with
  | nil => exact Scan.maintains_pure []
  | cons version versions ih =>
    exact (h.fields version.stamp).bind fun _ => ih.bind fun _ => Scan.maintains_pure _

private theorem OutlastsAnswers.maintains_latestOf (chronology : Chronology) :
    Scan.Maintains P (Calculator.latestOf scene chronology) :=
  h.maintains_refresh.bind fun _ =>
    (h.maintains_withFields chronology.versions).bind fun _ => Scan.maintains_pure _

/-- What outlasts answers holds after the latest version in a payload was asked for. -/
theorem OutlastsAnswers.maintains_latestIn (payload : Bytes) :
    Scan.Maintains P (latestIn scene payload) := by
  rw [latestIn]
  split
  · exact Scan.maintains_pure _
  · split
    · exact h.maintains_latestOf _
    · exact Scan.maintains_pure _

/-- What outlasts answers holds after the latest version of a nid was asked for. -/
theorem OutlastsAnswers.maintains_latest (nid : Nid) :
    Scan.Maintains P (Calculator.latest scene nid) := by
  refine (Scan.maintains_lookup h.touch nid).bind fun payload? => ?_
  cases payload? with
  | none => exact Scan.maintains_pure _
  | some payload => exact h.maintains_latestIn payload

/-- Every question is answered in this way. -/
theorem OutlastsAnswers.maintains_ask (question : Question) :
    Scan.Maintains P (question.ask scene) := by
  cases question with
  | stamp nid => exact maintains_map _ (h.maintains_refresh.bind fun _ => h.fields nid)
  | reach path => exact maintains_map _ (h.maintains_refresh.bind fun _ => Scan.maintains_pure _)
  | isVisible nid =>
    refine maintains_map _ (h.maintains_refresh.bind fun _ => ?_)
    exact (h.fields nid).bind fun _ => Scan.maintains_pure _
  | latest nid => exact maintains_map _ (h.maintains_latest nid)
  | latestOf chronology => exact maintains_map _ (h.maintains_latestOf chronology)
  | relativePosition a b =>
    refine maintains_map _ (h.maintains_refresh.bind fun _ => ?_)
    exact (h.fields a).bind fun _ => (h.fields b).bind fun _ => Scan.maintains_pure _

/-- Noting the latest version in a payload is one more answer. -/
theorem OutlastsAnswers.maintains_noteLatest (nid : Nid) (payload : Bytes) :
    Scan.Maintains (fun (carried : Calculator × List (Nid × Latest Version)) s => P carried.1 s)
      (noteLatest scene nid payload) := by
  intro carried t ht
  obtain ⟨c, seen⟩ := carried
  simp only [StateT.run, noteLatest]
  split
  · exact h.maintains_latestIn payload c t ht
  · exact ht

omit h in
private theorem outlastsTouch_carried (htouch : OutlastsTouch P) : OutlastsTouch
    fun (carried : Calculator × List (Nid × Latest Version)) s => P carried.1 s :=
  fun carried s index hreaches hs => htouch carried.1 s index hreaches hs

/-- So are all questions for the latest versions at once. -/
theorem OutlastsAnswers.latestAll {c : Calculator} {s : SpineStore} (hs : P c s) :
    P (Calculator.latestAll scene c s).1.2 (Calculator.latestAll scene c s).2 := by
  let never : Calculator × List (Nid × Latest Version) → Bool := fun _ => false
  have hscan : Scan.Maintains (fun carried s => P carried.1 s)
      (SpineStore.forEachUntil never (noteLatest scene)) :=
    SpineStore.maintains_forEachUntil (outlastsTouch_carried h.touch) h.maintains_noteLatest
  exact hscan (c, []) s hs

/-- What outlasts answers holds after all latest versions were asked for, whatever the workers do.
-/
theorem OutlastsAnswers.latestAllParallel {c : Calculator} {s : SpineStore} (workers : Nat)
    (schedule : List Nat) (hs : P c s) :
    P (Calculator.latestAllParallel workers schedule scene c s).1.2
      (Calculator.latestAllParallel workers schedule scene c s).2 := by
  let never : Calculator × List (Nid × Latest Version) → Bool := fun _ => false
  have hscan : Scan.Maintains (fun carried s => P carried.1 s)
      (SpineStore.forEachParallelUntil never (noteLatest scene) workers schedule) :=
    SpineStore.maintains_forEachParallelUntil (outlastsTouch_carried h.touch)
      h.maintains_noteLatest workers schedule
  exact hscan (c, []) s hs

end

/-- A component is looked up before its latest version is asked for. -/
theorem latest_of_lookup (scene : Scene) (nid : Nid) (c : Calculator) (s : SpineStore) :
    Calculator.latest scene nid c s =
      ((SpineStore.lookup nid s).1.elim (return .absent) (latestIn scene)) c
        (SpineStore.lookup nid s).2 := by
  have hlatest : Calculator.latest scene nid = (do
      let found ← (SpineStore.lookup nid : StateM SpineStore (Option Bytes))
      found.elim (return .absent) (latestIn scene)) := by
    refine congrArg _ (funext fun found => ?_)
    cases found <;> rfl
  rw [hlatest]
  rfl

/-- What a scan notes is answered in the order in which it was noted. -/
theorem latestAll_of_forEach {scene : Scene} {c c' : Calculator} {s t : SpineStore}
    {seen : List (Nid × Latest Version)}
    (hrun : (SpineStore.forEach (noteLatest scene)).run (c, []) s = (((), c', seen), t)) :
    Calculator.latestAll scene c s = ((seen.reverse, c'), t) := by
  rw [StateT.run] at hrun
  rw [Calculator.latestAll, hrun]

/-- The answers of the workers are what their scan noted, in the order of the notes. -/
theorem latestAllParallel_of_forEach {workers : Nat} {schedule : List Nat} {scene : Scene}
    {c c' : Calculator} {s t : SpineStore} {seen : List (Nid × Latest Version)}
    (hrun : (SpineStore.forEachParallel (noteLatest scene) workers schedule).run (c, []) s =
      (((), c', seen), t)) :
    Calculator.latestAllParallel workers schedule scene c s = ((seen.reverse, c'), t) := by
  rw [StateT.run] at hrun
  rw [Calculator.latestAllParallel, hrun]

/-- What holds of a store alone and outlasts that spines come into memory outlasts every answer. -/
theorem outlastsAnswers_of_touch {Q : SpineStore → Prop} (scene : Scene)
    (htouch : OutlastsTouch fun (_ : Unit) s => Q s) :
    OutlastsAnswers scene fun _ s => Q s := by
  refine ⟨SpineStore.OutlastsTouch.carried htouch, fun _ _ hs => hs, fun stamp c s hs => ?_⟩
  have hlookup : Q (SpineStore.lookup stamp s).2 := Scan.maintains_lookup htouch stamp () s hs
  simp only [StateT.run, fields?]
  split
  · exact hs
  · split
    rename_i payload? found hfound
    rw [hfound] at hlookup
    split
    · exact hlookup
    · exact hlookup

end Chronicle.Calculator
