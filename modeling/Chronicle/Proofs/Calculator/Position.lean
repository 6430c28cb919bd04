import Chronicle.Proofs.Calculator.Found
import Mathlib.Order.Defs.Unbundled

/-!
# Positions and the latest version

A calculator orders changes in two ways. It tells where one stamp sits relative to another, and it
picks the latest of some versions, first by time and then by distance. Both go by where a stamp is
placed: one stamp is before another if its time is earlier, or if it is as new and its path is further
away. So the versions that the picking leaves are those that are not before any visible version. That
stamps with the same fields are equal is no exception, because the same fields are placed alike.
-/

namespace Chronicle

namespace RelativePosition

variable {a b : StampFields × Reach}

/-- The same position, seen from the other stamp. -/
def mirror : RelativePosition → RelativePosition
  | before => after
  | equal => equal
  | after => before
  | contradiction => contradiction
  | unreachable => unreachable

/-- One stamp comes before another exactly if it is older, or as old and farther away. -/
theorem ofPlaced_eq_before_iff :
    ofPlaced a b = before ↔ a.1.time < b.1.time ∨ a.1.time = b.1.time ∧ b.2.depth < a.2.depth := by
  simp only [ofPlaced, Int64.lt_iff_toInt_lt, ← Int64.toInt_inj]
  repeat' split
  all_goals simp only [reduceCtorEq, true_iff, false_iff]
  all_goals omega

/-- Two stamps that change places have the mirrored position. -/
theorem ofPlaced_swap (a b : StampFields × Reach) : ofPlaced b a = (ofPlaced a b).mirror := by
  simp only [ofPlaced, Int64.lt_iff_toInt_lt]
  repeat' split
  all_goals first | rfl | omega

/-- Stamps that are placed reach each other. -/
theorem ofPlaced_ne_unreachable : ofPlaced a b ≠ unreachable := by
  unfold ofPlaced
  repeat' split
  all_goals simp only [ne_eq, reduceCtorEq, not_false_eq_true]

end RelativePosition

/-- A route places a stamp exactly if it is not canceled, its path is on the route and its time
within the cutoff. -/
theorem Route.place?_eq_some_iff {route : Route} {fields : StampFields} {reach : Reach} :
    route.place? fields = some reach ↔ fields.isCanceled = false ∧
      route[fields.path]? = some reach ∧ fields.time ≤ reach.cutoff := by
  unfold Route.place?
  cases hcanceled : fields.isCanceled with
  | true => simp
  | false => simp [Option.filter_eq_some_iff]

namespace View

variable {view : View} {versions : List Version} {version : Version} {a b stamp : Nid}
  {fields fa fb : StampFields} {reach ra rb : Reach}

/-! ## Placed stamps -/

/-- Where a view places a stamp that is known and not canceled, on the route and within the cutoff
there. -/
structure Places (view : View) (stamp : Nid) (fields : StampFields) (reach : Reach) : Prop where
  found : view.fieldsOf stamp = some fields
  not_canceled : fields.isCanceled = false
  reached : view.route[fields.path]? = some reach
  time_le : fields.time ≤ reach.cutoff

/-- Whether a stamp is placed at all. -/
def Placed (view : View) (stamp : Nid) : Prop :=
  ∃ fields reach, view.Places stamp fields reach

/-- Where one stamp sits relative to another. -/
def position (view : View) (a b : Nid) : RelativePosition :=
  view.route.relativePosition (a, view.fieldsOf a) (b, view.fieldsOf b)

/-- The place of a stamp, if it is placed. -/
def place? (view : View) (stamp : Nid) : Option (StampFields × Reach) := do
  let fields ← view.fieldsOf stamp
  let reach ← view.route.place? fields
  return (fields, reach)

private theorem place?_eq_some_iff :
    view.place? stamp = some (fields, reach) ↔ view.Places stamp fields reach := by
  simp only [place?, Option.bind_eq_bind, Option.bind_eq_some_iff, Option.pure_def,
    Option.some.injEq, Prod.mk.injEq, Route.place?_eq_some_iff]
  constructor
  · rintro ⟨_, hfound, _, ⟨hcanceled, hreached, htime⟩, rfl, rfl⟩
    exact ⟨hfound, hcanceled, hreached, htime⟩
  · intro h
    exact ⟨fields, h.found, reach, ⟨h.not_canceled, h.reached, h.time_le⟩, rfl, rfl⟩

private theorem position_eq_match (view : View) (a b : Nid) :
    view.position a b =
      match view.place? a, view.place? b with
      | some pa, some pb =>
        if a = b ∨ pa.1 = pb.1 then .equal else RelativePosition.ofPlaced pa pb
      | _, _ => .unreachable :=
  rfl

private theorem placed_iff_isSome : view.Placed stamp ↔ (view.place? stamp).isSome := by
  simp only [Placed, Option.isSome_iff_exists, Prod.exists, place?_eq_some_iff]

instance (view : View) (stamp : Nid) : Decidable (view.Placed stamp) :=
  decidable_of_iff _ placed_iff_isSome.symm

/-- The same fields are placed alike. -/
theorem Places.reach_eq (ha : view.Places a fields ra) (hb : view.Places b fields rb) : ra = rb :=
  Option.some.inj (ha.reached.symm.trans hb.reached)

/-- A stamp that is seen is placed. -/
theorem Sees.places (h : view.Sees stamp fields reach) : view.Places stamp fields reach :=
  ⟨h.1, h.2.not_canceled, h.2.reached, h.2.time_le⟩

/-- The position of stamps that are both placed. -/
theorem Places.position_eq (ha : view.Places a fa ra) (hb : view.Places b fb rb) :
    view.position a b =
      if a = b ∨ fa = fb then .equal else RelativePosition.ofPlaced (fa, ra) (fb, rb) := by
  rw [position_eq_match, place?_eq_some_iff.mpr ha, place?_eq_some_iff.mpr hb]

/-- One placed stamp is before another if it is earlier, or as new and further away. -/
theorem Places.position_eq_before_iff (ha : view.Places a fa ra) (hb : view.Places b fb rb) :
    view.position a b = .before ↔
      fa.time < fb.time ∨ fa.time = fb.time ∧ rb.depth < ra.depth := by
  rw [ha.position_eq hb]
  split
  · rename_i hsame
    have hfields : fa = fb := by
      obtain rfl | hfields := hsame
      · exact Option.some.inj (ha.found.symm.trans hb.found)
      · exact hfields
    subst hfields
    rw [ha.reach_eq hb]
    simp
  · exact RelativePosition.ofPlaced_eq_before_iff

/-- Two stamps are unreachable exactly if one of them is not placed. -/
theorem position_eq_unreachable_iff :
    view.position a b = .unreachable ↔ ¬ (view.Placed a ∧ view.Placed b) := by
  constructor
  · rintro hposition ⟨⟨fa, ra, ha⟩, fb, rb, hb⟩
    rw [ha.position_eq hb] at hposition
    split at hposition
    · cases hposition
    · exact RelativePosition.ofPlaced_ne_unreachable hposition
  · intro h
    rw [placed_iff_isSome, placed_iff_isSome] at h
    rw [position_eq_match]
    split
    · rename_i hplaceA hplaceB
      exact absurd (by simp only [hplaceA, hplaceB, Option.isSome_some, and_self]) h
    · rfl

/-- Two stamps that change places have the mirrored position. -/
theorem position_swap (view : View) (a b : Nid) :
    view.position b a = (view.position a b).mirror := by
  by_cases h : view.Placed a ∧ view.Placed b
  · obtain ⟨⟨fa, ra, ha⟩, fb, rb, hb⟩ := h
    rw [ha.position_eq hb, hb.position_eq ha]
    simp only [eq_comm (a := b), eq_comm (a := fb)]
    split
    · rfl
    · exact RelativePosition.ofPlaced_swap _ _
  · rw [position_eq_unreachable_iff.mpr h, position_eq_unreachable_iff.mpr (mt And.symm h)]
    rfl

/-- What is placed is ordered by time, and by distance within one time. -/
theorem strictWeakOrder_before (view : View) :
    IsStrictWeakOrder {stamp // view.Placed stamp} fun a b => view.position a b = .before where
  irrefl := by
    rintro ⟨a, fa, ra, ha⟩ hbefore
    rw [ha.position_eq_before_iff ha, Int64.lt_iff_toInt_lt] at hbefore
    omega
  trans := by
    rintro ⟨a, fa, ra, ha⟩ ⟨b, fb, rb, hb⟩ ⟨c, fc, rc, hc⟩
    simp only [ha.position_eq_before_iff hb, hb.position_eq_before_iff hc,
      ha.position_eq_before_iff hc, Int64.lt_iff_toInt_lt, ← Int64.toInt_inj]
    omega
  incomp_trans := by
    rintro ⟨a, fa, ra, ha⟩ ⟨b, fb, rb, hb⟩ ⟨c, fc, rc, hc⟩
    simp only [ha.position_eq_before_iff hb, hb.position_eq_before_iff ha,
      hb.position_eq_before_iff hc, hc.position_eq_before_iff hb, ha.position_eq_before_iff hc,
      hc.position_eq_before_iff ha, Int64.lt_iff_toInt_lt, ← Int64.toInt_inj]
    omega

/-! ## What the picking leaves -/

/-- The versions that are left when the picking has gone by time and by distance. -/
def survivors (view : View) (versions : List Version) : List Version :=
  (Candidate.nearest (Candidate.newest (view.coordinate.candidates view.route
    (versions.map fun version => (version, view.fieldsOf version.stamp))))).map Candidate.version

/-- What the picking leaves are the foremost versions. -/
theorem survivors_eq_front (view : View) (versions : List Version) :
    view.survivors versions = view.front versions := by
  rw [survivors, candidates_eq, nearest_newest_candidates, map_version_candidates]

/-- No visible version is ahead of a version just if it is not before any of them. -/
theorem foremost_iff_not_before : view.Foremost versions version ↔
    view.Visible version.stamp ∧ ∀ other ∈ versions, view.Visible other.stamp →
      view.position version.stamp other.stamp ≠ .before := by
  have hahead {fields fields' : StampFields} {reach reach' : Reach} {other : Version}
      (h : view.Sees version.stamp fields reach) (h' : view.Sees other.stamp fields' reach') :
      view.position version.stamp other.stamp ≠ .before ↔ fields'.time ≤ fields.time ∧
        (fields'.time = fields.time → reach.depth ≤ reach'.depth) := by
    rw [Ne, h.places.position_eq_before_iff h'.places, Int64.lt_iff_toInt_lt,
      Int64.le_iff_toInt_le, ← Int64.toInt_inj, ← Int64.toInt_inj]
    omega
  constructor
  · rintro ⟨fields, reach, hsees, hforemost⟩
    refine ⟨⟨fields, reach, hsees⟩, fun other hother => ?_⟩
    rintro ⟨fields', reach', hsees'⟩
    exact (hahead hsees hsees').mpr (hforemost other hother fields' reach' hsees')
  · rintro ⟨⟨fields, reach, hsees⟩, hnot⟩
    refine ⟨fields, reach, hsees, fun other hother fields' reach' hsees' => ?_⟩
    exact (hahead hsees hsees').mp (hnot other hother ⟨fields', reach', hsees'⟩)

/-- An answer is found among the versions in front, unless there are none. -/
theorem latest_eq_iff_of_front_ne_nil (h : view.front versions ≠ []) :
    (∀ v, view.latest versions = .single v ↔
      view.front versions = [v] ∨ view.Unrivalled (view.front versions) v) ∧
    ∀ tied, view.latest versions = .contradiction tied ↔
      (∀ v, ¬ (view.front versions = [v] ∨ view.Unrivalled (view.front versions) v)) ∧
        tied = inOrder (view.front versions) := by
  have hlone (v : Version) : view.front versions = [v] ∨ view.Unrivalled (view.front versions) v ↔
      view.Unrivalled (view.front versions) v := by
    constructor
    · rintro (hfront | hv)
      · exact hfront ▸ unrivalled_singleton view v
      · exact hv
    · exact Or.inr
  simp only [hlone]
  refine ⟨fun v => latest_eq_single_iff, fun tied => ?_⟩
  rw [latest_eq_contradiction_iff]
  exact and_iff_right (front_ne_nil_iff.mp h)

end View

namespace Calculator

variable {content : Nid → Option Bytes} {s : SpineStore}

/-- The position of two stamps is the one in what the calculator sees. -/
theorem answers_relativePosition_found (scene : Scene) (c : Calculator)
    (content : Nid → Option Bytes) (a b : Nid) :
    Answers (Meets c content) (fun _ s => s.Shows content) (relativePosition scene a b)
      (((c.refreshed scene).view content).position a b) := by
  apply answers_refreshed
  exact (answers_foundIn? a).bind ((answers_foundIn? b).bind (answers_pure fun _ _ hs => hs.shows))

/-- **Positions decide what is latest.** Stamps have a position relative to each other just if both
are placed, it is mirrored when they are swapped, and to be before another is a strict weak order of
the placed stamps. Where any version is visible, the picking by time and distance leaves just the
visible versions that are not before any visible version: the only one of them is the latest, or the
one whose module is ranked before those of all others, and otherwise all of them contradict each
other. -/
theorem latest_by_position (scene : Scene) (c : Calculator) (hshows : s.Shows content) :
    let view := (c.refreshed scene).view content
    let position (a b : Nid) : RelativePosition := (relativePosition scene a b c s).1.1
    let visible (stamp : Nid) : Bool := (isVisible scene stamp c s).1.1
    (∀ a b, position a b = .unreachable ↔ ¬ (view.Placed a ∧ view.Placed b)) ∧
    (∀ a b, position b a = (position a b).mirror) ∧
    (IsStrictWeakOrder {stamp // view.Placed stamp} fun a b => position a b = .before) ∧
    ∀ chronology : Chronology, (∃ v ∈ chronology.versions, visible v.stamp) →
      let answer := (latestOf scene chronology c s).1.1
      let foremost := chronology.versions.filter fun v =>
        visible v.stamp ∧ ∀ other ∈ chronology.versions,
          visible other.stamp → position v.stamp other.stamp ≠ .before
      foremost ≠ [] ∧ view.survivors chronology.versions = foremost ∧
      (∀ v, answer = .single v ↔ foremost = [v] ∨ view.Unrivalled foremost v) ∧
      (∀ tied, answer = .contradiction tied ↔
        (∀ v, ¬ (foremost = [v] ∨ view.Unrivalled foremost v)) ∧ tied = View.inOrder foremost) ∧
      ∀ nid payload, content nid = some payload → Chronology.decode payload = .ok chronology →
        (latest scene nid c s).1.1 = answer := by
  intro view position visible
  have hposition : position = view.position := by
    funext a b
    obtain ⟨_, _, hrun, -⟩ := answers_relativePosition_found scene c content a b c s ⟨rfl, hshows⟩
    exact congrArg (fun result => result.1.1) hrun
  have hvisible (stamp : Nid) : visible stamp = decide (view.Visible stamp) := by
    obtain ⟨_, _, hrun, -⟩ := answers_isVisible_found scene c content stamp c s ⟨rfl, hshows⟩
    exact congrArg (fun result => result.1.1) hrun
  simp only [hposition, hvisible, decide_eq_true_eq]
  refine ⟨fun a b => View.position_eq_unreachable_iff, view.position_swap,
    view.strictWeakOrder_before, fun chronology hseen => ?_⟩
  have hforemost : (chronology.versions.filter fun v =>
      view.Visible v.stamp ∧ ∀ other ∈ chronology.versions,
        view.Visible other.stamp → view.position v.stamp other.stamp ≠ .before) =
      view.front chronology.versions := by
    simp only [View.front, View.foremost_iff_not_before]
  have hanswer : (latestOf scene chronology c s).1.1 = view.latest chronology.versions := by
    obtain ⟨_, _, hrun, -⟩ := answers_latestOf_found scene c content chronology c s ⟨rfl, hshows⟩
    exact congrArg (fun result => result.1.1) hrun
  have hfront := View.front_ne_nil_iff.mpr hseen
  obtain ⟨hsingle, htied⟩ := View.latest_eq_iff_of_front_ne_nil hfront
  rw [hforemost, hanswer]
  refine ⟨hfront, view.survivors_eq_front _, hsingle, htied, fun nid payload hpayload hdecode => ?_⟩
  obtain ⟨_, _, hrun, -⟩ := answers_latest_found scene c content nid c s ⟨rfl, hshows⟩
  rw [View.elim_latestIn, hpayload, Chronology.versionsOf_of_decode hdecode] at hrun
  exact congrArg (fun result => result.1.1) hrun

/-- Of two stored stamps one is before the other, so that the version of the other is the latest. -/
theorem latest_by_position_of_two :
    ∃ (scene : Scene) (c : Calculator) (content : Nid → Option Bytes) (s : SpineStore)
      (chronology : Chronology) (older newer : Version),
      s.Shows content ∧ chronology.versions = [newer, older] ∧
      (∃ v ∈ chronology.versions, (isVisible scene v.stamp c s).1.1) ∧
      (relativePosition scene older.stamp newer.stamp c s).1.1 = .before ∧
      (relativePosition scene newer.stamp older.stamp c s).1.1 = .after ∧
      (latestOf scene chronology c s).1.1 = .single newer := by
  let path : Nid := ⟨0⟩
  let stamp (n : Nat) : Nid := ⟨-2147483647 + Int32.ofNat n⟩
  let payload (n : Nat) (time : Int64) : Bytes :=
    (StampHistory.start { status := .active, time, author := path, module := path, path }).encode
  let blank := SpineStore.ofMedium Medium.inMemory 4 1 1
  let first := (Store.attempt (SpineStore.merge (stamp 0) (payload 0 1) fun _ update => update)
    blank).2
  let second := (Store.attempt (SpineStore.merge (stamp 1) (payload 1 2) fun _ update => update)
    first).2
  have hblank : blank.Steady fun _ => none :=
    (SpineStore.serves_of_blank (fun _ => Std.ExtTreeMap.getElem?_empty) (by decide)
      (by decide)).steady
  have hfirst := hblank.merge_state (show blank.place? (stamp 0) = some ⟨0, 0⟩ by decide +kernel)
    (payload 0 1) fun _ update => update
  have hsecond := hfirst.merge_state (show first.place? (stamp 1) = some ⟨0, 1⟩ by decide +kernel)
    (payload 1 2) fun _ update => update
  let content : Nid → Option Bytes := fun nid => (SpineStore.lookup nid second).1
  have hshows : second.Shows content := hsecond.shows.now
  let coordinate : Coordinate :=
    { allowed := StatusSet.activeOnly, path, time := 5, priority := [], excluded := ∅,
      allowed_nonempty := by decide, canceled_notMem := by decide, priority_nodup := by decide }
  let scene : Scene := { paths := .empty, generation := 0 }
  let c := make coordinate scene
  let older : Version := ⟨stamp 0, [0]⟩
  let newer : Version := ⟨stamp 1, [1]⟩
  let chronology : Chronology :=
    { nid := path, kind := .concept, ne_nil := by simp, versions := [newer, older] }
  have hseen : ∃ v ∈ chronology.versions, (isVisible scene v.stamp c second).1.1 :=
    ⟨newer, List.mem_cons_self, by decide +kernel⟩
  have hbefore : (relativePosition scene older.stamp newer.stamp c second).1.1 = .before := by
    decide +kernel
  obtain ⟨-, hswap, -, hanswer⟩ := latest_by_position scene c hshows
  obtain ⟨-, -, hsingle, -⟩ := hanswer chronology hseen
  have hafter : (relativePosition scene newer.stamp older.stamp c second).1.1 = .after :=
    (hswap older.stamp newer.stamp).trans (congrArg RelativePosition.mirror hbefore)
  exact ⟨scene, c, content, second, chronology, older, newer, hshows, rfl, hseen, hbefore, hafter,
    (hsingle newer).mpr (Or.inl (by decide +kernel))⟩

end Calculator

end Chronicle
