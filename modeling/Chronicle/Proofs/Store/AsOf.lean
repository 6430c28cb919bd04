import Chronicle.Proofs.Calculator.Found
import Chronicle.Proofs.Path.Horizon
import Chronicle.Proofs.Store.Caches

/-!
# Moving the horizon over a quiet period

Between two horizons nothing is recorded that the later one sees. Then both see the same versions,
and the same of them are newest. What the later horizon can change is how far away these are: a path
keeps the latest cutoff of all walks to it, even if that takes more edges. So the answers are the
same as long as the same of the newest versions are nearest, and otherwise differ in how the tie
between the newest versions is broken.
-/

namespace Chronicle

/-- What a coordinate sees of some paths and stamps at a time. -/
def Coordinate.viewAt (c : Coordinate) (paths : PathGraph) (fieldsOf : Nid → Option StampFields)
    (time : Int64) : View where
  coordinate := c.atTime time
  route := paths.route c.path time
  fieldsOf

namespace View

variable {view view' : View} {versions : List Version} {version : Version} {stamp : Nid}
  {fields : StampFields} {reach : Reach}

/-- A visible version that no visible one is newer than. -/
def Newest (view : View) (versions : List Version) (version : Version) : Prop :=
  ∃ fields reach, view.Sees version.stamp fields reach ∧
    ∀ other ∈ versions, ∀ fields' reach', view.Sees other.stamp fields' reach' →
      fields'.time ≤ fields.time

/-- How many edges away a version is, if it is visible. -/
def distance? (view : View) (version : Version) : Option Nat :=
  (view.candidate? version).map fun c => c.reach.depth

/-- A foremost version is newest. -/
theorem Foremost.newest (h : view.Foremost versions version) : view.Newest versions version := by
  obtain ⟨fields, reach, hsees, hahead⟩ := h
  exact ⟨fields, reach, hsees, fun other hother fields' reach' hother' =>
    (hahead other hother fields' reach' hother').1⟩

private theorem Sees.distance?_eq (h : view.Sees version.stamp fields reach) :
    view.distance? version = some reach.depth := by
  have hcandidate : view.candidate? version = some ⟨version, fields, reach⟩ :=
    candidate?_eq_some_iff.mpr ⟨rfl, h⟩
  rw [distance?, hcandidate, Option.map_some]

/-! ## Answers by the versions in front -/

/-- Views with the same ranks and the same versions in front answer the same. -/
theorem latest_eq_of_front_eq (hrank : view.rank = view'.rank)
    (hfront : view.front versions = view'.front versions) :
    view.latest versions = view'.latest versions := by
  have hunrivalled (v : Version) : view.Unrivalled (view.front versions) v ↔
      view'.Unrivalled (view'.front versions) v := by
    rw [Unrivalled, Unrivalled, hrank, hfront]
  rcases latest_cases view' versions with ⟨hnil, hanswer⟩ | ⟨v, hv, hanswer⟩ | ⟨hne, hnone, hanswer⟩
  · rw [hanswer, latest_eq_absent_iff]
    intro v hv hvisible
    exact front_ne_nil_iff.mpr ⟨v, hv, hvisible⟩ (hfront.trans hnil)
  · rw [hanswer, latest_eq_single_iff]
    exact (hunrivalled v).mpr hv
  · rw [hanswer, latest_eq_contradiction_iff, hfront, ← front_ne_nil_iff, hfront]
    exact ⟨hne, fun v hv => hnone v ((hunrivalled v).mp (hfront ▸ hv)), rfl⟩

/-- Two views with the same ranks answer the same only if the same versions are in front, or if one
of those in front is unrivalled in both. -/
theorem latest_eq_iff (hrank : view.rank = view'.rank) :
    view.latest versions = view'.latest versions ↔
      view.front versions = view'.front versions ∨
      ∃ v, view.Unrivalled (view.front versions) v ∧ view'.Unrivalled (view'.front versions) v := by
  constructor
  · intro heq
    rcases latest_cases view versions with ⟨hnil, hanswer⟩ | ⟨v, hv, hanswer⟩ | ⟨-, -, hanswer⟩
    · have hnone := latest_eq_absent_iff.mp (heq ▸ hanswer)
      have hnil' : view'.front versions = [] := by
        by_contra hne
        obtain ⟨v, hv, hvisible⟩ := front_ne_nil_iff.mp hne
        exact hnone v hv hvisible
      exact Or.inl (hnil.trans hnil'.symm)
    · exact Or.inr ⟨v, hv, latest_eq_single_iff.mp (heq ▸ hanswer)⟩
    · obtain ⟨-, -, htied⟩ := latest_eq_contradiction_iff.mp (heq ▸ hanswer)
      have hperm : (view.front versions).Perm (view'.front versions) :=
        (inOrder_perm _).symm.trans (htied ▸ inOrder_perm _)
      -- Both are sublists of the same list, with the same members.
      left
      apply List.filter_congr
      intro v hv
      have hmem := hperm.mem_iff (a := v)
      rw [mem_front, mem_front] at hmem
      simpa [hv] using hmem
  · rintro (hfront | ⟨v, hv, hv'⟩)
    · exact latest_eq_of_front_eq hrank hfront
    · rw [latest_eq_single_iff.mpr hv, latest_eq_single_iff.mpr hv']

/-! ## Views at two horizons -/

section

variable {c : Coordinate} {paths : PathGraph} {fieldsOf : Nid → Option StampFields}
  {early late : Int64} {narrow wide : Reach}

/-- A stamp that is seen at a later time, and is not younger than an earlier one, is seen then. -/
theorem Sees.earlier (hle : early ≤ late)
    (h : (c.viewAt paths fieldsOf late).Sees stamp fields wide) (htime : fields.time ≤ early) :
    ∃ narrow, (c.viewAt paths fieldsOf early).Sees stamp fields narrow ∧
      narrow.Narrows early wide := by
  obtain ⟨hfields, hsees⟩ := h
  obtain ⟨narrow, hnarrow, hnarrows⟩ := PathGraph.exists_narrow hle hsees.reached
  refine ⟨narrow, ⟨hfields, hsees.not_canceled, hsees.allowed, hsees.included, hnarrow, ?_⟩,
    hnarrows⟩
  have hcutoff := hsees.time_le
  rw [Int64.le_iff_toInt_le] at htime hcutoff ⊢
  rw [hnarrows.cutoff_eq, Reach.toInt_min]
  omega

/-- A stamp that is seen stays so at every later time. -/
theorem Sees.later (hle : early ≤ late)
    (h : (c.viewAt paths fieldsOf early).Sees stamp fields narrow) :
    ∃ wide, (c.viewAt paths fieldsOf late).Sees stamp fields wide ∧ narrow.Narrows early wide := by
  obtain ⟨hfields, hsees⟩ := h
  obtain ⟨wide, hwide, hnarrows⟩ := PathGraph.exists_wide hle hsees.reached
  refine ⟨wide, ⟨hfields, hsees.not_canceled, hsees.allowed, hsees.included, hwide, ?_⟩, hnarrows⟩
  have hcutoff := hsees.time_le
  rw [hnarrows.cutoff_eq] at hcutoff
  rw [Int64.le_iff_toInt_le] at hcutoff ⊢
  rw [Reach.toInt_min] at hcutoff
  omega

/-- Nothing was recorded between the two horizons that the later one sees. -/
structure Quiet (c : Coordinate) (paths : PathGraph) (fieldsOf : Nid → Option StampFields)
    (early late : Int64) (versions : List Version) : Prop where
  le : early ≤ late
  time_le : ∀ v ∈ versions, ∀ fields reach,
    (c.viewAt paths fieldsOf late).Sees v.stamp fields reach → fields.time ≤ early

namespace Quiet

variable (h : Quiet c paths fieldsOf early late versions)

include h

/-- Over a quiet period the same versions are visible. -/
theorem visible_iff (hmem : version ∈ versions) :
    (c.viewAt paths fieldsOf early).Visible version.stamp ↔
      (c.viewAt paths fieldsOf late).Visible version.stamp := by
  constructor
  · rintro ⟨fields, narrow, hsees⟩
    obtain ⟨wide, hlater, -⟩ := hsees.later h.le
    exact ⟨fields, wide, hlater⟩
  · rintro ⟨fields, wide, hsees⟩
    obtain ⟨narrow, hearlier, -⟩ := hsees.earlier h.le (h.time_le version hmem fields wide hsees)
    exact ⟨fields, narrow, hearlier⟩

/-- Over a quiet period the same versions are newest. -/
theorem newest_iff (hmem : version ∈ versions) :
    (c.viewAt paths fieldsOf early).Newest versions version ↔
      (c.viewAt paths fieldsOf late).Newest versions version := by
  constructor
  · rintro ⟨fields, narrow, hsees, hnewest⟩
    obtain ⟨wide, hlater, -⟩ := hsees.later h.le
    refine ⟨fields, wide, hlater, fun other hother fields' wide' hsees' => ?_⟩
    obtain ⟨narrow', hearlier, -⟩ :=
      hsees'.earlier h.le (h.time_le other hother fields' wide' hsees')
    exact hnewest other hother fields' narrow' hearlier
  · rintro ⟨fields, wide, hsees, hnewest⟩
    obtain ⟨narrow, hearlier, -⟩ := hsees.earlier h.le (h.time_le version hmem fields wide hsees)
    refine ⟨fields, narrow, hearlier, fun other hother fields' narrow' hsees' => ?_⟩
    obtain ⟨wide', hlater, -⟩ := hsees'.later h.le
    exact hnewest other hother fields' wide' hlater

/-- If the versions in front stay as near as they are, then they stay in front, and no other version
comes up to them: all others stay as far away or move farther. -/
theorem front_eq (hkept : ∀ v ∈ (c.viewAt paths fieldsOf early).front versions,
      (c.viewAt paths fieldsOf early).distance? v = (c.viewAt paths fieldsOf late).distance? v) :
    (c.viewAt paths fieldsOf early).front versions =
      (c.viewAt paths fieldsOf late).front versions := by
  have hdepth {v : Version} (hv : v ∈ versions) {fields : StampFields} {narrow wide : Reach}
      (hforemost : (c.viewAt paths fieldsOf early).Foremost versions v)
      (hnarrow : (c.viewAt paths fieldsOf early).Sees v.stamp fields narrow)
      (hwide : (c.viewAt paths fieldsOf late).Sees v.stamp fields wide) :
      narrow.depth = wide.depth := by
    have hsame := hkept v (mem_front.mpr ⟨hv, hforemost⟩)
    rw [hnarrow.distance?_eq, hwide.distance?_eq] at hsame
    exact Option.some.inj hsame
  apply List.filter_congr
  intro v hv
  rw [decide_eq_decide]
  constructor
  · intro hforemost
    obtain ⟨fields, narrow, hsees, hahead⟩ := id hforemost
    obtain ⟨wide, hlater, -⟩ := hsees.later h.le
    have hsame := hdepth hv hforemost hsees hlater
    refine ⟨fields, wide, hlater, fun other hother fields' wide' hsees' => ?_⟩
    obtain ⟨narrow', hearlier, hnarrows⟩ :=
      hsees'.earlier h.le (h.time_le other hother fields' wide' hsees')
    obtain ⟨htime, hnearer⟩ := hahead other hother fields' narrow' hearlier
    refine ⟨htime, fun heq => ?_⟩
    have hle := hnearer heq
    have hfarther := hnarrows.depth_le
    omega
  · rintro ⟨fields, wide, hsees, hahead⟩
    obtain ⟨narrow, hearlier, hnarrows⟩ := hsees.earlier h.le (h.time_le v hv fields wide hsees)
    -- Some version is in front at the earlier horizon, and stays as near.
    obtain ⟨w, hw⟩ := List.exists_mem_of_ne_nil _ (front_ne_nil_iff.mpr ⟨v, hv, _, _, hearlier⟩)
    obtain ⟨hmem, hforemost⟩ := mem_front.mp hw
    obtain ⟨fieldsW, narrowW, hseesW, haheadW⟩ := id hforemost
    obtain ⟨wideW, hlaterW, -⟩ := hseesW.later h.le
    have hsame := hdepth hmem hforemost hseesW hlaterW
    obtain ⟨htimeW, hnearerW⟩ := hahead w hmem fieldsW wideW hlaterW
    have htime : fieldsW.time = fields.time :=
      Int64.le_antisymm htimeW (haheadW v hv fields narrow hearlier).1
    have hle := hnearerW htime
    have hfarther := hnarrows.depth_le
    refine ⟨fields, narrow, hearlier, fun other hother fields' narrow' hsees' => ?_⟩
    obtain ⟨htime', hnearer'⟩ := haheadW other hother fields' narrow' hsees'
    refine ⟨htime ▸ htime', fun heq => ?_⟩
    have hle' := hnearer' (heq.trans htime.symm)
    omega

/-- A newest version on the path of the coordinate is in front, and no edge away at any horizon. -/
theorem distance?_eq_of_own {own : Version} (hown : own ∈ versions)
    (hnewest : (c.viewAt paths fieldsOf early).Newest versions own)
    (hpath : ∀ fields, fieldsOf own.stamp = some fields → fields.path = c.path) :
    ∀ v ∈ (c.viewAt paths fieldsOf early).front versions,
      (c.viewAt paths fieldsOf early).distance? v =
        (c.viewAt paths fieldsOf late).distance? v := by
  intro v hv
  obtain ⟨hmem, fields, narrow, hsees, hahead⟩ := mem_front.mp hv
  obtain ⟨fieldsO, narrowO, hseesO, hnewestO⟩ := hnewest
  have hstart (time : Int64) := PathGraph.route_start paths c.path time
  have hownDepth : narrowO.depth = 0 := by
    have hreached : (paths.route c.path early)[fieldsO.path]? = some narrowO := hseesO.2.reached
    rw [hpath fieldsO hseesO.1, hstart] at hreached
    exact (Option.some.inj hreached) ▸ rfl
  have htime : fieldsO.time = fields.time :=
    Int64.le_antisymm (hahead own hown fieldsO narrowO hseesO).1
      (hnewestO v hmem fields narrow hsees)
  have hdepth : narrow.depth = 0 := by
    have hle := (hahead own hown fieldsO narrowO hseesO).2 htime
    omega
  obtain ⟨wide, hlater, -⟩ := hsees.later h.le
  have heq : fields.path = c.path :=
    (PathGraph.route_eq_some_iff.mp hsees.2.reached).1.eq_start hdepth
  have hwide : (paths.route c.path late)[fields.path]? = some wide := hlater.2.reached
  rw [heq, hstart] at hwide
  rw [hsees.distance?_eq, hlater.distance?_eq, hdepth, ← Option.some.inj hwide]

/-- Without branches, the horizon does not change how far away anything is. -/
theorem distance?_eq_of_unbranched (hunbranched : paths.Unbranched) :
    ∀ v ∈ (c.viewAt paths fieldsOf early).front versions,
      (c.viewAt paths fieldsOf early).distance? v =
        (c.viewAt paths fieldsOf late).distance? v := by
  intro v hv
  obtain ⟨-, fields, narrow, hsees, -⟩ := mem_front.mp hv
  obtain ⟨wide, hlater, -⟩ := hsees.later h.le
  rw [hsees.distance?_eq, hlater.distance?_eq,
    hunbranched.depth_eq h.le hsees.2.reached hlater.2.reached]

end Quiet

end

end View

namespace Store

open StampFields (storedIn?)

/-- **Quiet periods.** Two sound calculators of one coordinate at two horizons, where nothing was
recorded in between that the later one sees, see the same versions of a component. Their answers are
both absent or neither is, and are made of the same newest versions. They are the same if and only
if the same of these are nearest, or if one version is unrivalled among the nearest at both times.
It is enough that those which are nearest at the earlier horizon are as near at the later one; that
no path has two origins; or that a newest version is on the path of the coordinate. -/
theorem quiet_period_stable {scene : Scene} {content : Nid → Option Bytes}
    {earlier later : Calculator} {s s' : SpineStore} {coordinate : Coordinate} {early late : Int64}
    (hearlier : earlier.Sound scene content) (hlater : later.Sound scene content)
    (hshows : s.Shows content) (hshows' : s'.Shows content)
    (hearly : earlier.coordinate = coordinate.atTime early)
    (hlate : later.coordinate = coordinate.atTime late) (hle : early ≤ late) (component : Nid)
    (hquiet : ∀ v ∈ Chronology.versionsOf (content component),
      (Calculator.isVisible scene v.stamp later s').1.1 = true →
        ∀ fields, storedIn? content v.stamp = some fields → fields.time ≤ early) :
    let versions := Chronology.versionsOf (content component)
    let view (time : Int64) := coordinate.viewAt scene.paths (storedIn? content) time
    let answer := (Calculator.latest scene component earlier s).1.1
    let answer' := (Calculator.latest scene component later s').1.1
    (∀ v ∈ versions, (Calculator.isVisible scene v.stamp earlier s).1.1 =
      (Calculator.isVisible scene v.stamp later s').1.1) ∧
    (answer = .absent ↔ answer' = .absent) ∧
    (∀ v ∈ answer.toList ++ answer'.toList,
      (view early).Newest versions v ∧ (view late).Newest versions v) ∧
    (answer = answer' ↔ (view early).front versions = (view late).front versions ∨
      ∃ v, (view early).Unrivalled ((view early).front versions) v ∧
        (view late).Unrivalled ((view late).front versions) v) ∧
    ((∀ v ∈ (view early).front versions, (view early).distance? v = (view late).distance? v) ∨
      scene.paths.Unbranched ∨
      (∃ own ∈ versions, (view early).Newest versions own ∧
        ∀ fields, storedIn? content own.stamp = some fields → fields.path = coordinate.path) →
      answer = answer') := by
  intro versions view answer answer'
  have hvisible (stamp : Nid) : (Calculator.isVisible scene stamp earlier s).1.1 =
      decide ((view early).Visible stamp) := by
    rw [hearlier.isVisible_eq hshows, hearly]
    rfl
  have hvisible' (stamp : Nid) : (Calculator.isVisible scene stamp later s').1.1 =
      decide ((view late).Visible stamp) := by
    rw [hlater.isVisible_eq hshows', hlate]
    rfl
  have hanswer : answer = (view early).latest versions := by
    rw [show answer = _ from hearlier.latest_eq hshows component, hearly]
    rfl
  have hanswer' : answer' = (view late).latest versions := by
    rw [show answer' = _ from hlater.latest_eq hshows' component, hlate]
    rfl
  have hperiod : View.Quiet coordinate scene.paths (storedIn? content) early late versions := by
    refine ⟨hle, fun v hv fields reach hsees => hquiet v hv ?_ fields hsees.1⟩
    rw [hvisible', decide_eq_true_iff]
    exact ⟨fields, reach, hsees⟩
  have hfront : (view early).front versions = (view late).front versions → answer = answer' := by
    rw [hanswer, hanswer']
    exact View.latest_eq_of_front_eq rfl
  refine ⟨fun v hv => ?_, ?_, fun v hv => ?_, ?_, ?_⟩
  · rw [hvisible, hvisible', decide_eq_decide]
    exact hperiod.visible_iff hv
  · rw [hanswer, hanswer', View.latest_eq_absent_iff, View.latest_eq_absent_iff]
    exact forall₂_congr fun v hv => not_congr (hperiod.visible_iff hv)
  · rw [hanswer, hanswer'] at hv
    obtain hv | hv := List.mem_append.mp hv
    · obtain ⟨hmem, hforemost⟩ := View.mem_front.mp (View.foremost_of_mem_latest hv)
      exact ⟨hforemost.newest, (hperiod.newest_iff hmem).mp hforemost.newest⟩
    · obtain ⟨hmem, hforemost⟩ := View.mem_front.mp (View.foremost_of_mem_latest hv)
      exact ⟨(hperiod.newest_iff hmem).mpr hforemost.newest, hforemost.newest⟩
  · rw [hanswer, hanswer']
    exact View.latest_eq_iff rfl
  · rintro (hkept | hunbranched | ⟨own, hown, hnewest, hpath⟩)
    · exact hfront (hperiod.front_eq hkept)
    · exact hfront (hperiod.front_eq (hperiod.distance?_eq_of_unbranched hunbranched))
    · exact hfront (hperiod.front_eq (hperiod.distance?_eq_of_own hown hnewest hpath))

/-- Of two newest versions, the one on the path of the coordinate is the answer before and after the
edge to the other one has its time. -/
theorem quiet_period_stable_own :
    ∃ scene content earlier later s coordinate early late component own,
      Calculator.Sound scene content earlier ∧ Calculator.Sound scene content later ∧
      SpineStore.Shows s content ∧ earlier.coordinate = Coordinate.atTime coordinate early ∧
      later.coordinate = coordinate.atTime late ∧ early < late ∧
      (∀ v ∈ Chronology.versionsOf (content component),
        (Calculator.isVisible scene v.stamp later s).1.1 = true →
          ∀ fields, storedIn? content v.stamp = some fields → fields.time ≤ early) ∧
      (Calculator.latest scene component earlier s).1.1 = .single own ∧
      (Calculator.latest scene component later s).1.1 = .single own := by
  let path : Nid := ⟨0⟩
  let origin : Nid := ⟨1⟩
  let slot (n : Nat) : Nid := ⟨-2147483647 + Int32.ofNat n⟩
  let stamp (on : Nid) : Bytes :=
    (StampHistory.start
      { status := .active, time := 3, author := path, module := path, path := on }).encode
  let chronology : Chronology :=
    { nid := slot 2, kind := .concept, versions := [⟨slot 0, [0]⟩, ⟨slot 1, [1]⟩]
      ne_nil := by simp }
  let blank := SpineStore.ofMedium Medium.inMemory 4 1 1
  let first := (attempt (SpineStore.merge (slot 0) (stamp origin) fun _ update => update) blank).2
  let second := (attempt (SpineStore.merge (slot 1) (stamp path) fun _ update => update) first).2
  let third := (attempt (SpineStore.merge (slot 2) chronology.encode fun _ update => update)
    second).2
  have hblank : blank.Steady fun _ => none :=
    (SpineStore.serves_of_blank (fun _ => Std.ExtTreeMap.getElem?_empty) (by decide)
      (by decide)).steady
  have hfirst := hblank.merge_state (show blank.place? (slot 0) = some ⟨0, 0⟩ by decide +kernel)
    (stamp origin) fun _ update => update
  have hsecond := hfirst.merge_state (show first.place? (slot 1) = some ⟨0, 1⟩ by decide +kernel)
    (stamp path) fun _ update => update
  have hthird := hsecond.merge_state (show second.place? (slot 2) = some ⟨0, 2⟩ by decide +kernel)
    chronology.encode fun _ update => update
  let content : Nid → Option Bytes := fun nid => (SpineStore.lookup nid third).1
  have hshows : third.Shows content := hthird.shows.now
  let coordinate : Coordinate :=
    { allowed := StatusSet.activeOnly, path, time := Time.latest, priority := [], excluded := ∅
      allowed_nonempty := by decide, canceled_notMem := by decide, priority_nodup := by decide }
  let edge : PathOrigin := { origin, time := 5 }
  let scene : Scene :=
    { paths := { edges := (∅ : Std.ExtTreeMap Nid _).insert path [edge], changed := false }
      generation := 0 }
  let earlier := Calculator.make (coordinate.atTime 4) scene
  let later := Calculator.make (coordinate.atTime 20) scene
  have hearlier : earlier.Sound scene content := Calculator.sound_make _ _ _
  have hlater : later.Sound scene content := Calculator.sound_make _ _ _
  have hquiet : ∀ v ∈ Chronology.versionsOf (content (slot 2)),
      (Calculator.isVisible scene v.stamp later third).1.1 = true →
        ∀ fields, storedIn? content v.stamp = some fields → fields.time ≤ 4 := by
    decide +kernel
  have hearly : (Calculator.latest scene (slot 2) earlier third).1.1 = .single ⟨slot 1, [1]⟩ := by
    decide +kernel
  obtain ⟨-, -, -, -, hstable⟩ := quiet_period_stable hearlier hlater hshows hshows rfl rfl
    (show (4 : Int64) ≤ 20 by decide) (slot 2) hquiet
  have hsame := hstable (Or.inl (by decide +kernel))
  exact ⟨scene, content, earlier, later, third, coordinate, 4, 20, slot 2, ⟨slot 1, [1]⟩, hearlier,
    hlater, hshows, rfl, rfl, by decide, hquiet, hearly, hsame.symm.trans hearly⟩

/-- A path that two walks lead to is nearest as long as the shorter one is not cut off, and is then
passed by a path on the longer one. So one version gives way to another although nothing was
recorded in between. -/
theorem quiet_period_unstable :
    ∃ opened next operations coordinate early late component version other,
      overMedium { spineSize := 4 } false Medium.inMemory = .ok opened next ∧
      let s := opened.performAll operations
      let content (nid : Nid) := (SpineStore.lookup nid s.spines).1
      early ≤ late ∧
      (∀ v ∈ Chronology.versionsOf (content component),
        ∀ fields ∈ storedIn? content v.stamp, fields.time ≤ early) ∧
      (latest (Coordinate.atTime coordinate early) component s).1 = .single version ∧
      (latest (coordinate.atTime late) component s).1 = .single other ∧ version ≠ other := by
  let path : Nid := ⟨-2147483642⟩
  let shared : Nid := ⟨-2147483641⟩
  let last : Nid := ⟨-2147483640⟩
  let middle : Nid := ⟨-2147483639⟩
  let component : Nid := ⟨-2147483638⟩
  let version : Version := ⟨⟨-2147483637⟩, [1]⟩
  let other : Version := ⟨⟨-2147483636⟩, [2]⟩
  let fields (on : Nid) : StampFields :=
    { status := .active, time := 3, author := path, module := path, path := on }
  let coordinate : Coordinate :=
    { allowed := StatusSet.activeOnly, path, time := Time.latest, priority := [], excluded := ∅
      allowed_nonempty := by decide, canceled_notMem := by decide, priority_nodup := by decide }
  let operations : List Operation :=
    [.resolveAliases [⟨1⟩], .resolveAliases [⟨2⟩], .resolveAliases [⟨3⟩], .resolveAliases [⟨4⟩],
      .resolveAliases [⟨5⟩], .commitStamp (fields shared) ⟨6⟩,
      .appendVersion component .concept version, .commitStamp (fields last) ⟨7⟩,
      .appendVersion component .concept other,
      .addPathOrigin path { origin := shared, time := 5 },
      .addPathOrigin path { origin := middle, time := 10 },
      .addPathOrigin middle { origin := last, time := 10 },
      .addPathOrigin last { origin := shared, time := 10 }]
  exact ⟨_, _, operations, coordinate, 4, 20, component, version, other, rfl, by decide,
    by decide +kernel, by decide +kernel, by decide +kernel, by decide⟩

end Store

end Chronicle
