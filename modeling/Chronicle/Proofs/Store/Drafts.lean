import Chronicle.Proofs.Calculator.Found
import Chronicle.Proofs.Store.Caches

/-!
# Uncommitted and canceled work

Nobody sees canceled work. Uncommitted work bears the last time there is, so only a horizon that is
as late reaches it, and then only where no earlier edge cuts it off: on the path of the coordinate,
and beyond over edges that have the last time themselves. An edge of a commit time never passes it
on.
-/

namespace Chronicle

/-- An edge of the last time, which passes uncommitted work on. -/
def PathGraph.PassesDrafts (g : PathGraph) (path origin : Nid) : Prop :=
  { origin, time := Time.latest } ∈ g.origins path

namespace PathGraph

variable {g : PathGraph} {start path : Nid} {horizon : Int64} {reach : Reach}

private theorem latest_of_le {time : Int64} (h : Time.latest ≤ time) : time = Time.latest := by
  rw [Int64.le_iff_toInt_le] at h
  have hle : time.toInt ≤ Time.latest.toInt := Int64.toInt_le time
  rw [← Int64.toInt_inj]
  omega

/-- Only a walk over edges of the last time leads to the last cutoff. -/
theorem Walk.of_latest (h : g.Walk start horizon path reach) (hreach : reach.cutoff = Time.latest) :
    horizon = Time.latest ∧ Relation.ReflTransGen g.PassesDrafts start path := by
  induction h with
  | stay => exact ⟨hreach, .refl⟩
  | @along path reach edge _ hedge ih =>
    have hmin : min reach.cutoff.toInt edge.time.toInt = Time.latest.toInt := by
      rw [← Reach.toInt_min]
      exact congrArg Int64.toInt hreach
    have hcutoff : reach.cutoff = Time.latest := by
      apply latest_of_le
      rw [Int64.le_iff_toInt_le]
      omega
    have htime : edge.time = Time.latest := by
      apply latest_of_le
      rw [Int64.le_iff_toInt_le]
      omega
    obtain ⟨hhorizon, hpasses⟩ := ih hcutoff
    refine ⟨hhorizon, hpasses.tail ?_⟩
    unfold PassesDrafts
    rwa [← htime]

/-- Without edges of the last time, uncommitted work is passed on nowhere. -/
theorem eq_of_not_passesDrafts (h : Relation.ReflTransGen g.PassesDrafts start path)
    (hedges : ∀ path, ∀ edge ∈ g.origins path, edge.time ≠ Time.latest) : path = start := by
  rcases h.cases_tail with heq | ⟨before, -, hpasses⟩
  · exact heq
  · exact absurd rfl (hedges before _ hpasses)

end PathGraph

/-- What a coordinate may be shown: no canceled work, and uncommitted work only at the last horizon
and from a path that edges of the last time lead to, which is the path of the coordinate if there
are no such edges. -/
structure Coordinate.MaySee (c : Coordinate) (paths : PathGraph) (fields : StampFields) : Prop where
  not_canceled : fields.isCanceled = false
  horizon : fields.isUncommitted = true → c.time = Time.latest
  passed : fields.isUncommitted = true →
    Relation.ReflTransGen paths.PassesDrafts c.path fields.path

/-- A coordinate sees no more than it may be shown. -/
theorem Coordinate.Sees.maySee {c : Coordinate} {paths : PathGraph} {fields : StampFields}
    {reach : Reach} (h : c.Sees (paths.route c.path c.time) fields reach) :
    c.MaySee paths fields := by
  have hlatest (huncommitted : fields.isUncommitted = true) :
      c.time = Time.latest ∧ Relation.ReflTransGen paths.PassesDrafts c.path fields.path := by
    have htime : fields.time = Time.latest := by
      rw [StampFields.isUncommitted, Bool.and_eq_true] at huncommitted
      exact eq_of_beq huncommitted.2
    obtain ⟨hwalk, -⟩ := PathGraph.route_eq_some_iff.mp h.reached
    exact hwalk.of_latest (PathGraph.latest_of_le (htime ▸ h.time_le))
  exact ⟨h.not_canceled, fun hdraft => (hlatest hdraft).1, fun hdraft => (hlatest hdraft).2⟩

/-- Without edges of the last time, a coordinate is shown the drafts of its own path only. -/
theorem Coordinate.MaySee.path_eq {c : Coordinate} {paths : PathGraph} {fields : StampFields}
    (h : c.MaySee paths fields) (hdraft : fields.isUncommitted = true)
    (hedges : ∀ path, ∀ edge ∈ paths.origins path, edge.time ≠ Time.latest) :
    fields.path = c.path :=
  PathGraph.eq_of_not_passesDrafts (h.passed hdraft) hedges

/-- Whatever a view answers, it may see. -/
theorem View.maySee_of_mem_latest {view : View} {paths : PathGraph} {versions : List Version}
    {v : Version} (hroute : view.route = paths.route view.coordinate.path view.coordinate.time)
    (hv : v ∈ (view.latest versions).toList) :
    ∃ fields, view.fieldsOf v.stamp = some fields ∧ view.coordinate.MaySee paths fields := by
  obtain ⟨-, fields, reach, ⟨hfields, hsees⟩, -⟩ :=
    View.mem_front.mp (View.foremost_of_mem_latest hv)
  rw [hroute] at hsees
  exact ⟨fields, hfields, hsees.maySee⟩

namespace Store

open StampFields (storedIn?)

/-- **Uncommitted work stays where it is.** Whatever edges there are, a calculator that agrees with
the paths and with what is stored sees no canceled stamp, and sees an uncommitted one only at the
last horizon and on a path that edges of the last time lead to from the path of its coordinate.
Without such edges that is the path of the coordinate itself. The same holds of every version that
it answers. -/
theorem drafts_confined {scene : Scene} {content : Nid → Option Bytes} {c : Calculator}
    {s : SpineStore} (hsound : c.Sound scene content) (hshows : s.Shows content) :
    let mayShow (stamp : Nid) := ∃ fields, storedIn? content stamp = some fields ∧
      c.coordinate.MaySee scene.paths fields ∧
      (fields.isUncommitted = true →
        (∀ path, ∀ edge ∈ scene.paths.origins path, edge.time ≠ Time.latest) →
          fields.path = c.coordinate.path)
    (∀ stamp, (Calculator.isVisible scene stamp c s).1.1 = true → mayShow stamp) ∧
    (∀ nid, ∀ v ∈ (Calculator.latest scene nid c s).1.1.toList, mayShow v.stamp) ∧
    ∀ chronology, ∀ v ∈ (Calculator.latestOf scene chronology c s).1.1.toList, mayShow v.stamp := by
  intro mayShow
  have hmay {stamp : Nid} {fields : StampFields} (hfields : storedIn? content stamp = some fields)
      (h : c.coordinate.MaySee scene.paths fields) : mayShow stamp :=
    ⟨fields, hfields, h, h.path_eq⟩
  let view : View := ⟨c.coordinate, Calculator.presentRoute scene c.coordinate, storedIn? content⟩
  have hview : (c.refreshed scene).view content = view := hsound.view_eq
  have hversions (versions : List Version) (v : Version)
      (hv : v ∈ (view.latest versions).toList) : mayShow v.stamp := by
    obtain ⟨fields, hfields, hsees⟩ := View.maySee_of_mem_latest rfl hv
    exact hmay hfields hsees
  refine ⟨fun stamp hvisible => ?_, fun nid v hv => ?_, fun chronology v hv => ?_⟩
  · obtain ⟨_, _, hrun, -⟩ :=
      Calculator.answers_isVisible_found scene c content stamp c s ⟨rfl, hshows⟩
    have hanswer : (Calculator.isVisible scene stamp c s).1.1 = decide (view.Visible stamp) := by
      rw [← hview]
      exact congrArg (fun result => result.1.1) hrun
    rw [hanswer, decide_eq_true_iff] at hvisible
    obtain ⟨fields, reach, hfields, hsees⟩ := hvisible
    exact hmay hfields hsees.maySee
  · obtain ⟨_, _, hrun, -⟩ :=
      Calculator.answers_latest_found scene c content nid c s ⟨rfl, hshows⟩
    have hanswer : (Calculator.latest scene nid c s).1.1 =
        (content nid).elim .absent view.latestIn := by
      rw [← hview]
      exact congrArg (fun result => result.1.1) hrun
    rw [hanswer, View.elim_latestIn] at hv
    exact hversions _ v hv
  · obtain ⟨_, _, hrun, -⟩ :=
      Calculator.answers_latestOf_found scene c content chronology c s ⟨rfl, hshows⟩
    have hanswer : (Calculator.latestOf scene chronology c s).1.1 =
        view.latest chronology.versions := by
      rw [← hview]
      exact congrArg (fun result => result.1.1) hrun
    exact hversions _ v (hanswer ▸ hv)

/-- A draft is seen on its own path, which has an origin. -/
theorem drafts_confined_own :
    ∃ scene c content s stamp fields, Calculator.Sound scene content c ∧
      SpineStore.Shows s content ∧ (Calculator.isVisible scene stamp c s).1.1 = true ∧
      storedIn? content stamp = some fields ∧ fields.isUncommitted = true ∧
      c.coordinate.time = Time.latest ∧ fields.path = c.coordinate.path := by
  let path : Nid := ⟨0⟩
  let stamp : Nid := ⟨-2147483647⟩
  let fields : StampFields := .draft .active path path path
  let edge : PathOrigin := { origin := stamp, time := 7 }
  let scene : Scene :=
    { paths := { edges := (∅ : Std.ExtTreeMap Nid _).insert path [edge], changed := false }
      generation := 0 }
  let coordinate : Coordinate :=
    { allowed := StatusSet.activeOnly, path, time := Time.latest, priority := [], excluded := ∅
      allowed_nonempty := by decide, canceled_notMem := by decide, priority_nodup := by decide }
  let c := Calculator.make coordinate scene
  let blank := SpineStore.ofMedium Medium.inMemory 4 1 1
  let s := (attempt (SpineStore.merge stamp (StampHistory.start fields).encode
    fun _ update => update) blank).2
  let content : Nid → Option Bytes := fun nid => (SpineStore.lookup nid s).1
  have hblank : blank.Steady fun _ => none :=
    (SpineStore.serves_of_blank (fun _ => Std.ExtTreeMap.getElem?_empty) (by decide)
      (by decide)).steady
  have hshows : s.Shows content :=
    (hblank.merge_state (show blank.place? stamp = some ⟨0, 0⟩ by decide +kernel) _ _).shows.now
  have hsound : c.Sound scene content := Calculator.sound_make coordinate scene content
  have hedges (other : Nid) (found : PathOrigin) (hfound : found ∈ scene.paths.origins other) :
      found.time ≠ Time.latest := by
    simp only [PathGraph.origins, scene, Std.ExtTreeMap.getElem?_insert] at hfound
    split at hfound
    · obtain rfl := List.mem_singleton.mp hfound
      decide
    · simp at hfound
  have hvisible : (Calculator.isVisible scene stamp c s).1.1 = true := by decide +kernel
  have hstored : storedIn? content stamp = some fields := by decide +kernel
  obtain ⟨hsees, -⟩ := drafts_confined hsound hshows
  obtain ⟨found, hfound, hmay, hown⟩ := hsees stamp hvisible
  obtain rfl : fields = found := Option.some.inj (hstored.symm.trans hfound)
  exact ⟨scene, c, content, s, stamp, fields, hsound, hshows, hvisible, hstored, by decide,
    hmay.horizon (by decide), hown (by decide) hedges⟩

/-- A path that is given an origin up to the last time shows the draft of that origin. -/
theorem drafts_inherited :
    ∃ opened next operations coordinate component version fields,
      overMedium { spineSize := 4 } false Medium.inMemory = .ok opened next ∧
      let s := opened.performAll operations
      (latest coordinate component s).1 = .single version ∧
      storedIn? (fun nid => (SpineStore.lookup nid s.spines).1) version.stamp = some fields ∧
      fields.isUncommitted = true ∧ fields.path ≠ coordinate.path := by
  let path : Nid := ⟨-2147483642⟩
  let other : Nid := ⟨-2147483641⟩
  let component : Nid := ⟨-2147483640⟩
  let version : Version := ⟨⟨-2147483639⟩, [1]⟩
  let coordinate : Coordinate :=
    { allowed := StatusSet.activeOnly, path := other, time := Time.latest, priority := []
      excluded := ∅, allowed_nonempty := by decide, canceled_notMem := by decide
      priority_nodup := by decide }
  let operations : List Operation :=
    [.resolveAliases [⟨1⟩], .resolveAliases [⟨2⟩], .resolveAliases [⟨3⟩],
      .join { name := "drafts" } .active path path path ⟨4⟩,
      .appendVersion component .concept version,
      .addPathOrigin other { origin := path, time := Time.latest }]
  exact ⟨_, _, operations, coordinate, component, version, .draft .active path path path, rfl,
    by decide +kernel, by decide +kernel, by decide, by decide⟩

end Store

end Chronicle
