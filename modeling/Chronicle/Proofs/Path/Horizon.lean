import Chronicle.Proofs.Path.Route

/-!
# Routes at an earlier horizon

The horizon decides how late walks can end, and not which walks there are. So an earlier horizon
leads to the same paths, each up to that horizon at most. Walks that could end later than that all
count the same then, and the shortest of them need not be the one that could end latest: a path can
be nearer at an earlier horizon, but never farther. It is as far if it is cut off by then anyway, if
it is the start itself, and on the whole route if no path has two origins.
-/

namespace Chronicle

/-- How a path is reached at an earlier horizon, given how it is reached at a later one. -/
structure Reach.Narrows (horizon : Int64) (narrow wide : Reach) : Prop where
  cutoff_eq : narrow.cutoff = min horizon wide.cutoff
  depth_le : narrow.depth ≤ wide.depth
  depth_eq : wide.cutoff ≤ horizon → narrow.depth = wide.depth

namespace PathGraph

variable {g : PathGraph} {start path path' : Nid} {horizon early late : Int64}
  {reach reach' narrow wide : Reach}

private theorem min_eq_of_le (hle : early ≤ late) : min early late = early := by
  rw [← Int64.toInt_inj, Reach.toInt_min]
  rw [Int64.le_iff_toInt_le] at hle
  omega

private theorem min_assoc (x y z : Int64) : min (min x y) z = min x (min y z) := by
  rw [← Int64.toInt_inj]
  simp only [Reach.toInt_min]
  omega

/-! ## Walks at two horizons -/

/-- A walk is one at every earlier horizon, with its cutoff brought down to it. -/
theorem Walk.earlier (h : g.Walk start late path reach) (hle : early ≤ late) :
    g.Walk start early path { reach with cutoff := min early reach.cutoff } := by
  induction h with
  | stay =>
    rw [min_eq_of_le hle]
    exact .stay
  | @along path reach edge _ hedge ih =>
    have hmin := min_assoc early reach.cutoff edge.time
    rw [Reach.through, ← hmin]
    exact ih.along hedge

/-- A walk is one at every later horizon, and its cutoff was cut at the earlier one if at all. -/
theorem Walk.later (h : g.Walk start early path reach) (hle : early ≤ late) :
    ∃ cutoff, reach.cutoff = min early cutoff ∧ g.Walk start late path { reach with cutoff } := by
  induction h with
  | stay => exact ⟨late, (min_eq_of_le hle).symm, .stay⟩
  | @along path reach edge _ hedge ih =>
    obtain ⟨cutoff, hcutoff, hwalk⟩ := ih
    refine ⟨min cutoff edge.time, ?_, hwalk.along hedge⟩
    rw [Reach.through, hcutoff]
    exact min_assoc early cutoff edge.time

/-! ## Routes at two horizons -/

/-- An earlier horizon narrows how a path is reached. -/
theorem narrows_of_route (hle : early ≤ late) (hnarrow : (g.route start early)[path]? = some narrow)
    (hwide : (g.route start late)[path]? = some wide) : narrow.Narrows early wide := by
  obtain ⟨hwalk, hbest⟩ := route_eq_some_iff.mp hnarrow
  obtain ⟨hwalk', hbest'⟩ := route_eq_some_iff.mp hwide
  obtain ⟨cutoff, hcutoff, hlater⟩ := hwalk.later hle
  have hnarrowest := hbest _ (hwalk'.earlier hle)
  have hwidest := hbest' _ hlater
  rw [Reach.betters_iff, Int64.lt_iff_toInt_lt, ← Int64.toInt_inj] at hnarrowest hwidest
  rw [← Int64.toInt_inj] at hcutoff
  rw [Reach.toInt_min] at hcutoff
  simp only [Reach.toInt_min] at hnarrowest
  dsimp only at hwidest
  refine ⟨?_, ?_, fun hbefore => ?_⟩
  · rw [← Int64.toInt_inj, Reach.toInt_min]
    omega
  · omega
  · rw [Int64.le_iff_toInt_le] at hbefore
    omega

/-- What is reached at a later horizon is reached at an earlier one. -/
theorem exists_narrow (hle : early ≤ late) (h : (g.route start late)[path]? = some wide) :
    ∃ narrow, (g.route start early)[path]? = some narrow ∧ narrow.Narrows early wide := by
  have hmem := ((route_eq_some_iff.mp h).1.earlier hle).mem_route
  obtain ⟨narrow, hnarrow⟩ := Option.isSome_iff_exists.mp
    (Std.ExtTreeMap.mem_iff_isSome_getElem?.mp hmem)
  exact ⟨narrow, hnarrow, narrows_of_route hle hnarrow h⟩

/-- What is reached at an earlier horizon is reached at a later one. -/
theorem exists_wide (hle : early ≤ late) (h : (g.route start early)[path]? = some narrow) :
    ∃ wide, (g.route start late)[path]? = some wide ∧ narrow.Narrows early wide := by
  obtain ⟨cutoff, -, hwalk⟩ := (route_eq_some_iff.mp h).1.later hle
  obtain ⟨wide, hwide⟩ := Option.isSome_iff_exists.mp
    (Std.ExtTreeMap.mem_iff_isSome_getElem?.mp hwalk.mem_route)
  exact ⟨wide, hwide, narrows_of_route hle h hwide⟩

/-! ## The start -/

/-- No walk has a cutoff beyond its horizon. -/
theorem Walk.cutoff_le (h : g.Walk start horizon path reach) : reach.cutoff ≤ horizon := by
  induction h with
  | stay => exact Int64.le_refl horizon
  | @along path reach edge _ _ ih =>
    rw [Int64.le_iff_toInt_le] at ih ⊢
    rw [Reach.through, Reach.toInt_min]
    omega

/-- The start is no edge away, and cut off at the horizon. -/
theorem route_start (g : PathGraph) (start : Nid) (horizon : Int64) :
    (g.route start horizon)[start]? = some { cutoff := horizon, depth := 0 } := by
  refine route_eq_some_iff.mpr ⟨.stay, fun other hother => ?_⟩
  have hle := hother.cutoff_le
  rw [Reach.betters_iff]
  rintro (hlt | ⟨-, hlt⟩)
  · exact Int64.not_lt.mpr hle hlt
  · exact Nat.not_lt_zero _ hlt

/-- A walk over no edge ends where it starts. -/
theorem Walk.eq_start (h : g.Walk start horizon path reach) (hdepth : reach.depth = 0) :
    path = start := by
  cases h with
  | stay => rfl
  | along _ _ => cases hdepth

/-! ## Paths with one origin at most -/

/-- No path has two origins. -/
def Unbranched (g : PathGraph) : Prop :=
  ∀ path, ∀ edge ∈ g.origins path, ∀ other ∈ g.origins path, edge = other

/-- Without branches, walks over as many edges are the same. -/
theorem Walk.eq_of_depth_eq (hunbranched : g.Unbranched)
    (h : g.Walk start horizon path reach) (h' : g.Walk start horizon path' reach')
    (hdepth : reach.depth = reach'.depth) : path = path' ∧ reach = reach' := by
  induction h generalizing path' reach' with
  | stay =>
    cases h' with
    | stay => exact ⟨rfl, rfl⟩
    | along _ _ => cases hdepth
  | @along path reach edge _ hedge ih =>
    cases h' with
    | stay => cases hdepth
    | @along path' reach' edge' hwalk' hedge' =>
      obtain ⟨rfl, rfl⟩ := ih hwalk' (Nat.succ.inj hdepth)
      obtain rfl : edge = edge' := hunbranched path edge hedge edge' hedge'
      exact ⟨rfl, rfl⟩

/-- On its way a walk is cut off no earlier than at its end. -/
theorem Walk.exists_shorter {n : Nat} (h : g.Walk start horizon path reach)
    (hle : n ≤ reach.depth) :
    ∃ path' reach', g.Walk start horizon path' reach' ∧ reach'.depth = n ∧
      reach.cutoff ≤ reach'.cutoff := by
  induction h with
  | stay => exact ⟨start, _, .stay, (Nat.le_zero.mp hle).symm, Int64.le_refl _⟩
  | @along path reach edge hwalk hedge ih =>
    obtain hlt | heq := Nat.lt_or_eq_of_le hle
    · obtain ⟨path', reach', hwalk', hdepth, hcutoff⟩ := ih (Nat.le_of_lt_succ hlt)
      refine ⟨path', reach', hwalk', hdepth, ?_⟩
      rw [Int64.le_iff_toInt_le] at hcutoff ⊢
      rw [Reach.through, Reach.toInt_min]
      omega
    · exact ⟨_, _, hwalk.along hedge, heq.symm, Int64.le_refl _⟩

/-- Without branches, a path is as far at every horizon. -/
theorem Unbranched.depth_eq (hunbranched : g.Unbranched) (hle : early ≤ late)
    (hnarrow : (g.route start early)[path]? = some narrow)
    (hwide : (g.route start late)[path]? = some wide) : narrow.depth = wide.depth := by
  have hdepth := (narrows_of_route hle hnarrow hwide).depth_le
  obtain ⟨hwalk, hbest⟩ := route_eq_some_iff.mp hwide
  obtain ⟨cutoff, -, hlater⟩ := (route_eq_some_iff.mp hnarrow).1.later hle
  obtain ⟨path', reach', hwalk', hdepth', hcutoff⟩ := hwalk.exists_shorter hdepth
  obtain ⟨-, rfl⟩ := hwalk'.eq_of_depth_eq hunbranched hlater hdepth'
  have hwidest := hbest _ hlater
  rw [Reach.betters_iff, Int64.lt_iff_toInt_lt, ← Int64.toInt_inj] at hwidest
  rw [Int64.le_iff_toInt_le] at hcutoff
  dsimp only at hwidest hcutoff
  omega

end PathGraph

end Chronicle
