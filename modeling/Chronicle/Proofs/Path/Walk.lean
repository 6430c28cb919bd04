import Chronicle.Proofs.Address
import Chronicle.Proofs.Path.Horizon
import Mathlib.Data.List.Induction

/-!
# The best walks

A walk goes along edges, each from where the one before it ends. It is cut off by the horizon and by
the time of each of its edges. A route holds of every path that walks lead to the latest cutoff that
any of them has, and the fewest edges of a walk with that cutoff. The best walks come through no path
twice, so their lengths are 32-bit words.
-/

namespace Chronicle

/-- How a walk along some edges reaches its end. -/
def Reach.along (horizon : Int64) (edges : List PathOrigin) : Reach where
  cutoff := (edges.map PathOrigin.time).foldl min horizon
  depth := edges.length

namespace Reach

variable {horizon time : Int64} {edges rest : List PathOrigin}

private theorem along_concat (horizon : Int64) (edges : List PathOrigin) (edge : PathOrigin) :
    along horizon (edges ++ [edge]) = (along horizon edges).through edge.time := by
  simp [along, through]

private theorem le_min_iff {x y : Int64} : time ≤ min x y ↔ time ≤ x ∧ time ≤ y := by
  simp only [Int64.le_iff_toInt_le, toInt_min]
  omega

/-- The cutoff of a walk is the earliest of the horizon and the times of its edges. -/
theorem le_along_iff :
    time ≤ (along horizon edges).cutoff ↔ time ≤ horizon ∧ ∀ edge ∈ edges, time ≤ edge.time := by
  simp only [along]
  induction edges generalizing horizon with
  | nil => simp
  | cons edge edges ih =>
    rw [List.map_cons, List.foldl_cons, ih, le_min_iff, List.forall_mem_cons, and_assoc]

/-- A walk along fewer of the edges is cut off no earlier. -/
theorem along_le_of_sublist (h : rest.Sublist edges) :
    (along horizon edges).cutoff ≤ (along horizon rest).cutoff := by
  obtain ⟨hhorizon, hedges⟩ := le_along_iff.mp (Int64.le_refl (along horizon edges).cutoff)
  exact le_along_iff.mpr ⟨hhorizon, fun edge hedge => hedges edge (h.subset hedge)⟩

end Reach

namespace PathGraph

variable {g g' : PathGraph} {start path stop : Nid} {horizon : Int64} {reach : Reach}
  {edges rest : List PathOrigin}

/-- Edges that lead from one path to another. -/
def Leads (g : PathGraph) : Nid → List PathOrigin → Nid → Prop
  | start, [], path => start = path
  | start, edge :: edges, path => edge ∈ g.origins start ∧ g.Leads edge.origin edges path

/-- Edges lead somewhere exactly if a part leads to where the rest starts. -/
theorem leads_append_iff {more : List PathOrigin} :
    g.Leads start (edges ++ more) path ↔
      ∃ stop, g.Leads start edges stop ∧ g.Leads stop more path := by
  induction edges generalizing start with
  | nil => simp [Leads]
  | cons edge edges ih => simp only [List.cons_append, Leads, ih, exists_and_left, and_assoc]

/-- A walk goes along edges, which say how it reaches its end. -/
theorem walk_iff_leads :
    g.Walk start horizon path reach ↔
      ∃ edges, g.Leads start edges path ∧ Reach.along horizon edges = reach := by
  constructor
  · intro h
    induction h with
    | stay => exact ⟨[], rfl, rfl⟩
    | @along path reach edge _ hedge ih =>
      obtain ⟨edges, hedges, rfl⟩ := ih
      exact ⟨edges ++ [edge], leads_append_iff.mpr ⟨path, hedges, hedge, rfl⟩,
        Reach.along_concat horizon edges edge⟩
  · rintro ⟨edges, hedges, rfl⟩
    induction edges using List.reverseRecOn generalizing path with
    | nil =>
      cases hedges
      exact .stay
    | append_singleton edges edge ih =>
      obtain ⟨stop, hstop, hedge, rfl⟩ := leads_append_iff.mp hedges
      rw [Reach.along_concat]
      exact (ih hstop).along hedge

/-! ## Walks that come through no path twice -/

/-- The paths that a walk comes through. -/
def stops (start : Nid) (edges : List PathOrigin) : List Nid :=
  start :: edges.map PathOrigin.origin

/-- From each of its paths on, a walk is a walk. -/
theorem Leads.exists_suffix (h : g.Leads start edges path) (hstop : stop ∈ stops start edges) :
    ∃ rest, g.Leads stop rest path ∧ rest.Sublist edges ∧
      (stops stop rest).Sublist (stops start edges) := by
  induction edges generalizing start with
  | nil =>
    obtain rfl := List.mem_singleton.mp hstop
    exact ⟨[], h, List.Sublist.refl _, List.Sublist.refl _⟩
  | cons edge edges ih =>
    obtain rfl | hlater := List.mem_cons.mp hstop
    · exact ⟨edge :: edges, h, List.Sublist.refl _, List.Sublist.refl _⟩
    · obtain ⟨rest, hrest, hedges, hstops⟩ := ih h.2 hlater
      exact ⟨rest, hrest, hedges.cons edge, hstops.cons start⟩

/-- Without its detours a walk comes through no path twice. -/
theorem Leads.exists_direct (h : g.Leads start edges path) :
    ∃ rest, g.Leads start rest path ∧ rest.Sublist edges ∧ (stops start rest).Nodup := by
  induction edges generalizing start with
  | nil => exact ⟨[], h, List.Sublist.refl _, List.nodup_singleton _⟩
  | cons edge edges ih =>
    obtain ⟨rest, hrest, hsub, hnodup⟩ := ih h.2
    by_cases hstart : start ∈ stops edge.origin rest
    · obtain ⟨direct, hdirect, hless, hstops⟩ := hrest.exists_suffix hstart
      exact ⟨direct, hdirect, (hless.trans hsub).cons edge, hnodup.sublist hstops⟩
    · exact ⟨edge :: rest, ⟨h.1, hrest⟩, hsub.cons_cons edge, List.nodup_cons.mpr ⟨hstart, hnodup⟩⟩

/-! ## Routes -/

/-- On a route stand the cutoff and the length of a best walk. -/
theorem route_eq_some_iff_leads :
    (g.route start horizon)[path]? = some reach ↔
      (∃ edges, g.Leads start edges path ∧ Reach.along horizon edges = reach) ∧
      ∀ edges, g.Leads start edges path →
        (Reach.along horizon edges).cutoff ≤ reach.cutoff ∧
        ((Reach.along horizon edges).cutoff = reach.cutoff → reach.depth ≤ edges.length) := by
  have hbetters (edges : List PathOrigin) :
      ¬ (Reach.along horizon edges).betters reach = true ↔
        (Reach.along horizon edges).cutoff ≤ reach.cutoff ∧
        ((Reach.along horizon edges).cutoff = reach.cutoff → reach.depth ≤ edges.length) := by
    have hdepth : (Reach.along horizon edges).depth = edges.length := rfl
    rw [Reach.betters_iff, not_or, not_and, Int64.not_lt, hdepth, Nat.not_lt]
  rw [route_eq_some_iff, walk_iff_leads]
  refine and_congr_right fun _ => ⟨fun h edges hedges => ?_, fun h other hother => ?_⟩
  · exact (hbetters edges).mp (h _ (walk_iff_leads.mpr ⟨edges, hedges, rfl⟩))
  · obtain ⟨edges, hedges, rfl⟩ := walk_iff_leads.mp hother
    exact (hbetters edges).mpr (h edges hedges)

/-- A best walk has fewer edges than there are nids. -/
theorem depth_lt_of_route (h : (g.route start horizon)[path]? = some reach) :
    reach.depth < UInt32.size := by
  obtain ⟨⟨edges, hedges, hreach⟩, hbest⟩ := route_eq_some_iff_leads.mp h
  obtain ⟨direct, hdirect, hsub, hnodup⟩ := hedges.exists_direct
  have hcutoff : (Reach.along horizon direct).cutoff = reach.cutoff := by
    refine Int64.le_antisymm (hbest direct hdirect).1 ?_
    rw [← hreach]
    exact Reach.along_le_of_sublist hsub
  have hdepth := (hbest direct hdirect).2 hcutoff
  have hstops := Nid.length_le_of_nodup hnodup
  rw [stops, List.length_cons, List.length_map] at hstops
  omega

/-- **Routes.** A route holds exactly the paths that walks lead to. The cutoff of a path is the latest
that any walk to it has, and the depth is the fewest edges of a walk with that cutoff. The start is
cut off at the horizon and no edge away. The order in which origins are listed does not matter, and
neither does how often an edge is listed. -/
theorem route_optimal (g : PathGraph) (start : Nid) (horizon : Int64) :
    (∀ path, path ∈ g.route start horizon ↔ ∃ edges, g.Leads start edges path) ∧
    (∀ (path : Nid) (reach : Reach), (g.route start horizon)[path]? = some reach ↔
      (∃ edges, g.Leads start edges path ∧ Reach.along horizon edges = reach) ∧
      ∀ edges, g.Leads start edges path →
        (Reach.along horizon edges).cutoff ≤ reach.cutoff ∧
        ((Reach.along horizon edges).cutoff = reach.cutoff → reach.depth ≤ edges.length)) ∧
    (∀ (path : Nid) (reach : Reach), (g.route start horizon)[path]? = some reach →
      reach.depth < UInt32.size) ∧
    (g.route start horizon)[start]? = some { cutoff := horizon, depth := 0 } ∧
    ∀ g' : PathGraph,
      (∀ path edge, edge ∈ g'.origins path ↔ edge ∈ g.origins path) →
      g'.route start horizon = g.route start horizon := by
  refine ⟨fun path => ⟨fun hpath => ?_, ?_⟩, fun path reach => route_eq_some_iff_leads,
    fun path reach => depth_lt_of_route, route_start g start horizon, fun g' => route_congr⟩
  · obtain ⟨reach, hreach⟩ :=
      Option.isSome_iff_exists.mp (Std.ExtTreeMap.mem_iff_isSome_getElem?.mp hpath)
    obtain ⟨⟨edges, hedges, -⟩, -⟩ := route_eq_some_iff_leads.mp hreach
    exact ⟨edges, hedges⟩
  · rintro ⟨edges, hedges⟩
    exact (walk_iff_leads.mpr ⟨edges, hedges, rfl⟩).mem_route

end PathGraph

end Chronicle
