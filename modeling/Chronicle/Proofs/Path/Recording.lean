import Chronicle.Distinct
import Chronicle.Proofs.Path.Route
import Chronicle.Proofs.Path.Table
import Chronicle.Proofs.Sorting
import Mathlib.Data.List.Induction

/-!
# Recorded path graphs

Edges are recorded one after another. An edge takes the place of the first one between the same two
paths, and stands behind all others if there is none. So a graph that was only recorded has, for
each path, the last edge to each origin in the order in which the origins came up first. The table
lists these edges in an order of its own, which neither routes nor the table itself depend on.
-/

namespace Chronicle

namespace PathOrigin

variable {edge : PathOrigin} {edges accepted : List PathOrigin} {target : Nid}

/-- The edges to an origin. -/
def edgesTo (target : Nid) (edges : List PathOrigin) : List PathOrigin :=
  edges.filter fun edge => edge.origin = target

/-- The edges after others were recorded, one after another. -/
def insertAll (edges accepted : List PathOrigin) : List PathOrigin :=
  accepted.foldl (fun edges edge => edge.insertInto edges) edges

private theorem insertAll_concat :
    insertAll edges (accepted ++ [edge]) = edge.insertInto (insertAll edges accepted) := by
  rw [insertAll, List.foldl_append, List.foldl_cons, List.foldl_nil, insertAll]

private theorem edgesTo_concat :
    edgesTo target (edges ++ [edge]) =
      if edge.origin = target then edgesTo target edges ++ [edge] else edgesTo target edges := by
  rw [edgesTo, List.filter_append, List.filter_singleton]
  by_cases htarget : edge.origin = target
  · simp [htarget, edgesTo]
  · simp [htarget, edgesTo]

/-- The edges to an origin are those that have it. -/
theorem mem_edgesTo : edge ∈ edgesTo target edges ↔ edge ∈ edges ∧ edge.origin = target := by
  rw [edgesTo, List.mem_filter, decide_eq_true_eq]

/-- A recorded edge replaces the first one to its origin, and nothing else. -/
theorem edgesTo_insertInto :
    edgesTo target (edge.insertInto edges) =
      if edge.origin = target then edge :: (edgesTo target edges).tail
      else edgesTo target edges := by
  induction edges with
  | nil =>
    by_cases htarget : edge.origin = target
    · simp [insertInto, edgesTo, htarget]
    · simp [insertInto, edgesTo, htarget]
  | cons first rest ih =>
    rw [insertInto]
    by_cases hfirst : first.origin = edge.origin
    · by_cases htarget : edge.origin = target
      · simp [edgesTo, hfirst, htarget]
      · simp [edgesTo, hfirst, htarget]
    · rw [if_neg hfirst]
      by_cases htarget : edge.origin = target
      · have hother : first.origin ≠ target := htarget ▸ hfirst
        rw [if_pos htarget] at ih ⊢
        simpa [edgesTo, hother] using ih
      · rw [if_neg htarget] at ih ⊢
        simp only [edgesTo] at ih
        simp only [edgesTo, List.filter_cons, ih]

/-- Origins keep their places, and a new one stands behind them. -/
theorem map_origin_insertInto :
    (edge.insertInto edges).map PathOrigin.origin =
      if edge.origin ∈ edges.map PathOrigin.origin then edges.map PathOrigin.origin
      else edges.map PathOrigin.origin ++ [edge.origin] := by
  induction edges with
  | nil => simp [insertInto]
  | cons first rest ih =>
    rw [insertInto]
    by_cases hfirst : first.origin = edge.origin
    · simp [hfirst]
    · rw [if_neg hfirst, List.map_cons, ih]
      by_cases hrest : edge.origin ∈ rest.map PathOrigin.origin
      · simp [hrest]
      · simp only [List.map_cons, List.mem_cons, hrest, or_false, Ne.symm hfirst, if_false,
          List.cons_append]

/-- Recording the first edge to an origin once more changes nothing. -/
theorem insertInto_of_head? (h : (edgesTo edge.origin edges).head? = some edge) :
    edge.insertInto edges = edges := by
  induction edges with
  | nil => cases h
  | cons first rest ih =>
    rw [insertInto]
    by_cases hfirst : first.origin = edge.origin
    · rw [edgesTo, List.filter_cons_of_pos (by simpa using hfirst), List.head?_cons,
        Option.some.injEq] at h
      rw [if_pos hfirst, h]
    · rw [edgesTo, List.filter_cons_of_neg (by simpa using hfirst)] at h
      rw [if_neg hfirst, ih h]

/-- Of all edges to an origin that were recorded the last one counts. It stands in the place of the
first one that was there already. -/
theorem edgesTo_insertAll :
    edgesTo target (insertAll edges accepted) =
      match (edgesTo target accepted).getLast? with
      | some edge => edge :: (edgesTo target edges).tail
      | none => edgesTo target edges := by
  induction accepted using List.reverseRecOn with
  | nil => rfl
  | append_singleton accepted edge ih =>
    rw [insertAll_concat, edgesTo_insertInto, edgesTo_concat, ih]
    by_cases htarget : edge.origin = target
    · rw [if_pos htarget, if_pos htarget, List.getLast?_concat]
      cases (edgesTo target accepted).getLast? <;> rfl
    · rw [if_neg htarget, if_neg htarget]

/-- From nothing on, one edge to each origin is recorded. -/
theorem edgesTo_insertAll_nil :
    edgesTo target (insertAll [] accepted) = (edgesTo target accepted).getLast?.toList := by
  rw [edgesTo_insertAll]
  cases (edgesTo target accepted).getLast? <;> rfl

/-- From nothing on, origins stand in the order in which they came up first. -/
theorem map_origin_insertAll_nil :
    (insertAll [] accepted).map PathOrigin.origin =
      (accepted.map PathOrigin.origin).eraseDups := by
  induction accepted using List.reverseRecOn with
  | nil => rfl
  | append_singleton accepted edge ih =>
    rw [insertAll_concat, map_origin_insertInto, ih, List.map_append, List.map_singleton,
      eraseDups_concat]
    simp only [List.mem_eraseDups]

end PathOrigin

namespace PathGraph

open PathOrigin (edgesTo insertAll)

variable {g : PathGraph} {path other target : Nid} {edge : PathOrigin}
  {calls : List (Nid × PathOrigin)}

/-- The graph after an edge was recorded, unless it was refused or there already. -/
def record (g : PathGraph) (call : Nid × PathOrigin) : PathGraph :=
  match g.addOrigin call.1 call.2 with
  | .ok (some g') => g'
  | _ => g

/-- The graph after edges were recorded, one after another. -/
def recordAll (g : PathGraph) (calls : List (Nid × PathOrigin)) : PathGraph :=
  calls.foldl record g

/-- The edges of a path that are not refused. -/
def accepted (path : Nid) (calls : List (Nid × PathOrigin)) : List PathOrigin :=
  (calls.filter fun call => call.1 = path ∧ call.2.origin ≠ path).map Prod.snd

/-! ## Single edges -/

/-- An edge is refused, there already, or recorded. -/
theorem addOrigin_cases (g : PathGraph) (path : Nid) (edge : PathOrigin) :
    path = edge.origin ∧ g.addOrigin path edge = .error (.selfOrigin path) ∧
        g.record (path, edge) = g ∨
      path ≠ edge.origin ∧ edge.insertInto (g.origins path) = g.origins path ∧
        g.addOrigin path edge = .ok none ∧ g.record (path, edge) = g ∨
      path ≠ edge.origin ∧ edge.insertInto (g.origins path) ≠ g.origins path ∧
        g.addOrigin path edge = .ok (some (g.record (path, edge))) := by
  by_cases hself : path = edge.origin
  · have hadd : g.addOrigin path edge = .error (.selfOrigin path) := by
      rw [addOrigin, if_pos hself]
    exact Or.inl ⟨hself, hadd, by rw [record, hadd]⟩
  · by_cases hsame : edge.insertInto (g.origins path) = g.origins path
    · have hadd : g.addOrigin path edge = .ok none := by
        simp only [addOrigin, if_neg hself, if_pos hsame]
      exact Or.inr (Or.inl ⟨hself, hsame, hadd, by rw [record, hadd]⟩)
    · obtain ⟨g', hadd⟩ : ∃ g', g.addOrigin path edge = .ok (some g') := by
        simp only [addOrigin, if_neg hself, if_neg hsame]
        exact ⟨_, rfl⟩
      exact Or.inr (Or.inr ⟨hself, hsame, by rw [record, hadd]⟩)

/-- Recording an edge inserts it among the origins of its path, unless it is refused, and changes no
other path. -/
theorem origins_record (g : PathGraph) (path : Nid) (edge : PathOrigin) (other : Nid) :
    (g.record (path, edge)).origins other =
      if path = other ∧ edge.origin ≠ other then edge.insertInto (g.origins other)
      else g.origins other := by
  obtain ⟨rfl, -, hrecord⟩ | ⟨hself, hsame, -, hrecord⟩ | ⟨hself, -, hadd⟩ :=
    g.addOrigin_cases path edge
  · rw [hrecord, if_neg]
    rintro ⟨rfl, hne⟩
    exact hne rfl
  · rw [hrecord]
    split
    · rename_i hother
      rw [← hother.1, hsame]
    · rfl
  · rw [(origins_of_addOrigin hadd).2.2]
    by_cases hother : other = path
    · subst hother
      rw [if_pos rfl, if_pos ⟨rfl, Ne.symm hself⟩]
    · rw [if_neg hother, if_neg fun h => hother h.1.symm]

/-! ## Runs of edges -/

private theorem accepted_cons :
    accepted other ((path, edge) :: calls) =
      if path = other ∧ edge.origin ≠ other then edge :: accepted other calls
      else accepted other calls := by
  rw [accepted, List.filter_cons]
  by_cases hother : path = other ∧ edge.origin ≠ other
  · rw [if_pos (by simpa using hother), if_pos hother, List.map_cons, accepted]
  · rw [if_neg (by simpa using hother), if_neg hother, accepted]

/-- The edges of a path are those it had, with the accepted ones recorded. -/
theorem origins_recordAll (g : PathGraph) (calls : List (Nid × PathOrigin)) (path : Nid) :
    (g.recordAll calls).origins path = insertAll (g.origins path) (accepted path calls) := by
  induction calls generalizing g with
  | nil => rfl
  | cons call calls ih =>
    obtain ⟨source, edge⟩ := call
    rw [recordAll, List.foldl_cons, ← recordAll, ih, origins_record, accepted_cons]
    split
    · rfl
    · rfl

/-- The empty graph has no origins. -/
theorem origins_empty : empty.origins path = [] := by
  simp [origins, empty]

/-- Only the last one of the edges to an origin is left. -/
theorem edgesTo_origins_recorded :
    edgesTo target ((empty.recordAll calls).origins path) =
      (edgesTo target (accepted path calls)).getLast?.toList := by
  rw [origins_recordAll, origins_empty, PathOrigin.edgesTo_insertAll_nil]

/-- The origins of a path stand in the order in which they were recorded first. -/
theorem map_origin_recorded :
    ((empty.recordAll calls).origins path).map PathOrigin.origin =
      ((accepted path calls).map PathOrigin.origin).eraseDups := by
  rw [origins_recordAll, origins_empty, PathOrigin.map_origin_insertAll_nil]

/-- No path is accepted as its own origin. -/
theorem not_mem_accepted : path ∉ (accepted path calls).map PathOrigin.origin := by
  intro hpath
  obtain ⟨edge, hedge, rfl⟩ := List.mem_map.mp hpath
  obtain ⟨call, hcall, rfl⟩ := List.mem_map.mp hedge
  have haccepted := (List.mem_filter.mp hcall).2
  rw [decide_eq_true_eq] at haccepted
  exact haccepted.2 rfl

/-! ## Recorded graphs -/

/-- A call answers that it changed the graph exactly if it changed the origins of its path, and
leaves the graph alone otherwise. -/
theorem record_spec (g : PathGraph) (path : Nid) (edge : PathOrigin) :
    (g.addOrigin path edge = .error (.selfOrigin path) ↔ path = edge.origin) ∧
      ((∃ g', g.addOrigin path edge = .ok (some g')) ↔
        (g.record (path, edge)).origins path ≠ g.origins path) ∧
      ((∀ g', g.addOrigin path edge ≠ .ok (some g')) → g.record (path, edge) = g) ∧
      ∀ g', g.addOrigin path edge = .ok (some g') → g'.changed = true ∧
        ∀ other, other ≠ path → g'.origins other = g.origins other := by
  refine ⟨?_, ?_, fun hnone => ?_, fun g' hadd => ?_⟩
  · obtain ⟨hself, hadd, -⟩ | ⟨hself, -, hadd, -⟩ | ⟨hself, -, hadd⟩ := g.addOrigin_cases path edge
    · exact ⟨fun _ => hself, fun _ => hadd⟩
    · simp [hadd, hself]
    · simp [hadd, hself]
  · obtain ⟨-, hadd, hrecord⟩ | ⟨-, -, hadd, hrecord⟩ | ⟨-, hne, hadd⟩ :=
      g.addOrigin_cases path edge
    · simp [hadd, hrecord]
    · simp [hadd, hrecord]
    · rw [(origins_of_addOrigin hadd).2.2, if_pos rfl]
      exact ⟨fun _ => hne, fun _ => ⟨_, hadd⟩⟩
  · obtain ⟨-, -, hrecord⟩ | ⟨-, -, -, hrecord⟩ | ⟨-, -, hadd⟩ := g.addOrigin_cases path edge
    · exact hrecord
    · exact hrecord
    · exact absurd hadd (hnone _)
  · obtain ⟨-, hchanged, horigins⟩ := origins_of_addOrigin hadd
    exact ⟨hchanged, fun other hother => by rw [horigins, if_neg hother]⟩

/-- In a recorded graph, an edge changes nothing exactly if it is there already. -/
theorem addOrigin_eq_none_iff :
    (empty.recordAll calls).addOrigin path edge = .ok none ↔
      path ≠ edge.origin ∧ edge ∈ (empty.recordAll calls).origins path := by
  have hmem : edge ∈ (empty.recordAll calls).origins path ↔
      (edgesTo edge.origin ((empty.recordAll calls).origins path)).head? = some edge := by
    have hedges : edge ∈ (empty.recordAll calls).origins path ↔
        edge ∈ edgesTo edge.origin ((empty.recordAll calls).origins path) := by
      rw [PathOrigin.mem_edgesTo, and_iff_left rfl]
    rw [hedges, edgesTo_origins_recorded, Option.mem_toList, Option.head?_toList]
  obtain ⟨hself, hadd, -⟩ | ⟨hself, hsame, hadd, -⟩ | ⟨hself, hne, hadd⟩ :=
    (empty.recordAll calls).addOrigin_cases path edge
  · rw [hadd]
    exact ⟨nofun, fun h => absurd hself h.1⟩
  · have hhead : (edgesTo edge.origin ((empty.recordAll calls).origins path)).head? =
        some edge := by
      rw [← hsame, PathOrigin.edgesTo_insertInto, if_pos rfl, List.head?_cons]
    exact ⟨fun _ => ⟨hself, hmem.mpr hhead⟩, fun _ => hadd⟩
  · rw [hadd]
    exact ⟨nofun, fun h => absurd (PathOrigin.insertInto_of_head? (hmem.mp h.2)) hne⟩

/-- **Recorded path graphs.** Whatever edges are recorded in an empty graph, each path has one edge
to each origin that was accepted, with the time that was accepted last, and the origins stand in the
order in which they came up first; none is the path itself. Every call answers that it changed the
graph exactly if it changed the origins of its path, and leaves the graph as it is otherwise. The
table of the graph, as long as four bytes count its edges, is read back as a graph with the same
edges, the same routes and the same table. -/
theorem recorded_graph (calls : List (Nid × PathOrigin)) :
    let g := empty.recordAll calls
    (∀ path, (g.origins path).map PathOrigin.origin =
        ((accepted path calls).map PathOrigin.origin).eraseDups ∧
      (∀ target, edgesTo target (g.origins path) =
        (edgesTo target (accepted path calls)).getLast?.toList) ∧
      ((g.origins path).map PathOrigin.origin).Nodup ∧
      path ∉ (g.origins path).map PathOrigin.origin) ∧
    (∀ path edge, g.addOrigin path edge = .ok none ↔
      path ≠ edge.origin ∧ edge ∈ g.origins path) ∧
    (∀ (before : PathGraph) path edge,
      (before.addOrigin path edge = .error (.selfOrigin path) ↔ path = edge.origin) ∧
      ((∃ after, before.addOrigin path edge = .ok (some after)) ↔
        (before.record (path, edge)).origins path ≠ before.origins path) ∧
      ((∀ after, before.addOrigin path edge ≠ .ok (some after)) →
        before.record (path, edge) = before) ∧
      ∀ after, before.addOrigin path edge = .ok (some after) → after.changed = true ∧
        ∀ other, other ≠ path → after.origins other = before.origins other) ∧
    (g.size < UInt32.size → ∃ restored, decodeTable g.encodeTable = .ok restored ∧
      (∀ path, (restored.origins path).Perm (g.origins path)) ∧
      (∀ start horizon, restored.route start horizon = g.route start horizon) ∧
      restored.encodeTable = g.encodeTable) := by
  intro g
  refine ⟨fun path => ⟨map_origin_recorded, fun target => edgesTo_origins_recorded, ?_, ?_⟩,
    fun path edge => addOrigin_eq_none_iff, record_spec, fun hsize => ?_⟩
  · rw [map_origin_recorded]
    exact nodup_eraseDups _
  · rw [map_origin_recorded, List.mem_eraseDups]
    exact not_mem_accepted
  · refine ⟨g.reread, decodeTable_encodeTable_iff.mpr ⟨hsize, rfl⟩, fun path => ?_,
      fun start horizon => route_congr fun path edge => mem_origins_reread, encodeTable_reread g⟩
    rw [origins_reread]
    exact List.mergeSort_perm _ _

/-- One origin is recorded again with another time, and a path is refused as its own origin. -/
theorem recorded_graph_again :
    let g := empty.recordAll [(⟨1⟩, ⟨⟨3⟩, 5⟩), (⟨1⟩, ⟨⟨2⟩, 7⟩), (⟨1⟩, ⟨⟨1⟩, 4⟩), (⟨1⟩, ⟨⟨3⟩, 9⟩)]
    g.origins ⟨1⟩ = [⟨⟨3⟩, 9⟩, ⟨⟨2⟩, 7⟩] ∧
      ∃ restored, decodeTable g.encodeTable = .ok restored ∧
        (restored.origins ⟨1⟩).Perm [⟨⟨3⟩, 9⟩, ⟨⟨2⟩, 7⟩] ∧
        restored.encodeTable = g.encodeTable := by
  intro g
  have horigins : g.origins ⟨1⟩ = [⟨⟨3⟩, 9⟩, ⟨⟨2⟩, 7⟩] := by decide +kernel
  have hsize : g.size < UInt32.size := by decide +kernel
  obtain ⟨-, -, -, htable⟩ := recorded_graph
    [(⟨1⟩, ⟨⟨3⟩, 5⟩), (⟨1⟩, ⟨⟨2⟩, 7⟩), (⟨1⟩, ⟨⟨1⟩, 4⟩), (⟨1⟩, ⟨⟨3⟩, 9⟩)]
  obtain ⟨restored, hrestored, hperm, -, hsame⟩ := htable hsize
  exact ⟨horigins, restored, hrestored, horigins ▸ hperm ⟨1⟩, hsame⟩

end PathGraph

end Chronicle
