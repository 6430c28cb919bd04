import Chronicle.Path.Graph

/-!
# Edges of a path graph

What recording an edge changes, and which nids the edges of a graph mention.
-/

namespace Chronicle

private theorem PathOrigin.mem_insertInto {edge other : PathOrigin} {edges : List PathOrigin}
    (h : other ∈ edge.insertInto edges) : other = edge ∨ other ∈ edges := by
  induction edges with
  | nil => exact Or.inl (List.mem_singleton.mp h)
  | cons first rest ih =>
    rw [insertInto] at h
    split at h
    · exact (List.mem_cons.mp h).imp_right (List.mem_cons_of_mem first)
    · obtain rfl | h := List.mem_cons.mp h
      · exact Or.inr List.mem_cons_self
      · exact (ih h).imp_right (List.mem_cons_of_mem first)

namespace PathGraph

variable {g g' : PathGraph} {path other nid : Nid} {edge : PathOrigin}

/-- Recording an edge changes the origins of its path only. -/
theorem origins_of_addOrigin (h : g.addOrigin path edge = .ok (some g')) :
    path ≠ edge.origin ∧ g'.changed = true ∧
      ∀ other, g'.origins other =
        if other = path then edge.insertInto (g.origins path) else g.origins other := by
  simp only [addOrigin] at h
  split at h
  · cases h
  · rename_i hself
    split at h
    · cases h
    · cases h
      refine ⟨hself, rfl, fun other => ?_⟩
      simp only [origins, Std.ExtTreeMap.getElem?_insert, Std.compare_eq_iff_eq,
        eq_comm (a := path)]
      split <;> rfl

/-- A nid is a path with an origin, or the origin of a path. -/
def Mentions (g : PathGraph) (nid : Nid) : Prop :=
  ∃ path, ∃ edge ∈ g.origins path, nid = path ∨ nid = edge.origin

/-- The empty graph mentions no path. -/
theorem not_mentions_empty : ¬ empty.Mentions nid := by
  rintro ⟨path, edge, hedge, -⟩
  simp [origins, empty] at hedge

/-- Recording an edge mentions its two ends and nothing else that was not mentioned before. -/
theorem mentions_of_addOrigin (h : g.addOrigin path edge = .ok (some g'))
    (hnid : g'.Mentions nid) : nid = path ∨ nid = edge.origin ∨ g.Mentions nid := by
  obtain ⟨-, -, horigins⟩ := origins_of_addOrigin h
  obtain ⟨other, found, hfound, hnid⟩ := hnid
  rw [horigins] at hfound
  by_cases hother : other = path
  · subst hother
    rw [if_pos rfl] at hfound
    obtain rfl | hfound := PathOrigin.mem_insertInto hfound
    · exact hnid.imp_right Or.inl
    · exact Or.inr (Or.inr ⟨other, found, hfound, hnid⟩)
  · rw [if_neg hother] at hfound
    exact Or.inr (Or.inr ⟨other, found, hfound, hnid⟩)

/-- Two graphs have the same origins for every path outside of a region. -/
def AgreesOutside (region : Nid → Prop) (g g' : PathGraph) : Prop :=
  ∀ path, ¬ region path → g'.origins path = g.origins path

/-- Graphs that agree outside of a region with one in between agree there. -/
theorem AgreesOutside.trans {region : Nid → Prop} {g'' : PathGraph}
    (h : g.AgreesOutside region g') (h' : g'.AgreesOutside region g'') :
    g.AgreesOutside region g'' :=
  fun path hpath => (h' path hpath).trans (h path hpath)

/-- Recording an edge changes the origins of a path of the region. -/
theorem agreesOutside_of_addOrigin {region : Nid → Prop}
    (h : g.addOrigin path edge = .ok (some g')) (hpath : region path) :
    g.AgreesOutside region g' := by
  obtain ⟨-, -, horigins⟩ := origins_of_addOrigin h
  intro other hother
  rw [horigins, if_neg]
  rintro rfl
  exact hother hpath

/-- A list with one part for each edge has as many parts as the graph has edges. -/
theorem length_flatMap_edges {α : Type} {parts : Nid × List PathOrigin → List α} (g : PathGraph)
    (h : ∀ entry, (parts entry).length = entry.2.length) :
    (g.edges.toList.flatMap parts).length = g.size := by
  have hfold (entries : List (Nid × List PathOrigin)) : ∀ n,
      entries.foldl (fun n entry => n + entry.2.length) n =
        n + (entries.flatMap parts).length := by
    induction entries with
    | nil => exact fun n => rfl
    | cons entry entries ih =>
      intro n
      rw [List.foldl_cons, ih, List.flatMap_cons, List.length_append, h, Nat.add_assoc]
  rw [size, hfold, Nat.zero_add]

end PathGraph

end Chronicle
