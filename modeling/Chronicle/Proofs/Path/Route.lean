import Chronicle.Path.Route
import Chronicle.Proofs.Path.Graph
import Mathlib.Data.List.Nodup
import Mathlib.Data.List.Perm.Subperm
import Mathlib.Data.List.ProdSigma

/-!
# What routes hold

The search for a route walks level by level, so whatever is offered comes over at least as many
edges as everything noted before it. An offer that is turned down is therefore covered by one that
was noted: no earlier cutoff, over no more edges. That makes the search exact. A route holds of
every path that a walk leads to the latest cutoff of all walks, with the fewest edges that attain
it, and does not depend on the order in which origins are listed.

Every path is noted again only with a later cutoff, of which there are no more than times of edges,
so the search comes to an end within the steps that it is given.
-/

namespace Chronicle

namespace Reach

variable {a b c : Reach}

/-- One reach betters another if its cutoff is later, or if it is the same over fewer edges. -/
theorem betters_iff :
    a.betters b = true ↔ b.cutoff < a.cutoff ∨ a.cutoff = b.cutoff ∧ a.depth < b.depth := by
  simp [betters]

/-- No earlier cutoff, over no more edges. -/
structure Covers (a b : Reach) : Prop where
  cutoff_le : b.cutoff ≤ a.cutoff
  depth_le : a.depth ≤ b.depth

private theorem Covers.refl (a : Reach) : a.Covers a :=
  ⟨Int64.le_refl _, Nat.le_refl _⟩

private theorem Covers.trans (hab : a.Covers b) (hbc : b.Covers c) : a.Covers c :=
  ⟨Int64.le_trans hbc.cutoff_le hab.cutoff_le, Nat.le_trans hab.depth_le hbc.depth_le⟩

/-- The earlier of two times is the smaller number. -/
theorem toInt_min (x y : Int64) : (min x y).toInt = min x.toInt y.toInt := by
  change (if x ≤ y then x else y).toInt = _
  split
  · rename_i hle
    rw [Int64.le_iff_toInt_le] at hle
    omega
  · rename_i hle
    rw [Int64.le_iff_toInt_le] at hle
    omega

/-- Walking on over an edge keeps what is covered covered. -/
theorem Covers.through (h : a.Covers b) (time : Int64) :
    (a.through time).Covers (b.through time) := by
  have hcutoff := h.cutoff_le
  rw [Int64.le_iff_toInt_le] at hcutoff
  refine ⟨?_, Nat.succ_le_succ h.depth_le⟩
  rw [Int64.le_iff_toInt_le]
  simp only [Reach.through, toInt_min]
  omega

/-- What is covered counts no more. -/
theorem Covers.not_betters (h : a.Covers b) : ¬ b.betters a = true := by
  have hcutoff := h.cutoff_le
  have hdepth := h.depth_le
  rw [betters_iff]
  rintro (hlt | ⟨-, hlt⟩)
  · exact Int64.not_lt.mpr hcutoff hlt
  · omega

private theorem betters_trans (hab : a.betters b = true) (hbc : b.betters c = true) :
    a.betters c = true := by
  rw [betters_iff, Int64.lt_iff_toInt_lt, ← Int64.toInt_inj] at *
  omega

/-- Of two reaches one counts more than the other, or they are the same. -/
theorem eq_of_not_betters (hab : ¬ a.betters b = true) (hba : ¬ b.betters a = true) : a = b := by
  cases a
  cases b
  simp only [betters_iff, Int64.lt_iff_toInt_lt, ← Int64.toInt_inj] at hab hba
  rw [Reach.mk.injEq, ← Int64.toInt_inj]
  omega

/-- A reach over as many edges that does not count more is covered. -/
theorem covers_of_not_betters (h : ¬ b.betters a = true) (hdepth : a.depth ≤ b.depth) :
    a.Covers b := by
  refine ⟨?_, hdepth⟩
  rw [betters_iff] at h
  exact Int64.not_lt.mp fun hlt => h (Or.inl hlt)

end Reach

/-! ## Walks -/

namespace PathGraph

variable {g g' : PathGraph} {start path : Nid} {horizon : Int64} {reach : Reach}

/-- How paths are reached from a start by walking over edges. -/
inductive Walk (g : PathGraph) (start : Nid) (horizon : Int64) : Nid → Reach → Prop
  | stay : Walk g start horizon start { cutoff := horizon, depth := 0 }
  | along {path : Nid} {reach : Reach} {edge : PathOrigin} (h : Walk g start horizon path reach)
      (hedge : edge ∈ g.origins path) :
      Walk g start horizon edge.origin (reach.through edge.time)

/-- A walk is one in every graph that has its edges. -/
theorem Walk.congr (h : Walk g start horizon path reach)
    (hedges : ∀ path, ∀ edge ∈ g.origins path, edge ∈ g'.origins path) :
    Walk g' start horizon path reach := by
  induction h with
  | stay => exact .stay
  | along _ hedge ih => exact .along ih (hedges _ _ hedge)

/-- Every edge of a graph. -/
def allEdges (g : PathGraph) : List PathOrigin :=
  g.edges.toList.flatMap Prod.snd

private theorem length_allEdges (g : PathGraph) : g.allEdges.length = g.size :=
  g.length_flatMap_edges fun _ => rfl

private theorem mem_allEdges {edge : PathOrigin} (h : edge ∈ g.origins path) :
    edge ∈ g.allEdges := by
  rw [origins] at h
  cases horigins : g.edges[path]? with
  | none =>
    rw [horigins] at h
    cases h
  | some found =>
    rw [horigins] at h
    exact List.mem_flatMap.mpr
      ⟨(path, found), Std.ExtTreeMap.mem_toList_iff_getElem?_eq_some.mpr horigins, h⟩

/-- The paths and cutoffs that walks can have. -/
def spots (g : PathGraph) (start : Nid) (horizon : Int64) : List (Nid × Int64) :=
  (start :: g.allEdges.map PathOrigin.origin) ×ˢ (horizon :: g.allEdges.map PathOrigin.time)

/-- The spots are as many as the square of one more than the edges. -/
theorem length_spots (g : PathGraph) (start : Nid) (horizon : Int64) :
    (g.spots start horizon).length = (g.size + 1) * (g.size + 1) := by
  rw [spots, List.length_product, List.length_cons, List.length_cons, List.length_map,
    List.length_map, length_allEdges]

/-- Every walk ends in one of the spots. -/
theorem Walk.mem_spots (h : Walk g start horizon path reach) :
    (path, reach.cutoff) ∈ g.spots start horizon := by
  induction h with
  | stay => exact List.pair_mem_product.mpr ⟨List.mem_cons_self, List.mem_cons_self⟩
  | @along path reach edge _ hedge ih =>
    have hmem := mem_allEdges hedge
    refine List.pair_mem_product.mpr ⟨List.mem_cons_of_mem _ (List.mem_map_of_mem hmem), ?_⟩
    -- The lower of the two times is the cutoff so far or the time of the edge.
    change (if reach.cutoff ≤ edge.time then reach.cutoff else edge.time) ∈ _
    split
    · exact (List.pair_mem_product.mp ih).2
    · exact List.mem_cons_of_mem _ (List.mem_map_of_mem hmem)

end PathGraph

/-! ## The search -/

namespace RouteSearch

variable {g : PathGraph} {start path : Nid} {horizon : Int64} {reach : Reach} {s : RouteSearch}
  {noted done : List (Nid × Reach)}

/-- What was noted, in this order, and the route that it makes: every path has the one of its
reaches that counts most. -/
structure Notes (g : PathGraph) (start : Nid) (horizon : Int64) (noted : List (Nid × Reach))
    (route : Route) : Prop where
  walk : ∀ entry ∈ noted, g.Walk start horizon entry.1 entry.2
  sorted : noted.Pairwise fun a b => a.2.depth ≤ b.2.depth
  growing : noted.Pairwise fun a b => a.1 = b.1 → a.2.cutoff < b.2.cutoff
  best : ∀ path reach, route[path]? = some reach → (path, reach) ∈ noted ∧
    ∀ other, (path, other) ∈ noted → ¬ other.betters reach = true
  reached : ∀ path reach, (path, reach) ∈ noted → route[path]?.isSome

/-- There are no more notes than paths and cutoffs. -/
theorem Notes.length_le {route : Route} (h : Notes g start horizon noted route) :
    noted.length ≤ (g.size + 1) * (g.size + 1) := by
  have hnodup : (noted.map fun entry => (entry.1, entry.2.cutoff)).Nodup := by
    rw [List.Nodup, List.pairwise_map]
    refine h.growing.imp fun {a b} hlt heq => ?_
    rw [Prod.mk.injEq] at heq
    have := hlt heq.1
    rw [heq.2] at this
    exact Int64.lt_irrefl this
  have hsubset : (noted.map fun entry => (entry.1, entry.2.cutoff)) ⊆ g.spots start horizon := by
    intro spot hspot
    obtain ⟨entry, hentry, rfl⟩ := List.mem_map.mp hspot
    exact (h.walk entry hentry).mem_spots
  have hle := (List.subperm_of_subset hnodup hsubset).length_le
  rwa [List.length_map, PathGraph.length_spots] at hle

/-- A reach that counts more than all others of its path, over at least as many edges as any note,
can be noted. -/
theorem Notes.note {route : Route} (h : Notes g start horizon noted route)
    (hwalk : g.Walk start horizon path reach)
    (hdepth : ∀ entry ∈ noted, entry.2.depth ≤ reach.depth)
    (hbetters : ∀ other, (path, other) ∈ noted → reach.betters other = true) :
    Notes g start horizon (noted ++ [(path, reach)]) (route.insert path reach) := by
  have hcases {entry : Nid × Reach} (hentry : entry ∈ noted ++ [(path, reach)]) :
      entry ∈ noted ∨ entry = (path, reach) := by
    rwa [List.mem_append, List.mem_singleton] at hentry
  have hroute (other : Nid) :
      (route.insert path reach)[other]? = if path = other then some reach else route[other]? := by
    rw [Std.ExtTreeMap.getElem?_insert]
    simp only [Std.compare_eq_iff_eq]
  refine ⟨fun entry hentry => ?_, ?_, ?_, fun other found hfound => ?_,
    fun other found hfound => ?_⟩
  · obtain hentry | rfl := hcases hentry
    · exact h.walk entry hentry
    · exact hwalk
  · rw [List.pairwise_append]
    refine ⟨h.sorted, List.pairwise_singleton _ _, fun a ha b hb => ?_⟩
    obtain rfl := List.mem_singleton.mp hb
    exact hdepth a ha
  · rw [List.pairwise_append]
    refine ⟨h.growing, List.pairwise_singleton _ _, ?_⟩
    rintro ⟨other, known⟩ hknown entry hentry heq
    obtain rfl := List.mem_singleton.mp hentry
    obtain rfl : other = path := heq
    -- The new reach counts more without coming over fewer edges, so its cutoff is later.
    obtain hlt | ⟨-, hfewer⟩ := Reach.betters_iff.mp (hbetters known hknown)
    · exact hlt
    · exact absurd (hdepth _ hknown) (Nat.not_le.mpr hfewer)
  · rw [hroute] at hfound
    split at hfound
    · rename_i heq
      subst heq
      cases hfound
      refine ⟨by simp, fun other hother hworse => ?_⟩
      have hself : reach.betters reach = true := by
        obtain hother | hother := hcases hother
        · exact Reach.betters_trans (hbetters other hother) hworse
        · cases hother
          exact hworse
      exact (Reach.Covers.refl _).not_betters hself
    · rename_i hne
      obtain ⟨hmem, hbest⟩ := h.best other found hfound
      refine ⟨List.mem_append_left _ hmem, fun reach' hreach' => ?_⟩
      obtain hreach' | hreach' := hcases hreach'
      · exact hbest reach' hreach'
      · cases hreach'
        exact absurd rfl hne
  · rw [hroute]
    split
    · rfl
    · rename_i hne
      obtain hfound | hfound := hcases hfound
      · exact h.reached other found hfound
      · cases hfound
        exact absurd rfl hne

/-- An offer over at least as many edges as all notes is noted, or a note covers it. -/
theorem Notes.offer (h : Notes g start horizon (done ++ s.queue) s.route)
    (hwalk : g.Walk start horizon path reach)
    (hdepth : ∀ entry ∈ done ++ s.queue, entry.2.depth ≤ reach.depth) :
    ∃ added, (s.offer path reach).queue = s.queue ++ added ∧
      (∀ entry ∈ added, entry.2.depth = reach.depth) ∧
      Notes g start horizon (done ++ (s.offer path reach).queue) (s.offer path reach).route ∧
      ∃ covering, (path, covering) ∈ done ++ (s.offer path reach).queue ∧
        covering.Covers reach := by
  by_cases hoffer : s.route[path]?.all reach.betters = true
  · rw [RouteSearch.offer, if_pos hoffer]
    have hbetters : ∀ other, (path, other) ∈ done ++ s.queue → reach.betters other = true := by
      intro other hother
      obtain ⟨known, hknown⟩ := Option.isSome_iff_exists.mp (h.reached path other hother)
      rw [hknown, Option.all_some] at hoffer
      by_cases hmore : known.betters other = true
      · exact Reach.betters_trans hoffer hmore
      · have hsame := Reach.eq_of_not_betters hmore ((h.best path known hknown).2 other hother)
        rwa [← hsame]
    refine ⟨[(path, reach)], rfl, by simp, ?_, reach, by simp, Reach.Covers.refl reach⟩
    rw [← List.append_assoc]
    exact h.note hwalk hdepth hbetters
  · rw [RouteSearch.offer, if_neg hoffer]
    refine ⟨[], by simp, by simp, h, ?_⟩
    cases hknown : s.route[path]? with
    | none => simp [hknown] at hoffer
    | some known =>
      rw [hknown, Option.all_some] at hoffer
      have hmem := (h.best path known hknown).1
      exact ⟨known, hmem, Reach.covers_of_not_betters hoffer (hdepth _ hmem)⟩

/-- Offering the origins of a path covers all of them. -/
theorem Notes.offerAll (edges : List PathOrigin) :
    ∀ s : RouteSearch, Notes g start horizon (done ++ s.queue) s.route →
      (∀ edge ∈ edges, g.Walk start horizon edge.origin (reach.through edge.time)) →
      (∀ entry ∈ done ++ s.queue, entry.2.depth ≤ reach.depth + 1) →
      ∃ added, (s.offerAll reach edges).queue = s.queue ++ added ∧
        (∀ entry ∈ added, entry.2.depth = reach.depth + 1) ∧
        Notes g start horizon (done ++ (s.offerAll reach edges).queue)
          (s.offerAll reach edges).route ∧
        ∀ edge ∈ edges, ∃ covering, (edge.origin, covering) ∈ done ++ (s.offerAll reach edges).queue ∧
          covering.Covers (reach.through edge.time) := by
  induction edges with
  | nil => exact fun s h _ _ => ⟨[], by simp [RouteSearch.offerAll], by simp, h, by simp⟩
  | cons edge edges ih =>
    intro s h hwalk hdepth
    rw [List.forall_mem_cons] at hwalk
    obtain ⟨first, hqueue, hfirst, hnotes, covering, hcovering, hcovers⟩ :=
      h.offer hwalk.1 hdepth
    have hdepth' : ∀ entry ∈ done ++ (s.offer edge.origin (reach.through edge.time)).queue,
        entry.2.depth ≤ reach.depth + 1 := by
      intro entry hentry
      rw [hqueue, ← List.append_assoc] at hentry
      obtain hentry | hentry := List.mem_append.mp hentry
      · exact hdepth entry hentry
      · exact Nat.le_of_eq (hfirst entry hentry)
    obtain ⟨rest, hqueue', hrest, hnotes', hcovered⟩ := ih _ hnotes hwalk.2 hdepth'
    refine ⟨first ++ rest, ?_, fun entry hentry => ?_, hnotes', fun other hother => ?_⟩
    · rw [RouteSearch.offerAll, List.foldl_cons, ← RouteSearch.offerAll, hqueue', hqueue,
        List.append_assoc]
    · obtain hentry | hentry := List.mem_append.mp hentry
      · exact hfirst entry hentry
      · exact hrest entry hentry
    · obtain rfl | hother := List.mem_cons.mp hother
      · refine ⟨covering, ?_, hcovers⟩
        rw [RouteSearch.offerAll, List.foldl_cons, ← RouteSearch.offerAll, hqueue',
          ← List.append_assoc]
        exact List.mem_append_left _ hcovering
      · exact hcovered other hother

/-- A search between two steps. The entries that it is done with stand before those in its queue,
and every walk over one more edge from them is covered. -/
structure Searched (g : PathGraph) (start : Nid) (horizon : Int64) (done : List (Nid × Reach))
    (s : RouteSearch) : Prop where
  notes : Notes g start horizon (done ++ s.queue) s.route
  start_mem : (start, { cutoff := horizon, depth := 0 }) ∈ done ++ s.queue
  level : ∀ entry ∈ s.queue, ∀ other ∈ done ++ s.queue, other.2.depth ≤ entry.2.depth + 1
  closed : ∀ entry ∈ done, ∀ edge ∈ g.origins entry.1, ∃ covering,
    (edge.origin, covering) ∈ done ++ s.queue ∧ covering.Covers (entry.2.through edge.time)

/-- A search that starts has its start in the queue and is done with nothing. -/
theorem searched_start (g : PathGraph) (start : Nid) (horizon : Int64) :
    Searched g start horizon [] (RouteSearch.start start horizon) := by
  have hqueue : (RouteSearch.start start horizon).queue =
      [(start, { cutoff := horizon, depth := 0 })] := rfl
  have hroute (path : Nid) : (RouteSearch.start start horizon).route[path]? =
      if path = start then some { cutoff := horizon, depth := 0 } else none := by
    simp only [RouteSearch.start, Std.ExtTreeMap.getElem?_insert, Std.ExtTreeMap.getElem?_empty,
      Std.compare_eq_iff_eq, eq_comm (a := start)]
  refine ⟨?_, by simp [hqueue], by simp [hqueue], by simp⟩
  rw [hqueue, List.nil_append]
  refine ⟨fun entry hentry => ?_, List.pairwise_singleton _ _, List.pairwise_singleton _ _,
    fun path reach hreach => ?_, fun path reach hreach => ?_⟩
  · obtain rfl := List.mem_singleton.mp hentry
    exact .stay
  · rw [hroute] at hreach
    split at hreach
    · rename_i heq
      cases hreach
      subst heq
      refine ⟨List.mem_singleton_self _, fun other hother => ?_⟩
      cases List.mem_singleton.mp hother
      exact (Reach.Covers.refl _).not_betters
    · cases hreach
  · cases List.mem_singleton.mp hreach
    rw [hroute, if_pos rfl]
    rfl

/-- Once the front of the queue is taken, the origins of its path can be offered. -/
theorem Searched.front {entry : Nid × Reach} {queue : List (Nid × Reach)}
    (h : Searched g start horizon done s) (hqueue : s.queue = entry :: queue) :
    Notes g start horizon ((done ++ [entry]) ++ queue) s.route ∧
      (∀ other ∈ (done ++ [entry]) ++ queue, other.2.depth ≤ entry.2.depth + 1) ∧
      ∀ edge ∈ g.origins entry.1, g.Walk start horizon edge.origin (entry.2.through edge.time) := by
  have hnoted : done ++ s.queue = (done ++ [entry]) ++ queue := by simp [hqueue]
  have hnotes := h.notes
  have hlevel := h.level entry (by simp [hqueue])
  rw [hnoted] at hnotes hlevel
  exact ⟨hnotes, hlevel, fun edge hedge => .along (hnotes.walk entry (by simp)) hedge⟩

/-- A step offers all origins of the path at the front of the queue. -/
theorem step_of_queue {entry : Nid × Reach} {queue : List (Nid × Reach)}
    (hqueue : s.queue = entry :: queue) :
    s.step g = offerAll { s with queue } entry.2 (g.origins entry.1) := by
  rw [step, hqueue]

/-- A step is done with the front of the queue. -/
theorem Searched.step {entry : Nid × Reach} {queue : List (Nid × Reach)}
    (h : Searched g start horizon done s) (hqueue : s.queue = entry :: queue) :
    Searched g start horizon (done ++ [entry]) (s.step g) := by
  have hstep : s.step g = _ := step_of_queue hqueue
  have hnoted : done ++ s.queue = (done ++ [entry]) ++ queue := by simp [hqueue]
  obtain ⟨hnotes, hlevel, hwalk⟩ := h.front hqueue
  obtain ⟨added, hadded, hdepth, hnext, hcovered⟩ :=
    Notes.offerAll (g.origins entry.1) { s with queue } hnotes hwalk hlevel
  rw [← hstep] at hadded hnext hcovered
  have hkeep : ∀ other ∈ done ++ s.queue, other ∈ (done ++ [entry]) ++ (s.step g).queue := by
    intro other hother
    rw [hnoted] at hother
    rw [hadded, ← List.append_assoc]
    exact List.mem_append_left _ hother
  have hsorted := hnotes.sorted
  rw [List.append_assoc, List.singleton_append, List.pairwise_append, List.pairwise_cons] at hsorted
  refine ⟨hnext, hkeep _ h.start_mem, fun later hlater other hother => ?_,
    fun found hfound edge hedge => ?_⟩
  · have hle : entry.2.depth ≤ later.2.depth := by
      rw [hadded] at hlater
      obtain hlater | hlater := List.mem_append.mp hlater
      · exact hsorted.2.1.1 later hlater
      · have := hdepth later hlater
        omega
    have hother' : other.2.depth ≤ entry.2.depth + 1 := by
      rw [hadded, ← List.append_assoc] at hother
      obtain hother | hother := List.mem_append.mp hother
      · exact hlevel other hother
      · exact Nat.le_of_eq (hdepth other hother)
    omega
  · obtain hfound | hfound := List.mem_append.mp hfound
    · obtain ⟨covering, hcovering, hcovers⟩ := h.closed found hfound edge hedge
      exact ⟨covering, hkeep _ hcovering, hcovers⟩
    · obtain rfl := List.mem_singleton.mp hfound
      exact hcovered edge hedge

/-- After some steps the queue is empty, or as many entries more are done. -/
theorem Searched.run (n : Nat) (h : Searched g start horizon done s) :
    ∃ done', Searched g start horizon done' (s.run g n) ∧
      ((s.run g n).queue = [] ∨ done'.length = done.length + n) := by
  induction n generalizing s done with
  | zero => exact ⟨done, h, Or.inr rfl⟩
  | succ n ih =>
    cases hqueue : s.queue with
    | nil =>
      have hrun : s.run g (n + 1) = s := by simp [RouteSearch.run, hqueue]
      exact ⟨done, by rwa [hrun], Or.inl (by rw [hrun, hqueue])⟩
    | cons entry queue =>
      have hrun : s.run g (n + 1) = (s.step g).run g n := by simp [RouteSearch.run, hqueue]
      obtain ⟨done', hdone', hend⟩ := ih (h.step hqueue)
      rw [hrun]
      refine ⟨done', hdone', hend.imp_right fun hlength => ?_⟩
      rw [hlength, List.length_append, List.length_singleton]
      omega

/-- Once the queue is empty, a note covers every walk. -/
theorem Searched.covered (h : Searched g start horizon done s) (hqueue : s.queue = [])
    (hwalk : g.Walk start horizon path reach) :
    ∃ covering, (path, covering) ∈ done ++ s.queue ∧ covering.Covers reach := by
  have hdone : done ++ s.queue = done := by rw [hqueue, List.append_nil]
  induction hwalk with
  | stay => exact ⟨_, h.start_mem, Reach.Covers.refl _⟩
  | @along path reach edge _ hedge ih =>
    obtain ⟨known, hknown, hcovers⟩ := ih
    rw [hdone] at hknown
    obtain ⟨covering, hcovering, hcovers'⟩ := h.closed _ hknown edge hedge
    exact ⟨covering, hcovering, hcovers'.trans (hcovers.through edge.time)⟩

/-- The search comes to its end within the steps that it is given. -/
theorem exists_searched (g : PathGraph) (start : Nid) (horizon : Int64) :
    ∃ done s, Searched g start horizon done s ∧ s.queue = [] ∧
      s.route = g.route start horizon ∧
      s = (RouteSearch.start start horizon).run g ((g.size + 1) * (g.size + 1)) := by
  obtain ⟨done, hdone, hend⟩ :=
    (searched_start g start horizon).run ((g.size + 1) * (g.size + 1))
  refine ⟨done, _, hdone, ?_, rfl, rfl⟩
  obtain hempty | hlength := hend
  · exact hempty
  · have hle := hdone.notes.length_le
    rw [List.length_append] at hle
    refine List.length_eq_zero_iff.mp ?_
    rw [List.length_nil] at hlength
    omega

end RouteSearch

namespace PathGraph

variable {g g' : PathGraph} {start path : Nid} {horizon : Int64} {reach : Reach}

/-- A route holds of each path the reach that counts most among those of all walks to it. -/
theorem route_eq_some_iff :
    (g.route start horizon)[path]? = some reach ↔ g.Walk start horizon path reach ∧
      ∀ other, g.Walk start horizon path other → ¬ other.betters reach = true := by
  obtain ⟨done, s, hsearched, hqueue, hroute, -⟩ := RouteSearch.exists_searched g start horizon
  rw [← hroute]
  have hcount (found : Reach) (hfound : s.route[path]? = some found) :
      g.Walk start horizon path found ∧
        ∀ other, g.Walk start horizon path other → ¬ other.betters found = true := by
    obtain ⟨hmem, hbest⟩ := hsearched.notes.best path found hfound
    refine ⟨hsearched.notes.walk _ hmem, fun other hother hbetters => ?_⟩
    obtain ⟨covering, hcovering, hcovers⟩ := hsearched.covered hqueue hother
    by_cases hmore : covering.betters other = true
    · exact hbest covering hcovering (Reach.betters_trans hmore hbetters)
    · have hsame := Reach.eq_of_not_betters hmore hcovers.not_betters
      exact hbest covering hcovering (hsame ▸ hbetters)
  constructor
  · exact hcount reach
  · rintro ⟨hwalk, hbest⟩
    obtain ⟨covering, hcovering, -⟩ := hsearched.covered hqueue hwalk
    obtain ⟨found, hfound⟩ :=
      Option.isSome_iff_exists.mp (hsearched.notes.reached path covering hcovering)
    obtain ⟨hfoundWalk, hfoundBest⟩ := hcount found hfound
    rw [hfound, Reach.eq_of_not_betters (hbest found hfoundWalk) (hfoundBest reach hwalk)]

/-- Every path that a walk leads to is on the route. -/
theorem Walk.mem_route (h : g.Walk start horizon path reach) : path ∈ g.route start horizon := by
  obtain ⟨done, s, hsearched, hqueue, hroute, -⟩ := RouteSearch.exists_searched g start horizon
  obtain ⟨covering, hcovering, -⟩ := hsearched.covered hqueue h
  rw [← hroute, Std.ExtTreeMap.mem_iff_isSome_getElem?]
  exact hsearched.notes.reached path covering hcovering

/-- Walks depend on the origins of the paths on the route only. -/
theorem Walk.of_agrees
    (hagrees : ∀ path ∈ g.route start horizon, g'.origins path = g.origins path) :
    g'.Walk start horizon path reach ↔ g.Walk start horizon path reach := by
  constructor
  · intro h
    induction h with
    | stay => exact .stay
    | along _ hedge ih =>
      rw [hagrees _ ih.mem_route] at hedge
      exact .along ih hedge
  · intro h
    induction h with
    | stay => exact .stay
    | along hwalk hedge ih =>
      rw [← hagrees _ hwalk.mem_route] at hedge
      exact .along ih hedge

/-- What happens outside of a route leaves it as it is. -/
theorem AgreesOutside.route_eq (h : g.AgreesOutside (· ∉ g.route start horizon) g') :
    g'.route start horizon = g.route start horizon := by
  have hagrees : ∀ path ∈ g.route start horizon, g'.origins path = g.origins path :=
    fun path hpath => h path (not_not_intro hpath)
  apply Std.ExtTreeMap.ext_getElem?
  intro path
  apply Option.ext
  intro reach
  rw [route_eq_some_iff, route_eq_some_iff]
  simp only [Walk.of_agrees hagrees]

/-- Routes depend on the edges of a graph only, and not on the order in which they are listed. -/
theorem route_congr (h : ∀ path edge, edge ∈ g.origins path ↔ edge ∈ g'.origins path) :
    g.route start horizon = g'.route start horizon := by
  have hwalk (path : Nid) (reach : Reach) :
      g.Walk start horizon path reach ↔ g'.Walk start horizon path reach :=
    ⟨fun hwalk => hwalk.congr fun path edge => (h path edge).mp,
      fun hwalk => hwalk.congr fun path edge => (h path edge).mpr⟩
  apply Std.ExtTreeMap.ext_getElem?
  intro path
  apply Option.ext
  intro reach
  rw [route_eq_some_iff, route_eq_some_iff]
  simp only [hwalk]

end PathGraph

end Chronicle
