import Chronicle.Proofs.Path.Recording

/-!
# Path tables of any origin

A table that was not written from a graph is accepted as long as its bytes can be taken apart into
edges. Each one is put behind those that its path has, whatever they are. So a path can be its own
origin, and have several edges to one origin, of which recording an edge replaces the first one
only. This file says which graph a table describes, and for which tables it obeys the rules that
recording keeps: those that list no two edges between the same two paths, and none from a path to
itself.
-/

namespace Chronicle.PathGraph

open PathOrigin (edgesTo insertAll)

variable {g : PathGraph} {path : Nid} {edge : PathOrigin} {edges : List (Nid × PathOrigin)}
  {table : Bytes}

/-- A table with some edges. -/
def tableOf (edges : List (Nid × PathOrigin)) : Bytes :=
  tableMarker ++ Wire.count edges.length ++ edges.flatMap encodeEdge

/-- The bytes of a table are those of some edges, as many as four bytes can count. -/
structure Records (table : Bytes) (edges : List (Nid × PathOrigin)) : Prop where
  count_lt : edges.length < UInt32.size
  table_eq : table = tableOf edges

/-- The edges from a path in the order in which they are listed. -/
def listed (path : Nid) (edges : List (Nid × PathOrigin)) : List PathOrigin :=
  (edges.filter fun entry => entry.1 = path).map Prod.snd

/-- Edges are written and read exactly. -/
theorem exact_readEdge : Reader.Exact readEdge encodeEdge fun _ => True := by
  intro entry left rest
  simp only [readEdge, Reader.bind_eq_ok_iff, Reader.nid_eq_ok_iff, Reader.int64_eq_ok_iff,
    Reader.pure_eq_ok_iff]
  constructor
  · rintro ⟨path, _, rfl, origin, _, rfl, time, _, rfl, rfl, rfl⟩
    exact ⟨trivial, by simp [encodeEdge]⟩
  · rintro ⟨-, rfl⟩
    exact ⟨entry.1, _, by rw [encodeEdge, List.append_assoc, List.append_assoc], entry.2.origin, _,
      rfl, entry.2.time, rest, rfl, rfl, rfl⟩

/-- A table is decoded exactly if it records edges, as the graph in which they are restored. -/
theorem decodeTable_eq_ok_iff :
    decodeTable table = .ok g ↔ ∃ edges, Records table edges ∧ g = edges.foldl restore empty := by
  rw [decodeTable, Reader.decode_eq_ok_iff]
  simp only [readTable, Reader.bind_eq_ok_iff, Reader.marker_eq_ok_iff, Reader.count_eq_ok_iff,
    exact_readEdge.items_eq_ok_iff, Reader.pure_eq_ok_iff]
  constructor
  · rintro ⟨_, _, rfl, _, _, ⟨rfl, hcount⟩, edges, _, ⟨rfl, -, rfl⟩, rfl, rfl⟩
    exact ⟨edges, ⟨hcount, by simp [tableOf]⟩, rfl⟩
  · rintro ⟨edges, ⟨hcount, rfl⟩, rfl⟩
    exact ⟨(), _, List.append_assoc .., _, _, ⟨rfl, hcount⟩, edges, [],
      ⟨rfl, fun _ _ => trivial, by simp⟩, rfl, rfl⟩

/-- A table that is read gives a path the edges that it lists for it, in their order. -/
theorem origins_restored : (edges.foldl restore empty).origins path = listed path edges := by
  rw [origins_foldl_restore, origins_empty, List.nil_append, listed]

/-- The rules that recording keeps: no path is its own origin, and each has one edge at most to each
of its origins. -/
structure Proper (g : PathGraph) : Prop where
  not_self : ∀ path, path ∉ (g.origins path).map PathOrigin.origin
  nodup : ∀ path, ((g.origins path).map PathOrigin.origin).Nodup

/-- The rules, as a table obeys them. -/
structure Orderly (edges : List (Nid × PathOrigin)) : Prop where
  not_self : ∀ entry ∈ edges, entry.2.origin ≠ entry.1
  nodup : (edges.map fun entry => (entry.1, entry.2.origin)).Nodup

/-- The graph of a table obeys the rules exactly if the table does. -/
theorem proper_restored_iff : (edges.foldl restore empty).Proper ↔ Orderly edges := by
  have hself : (∀ path, path ∉ (listed path edges).map PathOrigin.origin) ↔
      ∀ entry ∈ edges, entry.2.origin ≠ entry.1 := by
    simp only [listed, List.map_map, List.mem_map, List.mem_filter, decide_eq_true_eq,
      Function.comp_apply, not_exists, not_and]
    exact ⟨fun h entry hentry => h entry.1 entry ⟨hentry, rfl⟩,
      fun h path entry hentry => hentry.2 ▸ h entry hentry.1⟩
  have hnodup : (∀ path, ((listed path edges).map PathOrigin.origin).Nodup) ↔
      (edges.map fun entry => (entry.1, entry.2.origin)).Nodup := by
    simp only [listed, List.map_map, List.Nodup, List.pairwise_map, List.pairwise_filter]
    simp only [List.pairwise_iff_getElem, Function.comp_apply, decide_eq_true_eq, ne_eq,
      Prod.mk.injEq, not_and]
    exact ⟨fun h i j hi hj hij hpath => h _ i j hi hj hij rfl hpath.symm,
      fun h path i j hi hj hij hfirst hsecond => h i j hi hj hij (hfirst.trans hsecond.symm)⟩
  constructor
  · rintro ⟨h, h'⟩
    simp only [origins_restored] at h h'
    exact ⟨hself.mp h, hnodup.mp h'⟩
  · rintro ⟨h, h'⟩
    refine ⟨?_, ?_⟩
    · simpa only [origins_restored] using hself.mpr h
    · simpa only [origins_restored] using hnodup.mpr h'

/-- Recording an edge adds one origin at most, which is new and not the path itself. -/
theorem exists_map_origin_record (g : PathGraph) (call : Nid × PathOrigin) (path : Nid) :
    ∃ added, ((g.record call).origins path).map PathOrigin.origin =
        (g.origins path).map PathOrigin.origin ++ added ∧
      added.Nodup ∧ path ∉ added ∧ ∀ origin ∈ (g.origins path).map PathOrigin.origin,
        origin ∉ added := by
  obtain ⟨source, edge⟩ := call
  rw [origins_record]
  by_cases hpath : source = path ∧ edge.origin ≠ path
  · rw [if_pos hpath, PathOrigin.map_origin_insertInto]
    by_cases hknown : edge.origin ∈ (g.origins path).map PathOrigin.origin
    · rw [if_pos hknown]
      exact ⟨[], by simp⟩
    · rw [if_neg hknown]
      refine ⟨[edge.origin], rfl, List.nodup_singleton _, ?_, fun origin horigin hadded => ?_⟩
      · simpa using hpath.2.symm
      · rw [List.mem_singleton.mp hadded] at horigin
        exact hknown horigin
  · rw [if_neg hpath]
    exact ⟨[], by simp⟩

/-- Recording an edge neither breaks the rules nor makes up for breaking them. -/
theorem proper_record_iff {call : Nid × PathOrigin} : (g.record call).Proper ↔ g.Proper := by
  constructor
  · rintro ⟨hself, hnodup⟩
    refine ⟨fun path hpath => hself path ?_, fun path => ?_⟩
    · obtain ⟨added, hadded, -⟩ := g.exists_map_origin_record call path
      rw [hadded]
      exact List.mem_append_left _ hpath
    · obtain ⟨added, hadded, -⟩ := g.exists_map_origin_record call path
      have h := hnodup path
      rw [hadded] at h
      exact h.of_append_left
  · rintro ⟨hself, hnodup⟩
    refine ⟨fun path hpath => ?_, fun path => ?_⟩
    · obtain ⟨added, hadded, -, hnew, -⟩ := g.exists_map_origin_record call path
      rw [hadded, List.mem_append] at hpath
      exact hpath.elim (hself path) hnew
    · obtain ⟨added, hadded, honce, -, hapart⟩ := g.exists_map_origin_record call path
      rw [hadded]
      exact List.nodup_append.mpr ⟨hnodup path, honce,
        fun origin horigin other hother heq => hapart origin horigin (heq ▸ hother)⟩

/-- Recording keeps the rules, and does not repair a graph that breaks them. -/
theorem proper_recordAll_iff {calls : List (Nid × PathOrigin)} :
    (g.recordAll calls).Proper ↔ g.Proper := by
  induction calls generalizing g with
  | nil => exact Iff.rfl
  | cons call calls ih => rw [recordAll, List.foldl_cons, ← recordAll, ih, proper_record_iff]

/-- A call that is not refused leaves its edge as the first one to its origin. Whatever other edges
to the origin there were at first are still there. -/
theorem edgesTo_record_recordAll {calls : List (Nid × PathOrigin)} (hself : path ≠ edge.origin) :
    edgesTo edge.origin (((g.recordAll calls).record (path, edge)).origins path) =
      edge :: (edgesTo edge.origin (g.origins path)).tail := by
  rw [origins_record, if_pos ⟨rfl, hself.symm⟩, PathOrigin.edgesTo_insertInto, if_pos rfl,
    origins_recordAll, PathOrigin.edgesTo_insertAll]
  split <;> rfl

/-- Among edges to different origins there are not two to the same one. -/
theorem tail_edgesTo {edges : List PathOrigin} (h : (edges.map PathOrigin.origin).Nodup)
    (target : Nid) : (edgesTo target edges).tail = [] := by
  induction edges with
  | nil => rfl
  | cons first rest ih =>
    rw [List.map_cons, List.nodup_cons] at h
    by_cases hfirst : first.origin = target
    · rw [edgesTo, List.filter_cons_of_pos (by simpa using hfirst), List.tail_cons,
        List.filter_eq_nil_iff]
      intro edge hedge htarget
      have hsame := of_decide_eq_true htarget
      exact h.1 (List.mem_map.mpr ⟨edge, hedge, hsame.trans hfirst.symm⟩)
    · rw [edgesTo, List.filter_cons_of_neg (by simpa using hfirst)]
      exact ih h.2

/-- **Graphs from tables.** An accepted table lists edges, and each path has the edges that are
listed for it. The graph obeys the rules that recording keeps exactly if the table lists no two
edges between the same two paths and none from a path to itself, and whatever is recorded later
changes nothing about that. An edge that is recorded replaces the first one to its origin: others to
the same origin that the table listed keep their times. -/
theorem decoded_proper_iff (h : decodeTable table = .ok g) :
    (∃ edges, Records table edges) ∧
    ∀ edges, Records table edges →
      (∀ path, g.origins path = listed path edges) ∧
      (∀ calls, (g.recordAll calls).Proper ↔ Orderly edges) ∧
      ∀ calls path edge, path ≠ edge.origin →
        let later := (g.recordAll calls).record (path, edge)
        edgesTo edge.origin (later.origins path) =
          edge :: (edgesTo edge.origin (listed path edges)).tail ∧
        ((∀ found ∈ later.origins path, found.origin = edge.origin → found.time = edge.time) ↔
          ∀ extra ∈ (edgesTo edge.origin (listed path edges)).tail, extra.time = edge.time) ∧
        (Orderly edges → edgesTo edge.origin (later.origins path) = [edge]) := by
  refine ⟨?_, fun edges hrecords => ?_⟩
  · obtain ⟨edges, hrecords, -⟩ := decodeTable_eq_ok_iff.mp h
    exact ⟨edges, hrecords⟩
  · have hrestored := decodeTable_eq_ok_iff.mpr ⟨edges, hrecords, rfl⟩
    rw [h, Except.ok.injEq] at hrestored
    subst hrestored
    refine ⟨fun path => origins_restored, fun calls => ?_, fun calls path edge hself => ?_⟩
    · rw [proper_recordAll_iff, proper_restored_iff]
    · intro later
      have hedges : edgesTo edge.origin (later.origins path) =
          edge :: (edgesTo edge.origin (listed path edges)).tail := by
        rw [edgesTo_record_recordAll hself, origins_restored]
      refine ⟨hedges, ?_, fun horderly => ?_⟩
      · have hfound (found : PathOrigin) : found ∈ later.origins path ∧
            found.origin = edge.origin ↔
              found = edge ∨ found ∈ (edgesTo edge.origin (listed path edges)).tail := by
          rw [← PathOrigin.mem_edgesTo, hedges, List.mem_cons]
        simp only [← and_imp, hfound, forall_eq_or_imp, true_and]
      · have hnodup := (proper_restored_iff.mpr horderly).nodup path
        rw [hedges, ← origins_restored, tail_edgesTo hnodup]

/-- A table in order lists the origins of a path in any order, and is read back as a graph in which
an edge can be recorded with another time. -/
theorem decoded_proper_replaced :
    ∃ g, decodeTable (tableOf [(⟨1⟩, ⟨⟨3⟩, 100⟩), (⟨1⟩, ⟨⟨2⟩, 50⟩)]) = .ok g ∧
      (g.recordAll [(⟨1⟩, ⟨⟨4⟩, 7⟩)]).Proper ∧
      edgesTo ⟨3⟩ (((g.recordAll [(⟨1⟩, ⟨⟨4⟩, 7⟩)]).record (⟨1⟩, ⟨⟨3⟩, 10⟩)).origins ⟨1⟩) =
        [⟨⟨3⟩, 10⟩] := by
  have hrecords : Records (tableOf [(⟨1⟩, ⟨⟨3⟩, 100⟩), (⟨1⟩, ⟨⟨2⟩, 50⟩)])
      [(⟨1⟩, ⟨⟨3⟩, 100⟩), (⟨1⟩, ⟨⟨2⟩, 50⟩)] := ⟨by decide, rfl⟩
  have horderly : Orderly [(⟨1⟩, ⟨⟨3⟩, 100⟩), (⟨1⟩, ⟨⟨2⟩, 50⟩)] := ⟨by decide, by decide⟩
  have hdecode := decodeTable_eq_ok_iff.mpr ⟨_, hrecords, rfl⟩
  obtain ⟨-, hall⟩ := decoded_proper_iff hdecode
  obtain ⟨-, hproper, hlater⟩ := hall _ hrecords
  exact ⟨_, hdecode, (hproper _).mpr horderly,
    (hlater [(⟨1⟩, ⟨⟨4⟩, 7⟩)] ⟨1⟩ ⟨⟨3⟩, 10⟩ (by decide)).2.2 horderly⟩

/-- A table may list two edges from a path to one origin. When the edge is recorded with another
time, the second one keeps its own, and is the one that counts on the route. A table may also list
an edge from a path to itself. -/
theorem decoded_not_proper :
    (∃ g g', decodeTable (tableOf [(⟨1⟩, ⟨⟨2⟩, 100⟩), (⟨1⟩, ⟨⟨2⟩, 50⟩)]) = .ok g ∧
      g.addOrigin ⟨1⟩ ⟨⟨2⟩, 10⟩ = .ok (some g') ∧ g'.origins ⟨1⟩ = [⟨⟨2⟩, 10⟩, ⟨⟨2⟩, 50⟩] ∧
      (g'.route ⟨1⟩ 1000)[(⟨2⟩ : Nid)]? = some { cutoff := 50, depth := 1 } ∧ ¬ g'.Proper) ∧
    ∃ g, decodeTable (tableOf [(⟨1⟩, ⟨⟨1⟩, 5⟩)]) = .ok g ∧ g.origins ⟨1⟩ = [⟨⟨1⟩, 5⟩] ∧
      ¬ g.Proper := by
  constructor
  · refine ⟨_, _, decodeTable_eq_ok_iff.mpr ⟨_, ⟨by decide, rfl⟩, rfl⟩, rfl, ?_, ?_,
      fun hproper => ?_⟩
    · decide +kernel
    · decide +kernel
    · exact absurd (hproper.nodup ⟨1⟩) (by decide +kernel)
  · refine ⟨_, decodeTable_eq_ok_iff.mpr ⟨_, ⟨by decide, rfl⟩, rfl⟩, ?_, fun hproper => ?_⟩
    · decide +kernel
    · exact absurd (hproper.not_self ⟨1⟩) (by decide +kernel)

end Chronicle.PathGraph
