import Chronicle.Path.Table
import Chronicle.Proofs.Path.Graph
import Chronicle.Proofs.Reader
import Chronicle.Proofs.Sorting

/-!
# Path tables

A path table lists the edges of a graph in an order of its own, so a graph is read back with the
same origins of each path, sorted. More edges than four bytes count make a table that is refused.
-/

namespace Chronicle.PathGraph

variable {g decoded : PathGraph} {path : Nid}

/-- Whether an edge comes before another one in the table, or may. -/
def edgeLE (a b : PathOrigin) : Bool :=
  (compare a.origin b.origin).isLE

/-- The origins of a path as the table lists them. -/
def sortedOrigins (g : PathGraph) (path : Nid) : List PathOrigin :=
  (g.origins path).mergeSort edgeLE

/-- Every edge is read back as it was written. -/
theorem reads_readEdge (entry : Nid × PathOrigin) :
    Reader.Reads readEdge (encodeEdge entry) entry := by
  rw [encodeEdge, List.append_assoc]
  exact (Reader.reads_nid entry.1).bind
    ((Reader.reads_nid entry.2.origin).bind (Reader.reads_int64 entry.2.time).bind_pure)

/-- Edges are read from behind the marker and their number. -/
theorem reads_readTable {edges : List (Nid × PathOrigin)} (h : edges.length < UInt32.size) :
    Reader.Reads readTable (tableMarker ++ (Wire.count edges.length ++ edges.flatMap encodeEdge))
      (edges.foldl restore empty) :=
  (Reader.reads_marker tableMarker).bind ((Reader.reads_count h).bind
    (Reader.reads_items fun entry _ => reads_readEdge entry).bind_pure)

/-- A restored edge stands behind those that its path has. -/
theorem origins_restore (g : PathGraph) (entry : Nid × PathOrigin) (path : Nid) :
    (g.restore entry).origins path =
      if path = entry.1 then g.origins path ++ [entry.2] else g.origins path := by
  simp only [origins, restore, Std.ExtTreeMap.getElem?_insert, Std.compare_eq_iff_eq,
    eq_comm (a := entry.1)]
  by_cases hpath : path = entry.1
  · simp [hpath]
  · simp [hpath]

/-- Restored edges come behind those that a path has, in the order of the table. -/
theorem origins_foldl_restore (entries : List (Nid × PathOrigin)) (g : PathGraph) (path : Nid) :
    (entries.foldl restore g).origins path =
      g.origins path ++ (entries.filter fun entry => entry.1 = path).map Prod.snd := by
  induction entries generalizing g with
  | nil => simp
  | cons entry entries ih =>
    rw [List.foldl_cons, ih, origins_restore]
    by_cases hpath : entry.1 = path
    · simp [hpath]
    · simp [hpath, Ne.symm hpath]

/-- The part of the table that one entry of a graph makes. -/
def edgesOf (entry : Nid × List PathOrigin) : List (Nid × PathOrigin) :=
  (entry.2.mergeSort edgeLE).map (entry.1, ·)

private theorem sortedEdges_eq (g : PathGraph) : g.sortedEdges = g.edges.toList.flatMap edgesOf :=
  rfl

private theorem filter_edgesOf (entry : Nid × List PathOrigin) (path : Nid) :
    (edgesOf entry).filter (fun edge => edge.1 = path) =
      if entry.1 = path then edgesOf entry else [] := by
  by_cases hpath : entry.1 = path
  · rw [if_pos hpath, List.filter_eq_self]
    intro edge hedge
    obtain ⟨origin, -, rfl⟩ := List.mem_map.mp hedge
    simpa using hpath
  · rw [if_neg hpath, List.filter_eq_nil_iff]
    intro edge hedge
    obtain ⟨origin, -, rfl⟩ := List.mem_map.mp hedge
    simpa using hpath

/-- Entries for other paths contribute nothing to a path. -/
theorem filter_flatMap_edgesOf {entries : List (Nid × List PathOrigin)}
    (h : ∀ entry ∈ entries, entry.1 ≠ path) :
    (entries.flatMap edgesOf).filter (fun edge => edge.1 = path) = [] := by
  rw [List.filter_flatMap, List.flatMap_eq_nil_iff]
  intro entry hentry
  rw [filter_edgesOf, if_neg (h entry hentry)]

/-- The edges from a path stand together, sorted by their origins. -/
theorem filter_sortedEdges (g : PathGraph) (path : Nid) :
    g.sortedEdges.filter (fun edge => edge.1 = path) = (g.sortedOrigins path).map (path, ·) := by
  have hkeys := pairwise_toList_ne g.edges
  rw [sortedEdges_eq]
  cases horigins : g.edges[path]? with
  | none =>
    have hempty : g.sortedOrigins path = [] := by
      rw [sortedOrigins, origins, horigins, Option.getD_none, List.mergeSort_nil]
    rw [hempty]
    refine filter_flatMap_edgesOf fun entry hentry heq => ?_
    rw [Std.ExtTreeMap.mem_toList_iff_getElem?_eq_some, heq, horigins] at hentry
    cases hentry
  | some found =>
    have hsorted : g.sortedOrigins path = found.mergeSort edgeLE := by
      rw [sortedOrigins, origins, horigins]
      rfl
    have hmem := Std.ExtTreeMap.mem_toList_iff_getElem?_eq_some.mpr horigins
    obtain ⟨before, after, hsplit⟩ := List.append_of_mem hmem
    rw [hsplit, List.pairwise_append, List.pairwise_cons] at hkeys
    obtain ⟨-, ⟨hafter, -⟩, hbefore⟩ := hkeys
    rw [hsplit, List.flatMap_append, List.flatMap_cons, List.filter_append, List.filter_append,
      filter_flatMap_edgesOf fun entry hentry => hbefore entry hentry _ List.mem_cons_self,
      filter_flatMap_edgesOf fun entry hentry => (hafter entry hentry).symm,
      filter_edgesOf, if_pos rfl, hsorted, List.nil_append, List.append_nil]
    rfl

/-- The table has one entry for each edge. -/
theorem length_sortedEdges (g : PathGraph) : g.sortedEdges.length = g.size :=
  g.length_flatMap_edges fun entry => by rw [List.length_map, List.length_mergeSort]

/-- The graph that is read back from the table of another one. -/
def reread (g : PathGraph) : PathGraph :=
  g.sortedEdges.foldl restore empty

/-- A graph that is read back has the origins of each path as the table lists them. -/
theorem origins_reread (g : PathGraph) (path : Nid) :
    g.reread.origins path = g.sortedOrigins path := by
  have hempty : empty.origins path = [] := by simp [origins, empty]
  have hsnd : Prod.snd ∘ (fun origin : PathOrigin => (path, origin)) = id := rfl
  rw [reread, origins_foldl_restore, filter_sortedEdges, hempty, List.map_map, hsnd, List.map_id,
    List.nil_append]

/-- The same origins are read back. -/
theorem mem_origins_reread {edge : PathOrigin} :
    edge ∈ g.reread.origins path ↔ edge ∈ g.origins path := by
  rw [origins_reread, sortedOrigins, List.mem_mergeSort]

/-- What is left of a table after as many edges as its counter says. -/
theorem readTable_encodeTable (g : PathGraph) :
    let counted := g.size % UInt32.size
    readTable g.encodeTable =
      .ok ((g.sortedEdges.take counted).foldl restore empty)
        ((g.sortedEdges.drop counted).flatMap encodeEdge) := by
  intro counted
  have hlength : (g.sortedEdges.take counted).length = counted := by
    rw [List.length_take, length_sortedEdges]
    exact Nat.min_eq_left (Nat.mod_le _ _)
  have hcounted : (g.sortedEdges.take counted).length < UInt32.size := by
    rw [hlength]
    exact Nat.mod_lt _ (by decide)
  have hcount : Wire.count g.sortedEdges.length =
      Wire.count (g.sortedEdges.take counted).length := by
    rw [hlength, length_sortedEdges]
    exact (BigEndian.encode_mod 4 g.size).symm
  have hsplit : g.sortedEdges.flatMap encodeEdge =
      (g.sortedEdges.take counted).flatMap encodeEdge ++
        (g.sortedEdges.drop counted).flatMap encodeEdge := by
    rw [← List.flatMap_append, List.take_append_drop]
  rw [← (reads_readTable hcounted).whole, encodeTable, hcount, hsplit]
  simp only [List.append_assoc]

/-- A table is accepted exactly if four bytes count its edges. -/
theorem decodeTable_encodeTable_iff :
    decodeTable g.encodeTable = .ok decoded ↔ g.size < UInt32.size ∧ decoded = g.reread := by
  rw [decodeTable, Reader.decode_eq_ok_iff, readTable_encodeTable, EStateM.Result.ok.injEq]
  constructor
  · rintro ⟨rfl, hrest⟩
    have hle : g.size ≤ g.size % UInt32.size := by
      rw [← length_sortedEdges, ← List.drop_eq_nil_iff, length_sortedEdges]
      cases hdrop : g.sortedEdges.drop (g.size % UInt32.size) with
      | nil => rfl
      | cons entry entries =>
        rw [hdrop, List.flatMap_cons] at hrest
        have hlength := congrArg List.length hrest
        simp [encodeEdge, Wire.nid, Wire.int32, Wire.int64] at hlength
    have hlt : g.size % UInt32.size < UInt32.size := Nat.mod_lt _ (by decide)
    have hsame : g.size % UInt32.size = g.sortedEdges.length := by
      rw [length_sortedEdges]
      exact Nat.le_antisymm (Nat.mod_le _ _) hle
    refine ⟨by omega, ?_⟩
    rw [hsame, List.take_length, reread]
  · rintro ⟨hlt, rfl⟩
    have hsame : g.size % UInt32.size = g.sortedEdges.length := by
      rw [length_sortedEdges, Nat.mod_eq_of_lt hlt]
    rw [hsame, List.take_length, List.drop_length]
    exact ⟨rfl, rfl⟩

/-! ## The table of what was read from a table -/

/-- The table lists its edges by their paths. -/
theorem pairwise_sortedEdges (g : PathGraph) :
    g.sortedEdges.Pairwise fun a b => (compare a.1 b.1).isLE := by
  rw [sortedEdges_eq, List.pairwise_flatMap]
  constructor
  · intro entry _
    rw [edgesOf, List.pairwise_map]
    have hself : compare entry.1 entry.1 = .eq := Std.ReflCmp.compare_self
    refine List.pairwise_of_forall fun a b => ?_
    rw [hself]
    rfl
  · refine Std.ExtTreeMap.ordered_keys_toList.imp fun {a b} hlt edge hedge edge' hedge' => ?_
    obtain ⟨origin, -, rfl⟩ := List.mem_map.mp hedge
    obtain ⟨origin', -, rfl⟩ := List.mem_map.mp hedge'
    rw [hlt]
    rfl

/-- Origins that were sorted for the table stay sorted. -/
theorem sortedOrigins_reread (g : PathGraph) (path : Nid) :
    g.reread.sortedOrigins path = g.sortedOrigins path := by
  rw [sortedOrigins, origins_reread]
  exact List.mergeSort_of_pairwise (pairwise_mergeSort_key PathOrigin.origin (g.origins path))

/-- A graph that was read back lists the same edges in the same order. -/
theorem sortedEdges_reread (g : PathGraph) : g.reread.sortedEdges = g.sortedEdges :=
  eq_of_filter_key_eq (pairwise_sortedEdges _) (pairwise_sortedEdges _) fun path => by
    rw [filter_sortedEdges, filter_sortedEdges, sortedOrigins_reread]

/-- A graph that was read back has the same table. -/
theorem encodeTable_reread (g : PathGraph) : g.reread.encodeTable = g.encodeTable := by
  rw [encodeTable, encodeTable, sortedEdges_reread]

/-- A graph that was read back has as many edges. -/
theorem size_reread (g : PathGraph) : g.reread.size = g.size := by
  rw [← length_sortedEdges, sortedEdges_reread, length_sortedEdges]

/-- A graph in which no path has an origin has no edges. -/
theorem size_eq_zero (h : ∀ path, g.origins path = []) : g.size = 0 := by
  rw [← length_sortedEdges, List.length_eq_zero_iff, List.eq_nil_iff_forall_not_mem]
  intro edge hedge
  have hfiltered : edge ∈ g.sortedEdges.filter (fun other => other.1 = edge.1) :=
    List.mem_filter.mpr ⟨hedge, by simp⟩
  rw [filter_sortedEdges, sortedOrigins, h] at hfiltered
  simp at hfiltered

end Chronicle.PathGraph
