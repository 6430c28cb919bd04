import Chronicle.Proofs.Spine.Workers

/-!
# Scans that are told to stop

Whether a scan goes on is asked before each spine and not within one. So a scan that is to stop once
it has seen so many payloads visits the spines up to the one that holds the last of these, and
visits them whole. No spine behind it comes into memory. A single worker visits the spines one after
another, whatever the schedule says.
-/

namespace Chronicle.SpineStore

variable {s t : SpineStore} {index : Nat} {stop : List (Nid × Bytes) → Bool}

/-- The entry in a slot of a spine in memory. -/
def entryIn (s : SpineStore) (index slot : Nat) : Option (Nid × Bytes) :=
  match s.cell? { index, slot }, s.nidAt? { index, slot } with
  | some cell, some nid => some (nid, cell.payload)
  | _, _ => none

/-- Over slots of a spine a scan notes the entries that they have in memory. -/
theorem run_visitSlots (s : SpineStore) (index n slot : Nat) (visited : List (Nid × Bytes)) :
    (visitSlots note index n slot).run visited s =
      (((), ((List.range' slot n).filterMap (s.entryIn index)).reverse ++ visited), s) := by
  induction n generalizing slot visited with
  | zero => rfl
  | succ n ih =>
    rw [visitSlots, run_getThe_store, List.range'_succ]
    cases hcell : s.cell? { index, slot } with
    | none =>
      rw [List.filterMap_cons_none (by simp [entryIn, hcell])]
      exact ih (slot + 1) visited
    | some cell =>
      cases hnid : s.nidAt? { index, slot } with
      | none =>
        rw [List.filterMap_cons_none (by simp [entryIn, hcell, hnid])]
        exact ih (slot + 1) visited
      | some nid =>
        rw [List.filterMap_cons_some (b := (nid, cell.payload)) (by simp [entryIn, hcell, hnid]),
          List.reverse_cons, List.append_assoc, List.singleton_append]
        exact ih (slot + 1) ((nid, cell.payload) :: visited)

/-! ## One worker -/

namespace Crew

variable {crew : Crew}

/-- What a crew has still to do when its schedule is used up. -/
def rest (stop : List (Nid × Bytes) → Bool) (crew : Crew) : Scan (List (Nid × Bytes)) Unit := do
  finishTasks note crew.tasks
  finishQueue stop note crew.queue

private theorem finishQueue_range' (stop : List (Nid × Bytes) → Bool) (n index : Nat) :
    finishQueue stop note (List.range' index n) = visitSpines stop note n index := by
  induction n generalizing index with
  | zero => rfl
  | succ n ih => rw [List.range'_succ, finishQueue, visitSpines, ih]

/-- A spine that is handed out is finished first. -/
theorem run_rest_busy (stop : List (Nid × Bytes) → Bool) (queue : List Nat) (next : Place)
    (visited : List (Nid × Bytes)) (s : SpineStore) :
    (rest stop { queue, tasks := [next] }).run visited s = (finishQueue stop note queue).run
      (((List.range' next.slot (s.spineSize - next.slot)).filterMap
        (s.entryIn next.index)).reverse ++ visited) s := by
  have hnext := run_visitSlots s next.index (s.spineSize - next.slot) next.slot visited
  have htasks : (finishTasks note [next]).run visited s =
      (visitSlots note next.index (s.spineSize - next.slot) next.slot).run visited s := by
    rw [finishTasks, run_getThe_store, run_bind_of_eq hnext, hnext]
    rfl
  rw [rest, run_bind_of_eq (htasks.trans hnext)]

private theorem run_rest_idle (stop : List (Nid × Bytes) → Bool) (queue : List Nat)
    (visited : List (Nid × Bytes)) (s : SpineStore) :
    (rest stop { queue, tasks := [] }).run visited s =
      (finishQueue stop note queue).run visited s :=
  rfl

/-- An idle worker that takes a spine, or is told to stop, does nothing that was not to be done. -/
theorem run_rest_take (stop : List (Nid × Bytes) → Bool) (queue : List Nat)
    (visited : List (Nid × Bytes)) (s : SpineStore) :
    ∃ next t, (take stop { queue, tasks := [] }).run visited s = ((next, visited), t) ∧
      next.tasks.length ≤ 1 ∧
      (rest stop next).run visited t = (rest stop { queue, tasks := [] }).run visited s := by
  cases queue with
  | nil => exact ⟨_, s, rfl, Nat.zero_le 1, rfl⟩
  | cons index queue =>
    simp only [take]
    rw [run_getThe_state, run_rest_idle, finishQueue, run_getThe_state]
    by_cases hstop : stop visited = true
    · rw [if_pos hstop, if_pos hstop]
      exact ⟨_, s, rfl, Nat.zero_le 1, rfl⟩
    · rw [if_neg hstop, if_neg hstop, run_getThe_store]
      by_cases hreaches : s.reaches index = true
      · rw [if_pos hreaches]
        refine ⟨{ queue, tasks := [{ index, slot := 0 }] }, (touch index s).2, rfl,
          Nat.le_refl 1, ?_⟩
        have hspine : (visitSpine note index).run visited s =
            (visitSlots note index s.spineSize 0).run visited (touch index s).2 := by
          rw [visitSpine, run_getThe_store, if_pos hreaches]
          rfl
        rw [run_visitSlots] at hspine
        rw [run_rest_busy, run_bind_of_eq hspine,
          (transition_touch (Or.inr hreaches)).spineSize_eq, Nat.sub_zero]
      · rw [if_neg hreaches]
        refine ⟨{ queue, tasks := [] }, s, rfl, Nat.zero_le 1, ?_⟩
        have hspine : (visitSpine note index).run visited s = (((), visited), s) := by
          rw [visitSpine, run_getThe_store, if_neg hreaches]
          rfl
        rw [run_rest_idle, run_bind_of_eq hspine]

/-- A busy worker that visits one slot, or is done with its spine, does the first thing that was to
be done. -/
theorem run_rest_proceed (stop : List (Nid × Bytes) → Bool) (queue : List Nat) (next : Place)
    (visited : List (Nid × Bytes)) (s : SpineStore) :
    ∃ crew noted, (proceed note { queue, tasks := [next] } 0 next).run visited s =
        ((crew, noted), s) ∧ crew.tasks.length ≤ 1 ∧
      (rest stop crew).run noted s = (rest stop { queue, tasks := [next] }).run visited s := by
  rw [proceed, run_getThe_store, run_rest_busy]
  by_cases hlt : next.slot < s.spineSize
  · rw [if_pos hlt, run_bind_of_eq (run_visitSlots s next.index 1 next.slot visited)]
    refine ⟨{ queue, tasks := [{ next with slot := next.slot + 1 }] }, _, rfl, Nat.le_refl 1, ?_⟩
    rw [run_rest_busy, show s.spineSize - next.slot = 1 + (s.spineSize - (next.slot + 1)) by omega,
      ← List.range'_append_1, List.filterMap_append, List.reverse_append, List.append_assoc]
  · rw [if_neg hlt]
    refine ⟨{ queue, tasks := [] }, visited, rfl, Nat.zero_le 1, ?_⟩
    rw [run_rest_idle, show s.spineSize - next.slot = 0 by omega]
    rfl

/-- Whatever a single worker does next, the same is done in the end. -/
theorem run_rest_turn (hone : crew.tasks.length ≤ 1) (stop : List (Nid × Bytes) → Bool)
    (choice : Nat) (visited : List (Nid × Bytes)) (s : SpineStore) :
    ∃ next noted t, (crew.turn stop note 1 choice).run visited s = ((next, noted), t) ∧
      next.tasks.length ≤ 1 ∧ (rest stop next).run noted t = (rest stop crew).run visited s := by
  obtain ⟨queue, tasks⟩ := crew
  match tasks, choice with
  | [], choice =>
    obtain ⟨next, t, hrun, hnext⟩ := run_rest_take stop queue visited s
    exact ⟨next, visited, t, hrun, hnext⟩
  | [next], 0 =>
    obtain ⟨crew, noted, hrun, hcrew⟩ := run_rest_proceed stop queue next visited s
    exact ⟨crew, noted, s, hrun, hcrew⟩
  | [next], choice + 1 => exact ⟨_, visited, s, rfl, hone, rfl⟩
  | _ :: _ :: _, _ => simp at hone

/-- One worker does the same at whatever turns of its schedule it is asked. -/
theorem run_rest_follow (hone : crew.tasks.length ≤ 1) (stop : List (Nid × Bytes) → Bool)
    (schedule : List Nat) (visited : List (Nid × Bytes)) (s : SpineStore) :
    (do rest stop (← follow stop note 1 schedule crew)).run visited s =
      (rest stop crew).run visited s := by
  induction schedule generalizing crew visited s with
  | nil => rfl
  | cons choice schedule ih =>
    obtain ⟨next, noted, t, hrun, hnext, hrest⟩ := run_rest_turn hone stop choice visited s
    rw [← hrest, ← ih hnext, follow, bind_assoc, run_bind_of_eq hrun]

end Crew

/-- A single worker visits the spines in order, whatever its schedule says. -/
theorem forEachParallelUntil_one (stop : List (Nid × Bytes) → Bool) (schedule : List Nat)
    (visited : List (Nid × Bytes)) (s : SpineStore) :
    (forEachParallelUntil stop note 1 schedule).run visited s =
      (forEachUntil stop note).run visited s := by
  have hidle : Crew.tasks { queue := List.range s.spineLimit, tasks := [] } = [] := rfl
  rw [forEachParallelUntil, run_getThe_store, forEachUntil, run_getThe_store,
    ← Crew.finishQueue_range', ← List.range_eq_range']
  exact Crew.run_rest_follow (by rw [hidle]; exact Nat.zero_le 1) stop schedule visited s

/-! ## Where a scan stops -/

/-- The store once a scan has visited the spines below an index. -/
def scanned (s : SpineStore) : Nat → SpineStore
  | 0 => s
  | index + 1 =>
    if (s.scanned index).reaches index then (touch index (s.scanned index)).2 else s.scanned index

/-- The payload that a scan comes upon for a nid. -/
def found? (s : SpineStore) (nid : Nid) : Option Bytes := do
  let place ← s.place? nid
  if (s.scanned place.index).reaches place.index then
    ((s.scanned (place.index + 1)).cell? place).map Cell.payload
  else none

/-- What a scan has noted when it comes to the spine at an index. -/
def seen (s : SpineStore) (index : Nat) : List (Nid × Bytes) :=
  entriesFrom s.found? 0 (index * s.spineSize)

/-- What was seen of more spines is what was seen of the first and of the others. -/
theorem seen_add (s : SpineStore) (m n : Nat) :
    s.seen (m + n) = s.seen m ++ entriesFrom s.found? (m * s.spineSize) (n * s.spineSize) := by
  rw [seen, Nat.add_mul, entriesFrom_add, Nat.zero_add]
  rfl

private theorem spineSize_scanned (s : SpineStore) (index : Nat) :
    (s.scanned index).spineSize = s.spineSize := by
  induction index with
  | zero => rfl
  | succ index ih =>
    rw [scanned]
    split
    · rename_i hreaches
      exact (transition_touch (Or.inr hreaches)).spineSize_eq.trans ih
    · exact ih

/-- A scan brings no spine into memory before it comes to its index. -/
theorem loaded_scanned {other : Nat} (h : index ≤ other) :
    (s.scanned index).loaded[other]? = s.loaded[other]? := by
  induction index with
  | zero => rfl
  | succ index ih =>
    rw [scanned, ← ih (Nat.le_of_succ_le h)]
    split
    · cases hloaded : (s.scanned index).loaded[index]? with
      | some spine => rw [touch_of_loaded hloaded]
      | none =>
        obtain ⟨spine, medium, permits, htouch, -⟩ := touch_of_not_loaded hloaded
        rw [htouch, getElem?_insert_index, if_neg (by omega)]
    · rfl

private theorem entryIn_eq (hreaches : (s.scanned index).reaches index = true) {slot : Nat}
    (hslot : slot < s.spineSize) :
    (s.scanned (index + 1)).entryIn index slot =
      entryAt s.found? (index * s.spineSize + slot) := by
  have hsize := s.spineSize_scanned (index + 1)
  have hnidAt : (s.scanned (index + 1)).nidAt? { index, slot } =
      Nid.ofOffset? (index * s.spineSize + slot) := by
    rw [nidAt?, hsize]
  cases hnid : Nid.ofOffset? (index * s.spineSize + slot) with
  | none =>
    rw [entryIn, hnidAt, hnid, entryAt, hnid]
    split <;> simp_all
  | some nid =>
    have hplace : s.place? nid = some { index, slot } :=
      (place?_eq_some_iff (Nat.zero_lt_of_lt hslot)).mpr ⟨hslot, hnid⟩
    have hfound : s.found? nid = ((s.scanned (index + 1)).cell? { index, slot }).map
        Cell.payload := by
      simp only [found?, hplace, Option.bind_eq_bind, Option.bind_some, if_pos hreaches]
    rw [entryIn, hnidAt, hnid, entryAt, hnid, Option.bind_eq_bind, Option.bind_some, hfound]
    cases (s.scanned (index + 1)).cell? { index, slot } <;> rfl

/-- A scan that comes to a spine notes what it comes upon there, which is nothing if there can be no
data. -/
theorem run_visitSpine (s : SpineStore) (index : Nat) (visited : List (Nid × Bytes)) :
    (visitSpine note index).run visited (s.scanned index) =
      (((), (entriesFrom s.found? (index * s.spineSize) s.spineSize).reverse ++ visited),
        s.scanned (index + 1)) := by
  by_cases hreaches : (s.scanned index).reaches index = true
  · have hnext : s.scanned (index + 1) = (touch index (s.scanned index)).2 := by
      rw [scanned, if_pos hreaches]
    have hentries : entriesFrom s.found? (index * s.spineSize) s.spineSize =
        (List.range' 0 s.spineSize).filterMap ((s.scanned (index + 1)).entryIn index) := by
      have hrange : List.range' (index * s.spineSize) s.spineSize =
          (List.range' 0 s.spineSize).map (index * s.spineSize + ·) := by
        rw [List.map_add_range', Nat.add_zero]
      rw [entriesFrom, hrange, List.filterMap_map]
      refine List.filterMap_congr fun slot hslot => ?_
      rw [List.mem_range'_1] at hslot
      exact (entryIn_eq hreaches (by omega)).symm
    rw [visitSpine, run_getThe_store, if_pos hreaches, hentries, hnext, spineSize_scanned]
    exact run_visitSlots (touch index (s.scanned index)).2 index s.spineSize 0 visited
  · have hempty : entriesFrom s.found? (index * s.spineSize) s.spineSize = [] := by
      refine entriesFrom_eq_nil fun k hle hlt nid hnid => ?_
      have hindex : k / s.spineSize = index :=
        Nat.div_eq_of_lt_le hle (by rwa [Nat.add_mul, Nat.one_mul])
      have hplace : s.place? nid = some { index, slot := k % s.spineSize } := by
        rw [place?, hnid, Option.map_some, hindex]
      simp only [found?, hplace, Option.bind_eq_bind, Option.bind_some, if_neg hreaches]
    rw [visitSpine, run_getThe_store, if_neg hreaches, hempty, scanned, if_neg hreaches]
    rfl

/-- A scan ends before the first spine at which it is told to stop, or at its limit. -/
theorem run_visitSpines (stop : List (Nid × Bytes) → Bool) (s : SpineStore) (n index : Nat) :
    ∃ m, index ≤ m ∧ m ≤ index + n ∧
      (visitSpines stop note n index).run (s.seen index).reverse (s.scanned index) =
        (((), (s.seen m).reverse), s.scanned m) ∧
      (∀ lower, index ≤ lower → lower < m → stop (s.seen lower).reverse = false) ∧
      (m < index + n → stop (s.seen m).reverse = true) := by
  induction n generalizing index with
  | zero =>
    exact ⟨index, Nat.le_refl _, Nat.le_refl _, rfl, fun _ hle hlt => by omega,
      fun hlt => by omega⟩
  | succ n ih =>
    rw [visitSpines, run_getThe_state]
    cases hstop : stop (s.seen index).reverse with
    | true =>
      exact ⟨index, Nat.le_refl _, by omega, rfl, fun _ hle hlt => by omega, fun _ => hstop⟩
    | false =>
      have hseen : (s.seen (index + 1)).reverse =
          (entriesFrom s.found? (index * s.spineSize) s.spineSize).reverse ++
            (s.seen index).reverse := by
        rw [seen_add, Nat.one_mul, List.reverse_append]
      rw [if_neg Bool.false_ne_true, run_bind_of_eq (run_visitSpine s index _), ← hseen]
      obtain ⟨m, hle, hm, hrun, hgoes, hstops⟩ := ih (index + 1)
      refine ⟨m, by omega, by omega, hrun, fun lower hlower hlt => ?_, fun hlt => hstops (by omega)⟩
      by_cases heq : lower = index
      · rw [heq, hstop]
      · exact hgoes lower (by omega) hlt

private theorem seen_append {m n : Nat} (h : m ≤ n) : s.seen n =
    s.seen m ++ entriesFrom s.found? (m * s.spineSize) ((n - m) * s.spineSize) := by
  rw [← seen_add, Nat.add_sub_cancel' h]

private theorem seen_zero (s : SpineStore) : s.seen 0 = [] := by
  rw [seen, Nat.zero_mul, entriesFrom_zero]

/-- A scan comes to the first spine at which it has to stop, and has seen what lies below it. -/
theorem run_forEachUntil (stop : List (Nid × Bytes) → Bool) (s : SpineStore) :
    ∃ m, m ≤ s.spineLimit ∧
      (forEachUntil stop note).run [] s = (((), (s.seen m).reverse), s.scanned m) ∧
      (∀ lower < m, stop (s.seen lower).reverse = false) ∧
      (m < s.spineLimit → stop (s.seen m).reverse = true) := by
  obtain ⟨m, -, hm, hrun, hgoes, hstops⟩ := run_visitSpines stop s s.spineLimit 0
  rw [Nat.zero_add] at hm hstops
  rw [seen_zero] at hrun
  exact ⟨m, hm, hrun, fun lower hlt => hgoes lower (Nat.zero_le _) hlt, hstops⟩

/-- A scan that nothing stops sees everything. -/
theorem entries_eq (s : SpineStore) :
    entries s = (s.seen s.spineLimit, s.scanned s.spineLimit) := by
  obtain ⟨m, hm, hrun, -, hstops⟩ := run_forEachUntil (fun _ => false) s
  obtain rfl : m = s.spineLimit := by
    by_contra hne
    cases hstops (by omega)
  change (match (forEachUntil (fun _ => false) note).run [] s with
    | ((_, visited), t) => (visited.reverse, t)) = _
  rw [hrun]
  simp only [List.reverse_reverse]

/-- What is noted between two spines lies in the spines between them. -/
theorem exists_place_of_mem {m n : Nat} {entry : Nid × Bytes}
    (h : entry ∈ entriesFrom s.found? (m * s.spineSize) (n * s.spineSize)) :
    ∃ place, s.place? entry.1 = some place ∧ m ≤ place.index ∧ place.index < m + n := by
  obtain ⟨-, offset, hoffset, hle, hlt⟩ := mem_entriesFrom_iff.mp h
  have hsize : 0 < s.spineSize := by
    by_contra hzero
    rw [Nat.eq_zero_of_not_pos hzero, Nat.mul_zero, Nat.mul_zero] at hlt
    omega
  refine ⟨{ index := offset / s.spineSize, slot := offset % s.spineSize }, ?_, ?_, ?_⟩
  · rw [place?, hoffset, Option.map_some]
  · exact (Nat.le_div_iff_mul_le hsize).mpr hle
  · rw [← Nat.add_mul] at hlt
    exact (Nat.div_lt_iff_lt_mul hsize).mpr hlt

/-- What was noted first is what lies in the first spines. -/
theorem mem_seen_iff {m n : Nat} (h : m ≤ n) {entry : Nid × Bytes} :
    entry ∈ s.seen m ↔ entry ∈ s.seen n ∧
      ∃ place, s.place? entry.1 = some place ∧ place.index < m := by
  rw [seen_append h, List.mem_append]
  constructor
  · intro hmem
    have hplace : entry ∈ entriesFrom s.found? (0 * s.spineSize) (m * s.spineSize) := by
      rwa [Nat.zero_mul]
    obtain ⟨place, hplace, -, hlt⟩ := exists_place_of_mem hplace
    exact ⟨Or.inl hmem, place, hplace, by omega⟩
  · rintro ⟨hmem | hmem, place, hplace, hlt⟩
    · exact hmem
    · obtain ⟨other, hother, hle, -⟩ := exists_place_of_mem hmem
      obtain rfl := Option.some.inj (hplace.symm.trans hother)
      omega

/-- A scan that is to stop at so many entries stops behind the spine of the last of them. -/
theorem index_of_last {k m : Nat} {last : Nid × Bytes} (hk : 0 < k) (hm : m ≤ s.spineLimit)
    (hgoes : ∀ lower < m, (s.seen lower).length < k)
    (hstops : m < s.spineLimit → k ≤ (s.seen m).length)
    (hlast : (s.seen s.spineLimit)[k - 1]? = some last) :
    ∃ place, s.place? last.1 = some place ∧ m = place.index + 1 := by
  obtain ⟨hlength, -⟩ := List.getElem?_eq_some_iff.mp hlast
  have hmany : k ≤ (s.seen m).length := by
    by_cases heq : m = s.spineLimit
    · rw [heq]
      omega
    · exact hstops (by omega)
  have hseen : last ∈ s.seen m := by
    rw [seen_append hm, List.getElem?_append_left (by omega)] at hlast
    exact List.mem_of_getElem? hlast
  obtain ⟨-, place, hplace, hlt⟩ := (mem_seen_iff hm).mp hseen
  refine ⟨place, hplace, ?_⟩
  have hfew := hgoes (m - 1) (by omega)
  have hbefore : m - 1 ≤ s.spineLimit := by omega
  rw [seen_append hbefore, List.getElem?_append_right (by omega)] at hlast
  obtain ⟨other, hother, hle, -⟩ := exists_place_of_mem (List.mem_of_getElem? hlast)
  obtain rfl := Option.some.inj (hplace.symm.trans hother)
  omega

/-- **Scans stop between spines.** With one worker, a scan that is told to stop once it has seen `k`
payloads visits what a whole scan would, each payload once and in ascending order of nids, up to and
with the spine that holds the `k`-th payload. It visits everything if there are fewer, and nothing
if it is told so before it starts. No spine behind that one comes into memory. In a store that
serves its payloads, a whole scan visits these. -/
theorem stops_between_spines (s : SpineStore) (k : Nat) (schedule : List Nat) :
    let full := (entries s).1
    let run := (forEachParallelUntil (fun visited => k ≤ visited.length) note 1 schedule).run [] s
    let visited := run.1.2.reverse
    let t := run.2
    full.Pairwise (fun a b => compare a.1 b.1 = .lt) ∧ visited <+: full ∧
    (∀ content, s.Serves content → ∀ nid payload,
      (nid, payload) ∈ full ↔ content nid = some payload) ∧
    (k = 0 → visited = [] ∧ t = s) ∧
    (full.length < k → visited = full) ∧
    ∀ last, 0 < k → full[k - 1]? = some last → ∃ place, s.place? last.1 = some place ∧
      (∀ entry, entry ∈ visited ↔ entry ∈ full ∧
        ∃ other, s.place? entry.1 = some other ∧ other.index ≤ place.index) ∧
      ∀ index, place.index < index → t.loaded[index]? = s.loaded[index]? := by
  intro full run visited t
  obtain ⟨m, hm, hrun, hgoes, hstops⟩ :=
    run_forEachUntil (fun visited => decide (k ≤ visited.length)) s
  have hfull : full = s.seen s.spineLimit := congrArg Prod.fst s.entries_eq
  have hresult : run = (((), (s.seen m).reverse), s.scanned m) :=
    (forEachParallelUntil_one _ schedule [] s).trans hrun
  have hvisited : visited = s.seen m := by
    change run.1.2.reverse = _
    rw [hresult, List.reverse_reverse]
  have ht : t = s.scanned m := congrArg Prod.snd hresult
  simp only [List.length_reverse, decide_eq_false_iff_not, Nat.not_le] at hgoes
  simp only [List.length_reverse, decide_eq_true_eq] at hstops
  rw [hvisited, ht, hfull]
  refine ⟨pairwise_entriesFrom s.found? 0 _, ?_, fun content h nid payload => ?_, ?_,
    fun hfew => ?_, fun last hk hlast => ?_⟩
  · exact ⟨_, (seen_append hm).symm⟩
  · obtain ⟨s', hentries, -⟩ := h.entries
    rw [← hfull, show full = _ from congrArg Prod.fst hentries, mem_entriesFrom_iff]
    refine ⟨And.left, fun hpayload => ⟨hpayload, ?_⟩⟩
    obtain ⟨offset, hoffset, hlt⟩ := h.displays.offset_lt hpayload
    exact ⟨offset, hoffset, Nat.zero_le _, by omega⟩
  · rintro rfl
    obtain rfl : m = 0 := by
      by_contra hne
      exact absurd (hgoes 0 (Nat.pos_of_ne_zero hne)) (Nat.not_lt_zero _)
    exact ⟨s.seen_zero, rfl⟩
  · by_contra hne
    have hlt : m < s.spineLimit := Nat.lt_of_le_of_ne hm fun heq => hne (by rw [heq])
    have hle : (s.seen m).length ≤ (s.seen s.spineLimit).length := by
      rw [seen_append hm, List.length_append]
      omega
    have hmany := hstops hlt
    omega
  · obtain ⟨place, hplace, rfl⟩ := index_of_last hk hm hgoes hstops hlast
    refine ⟨place, hplace, fun entry => ?_, fun index hlt => loaded_scanned hlt⟩
    simp only [mem_seen_iff hm, Nat.lt_succ_iff]

/-- Of three spines on a medium, a scan that is to stop at the second payload leaves the last one
there. -/
theorem stops_between_spines_second :
    let s := ofMedium { backing := .shelf (((Shelf.empty.writeSpine 0
      ((Spine.empty.install 1 [0xaa]).encode 2)).writeSpine 1
      ((Spine.empty.install 0 [0xbb]).encode 2)).writeSpine 2
      ((Spine.empty.install 0 [0xcc]).encode 2)) } 2 1 4
    let run := (forEachParallelUntil (fun visited => 2 ≤ visited.length) note 1 [0, 0]).run [] s
    (entries s).1[2 - 1]? = some (⟨-2147483645⟩, [0xbb]) ∧
      (⟨-2147483645⟩, [0xbb]) ∈ run.1.2.reverse ∧ (⟨-2147483643⟩, [0xcc]) ∉ run.1.2.reverse ∧
      run.2.loaded[2]? = none := by
  intro s run
  have hmax : s.persisted.max? = some 2 := by
    have hmem (index : Nat) : index ∈ s.persisted ↔ index ∈ [0, 1, 2] := by
      rw [show s.persisted = .ofList [0, 1, 2] from rfl, Std.ExtTreeSet.mem_ofList,
        List.contains_iff_mem]
    rw [Std.ExtTreeSet.max?_eq_some_iff_mem_and_forall]
    simp only [hmem]
    decide
  have hlimit : s.spineLimit = 3 := by
    rw [spineLimit, hmax]
    rfl
  have hlast : (entries s).1[2 - 1]? = some (⟨-2147483645⟩, [0xbb]) := by
    rw [entries_eq, hlimit]
    decide +kernel
  obtain ⟨-, -, -, -, -, hstops⟩ := s.stops_between_spines 2 [0, 0]
  obtain ⟨place, hplace, hvisited, hkept⟩ := hstops _ Nat.two_pos hlast
  have hindex : s.place? ⟨-2147483645⟩ = some { index := 1, slot := 0 } := by decide +kernel
  obtain rfl := Option.some.inj (hindex.symm.trans hplace)
  refine ⟨hlast, (hvisited _).mpr ⟨List.mem_of_getElem? hlast, _, hplace, Nat.le_refl 1⟩, ?_,
    (hkept 2 (Nat.lt_succ_self 1)).trans (by decide +kernel)⟩
  intro hmem
  obtain ⟨-, other, hother, hle⟩ := (hvisited _).mp hmem
  have hbehind : s.place? ⟨-2147483643⟩ = some { index := 2, slot := 0 } := by decide +kernel
  obtain rfl := Option.some.inj (hbehind.symm.trans hother)
  exact absurd hle (by decide)

end Chronicle.SpineStore
