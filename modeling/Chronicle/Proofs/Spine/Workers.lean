import Chronicle.Proofs.Spine.Scans
import Mathlib.Data.List.Perm.Basic

/-!
# What workers visit

The workers of a parallel scan visit the entries in some order. After every turn, what was seen and
what the crew has still to visit are together the same entries, so each is visited once whatever the
schedule says.
-/

namespace Chronicle.SpineStore

variable {σ β : Type} {s s' : SpineStore} {content : Nid → Option Bytes}
  {P : σ → SpineStore → Prop} {seen : σ → List β} {tell : Nid × Bytes → Option β}
  {visit : Nid → Bytes → Scan σ Unit}

namespace Crew

/-- The entries that a crew has still to visit. -/
def pending (content : Nid → Option Bytes) (size : Nat) (crew : Crew) : List (Nid × Bytes) :=
  crew.tasks.flatMap (fun next =>
      entriesFrom content (next.index * size + next.slot) (size - next.slot)) ++
    crew.queue.flatMap fun index => entriesFrom content (index * size) size

/-- The spines that are handed out are in memory. -/
def Placed (s : SpineStore) (crew : Crew) : Prop :=
  ∀ next ∈ crew.tasks, s.loaded[next.index]?.isSome ∧ next.slot ≤ s.spineSize

private theorem Placed.keeps {crew : Crew} (h : Placed s crew) (hkeeps : Keeps s s') :
    Placed s' crew := by
  intro next hnext
  rw [hkeeps.spineSize_eq]
  exact ⟨hkeeps.loaded _ (h next hnext).1, (h next hnext).2⟩

/-- A step of a crew moves entries from those that are pending to those that were seen. -/
def Moves (content : Nid → Option Bytes) (P : σ → SpineStore → Prop) (seen : σ → List β)
    (tell : Nid × Bytes → Option β) (x : Scan σ Crew) (crew : Crew) (s : SpineStore) : Prop :=
  ∀ state, P state s → ∃ next state' s', x.run state s = ((next, state'), s') ∧ Keeps s s' ∧
    P state' s' ∧ Placed s' next ∧
    (seen state' ++ (next.pending content s.spineSize).filterMap tell).Perm
      (seen state ++ (crew.pending content s.spineSize).filterMap tell)

private theorem moves_pure {crew : Crew} (hplaced : Placed s crew) :
    Moves content P seen tell (pure crew) crew s :=
  fun state hs => ⟨crew, state, s, rfl, keeps_refl s, hs, hplaced, List.Perm.refl _⟩

/-- The entries of one spine that is handed out come first. -/
theorem pending_perm {tasks : List Place} {worker : Nat} {next : Place}
    (hnext : tasks[worker]? = some next) (f : Place → List (Nid × Bytes)) :
    (tasks.flatMap f).Perm (f next ++ (tasks.eraseIdx worker).flatMap f) := by
  obtain ⟨hworker, rfl⟩ := List.getElem?_eq_some_iff.mp hnext
  exact ((List.getElem_cons_eraseIdx_perm hworker).flatMap_right f).symm

/-- What is visited next may be taken from the front of what is pending. -/
theorem perm_of_cons_pending {noted rest pending others : List (Nid × Bytes)} {before : List β}
    (h : (noted ++ rest).Perm pending) :
    ((noted.filterMap tell).reverse ++ before ++ (rest ++ others).filterMap tell).Perm
      (before ++ (pending ++ others).filterMap tell) := by
  have hsame : (noted ++ (rest ++ others)).Perm (pending ++ others) := by
    rw [← List.append_assoc]
    exact h.append_right others
  calc List.Perm ((noted.filterMap tell).reverse ++ before ++ (rest ++ others).filterMap tell)
        (noted.filterMap tell ++ before ++ (rest ++ others).filterMap tell) :=
        ((List.reverse_perm _).append_right before).append_right _
    List.Perm _ (before ++ noted.filterMap tell ++ (rest ++ others).filterMap tell) :=
        List.perm_append_comm.append_right _
    List.Perm _ (before ++ (noted ++ (rest ++ others)).filterMap tell) := by
        rw [List.append_assoc, ← List.filterMap_append]
    List.Perm _ (before ++ (pending ++ others).filterMap tell) :=
        (hsame.filterMap tell).append_left before

section

variable (h : Visits content P seen tell visit) {crew : Crew} (hplaced : Placed s crew)

include h hplaced

/-- Handing out the next spine moves no entry. -/
theorem moves_take : Moves content P seen tell (crew.take fun _ => false) crew s := by
  intro state hs
  obtain ⟨queue, tasks⟩ := crew
  cases queue with
  | nil => exact moves_pure hplaced state hs
  | cons index queue =>
    simp only [take]
    rw [run_getThe_state, if_neg Bool.false_ne_true, run_getThe_store]
    by_cases hreaches : s.reaches index = true
    · have htouch := keeps_touch (Or.inr hreaches)
      have hloaded : (touch index s).2.loaded[index]?.isSome := by
        rw [loaded_touch]
        rfl
      rw [if_pos hreaches]
      refine ⟨{ queue, tasks := tasks ++ [{ index, slot := 0 }] }, state, _, rfl, htouch,
        h.touch state s index hreaches hs, fun next hnext => ?_, ?_⟩
      · obtain hnext | hnext := List.mem_append.mp hnext
        · exact hplaced.keeps htouch next hnext
        · obtain rfl := List.mem_singleton.mp hnext
          exact ⟨hloaded, Nat.zero_le _⟩
      · simp [pending]
    · rw [if_neg hreaches]
      refine ⟨{ queue, tasks }, state, s, rfl, keeps_refl s, hs, hplaced, ?_⟩
      simp [pending, (h.displays hs).entriesFrom_of_not_reached hreaches]

/-- A worker that visits its next slot moves its entry to those that were seen. -/
theorem moves_proceed {worker : Nat} {next : Place} (hnext : crew.tasks[worker]? = some next) :
    Moves content P seen tell (crew.proceed visit worker next) crew s := by
  intro state hs
  obtain ⟨hworker, hget⟩ := List.getElem?_eq_some_iff.mp hnext
  have hmem : next ∈ crew.tasks := hget ▸ List.getElem_mem hworker
  obtain ⟨hloaded, hslot⟩ := hplaced next hmem
  have hcrew := pending_perm hnext fun next =>
    entriesFrom content (next.index * s.spineSize + next.slot) (s.spineSize - next.slot)
  rw [proceed, run_getThe_store]
  by_cases hlt : next.slot < s.spineSize
  · rw [if_pos hlt]
    obtain ⟨state', s', hrun, hs', hP, hseen⟩ := h.sees_visitSlots hloaded 1 next.slot (by omega)
      state hs
    rw [run_bind_of_eq hrun]
    refine ⟨_, state', s', rfl, hs', hP, fun task htask => ?_, ?_⟩
    · obtain htask | rfl := List.mem_or_eq_of_mem_set htask
      · exact hplaced.keeps hs' task htask
      · exact ⟨hs'.loaded _ hloaded, by rw [hs'.spineSize_eq]; exact hlt⟩
    · have hrest := pending_perm (List.getElem?_set_self (a := { next with slot := next.slot + 1 })
        hworker) fun next => entriesFrom content (next.index * s.spineSize + next.slot)
          (s.spineSize - next.slot)
      rw [List.eraseIdx_set_eq] at hrest
      rw [show s.spineSize - next.slot = 1 + (s.spineSize - (next.slot + 1)) by omega,
        entriesFrom_add, List.append_assoc] at hcrew
      rw [hseen]
      exact perm_of_cons_pending ((hrest.append_left _).trans hcrew.symm)
  · rw [if_neg hlt]
    refine ⟨_, state, s, rfl, keeps_refl s, hs, fun task htask => ?_, ?_⟩
    · exact hplaced task (List.mem_of_mem_eraseIdx htask)
    · rw [show s.spineSize - next.slot = 0 by omega, entriesFrom_zero] at hcrew
      exact ((hcrew.symm.append_right _).filterMap tell).append_left _

/-- Whatever turn a crew takes, the entries it visits are moved. -/
theorem moves_turn (workers choice : Nat) :
    Moves content P seen tell (crew.turn (fun _ => false) visit workers choice) crew s := by
  rw [turn]
  split
  · rename_i next hnext
    exact moves_proceed h hplaced hnext
  · split
    · exact moves_take h hplaced
    · exact moves_pure hplaced

/-- After every schedule, what was seen and what is pending are together the same entries. -/
theorem moves_follow (workers : Nat) (schedule : List Nat) :
    Moves content P seen tell (Crew.follow (fun _ => false) visit workers schedule crew) crew s := by
  induction schedule generalizing s crew with
  | nil => exact moves_pure hplaced
  | cons choice schedule ih =>
    intro state hs
    obtain ⟨next, state', t, hrun, ht, hP, hnext, hperm⟩ :=
      moves_turn h hplaced workers choice state hs
    obtain ⟨last, state'', s', hrun', hs', hP', hlast, hperm'⟩ := ih hnext state' hP
    rw [ht.spineSize_eq] at hperm'
    refine ⟨last, state'', s', ?_, ht.trans hs', hP', hlast, hperm'.trans hperm⟩
    rw [← hrun', follow, run_bind_of_eq hrun]

end

section

variable (h : Visits content P seen tell visit)

include h

private theorem sees_finishTasks {tasks : List Place} {queue : List Nat}
    (hplaced : Placed s { queue, tasks }) :
    Sees P seen tell (finishTasks visit tasks) s (tasks.flatMap fun next =>
      entriesFrom content (next.index * s.spineSize + next.slot) (s.spineSize - next.slot)) := by
  induction tasks generalizing s with
  | nil => exact sees_pure s
  | cons next tasks ih =>
    obtain ⟨hloaded, hslot⟩ := hplaced next List.mem_cons_self
    have hnext := h.sees_visitSlots hloaded (s.spineSize - next.slot) next.slot (by omega)
    rw [List.flatMap_cons]
    refine hnext.bind fun t ht => ?_
    have hrest := ih fun task htask => hplaced.keeps ht task (List.mem_cons_of_mem next htask)
    rwa [ht.spineSize_eq] at hrest

private theorem sees_finishQueue (s : SpineStore) (queue : List Nat) :
    Sees P seen tell (finishQueue (fun _ => false) visit queue) s
      (queue.flatMap fun index => entriesFrom content (index * s.spineSize) s.spineSize) := by
  induction queue generalizing s with
  | nil => exact sees_pure s
  | cons index queue ih =>
    rw [List.flatMap_cons]
    refine (h.sees_visitSpine s index).bind fun t ht => ?_
    have hrest := ih t
    rwa [ht.spineSize_eq] at hrest

/-- What a schedule leaves pending is visited in the end. -/
theorem sees_finish {crew : Crew} (hplaced : Placed s crew) :
    Sees P seen tell
      (do finishTasks visit crew.tasks; finishQueue (fun _ => false) visit crew.queue) s
      (crew.pending content s.spineSize) := by
  refine (sees_finishTasks h hplaced).bind fun t ht => ?_
  have hrest := sees_finishQueue h t crew.queue
  rwa [ht.spineSize_eq] at hrest

end

end Crew

/-- Workers see every entry once, in an order that depends on the schedule. -/
theorem Visits.forEachParallel (h : Visits content P seen tell visit) (workers : Nat)
    (schedule : List Nat) (state : σ) (hs : P state s) :
    ∃ state' s', (SpineStore.forEachParallel visit workers schedule).run state s =
        (((), state'), s') ∧ P state' s' ∧
      (seen state').Perm
        (seen state ++ (entriesFrom content 0 (s.spineLimit * s.spineSize)).filterMap tell) := by
  have hplaced : Crew.Placed s { queue := List.range s.spineLimit, tasks := [] } := by
    intro next hnext
    cases hnext
  obtain ⟨crew, state', t, hrun, ht, hP, hcrew, hperm⟩ :=
    Crew.moves_follow h hplaced workers schedule state hs
  obtain ⟨state'', s', hrun', -, hP', hseen⟩ := Crew.sees_finish h hcrew state' hP
  rw [ht.spineSize_eq] at hseen
  have hstart : Crew.pending content s.spineSize { queue := List.range s.spineLimit, tasks := [] } =
      entriesFrom content 0 (s.spineLimit * s.spineSize) := by
    rw [Crew.pending, List.flatMap_nil, List.nil_append, flatMap_entriesFrom]
  rw [hstart] at hperm
  refine ⟨state'', s', ?_, hP', ?_⟩
  · rw [SpineStore.forEachParallel, forEachParallelUntil, run_getThe_store, run_bind_of_eq hrun,
      hrun']
  · rw [hseen]
    refine List.Perm.trans ?_ hperm
    exact ((List.reverse_perm _).append_right _).trans List.perm_append_comm

/-- Workers answer every entry once, in an order that depends on the schedule. -/
theorem Serves.entriesParallel (h : s.Serves content) (workers : Nat) (schedule : List Nat) :
    ∃ visited s', SpineStore.entriesParallel workers schedule s = (visited, s') ∧
      s'.Serves content ∧ visited.Perm (entriesFrom content 0 (s.spineLimit * s.spineSize)) := by
  obtain ⟨visited, s', hrun, hserves, hperm⟩ :=
    (visits_note content).forEachParallel workers schedule [] h
  rw [List.filterMap_some] at hperm
  refine ⟨visited.reverse, s', ?_, hserves, (List.reverse_perm visited).trans hperm⟩
  change (match (forEachParallel note workers schedule).run [] s with
    | ((_, visited), t) => (visited.reverse, t)) = _
  rw [hrun]

end Chronicle.SpineStore
