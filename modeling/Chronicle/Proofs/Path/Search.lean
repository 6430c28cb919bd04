import Chronicle.Proofs.Path.Route
import Mathlib.Logic.Function.Iterate

/-!
# The end of the search

A search goes level by level: the depths in its queue never decrease from front to back. So a path
that is reached already cannot be queued again for fewer edges, only for a later cutoff. The cutoffs
of a path are the horizon and times of edges, which are finitely many, and so the queue becomes empty
although a later cutoff may come with a greater depth.
-/

namespace Chronicle.RouteSearch

variable {g : PathGraph} {start path : Nid} {horizon : Int64} {reach next known : Reach}
  {s mid : RouteSearch}

/-- The search from a path after some steps. -/
def after (g : PathGraph) (start : Nid) (horizon : Int64) (n : Nat) : RouteSearch :=
  (step g)^[n] (RouteSearch.start start horizon)

/-- In its next step a search offers a path, when it has made the offers of that step which come
before. -/
def Offers (g : PathGraph) (s mid : RouteSearch) (path : Nid) (next : Reach) : Prop :=
  ∃ front reach queue before edge later,
    s.queue = (front, reach) :: queue ∧ g.origins front = before ++ edge :: later ∧
    mid = offerAll { s with queue } reach before ∧
    path = edge.origin ∧ next = reach.through edge.time

/-- The depths in the queue do not decrease from front to back. -/
def Leveled (s : RouteSearch) : Prop :=
  s.queue.Pairwise fun a b => a.2.depth ≤ b.2.depth

/-- Once its queue is empty, the search stays as it is. -/
theorem step_of_empty (h : s.queue = []) : s.step g = s := by
  rw [step, h]

/-- An empty queue ends the search, so that a run is as many steps. -/
theorem run_eq_iterate (g : PathGraph) (n : Nat) (s : RouteSearch) :
    s.run g n = (step g)^[n] s := by
  induction n generalizing s with
  | zero => rfl
  | succ n ih =>
    rw [run, Function.iterate_succ_apply]
    split
    · rename_i hempty
      rw [step_of_empty (List.isEmpty_iff.mp hempty), ← ih]
      cases n <;> simp [run, hempty]
    · exact ih (s.step g)

/-- After any number of steps a search stands between two steps. -/
theorem exists_searched_after (g : PathGraph) (start : Nid) (horizon : Int64) (n : Nat) :
    ∃ done, Searched g start horizon done (after g start horizon n) := by
  obtain ⟨done, hdone, -⟩ := (searched_start g start horizon).run n
  rw [run_eq_iterate] at hdone
  exact ⟨done, hdone⟩

private theorem Searched.leveled {done : List (Nid × Reach)} (h : Searched g start horizon done s) :
    s.Leveled :=
  (List.pairwise_append.mp h.notes.sorted).2.1

/-- An offer that is queued joins the back of the queue. -/
theorem queue_offer (h : (s.offer path next).queue ≠ s.queue) :
    (s.offer path next).queue = s.queue ++ [(path, next)] := by
  unfold offer at h ⊢
  split at h
  · rename_i hoffer
    rw [if_pos hoffer]
  · exact absurd rfl h

/-- An offer of a step belongs to it: the step makes the rest of its offers after it. -/
theorem Offers.step_eq (h : Offers g s mid path next) :
    ∃ reach later, s.step g = (mid.offer path next).offerAll reach later := by
  obtain ⟨front, reach, queue, before, edge, later, hqueue, horigins, rfl, rfl, rfl⟩ := h
  refine ⟨reach, later, ?_⟩
  rw [step_of_queue hqueue, horigins, offerAll, List.foldl_append, List.foldl_cons]
  rfl

/-- A step takes the front of the queue and adds to its back. A path that was reached already is
added with a later cutoff only. -/
theorem Searched.queue_step {done : List (Nid × Reach)} (h : Searched g start horizon done s) :
    ∃ added, (s.step g).queue = s.queue.tail ++ added ∧ ∀ path next known,
      (path, next) ∈ added → s.route[path]? = some known → known.cutoff < next.cutoff := by
  cases hqueue : s.queue with
  | nil => exact ⟨[], by rw [step_of_empty hqueue, hqueue]; rfl, by simp⟩
  | cons entry queue =>
    obtain ⟨hnotes, hlevel, hwalk⟩ := h.front hqueue
    obtain ⟨added, hadded, -, hnext, -⟩ :=
      Notes.offerAll (g.origins entry.1) { s with queue } hnotes hwalk hlevel
    rw [← step_of_queue hqueue] at hadded hnext
    refine ⟨added, hadded, fun path next known hnew hknown => ?_⟩
    -- What was known of the path is noted before what is added.
    have hgrowing := hnext.growing
    rw [hadded, ← List.append_assoc, List.pairwise_append] at hgrowing
    exact hgrowing.2.2 (path, known) (hnotes.best path known hknown).1 (path, next) hnew rfl

/-- Whatever a search offers in a step, its queue stays in order, and a path that is reached already
is queued with a later cutoff only. -/
theorem Searched.offers {done : List (Nid × Reach)} (h : Searched g start horizon done s)
    (hoffers : Offers g s mid path next) :
    (mid.offer path next).Leveled ∧
      ∀ known, mid.route[path]? = some known → (mid.offer path next).queue ≠ mid.queue →
        known.cutoff < next.cutoff := by
  obtain ⟨front, reach, queue, before, edge, later, hqueue, horigins, hmid, rfl, rfl⟩ := hoffers
  obtain ⟨hnotes, hlevel, hwalk⟩ := h.front hqueue
  rw [horigins, List.forall_mem_append, List.forall_mem_cons] at hwalk
  obtain ⟨added, hadded, hdepth, hnotes, -⟩ :=
    Notes.offerAll before { s with queue } hnotes hwalk.1 hlevel
  rw [← hmid] at hadded hnotes
  have hbelow : ∀ other ∈ (done ++ [(front, reach)]) ++ mid.queue,
      other.2.depth ≤ reach.depth + 1 := by
    intro other hother
    rw [hadded, ← List.append_assoc] at hother
    obtain hother | hother := List.mem_append.mp hother
    · exact hlevel other hother
    · exact Nat.le_of_eq (hdepth other hother)
  obtain ⟨-, -, -, hnext, -⟩ := hnotes.offer hwalk.2.1 hbelow
  refine ⟨(List.pairwise_append.mp hnext.sorted).2.1, fun known hknown hqueued => ?_⟩
  have hgrowing := hnext.growing
  rw [queue_offer hqueued, ← List.append_assoc, List.pairwise_append] at hgrowing
  have hmem := (hnotes.best _ known hknown).1
  exact hgrowing.2.2 (edge.origin, known) hmem (edge.origin, reach.through edge.time)
    (List.mem_singleton_self _) rfl

/-- **The search ends.** After no more steps than the square of one more than the number of edges the
queue is empty, and the route is found. All along, the depths in the queue do not decrease, and a
step takes the front of the queue and adds to its back, where a path that is reached already is
queued again only with a later cutoff. The same holds within a step, after each of its offers. -/
theorem search_ends (g : PathGraph) (start : Nid) (horizon : Int64) :
    (∃ n ≤ (g.size + 1) * (g.size + 1), (after g start horizon n).queue = [] ∧
      (after g start horizon n).route = g.route start horizon) ∧
    ∀ n, (after g start horizon n).Leveled ∧
      (∃ added, (after g start horizon (n + 1)).queue =
          (after g start horizon n).queue.tail ++ added ∧ ∀ path next known,
        (path, next) ∈ added → (after g start horizon n).route[path]? = some known →
          known.cutoff < next.cutoff) ∧
      ∀ mid path next, Offers g (after g start horizon n) mid path next →
        (∃ reach later, after g start horizon (n + 1) =
          (mid.offer path next).offerAll reach later) ∧
        (mid.offer path next).Leveled ∧
        ∀ known, mid.route[path]? = some known → (mid.offer path next).queue ≠ mid.queue →
          (mid.offer path next).queue = mid.queue ++ [(path, next)] ∧
          known.cutoff < next.cutoff := by
  constructor
  · obtain ⟨-, s, -, hqueue, hroute, hrun⟩ := exists_searched g start horizon
    rw [run_eq_iterate] at hrun
    refine ⟨_, Nat.le_refl _, ?_⟩
    rw [after, ← hrun]
    exact ⟨hqueue, hroute⟩
  · intro n
    have hstep : after g start horizon (n + 1) = (after g start horizon n).step g :=
      Function.iterate_succ_apply' ..
    obtain ⟨done, hsearched⟩ := exists_searched_after g start horizon n
    rw [hstep]
    refine ⟨hsearched.leveled, hsearched.queue_step, fun mid path next hoffers => ?_⟩
    obtain ⟨hleveled, hlater⟩ := hsearched.offers hoffers
    exact ⟨hoffers.step_eq, hleveled, fun known hknown hqueued =>
      ⟨queue_offer hqueued, hlater known hknown hqueued⟩⟩

end Chronicle.RouteSearch
