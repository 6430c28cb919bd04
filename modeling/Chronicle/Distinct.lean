/-!
# Lists without repetitions
-/

namespace Chronicle

variable {α : Type} [BEq α] [LawfulBEq α]

/-- Keeping each element at its first place leaves no repetition. -/
theorem nodup_eraseDups (xs : List α) : xs.eraseDups.Nodup := by
  induction h : xs.length using Nat.strongRecOn generalizing xs with
  | ind n ih =>
    cases xs with
    | nil => simp
    | cons x xs =>
      rw [List.eraseDups_cons, List.nodup_cons]
      have hlt : (xs.filter fun y => !y == x).length < n := by
        have := List.length_filter_le (fun y => !y == x) xs
        simp only [List.length_cons] at h
        omega
      exact ⟨by simp [List.mem_eraseDups], ih _ hlt _ rfl⟩

/-- Without repetitions there is nothing to drop. -/
theorem eraseDups_of_nodup {xs : List α} (h : xs.Nodup) : xs.eraseDups = xs := by
  induction xs with
  | nil => rfl
  | cons x xs ih =>
    rw [List.nodup_cons] at h
    have hall : (xs.filter fun y => !y == x) = xs := by
      refine List.filter_eq_self.mpr fun y hy => ?_
      have hne : y ≠ x := by
        rintro rfl
        exact h.1 hy
      simpa using hne
    rw [List.eraseDups_cons, hall, ih h.2]

/-- One more element is kept, behind the others, if it is new. -/
theorem eraseDups_concat {xs : List α} {x : α} [Decidable (x ∈ xs)] :
    (xs ++ [x]).eraseDups = if x ∈ xs then xs.eraseDups else xs.eraseDups ++ [x] := by
  rw [List.eraseDups_append, List.removeAll]
  by_cases hx : x ∈ xs
  · simp [hx]
  · simp [hx, List.eraseDups_cons]

end Chronicle
