import Chronicle.Distinct
import Mathlib.Data.List.Induction
import Mathlib.Data.List.Sort

/-!
# First places

What is left of a list when its repetitions are dropped is told by two things: it holds the same
elements, and they stand in the order of their first places. It makes no difference whether
repetitions are dropped before lists are joined or afterwards.
-/

namespace Chronicle

variable {α : Type} [DecidableEq α] {xs ys zs : List α}

/-- A list holds the elements of another one, in the order of their first places there. -/
structure FirstPlaces (xs ys : List α) : Prop where
  mem_iff : ∀ x, x ∈ ys ↔ x ∈ xs
  ascending : ys.Pairwise fun x y => xs.idxOf x < xs.idxOf y

namespace FirstPlaces

/-- No entry is listed twice. -/
theorem nodup (h : FirstPlaces xs ys) : ys.Nodup := by
  refine h.ascending.imp fun {x y} hlt heq => ?_
  rw [heq] at hlt
  exact Nat.lt_irrefl _ hlt

/-- There is one such list only. -/
theorem unique (hys : FirstPlaces xs ys) (hzs : FirstPlaces xs zs) : ys = zs := by
  have : Std.Irrefl fun x y => xs.idxOf x < xs.idxOf y := ⟨fun x => Nat.lt_irrefl _⟩
  have : Std.Antisymm fun x y => xs.idxOf x < xs.idxOf y :=
    ⟨fun x y hxy hyx => absurd hxy (Nat.lt_asymm hyx)⟩
  refine hys.ascending.eq_of_mem_iff hzs.ascending fun x => ?_
  rw [hys.mem_iff, hzs.mem_iff]

/-- One more element stands behind the others, if it is new. -/
theorem concat (h : FirstPlaces xs ys) (x : α) :
    FirstPlaces (xs ++ [x]) (if x ∈ xs then ys else ys ++ [x]) := by
  -- What was there already stays at its first place.
  have hplace (y : α) (hy : y ∈ ys) : (xs ++ [x]).idxOf y = xs.idxOf y :=
    List.idxOf_append_of_mem ((h.mem_iff y).mp hy)
  have hascending : ys.Pairwise fun y z => (xs ++ [x]).idxOf y < (xs ++ [x]).idxOf z := by
    refine h.ascending.imp_of_mem fun {y z} hy hz hlt => ?_
    rwa [hplace y hy, hplace z hz]
  by_cases hx : x ∈ xs
  · rw [if_pos hx]
    refine ⟨fun y => ?_, hascending⟩
    rw [h.mem_iff, List.mem_append, List.mem_singleton]
    refine ⟨Or.inl, ?_⟩
    rintro (hy | rfl)
    · exact hy
    · exact hx
  · rw [if_neg hx]
    refine ⟨fun y => ?_, List.pairwise_append.mpr ⟨hascending, List.pairwise_singleton .., ?_⟩⟩
    · rw [List.mem_append, List.mem_append, h.mem_iff]
    · intro y hy z hz
      rw [List.mem_singleton] at hz
      subst hz
      calc
        (xs ++ [z]).idxOf y = xs.idxOf y := hplace y hy
        _ < xs.length := List.idxOf_lt_length_of_mem ((h.mem_iff y).mp hy)
        _ ≤ (xs ++ [z]).idxOf z := by
          rw [List.idxOf_append_of_notMem hx]
          exact Nat.le_add_right _ _

end FirstPlaces

/-- Dropping the repetitions leaves each element at its first place. -/
theorem firstPlaces_eraseDups (xs : List α) : FirstPlaces xs xs.eraseDups := by
  induction xs using List.reverseRecOn with
  | nil => exact ⟨fun x => Iff.rfl, List.Pairwise.nil⟩
  | append_singleton xs x ih =>
    rw [eraseDups_concat]
    exact ih.concat x

/-- Listing every entry at its first place is dropping the repetitions. -/
theorem firstPlaces_iff : FirstPlaces xs ys ↔ ys = xs.eraseDups := by
  refine ⟨fun h => h.unique (firstPlaces_eraseDups xs), ?_⟩
  rintro rfl
  exact firstPlaces_eraseDups xs

/-- Repetitions may be dropped from the list in front. -/
theorem eraseDups_eraseDups_append (xs ys : List α) :
    (xs.eraseDups ++ ys).eraseDups = (xs ++ ys).eraseDups := by
  induction ys using List.reverseRecOn with
  | nil => rw [List.append_nil, List.append_nil, eraseDups_of_nodup (nodup_eraseDups xs)]
  | append_singleton ys y ih =>
    rw [← List.append_assoc, ← List.append_assoc, eraseDups_concat, eraseDups_concat, ih]
    simp only [List.mem_append, List.mem_eraseDups]

/-- Repetitions may be dropped from the list behind. -/
theorem eraseDups_append_eraseDups (xs ys : List α) :
    (xs ++ ys.eraseDups).eraseDups = (xs ++ ys).eraseDups := by
  induction ys using List.reverseRecOn with
  | nil => rfl
  | append_singleton ys y ih =>
    rw [← List.append_assoc, eraseDups_concat, eraseDups_concat]
    by_cases hys : y ∈ ys
    · rw [if_pos hys, if_pos (List.mem_append_right xs hys), ih]
    · rw [if_neg hys, ← List.append_assoc, eraseDups_concat, ih]
      simp only [List.mem_append, List.mem_eraseDups]

end Chronicle
