import Std.Data.ExtTreeMap

/-!
# Lists that are sorted by keys

Tables and contradictions are listed in ascending order of nids. Sorting by keys is stable, so a
list that is sorted by its keys is told by the parts of it that have one key each.
-/

namespace Chronicle

variable {α β : Type} [Ord β] [Std.TransOrd β] {key : α → β}

/-- What is sorted by its keys has its keys in ascending order. -/
theorem pairwise_mergeSort_key (key : α → β) (xs : List α) :
    (xs.mergeSort fun a b => (compare (key a) (key b)).isLE).Pairwise
      fun a b => (compare (key a) (key b)).isLE := by
  refine List.pairwise_mergeSort (fun a b c hab hbc => ?_) (fun a b => ?_) xs
  · exact Std.TransCmp.isLE_trans hab hbc
  · have hswap : compare (key b) (key a) = (compare (key a) (key b)).swap :=
      Std.OrientedCmp.eq_swap
    rw [hswap]
    cases compare (key a) (key b) <;> rfl

/-- Lists in ascending order of their keys are the same if they have the same parts. -/
theorem eq_of_filter_key_eq [DecidableEq β] [Std.LawfulEqOrd β] {xs ys : List α}
    (hxs : xs.Pairwise fun a b => (compare (key a) (key b)).isLE)
    (hys : ys.Pairwise fun a b => (compare (key a) (key b)).isLE)
    (hsame : ∀ k, xs.filter (fun x => key x = k) = ys.filter fun y => key y = k) : xs = ys := by
  induction xs generalizing ys with
  | nil =>
    refine (List.eq_nil_iff_forall_not_mem.mpr fun y hy => ?_).symm
    have hmem : y ∈ ys.filter fun y' => key y' = key y := by simpa using hy
    rw [← hsame] at hmem
    cases hmem
  | cons x xs ih =>
    have hmem (z : α) : z ∈ x :: xs ↔ z ∈ ys := by
      have hfilter := congrArg (z ∈ ·) (hsame (key z))
      simpa using hfilter
    cases ys with
    | nil => exact absurd ((hmem x).mp List.mem_cons_self) List.not_mem_nil
    | cons y ys =>
      rw [List.pairwise_cons] at hxs hys
      have hkey : key x = key y := by
        obtain rfl | hx := List.mem_cons.mp ((hmem x).mp List.mem_cons_self)
        · rfl
        obtain rfl | hy := List.mem_cons.mp ((hmem y).mpr List.mem_cons_self)
        · rfl
        exact Std.LawfulEqOrd.eq_of_compare
          (Std.OrientedCmp.isLE_antisymm (hxs.1 y hy) (hys.1 x hx))
      have hhead := hsame (key x)
      rw [List.filter_cons_of_pos (by simp), List.filter_cons_of_pos (by simp [hkey])] at hhead
      obtain ⟨rfl, -⟩ := List.cons.inj hhead
      rw [ih hxs.2 hys.2 fun k => ?_]
      have htail := hsame k
      rw [List.filter_cons, List.filter_cons] at htail
      split at htail
      · exact (List.cons.inj htail).2
      · exact htail

/-- In strictly ascending order no key comes twice. -/
theorem nodup_map_of_pairwise_lt {xs : List α}
    (h : xs.Pairwise fun a b => compare (key a) (key b) = .lt) : (xs.map key).Nodup := by
  rw [List.Nodup, List.pairwise_map]
  refine h.imp fun {a b} hlt heq => ?_
  have hself : compare (key a) (key a) = .eq := Std.ReflCmp.compare_self
  rw [← heq, hself] at hlt
  cases hlt

/-- The entries of a map have different keys. -/
theorem pairwise_toList_ne {γ : Type} (map : Std.ExtTreeMap β γ compare) :
    map.toList.Pairwise fun a b => a.1 ≠ b.1 :=
  List.pairwise_map.mp (nodup_map_of_pairwise_lt Std.ExtTreeMap.ordered_keys_toList)

end Chronicle
