import Chronicle.Proofs.Spine.ReadOnly
import Chronicle.Proofs.Spine.Scans

/-!
# Inspections of a spined store

Whoever looks payloads up and scans brings spines into memory and lets the directory grow. Some of
the reads may fail, and others after a while. Nothing of this shows in what is stored, in how far a
scan goes, or in a spine that is in memory already, and what comes into memory has no changes.
-/

namespace Chronicle

/-- The medium with other reads of spines failing from now on. -/
def Medium.withReads (m : Medium) (reads : Schedule) : Medium :=
  { m with faults := { m.faults with spineReads := reads } }

namespace SpineStore

variable {s t u : SpineStore} {index : Nat}

/-- A store has changes exactly if a spine in memory has. -/
theorem hasChanges_iff : s.hasChanges = true ↔
    ∃ (index : Nat) (spine : Spine), s.loaded[index]? = some spine ∧ spine.changed = true := by
  simp only [hasChanges, List.any_eq_true, Prod.exists,
    Std.ExtTreeMap.mem_toList_iff_getElem?_eq_some]

/-- Nothing but the schedule of failing reads differs from the medium after a spine was touched. -/
theorem exists_medium_touch (s : SpineStore) (index : Nat) :
    ∃ reads, (touch index s).2.medium = s.medium.withReads reads := by
  have hunder : ∃ reads, (underPermit (Medium.readSpine index) s).2.medium =
      s.medium.withReads reads := by
    rw [underPermit]
    split
    · exact ⟨s.medium.faults.spineReads, rfl⟩
    · exact ⟨s.medium.faults.spineReads.next.2, rfl⟩
  have hload : ∃ reads, (load index s).2.medium = s.medium.withReads reads := by
    rw [load]
    split
    · split <;> rename_i hrun <;> rw [hrun] at hunder
      · split <;> exact hunder
      · exact hunder
      · exact hunder
    · exact ⟨s.medium.faults.spineReads, rfl⟩
  rw [touch]
  split
  · exact ⟨s.medium.faults.spineReads, rfl⟩
  · exact hload

/-- What a store was like before it was inspected. Its spines in memory are still there as they
were, and others came without changes. -/
structure Inspected (s t : SpineStore) : Prop where
  frame : ∃ reads permits, t = { s with
    medium := s.medium.withReads reads, permits, extent := t.extent, loaded := t.loaded }
  spineLimit_eq : t.spineLimit = s.spineLimit
  loaded : ∀ (index : Nat) (spine : Spine), s.loaded[index]? = some spine →
    t.loaded[index]? = some spine
  arrived : ∀ (index : Nat) (spine : Spine), t.loaded[index]? = some spine →
    s.loaded[index]? = some spine ∨ spine.changed = false

namespace Inspected

/-- A store is its own after no inspection. -/
theorem refl (s : SpineStore) : Inspected s s :=
  ⟨⟨s.medium.faults.spineReads, s.permits, rfl⟩, rfl, fun _ _ => id, fun _ _ => Or.inl⟩

/-- Two inspections are one. -/
theorem trans (h : Inspected s t) (h' : Inspected t u) : Inspected s u := by
  refine ⟨?_, h'.spineLimit_eq.trans h.spineLimit_eq,
    fun index spine hs => h'.loaded index spine (h.loaded index spine hs),
    fun index spine hu => (h'.arrived index spine hu).elim (h.arrived index spine) Or.inr⟩
  obtain ⟨_, _, ht⟩ := h.frame
  obtain ⟨reads, permits, hu⟩ := h'.frame
  refine ⟨reads, permits, ?_⟩
  rw [hu, ht]
  rfl

/-- No spine has more changes that are not written, nor fewer. -/
theorem hasChanges_eq (h : Inspected s t) : t.hasChanges = s.hasChanges := by
  rw [Bool.eq_iff_iff, hasChanges_iff, hasChanges_iff]
  constructor
  · rintro ⟨index, spine, hspine, hchanged⟩
    refine ⟨index, spine, (h.arrived index spine hspine).resolve_right ?_, hchanged⟩
    rw [hchanged]
    simp
  · rintro ⟨index, spine, hspine, hchanged⟩
    exact ⟨index, spine, h.loaded index spine hspine, hchanged⟩

end Inspected

/-- A spine that comes into memory where there may be data lies below the limit. -/
theorem inspected_touch (hreaches : s.reaches index = true) : Inspected s (touch index s).2 := by
  cases hloaded : s.loaded[index]? with
  | some spine =>
    rw [touch_of_loaded hloaded]
    exact .refl s
  | none =>
    obtain ⟨reads, hmedium⟩ := exists_medium_touch s index
    obtain ⟨spine, medium, permits, htouch, hloads, -⟩ := touch_of_not_loaded hloaded
    have hlimit := lt_spineLimit hreaches
    rw [htouch] at hmedium ⊢
    simp only at hmedium
    refine ⟨⟨reads, permits, by rw [← hmedium]⟩, ?_, fun other found hfound => ?_,
      fun other found hfound => ?_⟩
    · simp only [spineLimit] at hlimit ⊢
      omega
    · have hne : other ≠ index := by
        rintro rfl
        rw [hloaded] at hfound
        cases hfound
      simp only [getElem?_insert_index, if_neg hne, hfound]
    · simp only [getElem?_insert_index] at hfound
      split at hfound
      · cases hfound
        exact Or.inr hloads.unchanged
      · exact Or.inl hfound

/-- A store whose reads will fail otherwise differs in no more than an inspection may change. -/
theorem inspected_withReads (s : SpineStore) (reads : Schedule) :
    Inspected s { s with medium := s.medium.withReads reads } :=
  ⟨⟨reads, s.permits, rfl⟩, rfl, fun _ _ => id, fun _ _ => Or.inl⟩

end SpineStore

end Chronicle
