import Chronicle.Proofs.Medium.Attempts
import Chronicle.Proofs.Spine.Access

/-!
# Spines that wait to be written

A flush of the spines attempts one write for each spine with changes. What it carries out is no
longer due, and what fails stays due as it was; the flush fails exactly if it met a write that
fails.
-/

namespace Chronicle.SpineStore

/-- The write of the spine at an index, if the spine has changes. -/
def dueAt (s : SpineStore) (index : Nat) : Option Write :=
  (s.loaded[index]?.filter Spine.changed).map fun spine => .spine index (spine.encode s.spineSize)

/-- The writes of the spines with changes. -/
def due (s : SpineStore) : List Write :=
  s.loaded.keys.filterMap s.dueAt

/-- A permit is left, and every spine with changes could be loaded. -/
structure Flushable (s : SpineStore) : Prop where
  free : s.permits.held < s.permits.total
  sound : ∀ (index : Nat) (spine : Spine), s.loaded[index]? = some spine → spine.changed = true →
    spine.degraded = false

variable {s t : SpineStore} {index : Nat} {spine : Spine}

/-- A store can be flushed if none of the spines it lists with changes is degraded. -/
theorem flushable_of_toList (hfree : s.permits.held < s.permits.total)
    (h : ∀ entry ∈ s.loaded.toList, entry.2.changed = true → entry.2.degraded = false) :
    s.Flushable :=
  ⟨hfree, fun index spine hspine =>
    h (index, spine) (Std.ExtTreeMap.mem_toList_iff_getElem?_eq_some.mpr hspine)⟩

/-- A spine with changes is due. -/
theorem dueAt_of_changed (hloaded : s.loaded[index]? = some spine)
    (hchanged : spine.changed = true) :
    s.dueAt index = some (.spine index (spine.encode s.spineSize)) := by
  simp [dueAt, hloaded, Option.filter, hchanged]

/-- A spine without changes is not due. -/
theorem dueAt_of_unchanged (hloaded : s.loaded[index]? = some spine)
    (hchanged : spine.changed = false) : s.dueAt index = none := by
  simp [dueAt, hloaded, Option.filter, hchanged]

/-- A spine that is not in memory is not due. -/
theorem dueAt_of_not_loaded (hloaded : s.loaded[index]? = none) : s.dueAt index = none := by
  simp [dueAt, hloaded]

private theorem dueAt_congr (hsize : t.spineSize = s.spineSize)
    (hloaded : t.loaded[index]? = s.loaded[index]?) : t.dueAt index = s.dueAt index := by
  rw [dueAt, dueAt, hsize, hloaded]

/-- What is due at an index is the write of a spine at this index. -/
theorem exists_of_dueAt {w : Write} (h : s.dueAt index = some w) :
    ∃ bytes, w = .spine index bytes := by
  simp only [dueAt, Option.map_eq_some_iff] at h
  obtain ⟨spine, -, rfl⟩ := h
  exact ⟨_, rfl⟩

/-- What is due is due at some index. -/
theorem mem_due_iff {w : Write} : w ∈ s.due ↔ ∃ index, s.dueAt index = some w := by
  rw [due, List.mem_filterMap]
  refine ⟨fun ⟨index, _, h⟩ => ⟨index, h⟩, fun ⟨index, h⟩ => ⟨index, ?_, h⟩⟩
  rw [Std.ExtTreeMap.mem_keys, Std.ExtTreeMap.mem_iff_isSome_getElem?, Option.isSome_iff_ne_none]
  intro hloaded
  rw [dueAt_of_not_loaded hloaded] at h
  cases h

/-- When no spine is due, none has changes. -/
theorem hasChanges_of_due (h : s.due = []) : s.hasChanges = false := by
  rw [hasChanges, List.any_eq_false]
  rintro ⟨index, spine⟩ hmem hchanged
  have hloaded := Std.ExtTreeMap.mem_toList_iff_getElem?_eq_some.mp hmem
  have hdue := mem_due_iff.mpr ⟨index, dueAt_of_changed hloaded hchanged⟩
  rw [h] at hdue
  cases hdue

/-- Each spine is due at most once. -/
theorem pairwise_due (s : SpineStore) : s.due.Pairwise Write.Apart := by
  rw [due, List.pairwise_filterMap]
  refine Std.ExtTreeMap.nodup_keys.imp fun {a b} hne w hw v hv => ?_
  obtain ⟨_, rfl⟩ := exists_of_dueAt hw
  obtain ⟨_, rfl⟩ := exists_of_dueAt hv
  exact hne

private theorem nodup_due (s : SpineStore) : s.due.Nodup :=
  s.pairwise_due.imp Write.Apart.ne

/-- When one spine is no longer due and the others are as before, one write is off the list. -/
theorem due_perm_of_dueAt {w : Write} (hbefore : s.dueAt index = some w)
    (hafter : t.dueAt index = none)
    (hother : ∀ other, other ≠ index → t.dueAt other = s.dueAt other) :
    s.due.Perm (w :: t.due) := by
  have hsame (other : Nat) (v : Write) (h : t.dueAt other = some v) :
      other ≠ index ∧ s.dueAt other = some v := by
    have hne : other ≠ index := by
      rintro rfl
      rw [hafter] at h
      cases h
    exact ⟨hne, hother other hne ▸ h⟩
  have hnew : w ∉ t.due := by
    intro hmem
    obtain ⟨other, hw⟩ := mem_due_iff.mp hmem
    obtain ⟨hne, hw⟩ := hsame other w hw
    obtain ⟨_, rfl⟩ := exists_of_dueAt hw
    obtain ⟨_, heq⟩ := exists_of_dueAt hbefore
    cases heq
    exact hne rfl
  refine (List.perm_ext_iff_of_nodup s.nodup_due (List.nodup_cons.mpr ⟨hnew, t.nodup_due⟩)).mpr
    fun v => ?_
  rw [List.mem_cons, mem_due_iff, mem_due_iff]
  constructor
  · rintro ⟨other, hv⟩
    by_cases heq : other = index
    · subst heq
      rw [hbefore, Option.some.injEq] at hv
      exact Or.inl hv.symm
    · exact Or.inr ⟨other, by rw [hother other heq, hv]⟩
  · rintro (rfl | ⟨other, hv⟩)
    · exact ⟨index, hbefore⟩
    · exact ⟨other, (hsame other v hv).2⟩

/-- What attempts at the spines at some indices do. -/
structure Attempts (s : SpineStore) (indices : List Nat) (p q : Progress) (t : SpineStore) :
    Prop where
  carries : s.medium.Carries s.due t.medium t.due
  flushable : t.Flushable
  failure : q.failure = none ↔ p.failure = none ∧ ¬ s.medium.faults.MetWrite t.medium.faults
  /-- Without a failure, no spine at these indices is due any more. -/
  settled : ¬ s.medium.faults.MetWrite t.medium.faults → ∀ index ∈ indices, t.dueAt index = none
  /-- No spine becomes due. -/
  dueAt : ∀ index, s.dueAt index = none → t.dueAt index = none

/-- Attempts at some spines and then at more are attempts at all of them. -/
theorem Attempts.trans {indices more : List Nat} {p q r : Progress} {u : SpineStore}
    (h : Attempts s indices p q t) (hnext : Attempts t more q r u) :
    Attempts s (indices ++ more) p r u := by
  have hmet := h.carries.runs.metWrite_iff hnext.carries.runs
  refine ⟨h.carries.trans hnext.carries, hnext.flushable, ?_, fun hnot index hindex => ?_,
    fun index hindex => hnext.dueAt index (h.dueAt index hindex)⟩
  · rw [hnext.failure, h.failure, hmet, not_or, and_assoc]
  · rw [hmet, not_or] at hnot
    obtain hindex | hindex := List.mem_append.mp hindex
    · exact hnext.dueAt index (h.settled hnot.1 index hindex)
    · exact hnext.settled hnot.2 index hindex

/-- Once each spine in memory was attempted without a failure, none is due any more. -/
theorem Attempts.due_eq_nil {p q : Progress} (h : Attempts s s.loaded.keys p q t)
    (hmet : ¬ s.medium.faults.MetWrite t.medium.faults) : t.due = [] := by
  refine List.eq_nil_iff_forall_not_mem.mpr fun w hw => ?_
  obtain ⟨index, hw⟩ := mem_due_iff.mp hw
  have hnone : t.dueAt index = none := by
    by_cases hindex : index ∈ s.loaded.keys
    · exact h.settled hmet index hindex
    · rw [Std.ExtTreeMap.mem_keys] at hindex
      exact h.dueAt index (dueAt_of_not_loaded (Std.ExtTreeMap.getElem?_eq_none hindex))
  rw [hnone] at hw
  cases hw

/-- A spine without changes is passed over. -/
theorem attempts_of_dueAt (h : s.Flushable) (hdue : s.dueAt index = none) (p : Progress) :
    Attempts s [index] p p s where
  carries := Medium.carries_refl _ _
  flushable := h
  failure := by simp [Faults.not_metWrite_self]
  settled _ other hother := by rwa [List.mem_singleton.mp hother]
  dueAt _ := id

/-- A spine that was written is no longer due. -/
theorem attempts_of_written (h : s.Flushable) (hloaded : s.loaded[index]? = some spine)
    (hchanged : spine.changed = true) (hsize : t.spineSize = s.spineSize)
    (hinsert : t.loaded = s.loaded.insert index { spine with changed := false })
    (hfree : t.permits.held < t.permits.total)
    (hmet : ¬ s.medium.faults.MetWrite t.medium.faults)
    (hcarries : s.medium.Carries (.spine index (spine.encode s.spineSize) :: t.due) t.medium t.due)
    (p : Progress) : Attempts s [index] p { p with written := p.written + 1 } t := by
  have hself : t.loaded[index]? = some { spine with changed := false } := by
    rw [hinsert, Std.ExtTreeMap.getElem?_insert_self]
  have hother (other : Nat) (hne : other ≠ index) : t.loaded[other]? = s.loaded[other]? := by
    rw [hinsert, Std.ExtTreeMap.getElem?_insert, if_neg (by simpa using Ne.symm hne)]
  have hdone : t.dueAt index = none := dueAt_of_unchanged hself rfl
  have hdue : s.due.Perm (.spine index (spine.encode s.spineSize) :: t.due) :=
    due_perm_of_dueAt (dueAt_of_changed hloaded hchanged) hdone
      fun other hne => dueAt_congr hsize (hother other hne)
  refine ⟨hcarries.perm hdue, ⟨hfree, fun other found hfound hlate => ?_⟩, by simp [hmet],
    fun _ other hmem => ?_, fun other hnone => ?_⟩
  · have hne : other ≠ index := by
      rintro rfl
      rw [hself, Option.some.injEq] at hfound
      subst hfound
      cases hlate
    exact h.sound other found (hother other hne ▸ hfound) hlate
  · rw [List.mem_singleton.mp hmem, hdone]
  · by_cases heq : other = index
    · rw [heq, hdone]
    · rw [dueAt_congr hsize (hother other heq), hnone]

/-- A write that failed leaves all that was due. -/
theorem attempts_of_failed {medium : Medium} {permits : Permits} (h : s.Flushable)
    (hfree : permits.held < permits.total) (hmet : s.medium.faults.MetWrite medium.faults)
    (hcarries : s.medium.Carries s.due medium s.due) (index : Nat) (p : Progress)
    (error : StoreError) : Attempts s [index] p (p.fail error) { s with medium, permits } where
  carries := hcarries
  flushable := ⟨hfree, h.sound⟩
  failure := by simp [Progress.fail, hmet]
  settled hnot := absurd hmet hnot
  dueAt _ := id

/-- A spine with changes is written, unless the write fails by the schedule. -/
theorem attempts_writeOne (h : s.Flushable) (htakes : ∀ w ∈ s.due, s.medium.backing.Takes w)
    (index : Nat) (p : Progress) :
    Attempts s [index] p (writeOne index p s).1 (writeOne index p s).2 := by
  cases hloaded : s.loaded[index]? with
  | none =>
    simp only [writeOne, hloaded]
    exact attempts_of_dueAt h (dueAt_of_not_loaded hloaded) p
  | some spine =>
    cases hchanged : spine.changed with
    | false =>
      simp only [writeOne, hloaded, hchanged, Bool.not_false, if_true]
      exact attempts_of_dueAt h (dueAt_of_unchanged hloaded hchanged) p
    | true =>
      have htaken := htakes _ (mem_due_iff.mpr ⟨index, dueAt_of_changed hloaded hchanged⟩)
      obtain ⟨permits, htotal, hheld, houtcome⟩ :=
        writeOne_of_changed hloaded hchanged (h.sound index spine hloaded hchanged) p
      have hfree : permits.held < permits.total := by
        rw [htotal, hheld]
        exact h.free
      obtain ⟨medium, hanswer, hrun⟩ | ⟨error, medium, hanswer, hrun⟩ | ⟨hfull, -⟩ := houtcome
      · obtain ⟨-, hmet, hcarries⟩ | ⟨⟨_, hfailed⟩, -⟩ := Medium.carries_write htaken hanswer
        · rw [hrun]
          refine attempts_of_written h hloaded hchanged ?_ ?_ ?_ ?_ ?_ p
          · rfl
          · rfl
          · exact hfree
          · exact hmet
          · exact hcarries _
        · cases hfailed
      · obtain ⟨hwritten, -⟩ | ⟨-, hmet, hcarries⟩ := Medium.carries_write htaken hanswer
        · cases hwritten
        · rw [hrun]
          exact attempts_of_failed h hfree hmet (hcarries _) index p (.io error)
      · exact absurd h.free (Nat.not_lt.mpr hfull)

/-- Writing all spines attempts each of them, one after another. -/
theorem attempts_writeAll (h : s.Flushable) (hdue : s.medium.backing.Accepts s.due)
    (indices : List Nat) (p : Progress) :
    Attempts s indices p (writeAll indices p s).1 (writeAll indices p s).2 := by
  induction indices generalizing s p with
  | nil =>
    have hnot := Faults.not_metWrite_self s.medium.faults
    exact ⟨Medium.carries_refl _ _, h, (and_iff_left hnot).symm,
      fun _ _ hmem => absurd hmem List.not_mem_nil, fun _ => id⟩
  | cons index indices ih =>
    have hfirst := attempts_writeOne h hdue.takes index p
    have hlater := ih hfirst.flushable (hfirst.carries.accepts hdue).1 (writeOne index p s).1
    exact hfirst.trans hlater

end Chronicle.SpineStore
