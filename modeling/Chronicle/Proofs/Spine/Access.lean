import Chronicle.Proofs.Blob
import Chronicle.Proofs.Medium.Spines
import Chronicle.Spine.Flush

/-!
# How spines come in and go out

A spined store reads and writes spines under permits and by a schedule of failures. This file lists
the outcomes of each access once: what a spine is that comes into memory, and what a medium holds
after a spine was written.
-/

namespace Chronicle.SpineStore

variable {s : SpineStore} {index : Nat}

/-- Reads are neither scheduled to fail nor kept waiting for a permit. -/
structure Ready (s : SpineStore) : Prop where
  free : s.permits.held < s.permits.total
  reads : ∀ call, s.medium.faults.spineReads.made ≤ call →
    s.medium.faults.spineReads.fails call = false

/-- Ways in which a spine can come into memory. -/
inductive Loads (s : SpineStore) (index : Nat) : Spine → Prop
  /-- The spine was not there when the store was opened. -/
  | unlisted (hlisted : index ∉ s.persisted) : Loads s index .empty
  /-- The spine was listed, but has no blob. -/
  | absent (hlisted : index ∈ s.persisted) (hread : s.medium.backing.readSpine index = .ok none) :
      Loads s index .empty
  | decoded {blob : Bytes} {spine : Spine} (hlisted : index ∈ s.persisted)
      (hread : s.medium.backing.readSpine index = .ok (some blob))
      (hdecode : Spine.decode s.spineSize blob = .ok spine) : Loads s index spine
  | refused (hlisted : index ∈ s.persisted)
      (hreason : s.Ready → (∃ error, s.medium.backing.readSpine index = .error error) ∨
        ∃ blob error, s.medium.backing.readSpine index = .ok (some blob) ∧
          Spine.decode s.spineSize blob = .error error) :
      Loads s index .unreadable

/-- An access runs on the medium, or does not run because no permit is left. -/
theorem underPermit_eq {α : Type} (access : Medium.Access α) (s : SpineStore) :
    ∃ permits : Permits, permits.total = s.permits.total ∧ permits.held = s.permits.held ∧
      (underPermit access s =
          ((access s.medium).1, { s with medium := (access s.medium).2, permits }) ∨
        s.permits.total ≤ s.permits.held ∧
          underPermit access s = (.error .unavailable, { s with permits })) := by
  by_cases hheld : s.permits.held < s.permits.total
  · refine ⟨{ s.permits with peak := max s.permits.peak (s.permits.held + 1) }, rfl, rfl, Or.inl ?_⟩
    rw [underPermit, Permits.acquire?, if_pos hheld]
    rfl
  · refine ⟨{ s.permits with starved := true }, rfl, rfl, Or.inr ⟨by omega, ?_⟩⟩
    rw [underPermit, Permits.acquire?, if_neg hheld]

/-- A read that was permitted answers what the medium holds, unless it was scheduled to fail. -/
theorem readSpine_eq (medium : Medium) (index : Nat) :
    (Medium.readSpine index medium).1 =
      if medium.faults.spineReads.fails medium.faults.spineReads.made then .error .unavailable
      else medium.backing.readSpine index :=
  rfl

/-- Loading a spine leaves all blobs as they are. -/
theorem load_eq (s : SpineStore) (index : Nat) :
    ∃ spine medium permits, load index s = (spine, { s with medium, permits }) ∧
      Loads s index spine ∧ medium.backing = s.medium.backing ∧
      (s.Ready → Ready { s with medium, permits }) := by
  by_cases hlisted : index ∈ s.persisted
  · have hcontains : s.persisted.contains index = true := Std.ExtTreeSet.mem_iff_contains.mp hlisted
    obtain ⟨permits, htotal, hheld, hrun | ⟨hfull, hrun⟩⟩ :=
      underPermit_eq (Medium.readSpine index) s
    · obtain ⟨medium, hmedium⟩ : ∃ medium, medium = (Medium.readSpine index s.medium).2 := ⟨_, rfl⟩
      have hbacking : medium.backing = s.medium.backing := by rw [hmedium]; rfl
      have hready : s.Ready → Ready { s with medium, permits } := by
        intro hready
        refine ⟨by rw [htotal, hheld]; exact hready.free, fun call hcall => ?_⟩
        subst hmedium
        exact hready.reads call (Nat.le_of_succ_le hcall)
      rw [readSpine_eq, ← hmedium] at hrun
      simp only [load, hcontains, if_true, hrun]
      cases hfails : s.medium.faults.spineReads.fails s.medium.faults.spineReads.made with
      | true =>
        refine ⟨_, medium, permits, rfl, .refused hlisted fun hready => ?_, hbacking, hready⟩
        rw [hready.reads _ (Nat.le_refl _)] at hfails
        cases hfails
      | false =>
        simp only [Bool.false_eq_true, if_false]
        cases hread : s.medium.backing.readSpine index with
        | error error =>
          exact ⟨_, medium, permits, rfl, .refused hlisted fun _ => Or.inl ⟨error, hread⟩, hbacking,
            hready⟩
        | ok answer =>
          cases answer with
          | none => exact ⟨_, medium, permits, rfl, .absent hlisted hread, hbacking, hready⟩
          | some blob =>
            cases hdecode : Spine.decode s.spineSize blob with
            | ok spine =>
              refine ⟨spine, medium, permits, ?_, .decoded hlisted hread hdecode, hbacking, hready⟩
              simp only [hdecode]
            | error error =>
              refine ⟨_, medium, permits, ?_, .refused hlisted fun _ => Or.inr ?_, hbacking, hready⟩
              · simp only [hdecode]
              · exact ⟨blob, error, hread, hdecode⟩
    · simp only [load, hcontains, if_true, hrun]
      refine ⟨_, s.medium, permits, rfl, .refused hlisted fun hready => ?_, rfl, fun hready => ?_⟩
      · exact absurd hready.free (by omega)
      · exact absurd hready.free (by omega)
  · have hcontains : ¬ s.persisted.contains index = true := by
      rwa [← Std.ExtTreeSet.mem_iff_contains]
    refine ⟨.empty, s.medium, s.permits, ?_, .unlisted hlisted, rfl, id⟩
    rw [load, if_neg hcontains]

/-- A spine in memory is answered as it is, and nothing changes. -/
theorem touch_of_loaded {spine : Spine} (h : s.loaded[index]? = some spine) :
    touch index s = (spine, s) := by
  simp only [touch, h]

/-- A spine that is not in memory comes into it in one of the ways of `Loads`, and no other one
changes. -/
theorem touch_of_not_loaded (h : s.loaded[index]? = none) :
    ∃ spine medium permits,
      touch index s = (spine, { s with
        medium, permits
        extent := max s.extent (index + 1)
        loaded := s.loaded.insert index spine }) ∧
      Loads s index spine ∧ medium.backing = s.medium.backing ∧
      (s.Ready → Ready { s with medium, permits }) := by
  obtain ⟨spine, medium, permits, hload, hrest⟩ := load_eq s index
  refine ⟨spine, medium, permits, ?_, hrest⟩
  simp only [touch, h, hload]

/-- Outcomes of writing one spine: how far the flush got, and the store. -/
inductive Flushes (s : SpineStore) (index : Nat) (p : Progress) : Progress → SpineStore → Prop
  | absent (hloaded : s.loaded[index]? = none) : Flushes s index p p s
  | unchanged {spine : Spine} (hloaded : s.loaded[index]? = some spine)
      (hchanged : spine.changed = false) : Flushes s index p p s
  | degraded {spine : Spine} (hloaded : s.loaded[index]? = some spine)
      (hdegraded : spine.degraded = true) : Flushes s index p (p.fail (.degradedSpine index)) s
  | written {spine : Spine} {medium : Medium} {permits : Permits}
      (hloaded : s.loaded[index]? = some spine) (hchanged : spine.changed = true)
      (hdegraded : spine.degraded = false)
      (hwrite : s.medium.backing.writeSpine index (spine.encode s.spineSize) =
        (.ok (), medium.backing))
      (hready : s.Ready → Ready { s with medium, permits }) :
      Flushes s index p { p with written := p.written + 1 }
        { s with medium, permits, loaded := s.loaded.insert index { spine with changed := false } }
  /-- A write that failed left every spine on the medium as it was. -/
  | failed {error : IoError} {medium : Medium} {permits : Permits}
      (hread : ∀ other, medium.backing.readSpine other = s.medium.backing.readSpine other)
      (hready : s.Ready → Ready { s with medium, permits }) :
      Flushes s index p (p.fail (.io error)) { s with medium, permits }

/-- Writing a spine on a medium stores its blob or leaves every spine as it was. -/
theorem writeSpine_cases {medium next : Medium} {blob : Bytes} {answer : Except IoError Unit}
    (h : Medium.writeSpine index blob medium = (answer, next)) :
    next.faults.spineReads = medium.faults.spineReads ∧
      (answer = .ok () ∧ medium.backing.writeSpine index blob = (.ok (), next.backing) ∨
        (∃ error, answer = .error error) ∧
          ∀ other, next.backing.readSpine other = medium.backing.readSpine other) := by
  simp only [Medium.writeSpine] at h
  by_cases hfails : medium.faults.spineWrites.next.1 = true
  · rw [if_pos hfails] at h
    cases h
    exact ⟨rfl, Or.inr ⟨⟨_, rfl⟩, fun _ => rfl⟩⟩
  · rw [if_neg hfails] at h
    cases h
    refine ⟨rfl, ?_⟩
    cases hwrite : medium.backing.writeSpine index blob with
    | mk answer backing =>
      cases answer with
      | ok _ => exact Or.inl ⟨rfl, rfl⟩
      | error error =>
        refine Or.inr ⟨⟨error, rfl⟩, fun other => ?_⟩
        exact Backing.readSpine_other hwrite (Or.inr (by simp))

/-- Marking a spine in memory sets its flag and changes nothing else. -/
theorem mark_eq {spine : Spine} (h : s.loaded[index]? = some spine) (changed : Bool) :
    s.mark index changed = { s with loaded := s.loaded.insert index { spine with changed } } := by
  simp only [mark, h]

/-- Marking a spine as unchanged and then as changed again has no effect on one that was changed. -/
theorem mark_mark (medium : Medium) (permits : Permits) {spine : Spine}
    (h : s.loaded[index]? = some spine) (hchanged : spine.changed = true) :
    mark { s.mark index false with medium, permits } index true = { s with medium, permits } := by
  have hself : ({ spine with changed := true } : Spine) = spine := by rw [← hchanged]
  rw [mark_eq h, mark_eq Std.ExtTreeMap.getElem?_insert_self]
  congr 1
  apply Std.ExtTreeMap.ext_getElem?
  intro other
  simp only [Std.ExtTreeMap.getElem?_insert, Nat.compare_eq_eq, hself]
  split
  · rename_i heq
    rw [← heq, h]
  · rfl

/-- Outcomes of writing a spine with changes. A write that fails leaves it changed, and so does one
for which no permit is left. -/
theorem writeOne_of_changed {spine : Spine} (hloaded : s.loaded[index]? = some spine)
    (hchanged : spine.changed = true) (hdegraded : spine.degraded = false) (p : Progress) :
    ∃ permits : Permits, permits.total = s.permits.total ∧ permits.held = s.permits.held ∧
      ((∃ medium, Medium.writeSpine index (spine.encode s.spineSize) s.medium = (.ok (), medium) ∧
          writeOne index p s = ({ p with written := p.written + 1 }, { s with
            medium, permits, loaded := s.loaded.insert index { spine with changed := false } })) ∨
        (∃ error medium,
          Medium.writeSpine index (spine.encode s.spineSize) s.medium = (.error error, medium) ∧
          writeOne index p s = (p.fail (.io error), { s with medium, permits })) ∨
        s.permits.total ≤ s.permits.held ∧
          writeOne index p s = (p.fail (.io .unavailable), { s with permits })) := by
  have hmarked := mark_eq hloaded false
  obtain ⟨permits, htotal, hheld, hunder⟩ :=
    underPermit_eq (Medium.writeSpine index (spine.encode s.spineSize)) (s.mark index false)
  simp only [hmarked] at htotal hheld
  refine ⟨permits, htotal, hheld, ?_⟩
  obtain ⟨answer, medium, hanswer⟩ : ∃ answer medium,
      Medium.writeSpine index (spine.encode s.spineSize) s.medium = (answer, medium) :=
    ⟨_, _, rfl⟩
  have hmedium : (s.mark index false).medium = s.medium := by rw [hmarked]
  obtain hrun | ⟨hfull, hrun⟩ := hunder
  · rw [hmedium, hanswer] at hrun
    cases answer with
    | ok _ =>
      refine Or.inl ⟨medium, hanswer, ?_⟩
      simp only [writeOne, hloaded, hchanged, hdegraded, Bool.not_true, Bool.false_eq_true,
        if_false, hrun]
      simp only [hmarked, hdegraded]
    | error error =>
      refine Or.inr (Or.inl ⟨error, medium, hanswer, ?_⟩)
      simp only [writeOne, hloaded, hchanged, hdegraded, Bool.not_true, Bool.false_eq_true,
        if_false, hrun, mark_mark medium permits hloaded hchanged]
  · rw [hmarked] at hfull
    refine Or.inr (Or.inr ⟨hfull, ?_⟩)
    simp only [writeOne, hloaded, hchanged, hdegraded, Bool.not_true, Bool.false_eq_true, if_false,
      hrun, mark_mark _ permits hloaded hchanged, hmedium]

/-- Writing one spine has one of the outcomes of `Flushes`. -/
theorem writeOne_flushes (s : SpineStore) (index : Nat) (p : Progress) :
    Flushes s index p (writeOne index p s).1 (writeOne index p s).2 := by
  cases hloaded : s.loaded[index]? with
  | none =>
    simp only [writeOne, hloaded]
    exact .absent hloaded
  | some spine =>
    by_cases hchanged : spine.changed = true
    · by_cases hdegraded : spine.degraded = true
      · simp only [writeOne, hloaded, hchanged, hdegraded, Bool.not_true, Bool.false_eq_true,
          if_false, if_true]
        exact .degraded hloaded hdegraded
      · rw [Bool.not_eq_true] at hdegraded
        obtain ⟨permits, htotal, hheld, houtcome⟩ :=
          writeOne_of_changed hloaded hchanged hdegraded p
        have hready {medium : Medium}
            (hreads : medium.faults.spineReads = s.medium.faults.spineReads) (hready : s.Ready) :
            Ready { s with medium, permits } := by
          refine ⟨by rw [htotal, hheld]; exact hready.free, ?_⟩
          rw [hreads]
          exact hready.reads
        obtain ⟨medium, hanswer, hrun⟩ | ⟨error, medium, hanswer, hrun⟩ | ⟨hfull, hrun⟩ := houtcome
        · obtain ⟨hreads, ⟨-, hwrite⟩ | ⟨⟨_, hfailed⟩, -⟩⟩ := writeSpine_cases hanswer
          · rw [hrun]
            exact .written hloaded hchanged hdegraded hwrite (hready hreads)
          · cases hfailed
        · obtain ⟨hreads, ⟨hwritten, -⟩ | ⟨-, hread⟩⟩ := writeSpine_cases hanswer
          · cases hwritten
          · rw [hrun]
            exact .failed hread (hready hreads)
        · rw [hrun]
          exact .failed (fun _ => rfl) fun hready => absurd hready.free (Nat.not_lt.mpr hfull)
    · rw [Bool.not_eq_true] at hchanged
      simp only [writeOne, hloaded, hchanged, Bool.not_false, if_true]
      exact .unchanged hloaded hchanged

end Chronicle.SpineStore
