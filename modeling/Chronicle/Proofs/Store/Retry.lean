import Chronicle.Proofs.Spine.Pending
import Chronicle.Proofs.Store.Reopening
import Mathlib.Logic.Relation

/-!
# Flushing again after failures

A flush that meets a failing write fails, and what it did not write keeps its mark. So flushes can
be repeated until one meets no failing write: however the writes failed before, what is persisted
then is what one flush without failures would have persisted at once, and nothing has changes any
more.
-/

namespace Chronicle

private theorem Backing.takes_of_isShelf {backing : Backing} (h : backing.isShelf = true)
    (w : Write) :
    backing.Takes w := by
  cases backing with
  | shelf shelf => exact takes_shelf shelf w
  | folder folder => cases h

namespace Store

/-- The write of the identity table, if the registry has changes. -/
def registryDue (r : Registry) : List Write :=
  if r.changed then [.table identityTable r.encodeTable] else []

/-- The write of the path table, if the path graph has changes. -/
def pathsDue (g : PathGraph) : List Write :=
  if g.changed then [.table pathTable g.encodeTable] else []

/-- The writes that a flush attempts when none fails. -/
def due (s : Store) : List Write :=
  registryDue s.registry ++ (pathsDue s.paths ++ s.spines.due)

variable {s t u : Store}

private theorem mem_registryDue_iff {r : Registry} {w : Write} :
    w ∈ registryDue r ↔ r.changed = true ∧ w = .table identityTable r.encodeTable := by
  simp [registryDue]

private theorem mem_pathsDue_iff {g : PathGraph} {w : Write} :
    w ∈ pathsDue g ↔ g.changed = true ∧ w = .table pathTable g.encodeTable := by
  simp [pathsDue]

private theorem mem_due_iff {w : Write} :
    w ∈ s.due ↔ w ∈ registryDue s.registry ∨ w ∈ pathsDue s.paths ∨ w ∈ s.spines.due := by
  rw [due, List.mem_append, List.mem_append]

/-- Every write that is due has its file where the store keeps it. -/
theorem isRooted_of_mem_due {w : Write} (h : w ∈ s.due) : w.IsRooted := by
  obtain h | h | h := mem_due_iff.mp h
  · obtain ⟨-, rfl⟩ := mem_registryDue_iff.mp h
    exact isRootTable_identity
  · obtain ⟨-, rfl⟩ := mem_pathsDue_iff.mp h
    exact isRootTable_paths
  · obtain ⟨index, hw⟩ := SpineStore.mem_due_iff.mp h
    obtain ⟨_, rfl⟩ := SpineStore.exists_of_dueAt hw
    trivial

/-- No table and no spine is due twice. -/
theorem pairwise_due (s : Store) : s.due.Pairwise Write.Apart := by
  have hspine (name : String) (bytes : Bytes) (w : Write) (hw : w ∈ s.spines.due) :
      (Write.table name bytes).Apart w := by
    obtain ⟨index, hw⟩ := SpineStore.mem_due_iff.mp hw
    obtain ⟨_, rfl⟩ := SpineStore.exists_of_dueAt hw
    trivial
  rw [due, List.pairwise_append, List.pairwise_append]
  refine ⟨?_, ⟨?_, s.spines.pairwise_due, fun w hw v hv => ?_⟩, fun w hw v hv => ?_⟩
  · rw [registryDue]
    split <;> simp
  · rw [pathsDue]
    split <;> simp
  · obtain ⟨-, rfl⟩ := mem_pathsDue_iff.mp hw
    exact hspine _ _ v hv
  · obtain ⟨-, rfl⟩ := mem_registryDue_iff.mp hw
    obtain hv | hv := List.mem_append.mp hv
    · obtain ⟨-, rfl⟩ := mem_pathsDue_iff.mp hv
      exact ⟨apart_identity_paths, apart_paths_identity⟩
    · exact hspine _ _ v hv

/-- When nothing is due, nothing has changes. -/
theorem hasUnflushed_of_due (h : s.due = []) : s.hasUnflushed = false := by
  simp only [due, List.append_eq_nil_iff] at h
  obtain ⟨hregistry, hpaths, hspines⟩ := h
  have hregistry : s.registry.changed = false := by
    simpa [registryDue] using hregistry
  have hpaths : s.paths.changed = false := by
    simpa [pathsDue] using hpaths
  rw [hasUnflushed, hregistry, hpaths, SpineStore.hasChanges_of_due hspines]
  rfl

/-- What attempts of a flush do: they carry out some of what is due, and spines can still be
written. -/
structure Attempts (s t : Store) : Prop where
  carries : s.spines.medium.Carries s.due t.spines.medium t.due
  flushable : t.spines.Flushable

private theorem Attempts.trans (h : Attempts s t) (hnext : Attempts t u) : Attempts s u :=
  ⟨h.carries.trans hnext.carries, hnext.flushable⟩

/-- A failing write was met on the way from one state to another. -/
def MetWrite (s t : Store) : Prop :=
  s.spines.medium.faults.MetWrite t.spines.medium.faults

private theorem Attempts.metWrite_iff (h : Attempts s t) (hnext : Attempts t u) :
    MetWrite s u ↔ MetWrite s t ∨ MetWrite t u :=
  h.carries.runs.metWrite_iff hnext.carries.runs

private theorem attempts_refl (h : s.spines.Flushable) : Attempts s s ∧ ¬ MetWrite s s :=
  ⟨⟨Medium.carries_refl _ _, h⟩, Faults.not_metWrite_self _⟩

/-- A write that succeeded is no longer due. -/
theorem attempts_of_written {w : Write} (h : t.spines.Flushable)
    (htakes : ∀ v ∈ s.due, s.backing.Takes v) (hdue : s.due.Perm (w :: t.due))
    (hwrite : Medium.write w s.spines.medium = (.ok (), t.spines.medium)) :
    Attempts s t ∧ ¬ MetWrite s t := by
  have hmem := hdue.mem_iff.mpr List.mem_cons_self
  obtain ⟨-, hmet, hcarries⟩ | ⟨⟨error, herror⟩, -⟩ := Medium.carries_write (htakes w hmem) hwrite
  · exact ⟨⟨(hcarries _).perm hdue, h⟩, hmet⟩
  · cases herror

/-- A write that failed is still due. -/
theorem attempts_of_failed {w : Write} {error : IoError} (h : t.spines.Flushable)
    (htakes : ∀ v ∈ s.due, s.backing.Takes v) (hmem : w ∈ s.due) (hdue : t.due = s.due)
    (hwrite : Medium.write w s.spines.medium = (.error error, t.spines.medium)) :
    Attempts s t ∧ MetWrite s t := by
  obtain ⟨hok, -⟩ | ⟨-, hmet, hcarries⟩ := Medium.carries_write (htakes w hmem) hwrite
  · cases hok
  · exact ⟨⟨hdue ▸ hcarries _, h⟩, hmet⟩

/-- Writing the identity table attempts what is due of it, and fails exactly if a failing write was
met. -/
theorem attempts_flushRegistry (h : s.spines.Flushable)
    (htakes : ∀ w ∈ s.due, s.backing.Takes w) :
    Attempts s (flushRegistry s).2 ∧
      (MetWrite s (flushRegistry s).2 ↔ ∃ error, (flushRegistry s).1 = .error error) := by
  have hflushes := flushesRegistry s
  generalize flushRegistry s = result at hflushes
  obtain ⟨answer, t⟩ := result
  cases hflushes with
  | unchanged hchanged =>
    obtain ⟨hattempts, hmet⟩ := attempts_refl h
    exact ⟨hattempts, by simp [hmet]⟩
  | @written medium hchanged _ hwrite =>
    have hdue : s.due = .table identityTable s.registry.encodeTable ::
        due { s with registry := s.registry.settled, spines := { s.spines with medium } } := by
      rw [due, registryDue, if_pos hchanged]
      rfl
    obtain ⟨hattempts, hmet⟩ := attempts_of_written
      (t := { s with registry := s.registry.settled, spines := { s.spines with medium } })
      ⟨h.free, h.sound⟩ htakes (.of_eq hdue) hwrite
    exact ⟨hattempts, by simp [hmet]⟩
  | @failed medium error hchanged _ hwrite =>
    obtain ⟨hattempts, hmet⟩ := attempts_of_failed
      (t := { s with spines := { s.spines with medium } }) ⟨h.free, h.sound⟩ htakes
      (mem_due_iff.mpr (Or.inl (mem_registryDue_iff.mpr ⟨hchanged, rfl⟩))) rfl hwrite
    exact ⟨hattempts, by simp [hmet]⟩

/-- Writing the path table attempts what is due of it, and fails exactly if a failing write was met.
-/
theorem attempts_flushPaths (h : s.spines.Flushable) (htakes : ∀ w ∈ s.due, s.backing.Takes w) :
    Attempts s (flushPaths s).2 ∧
      (MetWrite s (flushPaths s).2 ↔ ∃ error, (flushPaths s).1 = .error error) := by
  have hflushes := flushesPaths s
  generalize flushPaths s = result at hflushes
  obtain ⟨answer, t⟩ := result
  cases hflushes with
  | unchanged hchanged =>
    obtain ⟨hattempts, hmet⟩ := attempts_refl h
    exact ⟨hattempts, by simp [hmet]⟩
  | @written medium hchanged _ hwrite =>
    have hdue : s.due.Perm (.table pathTable s.paths.encodeTable ::
        due { s with paths := s.paths.settled, spines := { s.spines with medium } }) := by
      rw [due, pathsDue, if_pos hchanged]
      exact List.perm_middle
    obtain ⟨hattempts, hmet⟩ := attempts_of_written
      (t := { s with paths := s.paths.settled, spines := { s.spines with medium } })
      ⟨h.free, h.sound⟩ htakes hdue hwrite
    exact ⟨hattempts, by simp [hmet]⟩
  | @failed medium error hchanged _ hwrite =>
    obtain ⟨hattempts, hmet⟩ := attempts_of_failed
      (t := { s with spines := { s.spines with medium } }) ⟨h.free, h.sound⟩ htakes
      (mem_due_iff.mpr (Or.inr (Or.inl (mem_pathsDue_iff.mpr ⟨hchanged, rfl⟩)))) rfl hwrite
    exact ⟨hattempts, by simp [hmet]⟩

/-- Writing the spines ends well exactly if it meets no failing write, and then no spine is due. -/
theorem ends_write (h : s.spines.Flushable) (hdue : s.backing.Accepts s.spines.due) :
    Ends (tryOnSpines SpineStore.write) s
      (fun _ t => Attempts s t ∧ ¬ MetWrite s t ∧ t.registry = s.registry ∧ t.paths = s.paths ∧
        t.spines.due = [])
      fun _ t => Attempts s t ∧ MetWrite s t := by
  have hspines := SpineStore.attempts_writeAll h hdue s.spines.loaded.keys {}
  cases hrun : SpineStore.writeAll s.spines.loaded.keys {} s.spines with
  | mk q spines =>
    rw [hrun] at hspines
    have hattempts : Attempts s { s with spines } :=
      ⟨(hspines.carries.append_left _).append_left _, hspines.flushable⟩
    cases hfailure : q.failure with
    | none =>
      have hmet := (hspines.failure.mp hfailure).2
      have hwrite : tryOnSpines SpineStore.write s = .ok q.written { s with spines } := by
        obtain ⟨written, _⟩ := q
        cases hfailure
        simp only [tryOnSpines, SpineStore.write, hrun]
      exact ends_of_ok hwrite ⟨hattempts, hmet, rfl, rfl, hspines.due_eq_nil hmet⟩
    | some error =>
      have hmet : MetWrite s { s with spines } := by
        by_contra hnot
        rw [hspines.failure.mpr ⟨rfl, hnot⟩] at hfailure
        cases hfailure
      have hwrite : tryOnSpines SpineStore.write s = .error error { s with spines } := by
        obtain ⟨written, _⟩ := q
        cases hfailure
        simp only [tryOnSpines, SpineStore.write, hrun]
      exact ends_of_error hwrite ⟨hattempts, hmet⟩

/-- What is due can be written in turn. -/
theorem accepts_due (htakes : ∀ w ∈ s.due, s.backing.Takes w) : s.backing.Accepts s.due :=
  ⟨fun _ => isRooted_of_mem_due, htakes, s.pairwise_due⟩

/-- A flush ends well exactly if it meets no failing write, and then nothing is due any more. -/
theorem ends_flush_attempts (h : s.spines.Flushable) (htakes : ∀ w ∈ s.due, s.backing.Takes w) :
    Ends flush s (fun _ t => Attempts s t ∧ ¬ MetWrite s t ∧ t.due = [])
      fun _ t => Attempts s t ∧ MetWrite s t := by
  obtain ⟨hregistry, hregistryMet⟩ := attempts_flushRegistry h htakes
  have haccepts := (hregistry.carries.accepts (accepts_due htakes)).1
  obtain ⟨hpaths, hpathsMet⟩ := attempts_flushPaths hregistry.flushable haccepts.takes
  have hpathsAccepts := (hpaths.carries.accepts haccepts).1
  have htables := hregistry.trans hpaths
  have htablesMet := hregistry.metWrite_iff hpaths
  refine ends_flush (fun error herror => ⟨htables, htablesMet.mpr ?_⟩) fun m n hm hn => ?_
  · exact herror.imp (fun h => hregistryMet.mpr ⟨error, h⟩) fun h => hpathsMet.mpr ⟨error, h⟩
  · have hnot : ¬ MetWrite s (flushPaths (flushRegistry s).2).2 := by
      rw [htablesMet, hregistryMet, hpathsMet, hm, hn]
      simp
    obtain ⟨medium, -, hsettled⟩ := store_of_flushes hm hn
    have hspines := ends_write hpaths.flushable hpathsAccepts.right.right
    refine hspines.mono (fun spines u hu => ?_) fun error u hu => ?_
    · obtain ⟨hattempts, hmet, hsameRegistry, hsamePaths, hdue⟩ := hu
      refine ⟨htables.trans hattempts, ?_, ?_⟩
      · rw [htables.metWrite_iff hattempts]
        simp [hnot, hmet]
      · rw [due, hsameRegistry, hsamePaths, hdue, hsettled]
        rfl
    · exact ⟨htables.trans hu.1, (htables.metWrite_iff hu.1).mpr (Or.inr hu.2)⟩

/-- The states of a store that flushes alone lead to, each under failures of its own. -/
inductive Flushed (s : Store) : Store → Prop
  | start : Flushed s s
  | again {t : Store} (h : Flushed s t) (faults : Faults) :
      Flushed s (attempt flush (t.withFaults faults)).2

/-- However the flushes went, what is still due is accepted and leads to what was due at first. -/
theorem Flushed.accepts (ht : Flushed s t) (h : s.spines.Flushable)
    (htakes : ∀ w ∈ s.due, s.backing.Takes w) :
    t.spines.Flushable ∧ t.backing.Accepts t.due ∧
      t.backing.afterAll t.due = s.backing.afterAll s.due := by
  induction ht with
  | start => exact ⟨h, accepts_due htakes, rfl⟩
  | @again t _ faults ih =>
    obtain ⟨hflushable, haccepts, hsame⟩ := ih
    have hends := ends_flush_attempts (s := t.withFaults faults)
      ⟨hflushable.free, hflushable.sound⟩ haccepts.takes
    have hattempts : Attempts (t.withFaults faults) (attempt flush (t.withFaults faults)).2 :=
      (hends.mono (fun _ _ hu => hu.1) fun _ _ hu => hu.1).attempt
    obtain ⟨hnext, hleaves⟩ := hattempts.carries.accepts haccepts
    exact ⟨hattempts.flushable, hnext, hleaves.trans hsame⟩

/-- One more flush fails if it meets a failing write, and completes what was due otherwise. -/
theorem Flushed.ends_flush (ht : Flushed s t) (h : s.spines.Flushable)
    (htakes : ∀ w ∈ s.due, s.backing.Takes w) (faults : Faults) :
    Ends Store.flush (t.withFaults faults)
      (fun _ u => ¬ faults.MetWrite u.spines.medium.faults ∧
        u.backing = s.backing.afterAll s.due ∧ u.hasUnflushed = false)
      fun _ u => faults.MetWrite u.spines.medium.faults := by
  obtain ⟨hflushable, haccepts, hsame⟩ := ht.accepts h htakes
  refine (ends_flush_attempts (s := t.withFaults faults)
    ⟨hflushable.free, hflushable.sound⟩ haccepts.takes).mono (fun _ u hu => ?_) fun _ u hu => hu.2
  obtain ⟨hattempts, hmet, hdue⟩ := hu
  have hleaves := (hattempts.carries.accepts haccepts).2
  rw [hdue] at hleaves
  exact ⟨hmet, hleaves.trans hsame, hasUnflushed_of_due hdue⟩

/-- Flushes of a store whose medium takes what is due, except that writes fail by any schedule, can
be repeated: a flush that meets a failing write fails, and one that meets none ends well, leaves the
medium that one flush without failures would have left at first, and nothing has changes then. -/
theorem flush_retried (h : s.spines.Flushable) (htakes : ∀ w ∈ s.due, s.backing.Takes w) :
    ∃ stats whole, flush (s.withFaults {}) = .ok stats whole ∧
      ∀ t, Flushed s t → ∀ faults answer u, attempt flush (t.withFaults faults) = (answer, u) →
        (faults.MetWrite u.spines.medium.faults → ∃ error, answer = .error error) ∧
        (¬ faults.MetWrite u.spines.medium.faults →
          (∃ stats, answer = .ok stats) ∧ u.backing = whole.backing ∧ u.hasUnflushed = false) := by
  have hwhole := Flushed.start.ends_flush h htakes {}
  cases hrun : flush (s.withFaults {}) with
  | error error whole => exact absurd (hwhole.of_error hrun) (Faults.not_metWrite_never _)
  | ok stats whole =>
    obtain ⟨-, hleft, -⟩ := hwhole.of_ok hrun
    refine ⟨stats, whole, rfl, fun t ht faults answer u hu => ?_⟩
    have hends := ht.ends_flush h htakes faults
    cases answer with
    | error error =>
      have hmet := hends.of_error (eq_of_attempt_error hu)
      exact ⟨fun _ => ⟨error, rfl⟩, fun hnot => absurd hmet hnot⟩
    | ok stats =>
      obtain ⟨hmet, hbacking, hclean⟩ := hends.of_ok (eq_of_attempt_ok hu)
      exact ⟨fun h => absurd h hmet, fun _ => ⟨⟨stats, rfl⟩, hbacking.trans hleft.symm, hclean⟩⟩

/-- A table fails first, then the tables are written and the first of two spines fails, and a third
flush completes what was due. -/
theorem flush_retried_twice :
    ∃ s : Store,
      let first := attempt flush (s.withFaults { tableWrites := .first 1 })
      let second := attempt flush (first.2.withFaults { spineWrites := .first 1 })
      (s.due.length = 4 ∧ first.1.toBool = false ∧ first.2.due.length = 3 ∧
        second.1.toBool = false ∧ second.2.due.length = 1) ∧
      ∃ stats whole, flush (s.withFaults {}) = .ok stats whole ∧
        ∃ stats last, flush (second.2.withFaults {}) = .ok stats last ∧
          last.backing = whole.backing ∧ last.hasUnflushed = false := by
  let spines := (attempt (do
    let _ ← SpineStore.merge Nid.first [1] fun _ update => update
    SpineStore.merge ⟨Nid.first.raw + 4⟩ [2] fun _ update => update)
      (SpineStore.ofMedium Medium.inMemory 4 1 1)).2
  let id : PublicId := ⟨[⟨1⟩], by decide, by decide, by decide⟩
  obtain ⟨s, hfree, hsound, hshelf, hdue⟩ : ∃ s : Store,
      s.spines.permits.held < s.spines.permits.total ∧
      (∀ entry ∈ s.spines.loaded.toList, entry.2.changed = true → entry.2.degraded = false) ∧
      s.backing.isShelf = true ∧
      let first := attempt flush (s.withFaults { tableWrites := .first 1 })
      let second := attempt flush (first.2.withFaults { spineWrites := .first 1 })
      s.due.length = 4 ∧ first.1.toBool = false ∧ first.2.due.length = 3 ∧
        second.1.toBool = false ∧ second.2.due.length = 1 :=
    ⟨{ rooted := false, config := { spineSize := 4 }, registry := Registry.empty.adopt Nid.first id
       paths := (PathGraph.empty.restore (⟨-5⟩, ⟨⟨-6⟩, 3⟩)).markChanged, spines, pool := {} },
      by decide +kernel, by decide +kernel, by decide +kernel, by decide +kernel⟩
  obtain ⟨stats, whole, hwhole, hretried⟩ := flush_retried
    (SpineStore.flushable_of_toList hfree hsound) fun w _ => Backing.takes_of_isShelf hshelf w
  obtain ⟨⟨last, hok⟩, hbacking, hclean⟩ := (hretried _
    (.again (.again .start { tableWrites := .first 1 }) { spineWrites := .first 1 }) {} _ _ rfl).2
      (Faults.not_metWrite_never _)
  exact ⟨s, hdue, stats, whole, hwhole, last, _, eq_of_attempt_ok (Prod.ext hok rfl), hbacking,
    hclean⟩

end Store

end Chronicle
