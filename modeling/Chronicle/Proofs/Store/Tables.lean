import Chronicle.Proofs.Medium.TableFile
import Chronicle.Proofs.Spine.PayloadMap
import Chronicle.Proofs.Store.Outcome
import Chronicle.Store.Flush

/-!
# Tables of a store

The two tables of a store are files of their own in the root directory, which spines and other
tables do not touch. Writing one of them replaces it or leaves all that is persisted as it was.
-/

namespace Chronicle

namespace Store

open Folder (IsRootTable Apart)

/-- The identity table lies in the root directory. -/
theorem isRootTable_identity : IsRootTable identityTable :=
  Folder.IsPlainTable.isRootTable (by decide)

/-- The path table lies in the root directory. -/
theorem isRootTable_paths : IsRootTable pathTable :=
  Folder.IsPlainTable.isRootTable (by decide)

/-- Writing the identity table does not touch the path table. -/
theorem apart_identity_paths : Apart identityTable pathTable :=
  ⟨by decide, by decide⟩

/-- Writing the path table does not touch the identity table. -/
theorem apart_paths_identity : Apart pathTable identityTable :=
  ⟨by decide, by decide⟩

/-- What an attempt to write a table does to a medium. -/
structure WritesTable (name other : String) (table : Bytes) (medium : Medium)
    (answer : Except IoError Unit) (next : Medium) : Prop where
  reads : next.faults.spineReads = medium.faults.spineReads
  readSpine : ∀ index, next.backing.readSpine index = medium.backing.readSpine index
  other : next.backing.readTable other = medium.backing.readTable other
  written : answer = .ok () → next.backing.readTable name = .ok (some table)
  failed : answer ≠ .ok () → next.backing.readTable name = medium.backing.readTable name

private theorem writesTable {name other : String} {table : Bytes} {medium next : Medium}
    {answer : Except IoError Unit} (hname : IsRootTable name) (hother : IsRootTable other)
    (hapart : Apart name other) (h : Medium.writeTable name table medium = (answer, next)) :
    WritesTable name other table medium answer next := by
  simp only [Medium.writeTable] at h
  split at h
  · cases h
    refine ⟨rfl, fun _ => rfl, rfl, fun hok => ?_, fun _ => rfl⟩
    cases hok
  · obtain ⟨answer', backing, hwrite⟩ : ∃ answer' backing,
        medium.backing.writeTable name table = (answer', backing) := ⟨_, _, rfl⟩
    simp only [hwrite] at h
    cases h
    refine ⟨rfl, Backing.readSpine_of_writeTable hname hwrite,
      Backing.readTable_other hname hother hwrite (Or.inl hapart), ?_, fun hfailed =>
        Backing.readTable_other hname hname hwrite (Or.inr ⟨rfl, hfailed⟩)⟩
    rintro rfl
    exact Backing.readTable_self hname hwrite

variable {s : Store}

/-- What writing the registry does. -/
inductive FlushesRegistry (s : Store) : Except IoError Nat → Store → Prop
  | unchanged (hchanged : s.registry.changed = false) : FlushesRegistry s (.ok 0) s
  | written {medium : Medium} (hchanged : s.registry.changed = true)
      (h : WritesTable identityTable pathTable s.registry.encodeTable s.spines.medium (.ok ())
        medium)
      (hwrite : Medium.writeTable identityTable s.registry.encodeTable s.spines.medium =
        (.ok (), medium)) :
      FlushesRegistry s (.ok 1)
        { s with registry := s.registry.settled, spines := { s.spines with medium } }
  | failed {medium : Medium} {error : IoError} (hchanged : s.registry.changed = true)
      (h : WritesTable identityTable pathTable s.registry.encodeTable s.spines.medium
        (.error error) medium)
      (hwrite : Medium.writeTable identityTable s.registry.encodeTable s.spines.medium =
        (.error error, medium)) :
      FlushesRegistry s (.error error) { s with spines := { s.spines with medium } }

/-- Writing the registry does what `FlushesRegistry` says. -/
theorem flushesRegistry (s : Store) :
    FlushesRegistry s (flushRegistry s).1 (flushRegistry s).2 := by
  obtain ⟨answer, medium, hwrite⟩ : ∃ answer medium,
      Medium.writeTable identityTable s.registry.encodeTable s.spines.medium = (answer, medium) :=
    ⟨_, _, rfl⟩
  have hwrites := writesTable isRootTable_identity isRootTable_paths apart_identity_paths hwrite
  have htable : writeTable identityTable s.registry.encodeTable s =
      (answer, { s with spines := { s.spines with medium } }) := by
    simp only [writeTable, hwrite]
  have hget : (get : StateM Store Store) s = (s, s) := rfl
  rw [flushRegistry, SpineStore.bind_of_eq hget]
  cases hchanged : s.registry.changed with
  | false => exact .unchanged hchanged
  | true =>
    rw [if_pos rfl, SpineStore.bind_of_eq htable]
    cases answer with
    | ok _ => exact .written hchanged hwrites hwrite
    | error error => exact .failed hchanged hwrites hwrite

/-- What writing the path graph does. -/
inductive FlushesPaths (s : Store) : Except IoError Nat → Store → Prop
  | unchanged (hchanged : s.paths.changed = false) : FlushesPaths s (.ok 0) s
  | written {medium : Medium} (hchanged : s.paths.changed = true)
      (h : WritesTable pathTable identityTable s.paths.encodeTable s.spines.medium (.ok ())
        medium)
      (hwrite : Medium.writeTable pathTable s.paths.encodeTable s.spines.medium =
        (.ok (), medium)) :
      FlushesPaths s (.ok 1)
        { s with paths := s.paths.settled, spines := { s.spines with medium } }
  | failed {medium : Medium} {error : IoError} (hchanged : s.paths.changed = true)
      (h : WritesTable pathTable identityTable s.paths.encodeTable s.spines.medium (.error error)
        medium)
      (hwrite : Medium.writeTable pathTable s.paths.encodeTable s.spines.medium =
        (.error error, medium)) :
      FlushesPaths s (.error error) { s with spines := { s.spines with medium } }

/-- Writing the path graph does what `FlushesPaths` says. -/
theorem flushesPaths (s : Store) : FlushesPaths s (flushPaths s).1 (flushPaths s).2 := by
  obtain ⟨answer, medium, hwrite⟩ : ∃ answer medium,
      Medium.writeTable pathTable s.paths.encodeTable s.spines.medium = (answer, medium) :=
    ⟨_, _, rfl⟩
  have hwrites := writesTable isRootTable_paths isRootTable_identity apart_paths_identity hwrite
  have htable : writeTable pathTable s.paths.encodeTable s =
      (answer, { s with spines := { s.spines with medium } }) := by
    simp only [writeTable, hwrite]
  have hget : (get : StateM Store Store) s = (s, s) := rfl
  rw [flushPaths, SpineStore.bind_of_eq hget]
  cases hchanged : s.paths.changed with
  | false => exact .unchanged hchanged
  | true =>
    rw [if_pos rfl, SpineStore.bind_of_eq htable]
    cases answer with
    | ok _ => exact .written hchanged hwrites hwrite
    | error error => exact .failed hchanged hwrites hwrite

/-- Writing the tables leaves the spines in memory alone. -/
theorem loaded_flushPaths (s : Store) :
    (flushPaths (flushRegistry s).2).2.spines.loaded = s.spines.loaded := by
  have hfirst : (flushRegistry s).2.spines.loaded = s.spines.loaded := by
    cases hflushes : flushRegistry s with
    | mk answer t =>
      have h := flushesRegistry s
      rw [hflushes] at h
      cases h <;> rfl
  rw [← hfirst]
  generalize (flushRegistry s).2 = first
  cases hflushes : flushPaths first with
  | mk answer t =>
    have h := flushesPaths first
    rw [hflushes] at h
    cases h <;> rfl

/-- Once both tables were written, neither the registry nor the path graph has changes. All blobs of
spines are what they were. -/
theorem store_of_flushes {m n : Nat} (hregistry : (flushRegistry s).1 = .ok m)
    (hpaths : (flushPaths (flushRegistry s).2).1 = .ok n) :
    ∃ medium : Medium,
      (∀ index, medium.backing.readSpine index = s.spines.medium.backing.readSpine index) ∧
      (flushPaths (flushRegistry s).2).2 =
        { s with
          registry := s.registry.settled
          paths := s.paths.settled
          spines := { s.spines with medium } } := by
  have hfirst := flushesRegistry s
  have hsecond := flushesPaths (flushRegistry s).2
  generalize flushRegistry s = first at *
  obtain ⟨answer, t⟩ := first
  dsimp only at *
  generalize flushPaths t = second at *
  obtain ⟨answer', u⟩ := second
  obtain rfl : answer = .ok m := hregistry
  obtain rfl : answer' = .ok n := hpaths
  obtain ⟨medium, hreads, rfl⟩ : ∃ medium : Medium,
      (∀ index, medium.backing.readSpine index = s.spines.medium.backing.readSpine index) ∧
      t = { s with registry := s.registry.settled, spines := { s.spines with medium } } := by
    cases hfirst with
    | unchanged hchanged =>
      refine ⟨s.spines.medium, fun _ => rfl, ?_⟩
      rw [Registry.settled, ← hchanged]
    | written _ hwrites => exact ⟨_, hwrites.readSpine, rfl⟩
  cases hsecond with
  | unchanged hchanged =>
    refine ⟨medium, hreads, ?_⟩
    dsimp only at hchanged ⊢
    rw [PathGraph.settled, ← hchanged]
  | written _ hwrites => exact ⟨_, fun index => (hwrites.readSpine index).trans (hreads index), rfl⟩

/-- A flush tries both tables, and then writes the spines if neither failed. -/
theorem ends_flush {ok : FlushStats → Store → Prop} {failed : StoreError → Store → Prop}
    (htables : ∀ error, (flushRegistry s).1 = .error error ∨
        (flushPaths (flushRegistry s).2).1 = .error error →
      failed (.io error) (flushPaths (flushRegistry s).2).2)
    (hspines : ∀ m n, (flushRegistry s).1 = .ok m → (flushPaths (flushRegistry s).2).1 = .ok n →
      Ends (tryOnSpines SpineStore.write) (flushPaths (flushRegistry s).2).2
        (fun spines t => ok { spines, tables := m + n } t) failed) :
    Ends flush s ok failed := by
  generalize hfirst : flushRegistry s = first at htables hspines
  obtain ⟨registry, t⟩ := first
  generalize hsecond : flushPaths t = second at htables hspines
  obtain ⟨paths, u⟩ := second
  have hrun : flush s = (do
      let tables ← outcome (do return (← registry) + (← paths))
      let spines ← tryOnSpines SpineStore.write
      return { spines, tables } : Action FlushStats) u := by
    simp only [flush, bind, EStateM.bind, infallible, hfirst, hsecond]
    rfl
  simp only [Ends, hrun]
  cases registry with
  | error error => exact htables error (Or.inl rfl)
  | ok m =>
    cases paths with
    | error error => exact htables error (Or.inr rfl)
    | ok n => exact (hspines m n rfl rfl).bind fun spines v hok => ends_pure hok

end Store

end Chronicle
