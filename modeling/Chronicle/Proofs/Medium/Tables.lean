import Chronicle.Proofs.Medium.Spines

/-!
# Tables on a medium

Tables obey the same laws as spines, as far as their files lie in the root directory. A table that
was written is read back, a write that fails changes no table, and neither a table nor a spine is
changed by writing the other.
-/

namespace Chronicle

namespace FileTree

variable {tree next : FileTree} {path place : List String} {name directory : String}

/-- Below a directory, a path is followed by following the rest of it from there. -/
theorem LeadsTo.follow_append (h : LeadsTo tree path place) {rest : List String}
    (hrest : rest ≠ []) : tree.follow [] (path ++ rest) = tree.follow place rest := by
  suffices hfollow : ∀ from', tree.follow from' path = .ok place →
      tree.follow from' (path ++ rest) = tree.follow place rest from hfollow [] h.follow_eq
  have hplace := h.node?_eq
  clear h
  intro from' h
  induction path generalizing from' with
  | nil =>
    cases h
    rfl
  | cons first others ih =>
    rw [List.cons_append, follow_cons (by simp [hrest])]
    by_cases hothers : others = []
    · subst hothers
      rw [follow, bind_eq_ok_iff] at h
      obtain ⟨⟨⟩, hfirst, h⟩ := h
      cases h
      rw [hfirst, hplace]
      rfl
    · obtain ⟨hfirst, hnode, h⟩ := (follow_cons_eq_ok_iff hothers).mp h
      rw [hfirst, hnode]
      exact ih _ h

/-- Whoever gets to a directory has come through the one above it. -/
theorem LeadsTo.exists_parent (h : LeadsTo tree (path ++ [name]) place) (hname : IsPlain name) :
    ∃ parent, LeadsTo tree path parent ∧ place = parent ++ [name] := by
  obtain ⟨parent, hparent⟩ : ∃ parent, LeadsTo tree path parent := by
    by_cases hpath : path = []
    · subst hpath
      exact ⟨[], rfl, rfl⟩
    · obtain ⟨parent, hfollow, hnode⟩ := exists_leadsTo_of_follow h.follow_eq hpath
      exact ⟨parent, hfollow, hnode⟩
  have hfollow := h.follow_eq
  rw [hparent.follow_append (List.cons_ne_nil name []), follow, bind_eq_ok_iff] at hfollow
  obtain ⟨⟨⟩, -, hfollow⟩ := hfollow
  cases hfollow
  exact ⟨parent, hparent, hname parent⟩

/-- From where a path leads to, the names of a directory and of a file in it are followed on. -/
theorem LeadsTo.follow_below (h : LeadsTo tree path place) (hdirectory : IsPlain directory)
    (hname : IsPlain name) :
    tree.follow [] (path ++ [directory] ++ [name]) = (do
      checkName directory
      match tree.node? (place ++ [directory]) with
      | none => throw .notFound
      | some (.file _) => throw .notDirectory
      | some .directory => do
        checkName name
        return place ++ [directory] ++ [name]) := by
  have hlast : tree.follow (place ++ [directory]) [name] =
      (checkName name >>= fun _ => .ok (place ++ [directory] ++ [name])) := by
    rw [follow, hname (place ++ [directory])]
    rfl
  have hbelow : tree.follow place (directory :: [name]) = _ :=
    follow_cons (List.cons_ne_nil name [])
  rw [hdirectory place, hlast] at hbelow
  rw [List.append_assoc, h.follow_append (by simp)]
  exact hbelow

/-- A file one directory further down is read the same in two trees in which the same stands at its
place and at the place of the directory. -/
theorem LeadsTo.read_below (h : LeadsTo tree path place) (hnext : LeadsTo next path place)
    (hdirectory : IsPlain directory) (hname : IsPlain name)
    (hnode : next.node? (place ++ [directory]) = tree.node? (place ++ [directory]))
    (hfile : next.node? (place ++ [directory] ++ [name]) =
      tree.node? (place ++ [directory] ++ [name])) :
    next.read (path ++ [directory] ++ [name]) = tree.read (path ++ [directory] ++ [name]) := by
  simp only [read, find, locate, h.follow_below hdirectory hname,
    hnext.follow_below hdirectory hname, hnode]
  cases checkPath (path ++ [directory] ++ [name]) with
  | error error => rfl
  | ok _ =>
    cases checkName directory with
    | error error => rfl
    | ok _ =>
      cases tree.node? (place ++ [directory]) with
      | none => rfl
      | some node =>
        cases node with
        | file data => rfl
        | directory =>
          cases checkName name with
          | error error => rfl
          | ok _ => simp only [bind, Except.bind, pure, Except.pure, hfile]

end FileTree

namespace Folder

open FileTree (IsPlain temporaryName LeadsTo)

variable {folder next : Folder} {name other : String} {table blob : Bytes} {index : Nat}

/-- A table whose file lies in the root directory, as does its temporary sibling. -/
structure IsRootTable (name : String) : Prop where
  tablePath_eq : ∀ folder : Folder, folder.tablePath name = (folder.root, tableName name)
  file : IsPlain (tableName name)
  temporary : IsPlain (temporaryName (tableName name))
  ne_temporary : tableName name ≠ temporaryName (tableName name)
  ne_spines : "spines" ≠ tableName name ∧ "spines" ≠ temporaryName (tableName name)

/-- Writing one table does not touch the file of the other. -/
structure Apart (name other : String) : Prop where
  file : tableName other ≠ tableName name
  temporary : tableName other ≠ temporaryName (tableName name)

/-- The name of the directory of the spines is plain. -/
theorem isPlain_spines : IsPlain "spines" := by
  intro directory
  rw [FileTree.advance, if_neg (by decide), if_neg (by decide)]

/-- Writing a table replaces its file. -/
theorem replaceFile_of_writeTable {answer : Except IoError Unit} (hname : IsRootTable name)
    (h : folder.writeTable name table = (answer, next)) :
    ∃ outcome, folder.tree.replaceFile folder.root (tableName name) table = (outcome, next.tree) ∧
      next.root = folder.root ∧ (answer = .ok () ↔ outcome = .ok ()) := by
  rw [writeTable, hname.tablePath_eq] at h
  simp only [write] at h
  split at h <;> rename_i hreplace <;> cases h
  · exact ⟨_, hreplace, rfl, by simp⟩
  · exact ⟨_, hreplace, rfl, by simp⟩

/-- A table is read the same where its file is. -/
theorem readTable_congr (hname : IsRootTable name) (hroot : next.root = folder.root)
    (h : next.tree.read (folder.root ++ [tableName name]) =
      folder.tree.read (folder.root ++ [tableName name])) :
    next.readTable name = folder.readTable name := by
  simp only [readTable, hname.tablePath_eq, read, hroot, h]

/-- A table that was written to a folder is read from it. -/
theorem readTable_self (hname : IsRootTable name)
    (h : folder.writeTable name table = (.ok (), next)) :
    next.readTable name = .ok (some table) := by
  obtain ⟨outcome, hreplace, hroot, hok⟩ := replaceFile_of_writeTable hname h
  obtain rfl := hok.mp rfl
  obtain ⟨⟨error, herror⟩, -⟩ | ⟨place, -, hreplaced⟩ :=
    FileTree.replaceFile_spec hname.file hname.temporary hname.ne_temporary hreplace
  · cases herror
  · simp only [readTable, hname.tablePath_eq, hroot, read, hreplaced.read_of_ok rfl]

/-- Writing a table changes no other table, and none at all if it fails. -/
theorem readTable_other {answer : Except IoError Unit} (hname : IsRootTable name)
    (hother : IsRootTable other) (h : folder.writeTable name table = (answer, next))
    (hapart : Apart name other ∨ other = name ∧ answer ≠ .ok ()) :
    next.readTable other = folder.readTable other := by
  obtain ⟨outcome, hreplace, hroot, hok⟩ := replaceFile_of_writeTable hname h
  apply readTable_congr hother hroot
  obtain ⟨-, htree⟩ | ⟨place, hplace, hreplaced⟩ :=
    FileTree.replaceFile_spec hname.file hname.temporary hname.ne_temporary hreplace
  · rw [htree]
  · refine hplace.read_congr (hreplaced.agree.keepsDirectories.leadsTo hplace) hother.file ?_
    obtain hapart | ⟨rfl, hanswer⟩ := hapart
    · exact hreplaced.agree.node?_eq (by simp [hapart.file, hapart.temporary])
    · cases outcome with
      | ok _ => exact absurd (hok.mpr rfl) hanswer
      | error error => exact hreplaced.node?_of_error error rfl

/-- Writing a table changes no spine. -/
theorem readSpine_of_writeTable {answer : Except IoError Unit} (hname : IsRootTable name)
    (h : folder.writeTable name table = (answer, next)) (index : Nat) :
    next.readSpine index = folder.readSpine index := by
  obtain ⟨outcome, hreplace, hroot, -⟩ := replaceFile_of_writeTable hname h
  apply readSpine_congr hroot
  obtain ⟨-, htree⟩ | ⟨place, hplace, hreplaced⟩ :=
    FileTree.replaceFile_spec hname.file hname.temporary hname.ne_temporary hreplace
  · rw [htree]
  · refine hplace.read_below (hreplaced.agree.keepsDirectories.leadsTo hplace) isPlain_spines
      (isPlain_spineName index) ?_ ?_
    · exact hreplaced.agree.node?_eq (by simp [hname.ne_spines.1, hname.ne_spines.2])
    · exact hreplaced.agree.node?_eq (by simp)

/-- Writing a spine changes no table. -/
theorem readTable_of_writeSpine {answer : Except IoError Unit} (hname : IsRootTable name)
    (h : folder.writeSpine index blob = (answer, next)) :
    next.readTable name = folder.readTable name := by
  obtain ⟨outcome, hreplace, hroot, -⟩ := replaceFile_of_writeSpine h
  apply readTable_congr hname hroot
  obtain ⟨-, htree⟩ | ⟨place, hplace, hreplaced⟩ :=
    FileTree.replaceFile_spec (isPlain_spineName index) (isPlain_temporaryName index)
      (spineName_ne_temporaryName index index) hreplace
  · rw [htree]
  · obtain ⟨root, hrootPlace, rfl⟩ := hplace.exists_parent isPlain_spines
    refine hrootPlace.read_congr (hreplaced.agree.keepsDirectories.leadsTo hrootPlace) hname.file ?_
    exact hreplaced.agree.node?_eq (by simp)

end Folder

namespace Backing

open Folder (IsRootTable Apart)

variable {backing next : Backing} {name other : String} {table blob : Bytes} {index : Nat}
  {answer : Except IoError Unit}

private theorem writeTable_folder {folder : Folder}
    (h : Backing.writeTable name table (.folder folder) = (answer, next)) :
    ∃ folder', folder.writeTable name table = (answer, folder') ∧ next = .folder folder' := by
  cases hwrite : folder.writeTable name table with
  | mk answer' folder' =>
    simp only [writeTable, hwrite] at h
    cases h
    exact ⟨folder', rfl, rfl⟩

/-- A table that was written is read. -/
theorem readTable_self (hname : IsRootTable name)
    (h : backing.writeTable name table = (.ok (), next)) :
    next.readTable name = .ok (some table) := by
  cases backing with
  | shelf shelf =>
    cases h
    simp [readTable, Shelf.readTable, Shelf.writeTable]
  | folder folder =>
    obtain ⟨folder', hwrite, rfl⟩ := writeTable_folder h
    simp only [readTable, Folder.readTable_self hname hwrite]

/-- Writing a table changes no table apart from it, and not even its own if it fails. -/
theorem readTable_other (hname : IsRootTable name) (hother : IsRootTable other)
    (h : backing.writeTable name table = (answer, next))
    (hapart : Apart name other ∨ other = name ∧ answer ≠ .ok ()) :
    next.readTable other = backing.readTable other := by
  cases backing with
  | shelf shelf =>
    cases h
    obtain hapart | ⟨-, hanswer⟩ := hapart
    · have hne : name ≠ other := by
        rintro rfl
        exact hapart.file rfl
      simp [readTable, Shelf.readTable, Shelf.writeTable, Std.ExtTreeMap.getElem?_insert, hne]
    · exact absurd rfl hanswer
  | folder folder =>
    obtain ⟨folder', hwrite, rfl⟩ := writeTable_folder h
    simp only [readTable, Folder.readTable_other hname hother hwrite hapart]

/-- Writing a table changes no spine. -/
theorem readSpine_of_writeTable (hname : IsRootTable name)
    (h : backing.writeTable name table = (answer, next)) (index : Nat) :
    next.readSpine index = backing.readSpine index := by
  cases backing with
  | shelf shelf =>
    cases h
    rfl
  | folder folder =>
    obtain ⟨folder', hwrite, rfl⟩ := writeTable_folder h
    simp only [readSpine, Folder.readSpine_of_writeTable hname hwrite index]

/-- Writing a spine changes no table. -/
theorem readTable_of_writeSpine (hname : IsRootTable name)
    (h : backing.writeSpine index blob = (answer, next)) :
    next.readTable name = backing.readTable name := by
  cases backing with
  | shelf shelf =>
    cases h
    rfl
  | folder folder =>
    cases hwrite : folder.writeSpine index blob with
    | mk answer' folder' =>
      simp only [writeSpine, hwrite] at h
      cases h
      simp only [readTable, Folder.readTable_of_writeSpine hname hwrite]

end Backing

end Chronicle
