import Chronicle.Proofs.Medium.TableFile
import Chronicle.Proofs.Medium.Writes
import Mathlib.Data.List.Nodup
import Mathlib.Data.List.Sort

/-!
# Folders that mirror shelves

A folder mirrors a shelf if the same blobs are found in both, and nothing but temporary siblings is
found in the folder besides. Whatever of a write was carried out, the file of the blob has its old or
its new bytes, and all that may be left over is a temporary sibling, which is neither a table nor a
spine. So the folder mirrors the shelf still, with the write or without it, and it makes no difference
that it is opened anew.
-/

namespace Chronicle

namespace FileTree

variable {tree next : FileTree} {path place : List String} {name : String} {data : Bytes}

private theorem AgreeExcept.symm {places : List (List String)} (h : AgreeExcept places tree next) :
    AgreeExcept places next tree :=
  fun place => (h place).imp Eq.symm fun hmem => ⟨hmem.1, hmem.2.2, hmem.2.1⟩

/-- The file system takes the name of a file, and the path to it through a directory. -/
structure Fits (path : List String) (name : String) : Prop where
  path_ok : checkPath (path ++ [name]) = .ok ()
  name_ok : checkName name = .ok ()

instance (path : List String) (name : String) : Decidable (Fits path name) :=
  decidable_of_iff (checkPath (path ++ [name]) = .ok () ∧ checkName name = .ok ())
    ⟨fun h => ⟨h.1, h.2⟩, fun h => ⟨h.path_ok, h.name_ok⟩⟩

/-- A plain name that fits is located below the directory that its path leads to. -/
theorem LeadsTo.locate_of_fits (h : LeadsTo tree path place) (hname : IsPlain name)
    (hfits : Fits path name) : tree.locate (path ++ [name]) = .ok (place ++ [name]) := by
  rw [h.locate_eq hname, hfits.path_ok, hfits.name_ok]
  rfl

/-! ## Names in a directory -/

/-- The name of an entry, if it lies in the directory at a place. -/
def childName? (place entry : List String) : Option String :=
  if entry.length = place.length + 1 ∧ place.isPrefixOf entry then entry.getLast? else none

private theorem childName?_eq_some_iff {entry : List String} :
    childName? place entry = some name ↔ entry = place ++ [name] := by
  unfold childName?
  constructor
  · intro h
    split at h
    · rename_i hchild
      obtain ⟨rest, rfl⟩ := List.isPrefixOf_iff_prefix.mp hchild.2
      obtain ⟨only, rfl⟩ := List.length_eq_one_iff.mp (by simpa using hchild.1)
      simpa using h
    · cases h
  · rintro rfl
    simp

/-- The names in a directory are those of what stands in it, each of them once. -/
theorem LeadsTo.exists_names (h : LeadsTo tree path place) (hpath : checkPath path = .ok ()) :
    ∃ names, tree.names path = .ok names ∧ names.Nodup ∧
      ∀ name, name ∈ names ↔ (tree.node? (place ++ [name])).isSome := by
  refine ⟨tree.entries.keys.filterMap (childName? place), ?_, ?_, fun name => ?_⟩
  · simp only [names, locate, hpath, h.follow_eq, h.node?_eq, bind, Except.bind, pure, Except.pure]
    rfl
  · refine List.Nodup.filterMap (fun entry other name hentry hother => ?_)
      Std.ExtTreeMap.nodup_keys
    rw [childName?_eq_some_iff.mp hentry, childName?_eq_some_iff.mp hother]
  · simp only [List.mem_filterMap, childName?_eq_some_iff, exists_eq_right, Std.ExtTreeMap.mem_keys,
      Std.ExtTreeMap.mem_iff_isSome_getElem?, node?, List.append_eq_nil_iff, List.cons_ne_nil,
      and_false, if_false]

/-- A path whose names are listed leads to a directory. -/
theorem leadsTo_of_names {names : List String} (h : tree.names path = .ok names) :
    checkPath path = .ok () ∧ ∃ place, LeadsTo tree path place := by
  rw [FileTree.names, bind_eq_ok_iff] at h
  obtain ⟨place, hplace, h⟩ := h
  rw [locate, bind_eq_ok_iff] at hplace
  obtain ⟨⟨⟩, hpath, hfollow⟩ := hplace
  split at h
  · rename_i hnode
    exact ⟨hpath, place, hfollow, hnode⟩
  · cases h
  · cases h

/-! ## Directories that are there -/

/-- Nothing is made along a path that leads to a directory. -/
theorem createFrom_append {directory : List String} (h : tree.follow directory path = .ok place)
    (hplace : tree.node? place = some .directory) (rest : List String) :
    tree.createFrom directory (path ++ rest) = tree.createFrom place rest := by
  induction path generalizing directory with
  | nil =>
    cases h
    rfl
  | cons first others ih =>
    by_cases hothers : others = []
    · subst hothers
      rw [follow, bind_eq_ok_iff] at h
      obtain ⟨⟨⟩, hfirst, h⟩ := h
      cases h
      simp only [List.cons_append, List.nil_append, createFrom, hfirst, hplace]
    · obtain ⟨hfirst, hnode, h⟩ := (follow_cons_eq_ok_iff hothers).mp h
      simp only [List.cons_append, createFrom, hfirst, hnode, ih h]

/-- Creating directories that are there changes nothing. -/
theorem createFrom_eq {directory : List String} (h : tree.follow directory path = .ok place)
    (hplace : tree.node? place = some .directory) :
    tree.createFrom directory path = (.ok (), tree) := by
  have hcreate := createFrom_append h hplace []
  rw [List.append_nil] at hcreate
  exact hcreate

/-- The tree with a directory at a place. -/
def withDirectory (tree : FileTree) (place : List String) : FileTree :=
  ⟨tree.entries.insert place .directory⟩

/-- A directory is added at its place and nowhere else. -/
theorem node?_withDirectory (tree : FileTree) (place other : List String) :
    (tree.withDirectory place).node? other =
      if other = place then some .directory else tree.node? other := by
  simp only [node?, withDirectory, Std.ExtTreeMap.getElem?_insert, Std.compare_eq_iff_eq]
  by_cases hother : other = place
  · simp [hother]
  · simp [hother, Ne.symm hother]

/-- Adding a directory keeps the others. -/
theorem keepsDirectories_withDirectory (tree : FileTree) (place : List String) :
    KeepsDirectories tree (tree.withDirectory place) := by
  intro other hother
  rw [node?_withDirectory, hother]
  split <;> rfl

/-- The only directory that is missing on a path is made at its end. -/
theorem LeadsTo.createFrom_child (h : LeadsTo tree path place) (hname : IsPlain name)
    (hname_ok : checkName name = .ok ()) (hnone : tree.node? (place ++ [name]) = none) :
    tree.createFrom [] (path ++ [name]) = (.ok (), tree.withDirectory (place ++ [name])) ∧
      LeadsTo (tree.withDirectory (place ++ [name])) (path ++ [name]) (place ++ [name]) := by
  have hkeeps := keepsDirectories_withDirectory tree (place ++ [name])
  refine ⟨?_, ?_, by rw [node?_withDirectory, if_pos rfl]⟩
  · rw [createFrom_append h.follow_eq h.node?_eq, createFrom, hname place, hname_ok, hnone]
    rfl
  · have hleads := hkeeps.leadsTo h
    rw [follow_append_singleton hleads.follow_eq hleads.node?_eq, follow, hname place, hname_ok]
    rfl

/-- Nothing stands below a directory that has no entries. -/
theorem node?_eq_none_of_below {rest : List String} (h : tree.below place = [])
    (hrest : rest ≠ []) : tree.node? (place ++ rest) = none := by
  rw [below, List.map_eq_nil_iff, List.filter_eq_nil_iff] at h
  rw [node?, if_neg (by simp [hrest])]
  by_contra hfound
  obtain ⟨node, hnode⟩ := Option.ne_none_iff_exists'.mp hfound
  refine h (place ++ rest, node) (Std.ExtTreeMap.mem_toList_iff_getElem?_eq_some.mpr hnode) ?_
  simpa using List.length_pos_iff.mpr hrest

end FileTree

/-! ## Writes that are cut off -/

open FileTree (AgreeExcept Fits LeadsTo ReplaceStep Replaceable checkPath temporaryName)

/-- How far a write has come when it is cut off. -/
inductive Cut where
  | begun
  /-- The temporary sibling was made. -/
  | created
  /-- So many bytes were written into the temporary sibling. -/
  | filled (size : Nat)
  /-- The temporary sibling is safe on the medium. -/
  | synced
  /-- The temporary sibling was moved into place. -/
  | renamed
  deriving DecidableEq

/-- The steps that a write has taken when it is cut off. -/
def Cut.steps (cut : Cut) (directory : List String) (name : String) (data : Bytes) :
    List ReplaceStep :=
  match cut with
  | begun => []
  | created => (FileTree.replaceSteps directory name data).take 1
  | filled size => (FileTree.replaceSteps directory name (data.take size)).take 2
  | synced => (FileTree.replaceSteps directory name data).take 3
  | renamed => FileTree.replaceSteps directory name data

namespace FileTree

variable {tree : FileTree} {path place : List String} {name : String}

/-- A write that is cut off changes its file and the temporary sibling only, and its file only when
the sibling is moved into place. -/
theorem Replaceable.takeAll_cut (hname : IsPlain name) (htemporary : IsPlain (temporaryName name))
    (hne : name ≠ temporaryName name) (h : Replaceable tree path place name) (data : Bytes)
    (cut : Cut) :
    AgreeExcept [place ++ [temporaryName name], place ++ [name]] tree
        (tree.takeAll (cut.steps path name data)).2 ∧
      (tree.takeAll (cut.steps path name data)).2.node? (place ++ [name]) =
        if cut = .renamed then some (.file data) else tree.node? (place ++ [name]) := by
  have hplaces : place ++ [name] ≠ place ++ [temporaryName name] := by simpa using hne
  have hmore : [place ++ [temporaryName name]] ⊆
      [place ++ [temporaryName name], place ++ [name]] := by simp
  -- Up to the last step only the temporary sibling changes.
  have hleft {next : FileTree} (hagree : AgreeExcept [place ++ [temporaryName name]] tree next) :
      AgreeExcept [place ++ [temporaryName name], place ++ [name]] tree next ∧
        next.node? (place ++ [name]) = tree.node? (place ++ [name]) :=
    ⟨hagree.mono hmore, hagree.node?_eq (by simpa using hplaces)⟩
  have hcreated := agreeExcept_withFile h.temporary_ne []
  have hcreate : tree.write (path ++ [temporaryName name]) [] =
      .ok (tree.withFile (place ++ [temporaryName name]) []) :=
    (write_eq_ok_iff h.locate_temporary).mpr ⟨h.temporary_ne, rfl⟩
  have hthere := h.of_agreeExcept hname htemporary hcreated
  have hfilled (bytes : Bytes) := hcreated.trans (agreeExcept_withFile hthere.temporary_ne bytes)
  have hfill (bytes : Bytes) := (write_eq_ok_iff hthere.locate_temporary).mpr
    ⟨hthere.temporary_ne, Eq.refl (FileTree.withFile _ _ bytes)⟩
  cases cut with
  | begun => exact hleft fun _ => Or.inl rfl
  | created =>
    simp only [Cut.steps, replaceSteps, List.take_succ_cons, List.take_zero, takeAll, take, hcreate]
    exact hleft hcreated
  | filled size =>
    simp only [Cut.steps, replaceSteps, List.take_succ_cons, List.take_zero, takeAll, take, hcreate,
      hfill]
    exact hleft (hfilled _)
  | synced =>
    simp only [Cut.steps, replaceSteps, List.take_succ_cons, List.take_zero, takeAll, take, hcreate,
      hfill]
    exact hleft (hfilled _)
  | renamed =>
    have hall : tree.takeAll (Cut.renamed.steps path name data) =
        (.ok (), tree.replaced place name data) :=
      h.replaceFile_eq hname htemporary hne data
    rw [hall]
    refine ⟨h.agreeExcept data, ?_⟩
    rw [node?, if_neg (by simp), getElem?_replaced, if_neg hplaces, if_pos rfl, if_pos rfl]

end FileTree

/-! ## Mirrors -/

/-- What a write makes of a shelf. -/
def Shelf.after (shelf : Shelf) : Write → Shelf
  | .table name bytes => shelf.writeTable name bytes
  | .spine index bytes => shelf.writeSpine index bytes

namespace Write

/-- A write of a table with a plain name, or of a spine with a 32-bit index. -/
def IsPlain : Write → Prop
  | table name _ => Folder.IsPlainTable name
  | spine index _ => index < UInt32.size

instance : (w : Write) → Decidable w.IsPlain
  | table name _ => inferInstanceAs (Decidable (Folder.IsPlainTable name))
  | spine index _ => inferInstanceAs (Decidable (index < UInt32.size))

/-- What is found on a shelf of the blob that a write concerns. -/
def found? (w : Write) (shelf : Shelf) : Option Bytes :=
  match w with
  | table name _ => shelf.readTable name
  | spine index _ => shelf.readSpine index

/-- Two writes concern the same blob. -/
def SameBlob : Write → Write → Prop
  | table name _, table other _ => name = other
  | spine index _, spine other _ => index = other
  | _, _ => False

variable {w v : Write}

/-- A plain write has its file in the root directory or among the spines. -/
theorem IsPlain.isRooted (h : w.IsPlain) : w.IsRooted := by
  cases w with
  | table name bytes => exact Folder.IsPlainTable.isRootTable h
  | spine index bytes => trivial

/-- After a write its blob is found. -/
theorem found?_after (w : Write) (shelf : Shelf) : w.found? (shelf.after w) = some w.data := by
  cases w with
  | table name bytes => simp [found?, Shelf.after, Shelf.readTable, Shelf.writeTable, data]
  | spine index bytes => simp [found?, Shelf.after, Shelf.readSpine, Shelf.writeSpine, data]

/-- A write changes no other blob. -/
theorem found?_after_other (h : ¬ v.SameBlob w) (shelf : Shelf) :
    v.found? (shelf.after w) = v.found? shelf := by
  cases w with
  | table name bytes =>
    cases v with
    | table other bytes =>
      have hne : name ≠ other := Ne.symm h
      simp [found?, Shelf.after, Shelf.readTable, Shelf.writeTable, Std.ExtTreeMap.getElem?_insert,
        hne]
    | spine index bytes => rfl
  | spine index bytes =>
    cases v with
    | table name bytes => rfl
    | spine other bytes =>
      have hne : index ≠ other := Ne.symm h
      simp [found?, Shelf.after, Shelf.readSpine, Shelf.writeSpine, Std.ExtTreeMap.getElem?_insert,
        hne]

private theorem SameBlob.found?_eq (h : v.SameBlob w) (shelf : Shelf) :
    v.found? shelf = w.found? shelf := by
  cases w <;> cases v <;> cases h <;> rfl

private theorem SameBlob.file_eq (h : v.SameBlob w) (place : List String) :
    v.directory place ++ [v.name] = w.directory place ++ [w.name] := by
  cases w <;> cases v <;> cases h <;> rfl

/-- The places at which a write changes something: that of its file, and that of the temporary
sibling. -/
def touched (w : Write) (place : List String) : List (List String) :=
  [w.directory place ++ [temporaryName w.name], w.directory place ++ [w.name]]

/-- The file of another blob is not touched. -/
theorem IsPlain.file_notMem (hw : w.IsPlain) (h : ¬ v.SameBlob w) (place : List String) :
    v.directory place ++ [v.name] ∉ w.touched place := by
  cases w with
  | table name bytes =>
    cases v with
    | table other bytes =>
      have hapart := Folder.IsPlainTable.apart hw h
      simp [touched, directory, Write.name, hapart.file, hapart.temporary]
    | spine index bytes => simp [touched, directory]
  | spine index bytes =>
    cases v with
    | table name bytes => simp [touched, directory]
    | spine other bytes =>
      have hname : Folder.spineName other ≠ Folder.spineName index :=
        fun hname => h (Folder.spineName_inj hname)
      simp [touched, directory, Write.name, hname, Folder.spineName_ne_temporaryName]

/-- Of the names that are touched in the directory of the spines, an index is read off that of the
file only. -/
theorem IsPlain.eq_spineName {name : String} {index : Nat} {place : List String} (hw : w.IsPlain)
    (hmem : place ++ ["spines"] ++ [name] ∈ w.touched place)
    (hindex : Folder.spineIndex? name = some index) : name = Folder.spineName index := by
  cases w with
  | table other bytes => simp [touched, directory] at hmem
  | spine written bytes =>
    obtain hname | hname : name = temporaryName (Folder.spineName written) ∨
        name = Folder.spineName written := by
      simpa [touched, directory, Write.name] using hmem
    · rw [hname, Folder.spineIndex?_temporaryName] at hindex
      cases hindex
    · rw [hname, Folder.spineIndex?_spineName hw] at hindex
      cases hindex
      exact hname

/-- A write that the file system takes: its file and the temporary sibling can be named there. -/
structure Fits (root : List String) (w : Write) : Prop where
  file : FileTree.Fits (w.directory root) w.name
  temporary : FileTree.Fits (w.directory root) (temporaryName w.name)

instance (root : List String) (w : Write) : Decidable (w.Fits root) :=
  decidable_of_iff (FileTree.Fits (w.directory root) w.name ∧
      FileTree.Fits (w.directory root) (temporaryName w.name))
    ⟨fun h => ⟨h.1, h.2⟩, fun h => ⟨h.file, h.temporary⟩⟩

end Write

/-- A folder whose root directory is at a place has the blobs of a shelf. -/
structure Mirrors (place : List String) (folder : Folder) (shelf : Shelf) : Prop where
  root : LeadsTo folder.tree folder.root place
  spines : LeadsTo folder.tree folder.spineDirectory (place ++ ["spines"])
  spines_ok : checkPath folder.spineDirectory = .ok ()
  file : ∀ w : Write,
    folder.tree.node? (w.directory place ++ [w.name]) = (w.found? shelf).map .file
  /-- There are no other directories. -/
  directory : ∀ name, folder.tree.node? (place ++ [name]) = some .directory → name = "spines"
  spines_directory : ∀ name, folder.tree.node? (place ++ ["spines"] ++ [name]) ≠ some .directory
  /-- No other file has a name that an index can be read off. -/
  named : ∀ name index, (folder.tree.node? (place ++ ["spines"] ++ [name])).isSome →
    Folder.spineIndex? name = some index → name = Folder.spineName index
  lt_size : ∀ index, (shelf.readSpine index).isSome → index < UInt32.size

namespace Mirrors

variable {place : List String} {folder : Folder} {shelf shelf' : Shelf} {w : Write}
  {next : FileTree}

/-- A mirrored folder has the directory of every write. -/
theorem leadsTo (h : Mirrors place folder shelf) (w : Write) :
    LeadsTo folder.tree (w.directory folder.root) (w.directory place) := by
  cases w with
  | table name bytes => exact h.root
  | spine index bytes => exact h.spines

/-- A folder that mirrors a shelf takes every write. -/
theorem replaceable (h : Mirrors place folder shelf) (hw : w.IsPlain)
    (hfits : w.Fits folder.root) :
    Replaceable folder.tree (w.directory folder.root) (w.directory place) w.name where
  leadsTo := h.leadsTo w
  locate_file := (h.leadsTo w).locate_of_fits hw.isRooted.isPlain_name hfits.file
  locate_temporary :=
    (h.leadsTo w).locate_of_fits hw.isRooted.isPlain_temporaryName hfits.temporary
  file_ne := by
    rw [h.file w]
    cases w.found? shelf <;> simp
  temporary_ne := by
    cases w with
    | table name bytes =>
      exact fun hnode => hw.isRootTable.ne_spines.2 (h.directory _ hnode).symm
    | spine index bytes => exact h.spines_directory _

/-- Where only the file of a write and the temporary sibling were touched, the folder mirrors the
shelf with the write or without it, by what stands in the file. -/
theorem of_agreeExcept (h : Mirrors place folder shelf) (hw : w.IsPlain)
    (hagree : AgreeExcept (w.touched place) folder.tree next)
    (hshelf : shelf' = shelf ∨ shelf' = shelf.after w)
    (hfile : next.node? (w.directory place ++ [w.name]) = (w.found? shelf').map .file) :
    Mirrors place { folder with tree := next } shelf' := by
  have hkeeps := hagree.keepsDirectories
  have hback := hagree.symm.keepsDirectories
  have hother {v : Write} (hv : ¬ v.SameBlob w) : v.found? shelf' = v.found? shelf := by
    obtain rfl | rfl := hshelf
    · rfl
    · exact Write.found?_after_other hv shelf
  refine ⟨hkeeps.leadsTo h.root, hkeeps.leadsTo h.spines, h.spines_ok, fun v => ?_,
    fun name hnode => h.directory name (hback _ hnode),
    fun name hnode => h.spines_directory name (hback _ hnode), fun name index hname hindex => ?_,
    fun index hindex => ?_⟩
  · by_cases hv : v.SameBlob w
    · rw [hv.file_eq, hv.found?_eq]
      exact hfile
    · rw [hother hv, ← h.file v]
      exact hagree.node?_eq (hw.file_notMem hv place)
  · obtain heq | ⟨hmem, -, -⟩ := hagree (place ++ ["spines"] ++ [name])
    · rw [heq] at hname
      exact h.named name index hname hindex
    · exact hw.eq_spineName hmem hindex
  · by_cases hv : (Write.spine index []).SameBlob w
    · cases w with
      | table name bytes => cases hv
      | spine written bytes => exact hv ▸ hw
    · have hfound : shelf'.readSpine index = shelf.readSpine index := hother hv
      rw [hfound] at hindex
      exact h.lt_size index hindex

/-- A write leaves a folder that mirrors the shelf with the write. -/
theorem after (h : Mirrors place folder shelf) (hw : w.IsPlain) (hfits : w.Fits folder.root) :
    Backing.put (.folder folder) w = (.ok (), Backing.after (.folder folder) w) ∧
      ∃ next, Backing.after (.folder folder) w = .folder { folder with tree := next } ∧
        Mirrors place { folder with tree := next } (shelf.after w) := by
  have hreplaceable := h.replaceable hw hfits
  have htakes := hw.isRooted.takes_folder_iff.mpr ⟨_, hreplaceable⟩
  refine ⟨Prod.ext htakes rfl, _, hw.isRooted.after_folder hreplaceable, ?_⟩
  refine h.of_agreeExcept hw (hreplaceable.agreeExcept w.data) (Or.inr rfl) ?_
  have hne : w.directory place ++ [w.name] ≠ w.directory place ++ [temporaryName w.name] := by
    simpa using hw.isRooted.ne_temporaryName
  rw [w.found?_after, FileTree.node?, if_neg (by simp), FileTree.getElem?_replaced, if_neg hne,
    if_pos rfl, Option.map_some]

/-- A folder that mirrors a shelf is the same when it is opened anew. -/
theorem open_eq (h : Mirrors place folder shelf) :
    Folder.open folder.tree folder.root = .ok folder := by
  have hroot : (folder.tree.contains folder.root && !folder.tree.isDirectory folder.root) =
      false := by
    unfold FileTree.contains FileTree.isDirectory FileTree.find FileTree.locate
    cases checkPath folder.root with
    | error error => rfl
    | ok _ =>
      simp only [h.root.follow_eq, h.root.node?_eq, bind, Except.bind, pure, Except.pure]
      rfl
  have hcreate : folder.tree.createDirectories (folder.root ++ ["spines"]) =
      (.ok (), folder.tree) := by
    have hpath : checkPath (folder.root ++ ["spines"]) = .ok () := h.spines_ok
    rw [FileTree.createDirectories, hpath]
    exact FileTree.createFrom_eq h.spines.follow_eq h.spines.node?_eq
  simp only [Folder.open, hroot, hcreate, Bool.false_eq_true, if_false]

/-- A write that is cut off leaves a folder that mirrors the shelf, with the write once the file was
moved into place. -/
theorem takeAll_cut (h : Mirrors place folder shelf) (hw : w.IsPlain) (hfits : w.Fits folder.root)
    (cut : Cut) :
    Mirrors place
      { folder with
        tree := (folder.tree.takeAll (cut.steps (w.directory folder.root) w.name w.data)).2 }
      (if cut = .renamed then shelf.after w else shelf) := by
  obtain ⟨hagree, hfile⟩ := (h.replaceable hw hfits).takeAll_cut hw.isRooted.isPlain_name
    hw.isRooted.isPlain_temporaryName hw.isRooted.ne_temporaryName w.data cut
  by_cases hcut : cut = .renamed
  · rw [if_pos hcut] at hfile ⊢
    refine h.of_agreeExcept hw hagree (Or.inr rfl) ?_
    rw [hfile, w.found?_after, Option.map_some]
  · rw [if_neg hcut] at hfile ⊢
    refine h.of_agreeExcept hw hagree (Or.inl rfl) ?_
    rw [hfile, h.file w]

/-! ## What is read -/

/-- A file is read as what stands at its place. -/
theorem read_eq {path place : List String} {name : String} {blob? : Option Bytes}
    (hleads : LeadsTo folder.tree path place) (hname : FileTree.IsPlain name)
    (hfits : Fits path name) (hnode : folder.tree.node? (place ++ [name]) = blob?.map .file) :
    folder.read (path ++ [name]) = .ok blob? := by
  simp only [Folder.read, FileTree.read, FileTree.find, hleads.locate_of_fits hname hfits, hnode,
    bind, Except.bind]
  cases blob? <;> rfl

/-- A folder answers the tables of the shelf it mirrors. -/
theorem readTable_eq (h : Mirrors place folder shelf) {name : String}
    (hname : Folder.IsPlainTable name) (hfits : Fits folder.root (Folder.tableName name)) :
    folder.readTable name = .ok (shelf.readTable name) := by
  simp only [Folder.readTable, hname.isRootTable.tablePath_eq]
  exact read_eq h.root hname.isRootTable.file hfits (h.file (.table name []))

/-- A folder answers the spines of the shelf it mirrors. -/
theorem readSpine_eq (h : Mirrors place folder shelf) {index : Nat}
    (hfits : Fits folder.spineDirectory (Folder.spineName index)) :
    folder.readSpine index = .ok (shelf.readSpine index) :=
  read_eq h.spines (Folder.isPlain_spineName index) hfits (h.file (.spine index []))

/-- The listing of a shelf has no index twice, and is in ascending order. -/
theorem pairwise_spineIndices (shelf : Shelf) : shelf.spineIndices.Pairwise (· < ·) :=
  Std.ExtTreeMap.ordered_keys.imp Nat.compare_eq_lt.mp

/-- The folder lists the spines of the shelf in the same order. -/
theorem spineIndices_eq (h : Mirrors place folder shelf) :
    folder.spineIndices = .ok shelf.spineIndices := by
  obtain ⟨names, hnames, hnodup, hmem⟩ := h.spines.exists_names h.spines_ok
  have hnamed (name : String) (hname : name ∈ names) (index : Nat)
      (hindex : Folder.spineIndex? name = some index) : name = Folder.spineName index :=
    h.named name index ((hmem name).mp hname) hindex
  have hindices : (names.filterMap Folder.spineIndex?).Nodup := by
    rw [List.Nodup, List.pairwise_filterMap]
    refine hnodup.imp_of_mem fun {name other} hname hother hne index hindex index' hindex' => ?_
    rintro rfl
    exact hne ((hnamed name hname _ hindex).trans (hnamed other hother _ hindex').symm)
  have hspines (index : Nat) :
      index ∈ names.filterMap Folder.spineIndex? ↔ index ∈ shelf.spineIndices := by
    have hnode : (folder.tree.node? (place ++ ["spines"] ++ [Folder.spineName index])).isSome ↔
        (shelf.readSpine index).isSome := by
      have hfile : folder.tree.node? (place ++ ["spines"] ++ [Folder.spineName index]) =
          (shelf.readSpine index).map .file :=
        h.file (.spine index [])
      rw [hfile, Option.isSome_map]
    rw [List.mem_filterMap, Shelf.spineIndices, Std.ExtTreeMap.mem_keys,
      Std.ExtTreeMap.mem_iff_isSome_getElem?, ← Shelf.readSpine, ← hnode]
    constructor
    · rintro ⟨name, hname, hindex⟩
      rw [← hnamed name hname index hindex]
      exact (hmem name).mp hname
    · intro hfound
      exact ⟨_, (hmem _).mpr hfound, Folder.spineIndex?_spineName (h.lt_size index (hnode.mp hfound))⟩
  have hascending := pairwise_spineIndices shelf
  have hperm : (names.filterMap Folder.spineIndex?).Perm shelf.spineIndices :=
    (List.perm_ext_iff_of_nodup hindices (hascending.imp Nat.ne_of_lt)).mpr hspines
  simp only [Folder.spineIndices, hnames, Except.ok.injEq]
  refine List.Perm.eq_of_pairwise (fun _ _ _ _ => Nat.le_antisymm)
    (List.pairwise_mergeSort' (· ≤ ·) _) (hascending.imp Nat.le_of_lt) ?_
  exact (List.mergeSort_perm _ _).trans hperm

end Mirrors

end Chronicle
