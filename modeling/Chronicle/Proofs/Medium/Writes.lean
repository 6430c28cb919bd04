import Chronicle.Proofs.Medium.Tables

/-!
# Writes in any order

Which writes a medium takes does not depend on those that it has taken before, and writes that
concern different files leave the same medium in whatever order they are carried out. Both hold for
a medium in a directory because replacing a file changes neither the directories of the tree nor any
file but the one that is replaced and its temporary sibling.
-/

namespace Chronicle

/-- Entries under two keys can be inserted in either order. -/
theorem insert_insert_comm {κ β : Type} [Ord κ] [Std.TransOrd κ] [Std.LawfulEqOrd κ] {a b : κ}
    (h : a ≠ b) (x y : β) (map : Std.ExtTreeMap κ β) :
    (map.insert a x).insert b y = (map.insert b y).insert a x := by
  apply Std.ExtTreeMap.ext_getElem?
  intro key
  simp only [Std.ExtTreeMap.getElem?_insert, Std.compare_eq_iff_eq]
  by_cases ha : a = key
  · subst ha
    simp [h.symm]
  · simp [ha]

namespace FileTree

variable {tree next : FileTree} {path place otherPath otherPlace : List String}
  {name other : String} {data otherData : Bytes}

/-- The tree in which a file has certain bytes and its temporary sibling is gone. -/
def replaced (tree : FileTree) (place : List String) (name : String) (data : Bytes) : FileTree :=
  ⟨(tree.entries.insert (place ++ [name]) (.file data)).erase (place ++ [temporaryName name])⟩

/-- A file can be replaced: paths lead to it and to its temporary sibling, and neither is a
directory. -/
structure Replaceable (tree : FileTree) (path place : List String) (name : String) : Prop where
  leadsTo : LeadsTo tree path place
  locate_file : tree.locate (path ++ [name]) = .ok (place ++ [name])
  locate_temporary :
    tree.locate (path ++ [temporaryName name]) = .ok (place ++ [temporaryName name])
  file_ne : tree.node? (place ++ [name]) ≠ some .directory
  temporary_ne : tree.node? (place ++ [temporaryName name]) ≠ some .directory

/-- The tree in which a file has certain bytes. -/
def withFile (tree : FileTree) (place : List String) (data : Bytes) : FileTree :=
  ⟨tree.entries.insert place (.file data)⟩

/-- A file is written exactly if no directory stands at its place, and then it stands there. -/
theorem write_eq_ok_iff (hlocate : tree.locate path = .ok place) :
    tree.write path data = .ok next ↔
      tree.node? place ≠ some .directory ∧ next = tree.withFile place data := by
  simp only [write, hlocate, bind, Except.bind]
  split
  · rename_i hnode
    exact iff_of_false (by simp [throw, throwThe, MonadExceptOf.throw]) (by simp [hnode])
  · rename_i hnode
    simp only [pure, Except.pure, Except.ok.injEq, eq_comm (b := next)]
    exact ⟨fun h => ⟨hnode, h⟩, fun h => h.2⟩

/-- A file that is there can be removed. -/
theorem remove_eq (hlocate : tree.locate path = .ok place)
    (hnode : tree.node? place = some (.file data)) :
    tree.remove path = .ok ⟨tree.entries.erase place⟩ := by
  simp only [remove, hlocate, bind, Except.bind, hnode, pure, Except.pure]

/-- A file that is there is read. -/
theorem read_eq (hlocate : tree.locate path = .ok place)
    (hnode : tree.node? place = some (.file data)) : tree.read path = .ok data := by
  simp only [read, find, hlocate, bind, Except.bind, hnode, pure, Except.pure]

/-- A file is put at its place and nowhere else. -/
theorem node?_withFile (hne : place ≠ []) (data : Bytes) (other : List String) :
    (tree.withFile place data).node? other =
      if other = place then some (.file data) else tree.node? other := by
  simp only [node?, withFile, Std.ExtTreeMap.getElem?_insert, Std.compare_eq_iff_eq]
  by_cases hother : other = place
  · simp [hother, hne]
  · simp [hother, Ne.symm hother]

/-- Putting a file at a place changes nothing but that place. -/
theorem agreeExcept_withFile (hne : tree.node? place ≠ some .directory) (data : Bytes) :
    AgreeExcept [place] tree (tree.withFile place data) := by
  have hplace : place ≠ [] := by
    rintro rfl
    exact hne rfl
  exact .of_node?_eq (List.mem_singleton_self place) hne (by simp) (node?_withFile hplace data)

/-- Steps succeed if the first one does and the others do from where it leads. -/
theorem takeAll_cons_eq_ok_iff {step : ReplaceStep} {steps : List ReplaceStep} :
    tree.takeAll (step :: steps) = (.ok (), next) ↔
      ∃ taken, tree.take step = .ok taken ∧ taken.takeAll steps = (.ok (), next) := by
  rw [takeAll]
  cases tree.take step <;> simp

/-- A path leads to one place only. -/
theorem LeadsTo.unique (h : LeadsTo tree path place) (hother : LeadsTo tree path otherPlace) :
    otherPlace = place := by
  have hfollow := hother.follow_eq
  rw [h.follow_eq, Except.ok.injEq] at hfollow
  exact hfollow.symm

/-- What can be replaced can still be replaced when no directory has come or gone. -/
theorem Replaceable.of_agreeExcept {places : List (List String)} (hname : IsPlain name)
    (htemporary : IsPlain (temporaryName name)) (h : Replaceable tree path place name)
    (hagree : AgreeExcept places tree next) : Replaceable next path place name := by
  have hleads := hagree.keepsDirectories.leadsTo h.leadsTo
  have hne (other : List String) (hother : tree.node? other ≠ some .directory) :
      next.node? other ≠ some .directory := by
    obtain heq | ⟨-, -, hnext⟩ := hagree other
    · rwa [heq]
    · exact hnext
  refine ⟨hleads, ?_, ?_, hne _ h.file_ne, hne _ h.temporary_ne⟩
  · rw [hleads.locate_eq hname, ← h.leadsTo.locate_eq hname, h.locate_file]
  · rw [hleads.locate_eq htemporary, ← h.leadsTo.locate_eq htemporary, h.locate_temporary]

/-- The steps in which a file is replaced come down to putting the file in place. -/
theorem Replaceable.replaceFile_eq (hname : IsPlain name)
    (htemporary : IsPlain (temporaryName name)) (hne : name ≠ temporaryName name)
    (h : Replaceable tree path place name) (data : Bytes) :
    tree.replaceFile path name data = (.ok (), tree.replaced place name data) := by
  have hplaces : place ++ [temporaryName name] ≠ place ++ [name] := by simpa using hne.symm
  obtain ⟨created, hcreated⟩ : ∃ created,
      created = tree.withFile (place ++ [temporaryName name]) [] :=
    ⟨_, rfl⟩
  have hcreate := (write_eq_ok_iff h.locate_temporary).mpr ⟨h.temporary_ne, hcreated⟩
  have hthere := h.of_agreeExcept hname htemporary
    (hcreated ▸ agreeExcept_withFile h.temporary_ne [])
  obtain ⟨filled, hfilled⟩ : ∃ filled,
      filled = created.withFile (place ++ [temporaryName name]) data :=
    ⟨_, rfl⟩
  have hfill := (write_eq_ok_iff hthere.locate_temporary).mpr ⟨hthere.temporary_ne, hfilled⟩
  have hfull := hthere.of_agreeExcept hname htemporary
    (hfilled ▸ agreeExcept_withFile hthere.temporary_ne data)
  have hread : filled.read (path ++ [temporaryName name]) = .ok data := by
    refine read_eq hfull.locate_temporary ?_
    rw [hfilled, node?_withFile (by simp), if_pos rfl]
  obtain ⟨moved, hmoved⟩ : ∃ moved, moved = filled.withFile (place ++ [name]) data := ⟨_, rfl⟩
  have hmove := (write_eq_ok_iff hfull.locate_file).mpr ⟨hfull.file_ne, hmoved⟩
  have hlast := hfull.of_agreeExcept hname htemporary
    (hmoved ▸ agreeExcept_withFile hfull.file_ne data)
  have hremove : moved.remove (path ++ [temporaryName name]) =
      .ok ⟨moved.entries.erase (place ++ [temporaryName name])⟩ := by
    have hnode : moved.node? (place ++ [temporaryName name]) = some (.file data) := by
      rw [hmoved, node?_withFile (by simp), if_neg hplaces, hfilled, node?_withFile (by simp),
        if_pos rfl]
    exact remove_eq hlast.locate_temporary hnode
  have hrename : filled.rename (path ++ [temporaryName name]) (path ++ [name]) =
      .ok ⟨moved.entries.erase (place ++ [temporaryName name])⟩ := by
    simp only [rename, hread, hmove, hfull.locate_temporary, hfull.locate_file, bind, Except.bind]
    rw [if_neg hplaces, hremove]
  have hentries : (⟨moved.entries.erase (place ++ [temporaryName name])⟩ : FileTree) =
      tree.replaced place name data := by
    rw [replaced, hmoved, hfilled, hcreated, FileTree.mk.injEq]
    apply Std.ExtTreeMap.ext_getElem?
    intro other
    simp only [withFile, Std.ExtTreeMap.getElem?_erase, Std.ExtTreeMap.getElem?_insert]
    split
    · rfl
    · split
      · rfl
      · rfl
  rw [replaceFile, replaceSteps, takeAll_cons_eq_ok_iff]
  refine ⟨created, hcreate, takeAll_cons_eq_ok_iff.mpr ⟨filled, hfill, ?_⟩⟩
  exact takeAll_cons_eq_ok_iff.mpr ⟨filled, rfl,
    takeAll_cons_eq_ok_iff.mpr ⟨_, hrename, by rw [takeAll, hentries]⟩⟩

/-- A file that was replaced could be replaced. -/
theorem exists_replaceable (hname : IsPlain name) (htemporary : IsPlain (temporaryName name))
    (hne : name ≠ temporaryName name) (h : tree.replaceFile path name data = (.ok (), next)) :
    ∃ place, Replaceable tree path place name := by
  have hplaces (place : List String) : place ++ [name] ∉ [place ++ [temporaryName name]] := by
    simpa using hne
  rw [replaceFile, replaceSteps, takeAll_cons_eq_ok_iff] at h
  obtain ⟨created, hcreate, h⟩ := h
  obtain ⟨filled, hfill, h⟩ := takeAll_cons_eq_ok_iff.mp h
  obtain ⟨_, ⟨⟩, h⟩ := takeAll_cons_eq_ok_iff.mp h
  obtain ⟨committed, hcommit, -⟩ := takeAll_cons_eq_ok_iff.mp h
  obtain ⟨temporary, htarget, -⟩ := bind_eq_ok_iff.mp hcreate
  obtain ⟨place, hplace⟩ := exists_leadsTo_of_locate htarget
  obtain rfl := hplace.eq_of_locate htemporary htarget
  have hcreated := hplace.agreeExcept_write htemporary (List.mem_singleton_self _) hcreate
  have hagree := hcreated.trans ((hcreated.keepsDirectories.leadsTo hplace).agreeExcept_write
    htemporary (List.mem_singleton_self _) hfill)
  have hfilled := hagree.keepsDirectories.leadsTo hplace
  simp only [take, rename, bind_eq_ok_iff] at hcommit
  obtain ⟨_, -, moved, hwrite, -⟩ := hcommit
  obtain ⟨file, hfile, -⟩ := bind_eq_ok_iff.mp hwrite
  obtain rfl := hfilled.eq_of_locate hname hfile
  refine ⟨place, hplace, ?_, htarget, ?_, ((write_eq_ok_iff htarget).mp hcreate).1⟩
  · rw [hplace.locate_eq hname, ← hfilled.locate_eq hname, hfile]
  · rw [← hagree.node?_eq (hplaces place)]
    exact ((write_eq_ok_iff hfile).mp hwrite).1

/-- Replacing a file leaves its new bytes, no temporary sibling, and all else as it was. -/
theorem getElem?_replaced (tree : FileTree) (place entry : List String) (name : String)
    (data : Bytes) : (tree.replaced place name data).entries[entry]? =
      if entry = place ++ [temporaryName name] then none
      else if entry = place ++ [name] then some (.file data) else tree.entries[entry]? := by
  simp only [replaced, Std.ExtTreeMap.getElem?_erase, Std.ExtTreeMap.getElem?_insert,
    Std.compare_eq_iff_eq, eq_comm (a := entry)]

/-- Replacing a file changes no directory. -/
theorem Replaceable.agreeExcept (h : Replaceable tree path place name) (data : Bytes) :
    AgreeExcept [place ++ [temporaryName name], place ++ [name]] tree
      (tree.replaced place name data) := by
  intro other
  by_cases hmem : other ∈ [place ++ [temporaryName name], place ++ [name]]
  · refine Or.inr ⟨hmem, ?_⟩
    simp only [List.mem_cons, List.not_mem_nil, or_false] at hmem
    obtain rfl | rfl := hmem
    · exact ⟨h.temporary_ne, by simp [node?, getElem?_replaced]⟩
    · refine ⟨h.file_ne, ?_⟩
      rw [node?, if_neg (by simp), getElem?_replaced]
      split <;> simp
  · simp only [List.mem_cons, List.not_mem_nil, or_false, not_or] at hmem
    left
    simp only [node?, getElem?_replaced, if_neg hmem.1, if_neg hmem.2]

/-- Two files can be replaced in either order, unless one is the other or its temporary sibling. -/
theorem replaced_comm (hfile : otherPlace ++ [other] ≠ place ++ [name])
    (htemporary : otherPlace ++ [other] ≠ place ++ [temporaryName name])
    (hother : place ++ [name] ≠ otherPlace ++ [temporaryName other]) (tree : FileTree)
    (data otherData : Bytes) :
    (tree.replaced place name data).replaced otherPlace other otherData =
      (tree.replaced otherPlace other otherData).replaced place name data := by
  rw [FileTree.mk.injEq]
  apply Std.ExtTreeMap.ext_getElem?
  intro entry
  simp only [getElem?_replaced]
  grind

end FileTree

/-- A blob, and what it is written as. -/
inductive Write where
  | table (name : String) (bytes : Bytes)
  | spine (index : Nat) (bytes : Bytes)
  deriving DecidableEq

namespace Write

/-- The file of a table lies in the root directory. -/
def IsRooted : Write → Prop
  | table name _ => Folder.IsRootTable name
  | spine _ _ => True

/-- Neither of two writes touches the file of the other. -/
def Apart : Write → Write → Prop
  | table name _, table other _ => Folder.Apart name other ∧ Folder.Apart other name
  | spine index _, spine other _ => index ≠ other
  | _, _ => True

private theorem Apart.symm {w v : Write} (h : w.Apart v) : v.Apart w := by
  cases w <;> cases v
  · exact And.symm h
  · trivial
  · trivial
  · exact Ne.symm h

/-- Writes that are apart are different. -/
theorem Apart.ne {w v : Write} (h : w.Apart v) : w ≠ v := by
  rintro rfl
  cases w with
  | table name bytes => exact h.1.file rfl
  | spine index bytes => exact h rfl

/-- The directory below a root in which the file of a write lies. -/
def directory (root : List String) : Write → List String
  | table _ _ => root
  | spine _ _ => root ++ ["spines"]

/-- The name of the file of a write. -/
def name : Write → String
  | table name _ => Folder.tableName name
  | spine index _ => Folder.spineName index

/-- The bytes that are written. -/
def data : Write → Bytes
  | table _ bytes => bytes
  | spine _ bytes => bytes

end Write

namespace Backing

/-- Carries out a write. -/
def put (backing : Backing) : Write → Except IoError Unit × Backing
  | .table name bytes => backing.writeTable name bytes
  | .spine index bytes => backing.writeSpine index bytes

/-- A backing does not fail on a write. -/
def Takes (backing : Backing) (w : Write) : Prop :=
  (backing.put w).1 = .ok ()

/-- What a write makes of a backing. -/
def after (backing : Backing) (w : Write) : Backing :=
  (backing.put w).2

end Backing

open FileTree (IsPlain temporaryName LeadsTo Replaceable)

namespace Write

variable {w v : Write}

/-- The name of a rooted file is plain. -/
theorem IsRooted.isPlain_name (h : w.IsRooted) : IsPlain w.name := by
  cases w with
  | table name bytes => exact h.file
  | spine index bytes => exact Folder.isPlain_spineName index

/-- The name of the temporary sibling of a rooted file is plain. -/
theorem IsRooted.isPlain_temporaryName (h : w.IsRooted) : IsPlain (temporaryName w.name) := by
  cases w with
  | table name bytes => exact h.temporary
  | spine index bytes => exact Folder.isPlain_temporaryName index

/-- A rooted file is not its own temporary sibling. -/
theorem IsRooted.ne_temporaryName (h : w.IsRooted) : w.name ≠ temporaryName w.name := by
  cases w with
  | table name bytes => exact h.ne_temporary
  | spine index bytes => exact Folder.spineName_ne_temporaryName index index

/-- A folder carries out a write by replacing its file. -/
theorem IsRooted.put_folder (h : w.IsRooted) (folder : Folder) :
    Backing.put (.folder folder) w =
      ((folder.write (w.directory folder.root) w.name w.data).1,
        .folder (folder.write (w.directory folder.root) w.name w.data).2) := by
  cases w with
  | table name bytes =>
    simp only [Backing.put, Backing.writeTable, Folder.writeTable, h.tablePath_eq]
    rfl
  | spine index bytes => rfl

/-- A folder takes a write whose file can be replaced. -/
theorem IsRooted.takes_folder_iff (h : w.IsRooted) {folder : Folder} :
    Backing.Takes (.folder folder) w ↔
      ∃ place, Replaceable folder.tree (w.directory folder.root) place w.name := by
  rw [Backing.Takes, h.put_folder, Folder.write]
  constructor
  · intro hok
    split at hok
    · rename_i hreplace
      exact FileTree.exists_replaceable h.isPlain_name h.isPlain_temporaryName h.ne_temporaryName
        hreplace
    · cases hok
  · rintro ⟨place, hplace⟩
    rw [hplace.replaceFile_eq h.isPlain_name h.isPlain_temporaryName h.ne_temporaryName]

/-- A write makes a folder in which its file is replaced. -/
theorem IsRooted.after_folder (h : w.IsRooted) {folder : Folder} {place : List String}
    (hplace : Replaceable folder.tree (w.directory folder.root) place w.name) :
    Backing.after (.folder folder) w =
      .folder { folder with tree := folder.tree.replaced place w.name w.data } := by
  rw [Backing.after, h.put_folder, Folder.write,
    hplace.replaceFile_eq h.isPlain_name h.isPlain_temporaryName h.ne_temporaryName]

/-- A file of a directory is not one of a directory below it. -/
theorem below_ne {place : List String} {directory name other : String} :
    place ++ [directory] ++ [name] ≠ place ++ [other] := by
  intro h
  simpa using congrArg List.length h

/-- The file of a write does not lie where another one has its file or its temporary sibling. -/
theorem Apart.place_ne {tree : FileTree} {root place otherPlace : List String}
    (hapart : w.Apart v) (hplace : Replaceable tree (w.directory root) place w.name)
    (hother : Replaceable tree (v.directory root) otherPlace v.name) :
    otherPlace ++ [v.name] ≠ place ++ [w.name] ∧
      otherPlace ++ [v.name] ≠ place ++ [temporaryName w.name] := by
  cases w with
  | table name bytes =>
    cases v with
    | table other bytes =>
      obtain rfl := hplace.leadsTo.unique hother.leadsTo
      simpa [Write.name] using ⟨hapart.1.file, hapart.1.temporary⟩
    | spine index bytes =>
      obtain ⟨parent, hparent, rfl⟩ := hother.leadsTo.exists_parent Folder.isPlain_spines
      obtain rfl := hplace.leadsTo.unique hparent
      exact ⟨below_ne, below_ne⟩
  | spine index bytes =>
    cases v with
    | table other bytes =>
      obtain ⟨parent, hparent, rfl⟩ := hplace.leadsTo.exists_parent Folder.isPlain_spines
      obtain rfl := hother.leadsTo.unique hparent
      exact ⟨below_ne.symm, below_ne.symm⟩
    | spine other bytes =>
      obtain rfl := hplace.leadsTo.unique hother.leadsTo
      have hname : Folder.spineName other ≠ Folder.spineName index :=
        fun heq => hapart (Folder.spineName_inj heq).symm
      simpa [Write.name] using ⟨hname, Folder.spineName_ne_temporaryName other index⟩

end Write

namespace Backing

variable {backing : Backing} {w v : Write}

/-- In memory every write is taken. -/
theorem takes_shelf (shelf : Shelf) (w : Write) : Takes (.shelf shelf) w := by
  cases w <;> rfl

/-- A backing takes two writes that are apart in either order, and they leave the same. -/
theorem Takes.comm (hw : w.IsRooted) (hv : v.IsRooted) (hapart : w.Apart v)
    (htakes : backing.Takes w) (hother : backing.Takes v) :
    (backing.after w).Takes v ∧ (backing.after w).after v = (backing.after v).after w := by
  cases backing with
  | shelf shelf =>
    refine ⟨by cases w <;> exact takes_shelf _ v, ?_⟩
    cases w with
    | table name bytes =>
      cases v with
      | table other bytes =>
        have hne : name ≠ other := by
          rintro rfl
          exact hapart.1.file rfl
        simp only [after, put, writeTable, Shelf.writeTable, insert_insert_comm hne]
      | spine index bytes => rfl
    | spine index bytes =>
      cases v with
      | table other bytes => rfl
      | spine other bytes =>
        simp only [after, put, writeSpine, Shelf.writeSpine, insert_insert_comm hapart]
  | folder folder =>
    obtain ⟨place, hplace⟩ := hw.takes_folder_iff.mp htakes
    obtain ⟨otherPlace, hotherPlace⟩ := hv.takes_folder_iff.mp hother
    have hstill := hotherPlace.of_agreeExcept hv.isPlain_name hv.isPlain_temporaryName
      (hplace.agreeExcept w.data)
    have hstill' := hplace.of_agreeExcept hw.isPlain_name hw.isPlain_temporaryName
      (hotherPlace.agreeExcept v.data)
    obtain ⟨hfile, htemporary⟩ := hapart.place_ne hplace hotherPlace
    have hback := (hapart.symm.place_ne hotherPlace hplace).2
    refine ⟨?_, ?_⟩
    · rw [hw.after_folder hplace]
      exact hv.takes_folder_iff.mpr ⟨otherPlace, hstill⟩
    · rw [hw.after_folder hplace, hv.after_folder hotherPlace, hv.after_folder hstill,
        hw.after_folder hstill']
      simp only [FileTree.replaced_comm hfile htemporary hback]

/-- What writes make of a backing, one after another. -/
def afterAll (backing : Backing) (ws : List Write) : Backing :=
  ws.foldl after backing

/-- Writes are carried out one part after the other. -/
theorem afterAll_append (backing : Backing) (ws vs : List Write) :
    backing.afterAll (ws ++ vs) = (backing.afterAll ws).afterAll vs :=
  List.foldl_append

/-- Writes that are apart from one another, each of which a backing takes. -/
structure Accepts (backing : Backing) (ws : List Write) : Prop where
  rooted : ∀ w ∈ ws, w.IsRooted
  takes : ∀ w ∈ ws, backing.Takes w
  apart : ws.Pairwise Write.Apart

variable {ws vs : List Write}

/-- Writes that are accepted are so in any order. -/
theorem Accepts.perm (h : backing.Accepts ws) (hperm : ws.Perm vs) : backing.Accepts vs where
  rooted v hv := h.rooted v (hperm.mem_iff.mpr hv)
  takes v hv := h.takes v (hperm.mem_iff.mpr hv)
  apart := hperm.pairwise h.apart Write.Apart.symm

/-- Of writes that are accepted the later ones are. -/
theorem Accepts.right (h : backing.Accepts (ws ++ vs)) : backing.Accepts vs where
  rooted v hv := h.rooted v (List.mem_append_right ws hv)
  takes v hv := h.takes v (List.mem_append_right ws hv)
  apart := (List.pairwise_append.mp h.apart).2.1

/-- The writes behind the first one are still accepted once it is carried out. -/
theorem Accepts.after (h : backing.Accepts (w :: ws)) : (backing.after w).Accepts ws where
  rooted v hv := h.rooted v (List.mem_cons_of_mem w hv)
  takes v hv := by
    have hapart := (List.pairwise_cons.mp h.apart).1 v hv
    exact (Takes.comm (h.rooted w List.mem_cons_self) (h.rooted v (List.mem_cons_of_mem w hv))
      hapart (h.takes w List.mem_cons_self) (h.takes v (List.mem_cons_of_mem w hv))).1
  apart := (List.pairwise_cons.mp h.apart).2

/-- The later writes are accepted after the earlier ones were carried out. -/
theorem Accepts.afterAll (h : backing.Accepts (ws ++ vs)) : (backing.afterAll ws).Accepts vs := by
  induction ws generalizing backing with
  | nil => exact h
  | cons w ws ih => exact ih h.after

/-- Accepted writes leave the same in whatever order they are carried out. -/
theorem Accepts.afterAll_perm (h : backing.Accepts ws) (hperm : ws.Perm vs) :
    backing.afterAll ws = backing.afterAll vs := by
  induction hperm generalizing backing with
  | nil => rfl
  | cons w _ ih => exact ih h.after
  | swap v w ws =>
    have hwv := (List.pairwise_cons.mp h.apart).1 v List.mem_cons_self
    have hcomm := (Takes.comm (h.rooted w (by simp)) (h.rooted v (by simp)) hwv
      (h.takes w (by simp)) (h.takes v (by simp))).2
    simp only [Backing.afterAll, List.foldl_cons, hcomm]
  | trans hfirst _ ih ih' => rw [ih h, ih' (h.perm hfirst)]

end Backing

end Chronicle
