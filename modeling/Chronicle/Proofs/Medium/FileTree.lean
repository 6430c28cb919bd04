import Chronicle.Medium.FileReplacement

/-!
# Files of one directory

A path through a directory leads to the same place as long as the directories of the tree stay the
same, whatever happens to its files. So once a path leads to a directory, an access to a file in it
comes down to what stands at one place, and replacing the file touches that place and the place of
its temporary sibling and no other.
-/

namespace Chronicle.FileTree

variable {tree next : FileTree} {path place : List String} {name : String} {data : Bytes}

/-- A path leads to a directory. -/
structure LeadsTo (tree : FileTree) (path place : List String) : Prop where
  follow_eq : tree.follow [] path = .ok place
  node?_eq : tree.node? place = some .directory

/-- A name that leads further down from every directory. -/
def IsPlain (name : String) : Prop :=
  ∀ directory, advance directory name = directory ++ [name]

/-- Two steps succeed exactly if both do. -/
theorem bind_eq_ok_iff {ε α β : Type} {x : Except ε α} {f : α → Except ε β} {b : β} :
    (x >>= f) = .ok b ↔ ∃ a, x = .ok a ∧ f a = .ok b := by
  cases x <;> simp [bind, Except.bind]

/-- A path of two names or more is followed into a directory first. -/
theorem follow_cons {directory rest : List String} {first : String} (hrest : rest ≠ []) :
    tree.follow directory (first :: rest) = (do
      checkName first
      match tree.node? (advance directory first) with
      | none => throw .notFound
      | some (.file _) => throw .notDirectory
      | some .directory => tree.follow (advance directory first) rest) := by
  cases rest with
  | nil => exact absurd rfl hrest
  | cons second rest => rfl

/-- A longer path is followed exactly if its first name is allowed and leads to a directory from
which the rest is followed. -/
theorem follow_cons_eq_ok_iff {directory rest target : List String} {first : String}
    (hrest : rest ≠ []) :
    tree.follow directory (first :: rest) = .ok target ↔
      checkName first = .ok () ∧ tree.node? (advance directory first) = some .directory ∧
        tree.follow (advance directory first) rest = .ok target := by
  rw [follow_cons hrest, bind_eq_ok_iff]
  constructor
  · rintro ⟨⟨⟩, hfirst, h⟩
    split at h
    · cases h
    · cases h
    · rename_i hnode
      exact ⟨hfirst, hnode, h⟩
  · rintro ⟨hfirst, hnode, h⟩
    refine ⟨(), hfirst, ?_⟩
    rw [hnode]
    exact h

/-- Below a directory, a path is followed by following the last name from there. -/
theorem follow_append_singleton {directory : List String}
    (h : tree.follow directory path = .ok place) (hplace : tree.node? place = some .directory)
    (name : String) :
    tree.follow directory (path ++ [name]) = tree.follow place [name] := by
  induction path generalizing directory with
  | nil =>
    cases h
    rfl
  | cons first rest ih =>
    rw [List.cons_append, follow_cons (by simp)]
    by_cases hrest : rest = []
    · subst hrest
      rw [follow, bind_eq_ok_iff] at h
      obtain ⟨⟨⟩, hfirst, h⟩ := h
      cases h
      rw [hfirst, hplace]
      rfl
    · obtain ⟨hfirst, hnode, h⟩ := (follow_cons_eq_ok_iff hrest).mp h
      rw [hfirst, hnode]
      exact ih h

/-- Whoever gets to the end of a path has come through the directory in front of it. -/
theorem exists_leadsTo_of_follow {directory target : List String}
    (h : tree.follow directory (path ++ [name]) = .ok target) (hpath : path ≠ []) :
    ∃ place, tree.follow directory path = .ok place ∧ tree.node? place = some .directory := by
  induction path generalizing directory with
  | nil => exact absurd rfl hpath
  | cons first rest ih =>
    obtain ⟨hfirst, hnode, h⟩ := (follow_cons_eq_ok_iff (by simp)).mp h
    by_cases hrest : rest = []
    · subst hrest
      refine ⟨_, ?_, hnode⟩
      rw [follow, hfirst]
      rfl
    · obtain ⟨place, hplace, hdirectory⟩ := ih h hrest
      exact ⟨place, (follow_cons_eq_ok_iff hrest).mpr ⟨hfirst, hnode, hplace⟩, hdirectory⟩

/-- The tree `next` has every directory that `tree` has. -/
def KeepsDirectories (tree next : FileTree) : Prop :=
  ∀ place, tree.node? place = some .directory → next.node? place = some .directory

/-- A path that was followed leads to the same place while directories stay. -/
theorem KeepsDirectories.follow_eq {directory : List String} (hkeeps : KeepsDirectories tree next)
    (h : tree.follow directory path = .ok place) : next.follow directory path = .ok place := by
  induction path generalizing directory with
  | nil => exact h
  | cons first rest ih =>
    by_cases hrest : rest = []
    · subst hrest
      exact h
    · obtain ⟨hfirst, hnode, h⟩ := (follow_cons_eq_ok_iff hrest).mp h
      exact (follow_cons_eq_ok_iff hrest).mpr ⟨hfirst, hkeeps _ hnode, ih h⟩

/-- A path to a directory leads there while directories stay. -/
theorem KeepsDirectories.leadsTo (hkeeps : KeepsDirectories tree next)
    (h : LeadsTo tree path place) : LeadsTo next path place :=
  ⟨hkeeps.follow_eq h.follow_eq, hkeeps _ h.node?_eq⟩

/-! ## Accesses to one file -/

/-- Where a file of a directory is found does not depend on the files of the tree. -/
theorem LeadsTo.locate_eq (h : LeadsTo tree path place) (hname : IsPlain name) :
    tree.locate (path ++ [name]) =
      (do checkPath (path ++ [name]); checkName name; return place ++ [name]) := by
  rw [locate, follow_append_singleton h.follow_eq h.node?_eq]
  simp only [follow, hname place]

/-- Whatever is located lies in a directory that its path leads to. -/
theorem exists_leadsTo_of_locate {target : List String}
    (h : tree.locate (path ++ [name]) = .ok target) : ∃ place, LeadsTo tree path place := by
  by_cases hpath : path = []
  · subst hpath
    exact ⟨[], rfl, rfl⟩
  · rw [locate, bind_eq_ok_iff] at h
    obtain ⟨⟨⟩, -, h⟩ := h
    obtain ⟨place, hplace, hdirectory⟩ := exists_leadsTo_of_follow h hpath
    exact ⟨place, hplace, hdirectory⟩

/-- A plain name is located right below the directory that the path leads to. -/
theorem LeadsTo.eq_of_locate {target : List String} (h : LeadsTo tree path place)
    (hname : IsPlain name) (htarget : tree.locate (path ++ [name]) = .ok target) :
    target = place ++ [name] := by
  rw [h.locate_eq hname, bind_eq_ok_iff] at htarget
  obtain ⟨⟨⟩, -, htarget⟩ := htarget
  rw [bind_eq_ok_iff] at htarget
  obtain ⟨⟨⟩, -, htarget⟩ := htarget
  cases htarget
  rfl

/-- A file is read the same in two trees in which the same stands at its place. -/
theorem LeadsTo.read_congr (h : LeadsTo tree path place) (hnext : LeadsTo next path place)
    (hname : IsPlain name) (hnode : next.node? (place ++ [name]) = tree.node? (place ++ [name])) :
    next.read (path ++ [name]) = tree.read (path ++ [name]) := by
  simp only [read, find, h.locate_eq hname, hnext.locate_eq hname]
  cases checkPath (path ++ [name]) with
  | error error => rfl
  | ok _ =>
    cases checkName name with
    | error error => rfl
    | ok _ => simp only [bind, Except.bind, pure, Except.pure, hnode]

/-- Writing a file puts its bytes at its place, where no directory stands. -/
theorem LeadsTo.node?_write (h : LeadsTo tree path place) (hname : IsPlain name)
    (hwrite : tree.write (path ++ [name]) data = .ok next) :
    tree.node? (place ++ [name]) ≠ some .directory ∧
      ∀ other, next.node? other =
        if other = place ++ [name] then some (.file data) else tree.node? other := by
  rw [write, bind_eq_ok_iff] at hwrite
  obtain ⟨target, htarget, hwrite⟩ := hwrite
  obtain rfl := h.eq_of_locate hname htarget
  split at hwrite
  · cases hwrite
  · rename_i hnode
    cases hwrite
    refine ⟨hnode, fun other => ?_⟩
    simp only [node?, Std.ExtTreeMap.getElem?_insert, Std.compare_eq_iff_eq]
    by_cases hother : other = place ++ [name]
    · simp [hother]
    · simp [hother, Ne.symm hother]

/-- Removing a file leaves nothing at its place. -/
theorem LeadsTo.node?_remove (h : LeadsTo tree path place) (hname : IsPlain name)
    (hremove : tree.remove (path ++ [name]) = .ok next) :
    tree.node? (place ++ [name]) ≠ some .directory ∧
      ∀ other, next.node? other = if other = place ++ [name] then none else tree.node? other := by
  rw [remove, bind_eq_ok_iff] at hremove
  obtain ⟨target, htarget, hremove⟩ := hremove
  obtain rfl := h.eq_of_locate hname htarget
  split at hremove
  · rename_i hnode
    cases hremove
    refine ⟨by simp [hnode], fun other => ?_⟩
    simp only [node?, Std.ExtTreeMap.getElem?_erase, Std.compare_eq_iff_eq]
    by_cases hother : other = place ++ [name]
    · simp [hother]
    · simp [hother, Ne.symm hother]
  · cases hremove
  · cases hremove

/-- A file that was written is read back. -/
theorem LeadsTo.read_write (h : LeadsTo tree path place) (hname : IsPlain name)
    (hwrite : tree.write (path ++ [name]) data = .ok next) :
    next.read (path ++ [name]) = .ok data := by
  obtain ⟨hdirectory, hnode⟩ := h.node?_write hname hwrite
  have hkeeps : KeepsDirectories tree next := by
    intro other hother
    have hne : other ≠ place ++ [name] := by
      rintro rfl
      exact hdirectory hother
    rw [hnode, if_neg hne, hother]
  obtain ⟨target, htarget, -⟩ := bind_eq_ok_iff.mp hwrite
  have hlocate : next.locate (path ++ [name]) = .ok (place ++ [name]) := by
    rw [(hkeeps.leadsTo h).locate_eq hname, ← h.locate_eq hname, htarget,
      h.eq_of_locate hname htarget]
  simp only [read, find, hlocate, bind, Except.bind, hnode, if_pos, pure, Except.pure]

/-- A file that can be read is among the names of its directory. -/
theorem mem_names {names : List String} (hnames : tree.names path = .ok names)
    (hname : IsPlain name) (hread : tree.read (path ++ [name]) = .ok data) : name ∈ names := by
  simp only [read, find, bind_eq_ok_iff] at hread
  obtain ⟨node, ⟨target, htarget, hnode⟩, -⟩ := hread
  obtain ⟨place, hplace⟩ := exists_leadsTo_of_locate htarget
  obtain rfl := hplace.eq_of_locate hname htarget
  have hentry : place ++ [name] ∈ tree.entries := by
    rw [Std.ExtTreeMap.mem_iff_isSome_getElem?]
    simp only [node?, List.append_eq_nil_iff, List.cons_ne_nil, and_false, if_false] at hnode
    split at hnode
    · rename_i hfound
      rw [hfound]
      rfl
    · cases hnode
  rw [FileTree.names, bind_eq_ok_iff] at hnames
  obtain ⟨found, hfound, hnames⟩ := hnames
  rw [locate, bind_eq_ok_iff] at hfound
  obtain ⟨⟨⟩, -, hfound⟩ := hfound
  obtain rfl : found = place := by
    rw [hplace.follow_eq] at hfound
    exact (Except.ok.inj hfound).symm
  rw [hplace.node?_eq] at hnames
  cases hnames
  rw [List.mem_filterMap]
  exact ⟨found ++ [name], Std.ExtTreeMap.mem_keys.mpr hentry, by simp⟩

/-! ## Replacing a file -/

/-- At every place the same stands in both trees, unless it is one of some places at which there is
a directory in neither. -/
def AgreeExcept (places : List (List String)) (tree next : FileTree) : Prop :=
  ∀ place, next.node? place = tree.node? place ∨
    place ∈ places ∧ tree.node? place ≠ some .directory ∧ next.node? place ≠ some .directory

namespace AgreeExcept

variable {places : List (List String)}

/-- Trees that agree with one in between, but for some places, agree but for these. -/
theorem trans {middle : FileTree} (h : AgreeExcept places tree middle)
    (hnext : AgreeExcept places middle next) : AgreeExcept places tree next := by
  intro place
  obtain heq | ⟨hmem, htree, hmiddle⟩ := h place
  · rw [← heq]
    exact hnext place
  · obtain heq | ⟨-, -, hnext⟩ := hnext place
    · exact Or.inr ⟨hmem, htree, heq ▸ hmiddle⟩
    · exact Or.inr ⟨hmem, htree, hnext⟩

/-- Where trees agree but for places without directories, directories stay. -/
theorem keepsDirectories (h : AgreeExcept places tree next) : KeepsDirectories tree next := by
  intro place hplace
  obtain heq | ⟨-, htree, -⟩ := h place
  · rw [heq, hplace]
  · exact absurd hplace htree

/-- Trees agree but for more places as well. -/
theorem mono {more : List (List String)} (h : AgreeExcept places tree next)
    (hmore : places ⊆ more) : AgreeExcept more tree next :=
  fun place => (h place).imp_right fun hmem => ⟨hmore hmem.1, hmem.2⟩

/-- Only one place changes, and there is a directory neither before nor after. -/
theorem of_node?_eq {node : Option FileNode} (hmem : place ∈ places)
    (hbefore : tree.node? place ≠ some .directory) (hafter : node ≠ some .directory)
    (h : ∀ other, next.node? other = if other = place then node else tree.node? other) :
    AgreeExcept places tree next := by
  intro other
  rw [h]
  by_cases hother : other = place
  · subst hother
    exact Or.inr ⟨hmem, hbefore, by rwa [if_pos rfl]⟩
  · exact Or.inl (if_neg hother)

/-- At every other place the same stands in both trees. -/
theorem node?_eq (h : AgreeExcept places tree next) (hplace : place ∉ places) :
    next.node? place = tree.node? place :=
  (h place).resolve_right fun hmem => hplace hmem.1

end AgreeExcept

/-- Writing a file changes nothing but its place. -/
theorem LeadsTo.agreeExcept_write {places : List (List String)} (h : LeadsTo tree path place)
    (hname : IsPlain name) (hmem : place ++ [name] ∈ places)
    (hwrite : tree.write (path ++ [name]) data = .ok next) : AgreeExcept places tree next := by
  obtain ⟨hdirectory, hnode⟩ := h.node?_write hname hwrite
  exact .of_node?_eq hmem hdirectory (by simp) hnode

/-- Removing a file changes nothing but its place. -/
theorem LeadsTo.agreeExcept_remove {places : List (List String)} (h : LeadsTo tree path place)
    (hname : IsPlain name) (hmem : place ++ [name] ∈ places)
    (hremove : tree.remove (path ++ [name]) = .ok next) : AgreeExcept places tree next := by
  obtain ⟨hdirectory, hnode⟩ := h.node?_remove hname hremove
  exact .of_node?_eq hmem hdirectory (by simp) hnode

/-- Moving a file over another one of its directory puts its bytes there. -/
theorem LeadsTo.read_rename {source target : String} (h : LeadsTo tree path place)
    (hsource : IsPlain source) (htarget : IsPlain target) (hne : target ≠ source)
    (hread : tree.read (path ++ [source]) = .ok data)
    (hrename : tree.rename (path ++ [source]) (path ++ [target]) = .ok next) :
    AgreeExcept [place ++ [source], place ++ [target]] tree next ∧
      next.read (path ++ [target]) = .ok data := by
  simp only [rename, hread, bind_eq_ok_iff, Except.ok.injEq, exists_eq_left'] at hrename
  obtain ⟨moved, hwrite, start, hstart, goal, hgoal, hrename⟩ := hrename
  have hplaces : place ++ [target] ≠ place ++ [source] := by simpa using hne
  rw [h.eq_of_locate hsource hstart, h.eq_of_locate htarget hgoal, if_neg hplaces.symm] at hrename
  have hagree : AgreeExcept [place ++ [source], place ++ [target]] tree moved :=
    h.agreeExcept_write htarget (by simp) hwrite
  have hmoved := hagree.keepsDirectories.leadsTo h
  have hremoved := hmoved.agreeExcept_remove hsource (List.mem_singleton_self _) hrename
  refine ⟨hagree.trans (hremoved.mono (by simp)), ?_⟩
  rw [hmoved.read_congr (hremoved.keepsDirectories.leadsTo hmoved) htarget
    (hremoved.node?_eq (by simpa using hne)), h.read_write htarget hwrite]

/-- What replacing a file leaves: the new bytes if it succeeds and what stood there if it fails. -/
structure Replaced (tree next : FileTree) (path place : List String) (name : String) (data : Bytes)
    (answer : Except FileError Unit) : Prop where
  agree : AgreeExcept [place ++ [temporaryName name], place ++ [name]] tree next
  read_of_ok : answer = .ok () → next.read (path ++ [name]) = .ok data
  node?_of_error : ∀ error, answer = .error error →
    next.node? (place ++ [name]) = tree.node? (place ++ [name])

/-- Replacing a file either fails at once, with nothing changed, or it reaches the directory and
leaves every other place as it was. -/
theorem replaceFile_spec {answer : Except FileError Unit} (hname : IsPlain name)
    (htemporary : IsPlain (temporaryName name)) (hne : name ≠ temporaryName name)
    (h : tree.replaceFile path name data = (answer, next)) :
    ((∃ error, answer = .error error) ∧ next = tree) ∨
      ∃ place, LeadsTo tree path place ∧ Replaced tree next path place name data answer := by
  simp only [replaceFile, replaceSteps, takeAll, take] at h
  cases hcreate : tree.write (path ++ [temporaryName name]) [] with
  | error error =>
    rw [hcreate] at h
    cases h
    exact Or.inl ⟨⟨error, rfl⟩, rfl⟩
  | ok created =>
    simp only [hcreate] at h
    right
    obtain ⟨target, htarget, -⟩ := bind_eq_ok_iff.mp hcreate
    obtain ⟨place, hplace⟩ := exists_leadsTo_of_locate htarget
    have hother : place ++ [name] ∉ [place ++ [temporaryName name]] := by simpa using hne
    have hmore : [place ++ [temporaryName name]] ⊆
        [place ++ [temporaryName name], place ++ [name]] := by simp
    have hcreated := hplace.agreeExcept_write htemporary (List.mem_singleton_self _) hcreate
    have hcreatedPlace := hcreated.keepsDirectories.leadsTo hplace
    refine ⟨place, hplace, ?_⟩
    cases hfill : created.write (path ++ [temporaryName name]) data with
    | error error =>
      simp only [hfill] at h
      cases h
      exact ⟨hcreated.mono hmore, by simp, fun _ _ => hcreated.node?_eq hother⟩
    | ok filled =>
      simp only [hfill] at h
      have hfilled := hcreated.trans
        (hcreatedPlace.agreeExcept_write htemporary (List.mem_singleton_self _) hfill)
      have hread := hcreatedPlace.read_write htemporary hfill
      cases hcommit : filled.rename (path ++ [temporaryName name]) (path ++ [name]) with
      | error error =>
        simp only [hcommit] at h
        cases h
        exact ⟨hfilled.mono hmore, by simp, fun _ _ => hfilled.node?_eq hother⟩
      | ok committed =>
        simp only [hcommit] at h
        cases h
        obtain ⟨hagree, hcommitted⟩ :=
          (hfilled.keepsDirectories.leadsTo hplace).read_rename htemporary hname hne hread hcommit
        exact ⟨(hfilled.mono hmore).trans hagree, fun _ => hcommitted, by simp⟩

end Chronicle.FileTree
