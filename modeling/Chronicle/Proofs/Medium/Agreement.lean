import Chronicle.Proofs.Medium.Mirror

/-!
# Media on disk and in memory agree

A medium in an empty directory and an empty one in memory give the same answers to the same requests.
They still do if writes are cut off on the way and the directory is opened anew each time, where a
medium in memory has had such a write just if its file was moved into place: after every request and
every such write, the directory mirrors what is in memory. Of the tables whose names have no slash,
and which the file system can name, a directory refuses only the one whose name is a single point: its
temporary sibling would be the directory above.
-/

namespace Chronicle

open FileTree (LeadsTo)

namespace Folder

/-- There is nothing in the root directory but the directory of the spines, which is empty. -/
structure IsEmpty (folder : Folder) : Prop where
  root : folder.tree.names folder.root = .ok ["spines"]
  spines : folder.tree.names folder.spineDirectory = .ok []

instance (folder : Folder) : Decidable folder.IsEmpty :=
  decidable_of_iff (folder.tree.names folder.root = .ok ["spines"] ∧
      folder.tree.names folder.spineDirectory = .ok [])
    ⟨fun h => ⟨h.1, h.2⟩, fun h => ⟨h.root, h.spines⟩⟩

variable {folder : Folder}

/-- Opening an empty directory makes the directory of the spines there, and nothing else. -/
theorem isEmpty_of_open {tree : FileTree} {root place : List String}
    (hroot : tree.locate root = .ok place) (hplace : tree.node? place = some .directory)
    (hbelow : tree.below place = []) (hopen : Folder.open tree root = .ok folder) :
    folder.IsEmpty := by
  obtain ⟨⟨⟩, hpath, hfollow⟩ := FileTree.bind_eq_ok_iff.mp hroot
  have hnone (name : String) (rest : List String) : tree.node? (place ++ name :: rest) = none :=
    FileTree.node?_eq_none_of_below hbelow (List.cons_ne_nil name rest)
  have hleads : LeadsTo tree root place := ⟨hfollow, hplace⟩
  obtain ⟨hcreate, hspines⟩ := hleads.createFrom_child isPlain_spines rfl (hnone "spines" [])
  have hnode := FileTree.node?_withDirectory tree (place ++ ["spines"])
  have hkeeps := FileTree.keepsDirectories_withDirectory tree (place ++ ["spines"])
  generalize tree.withDirectory (place ++ ["spines"]) = next at *
  obtain ⟨hspines_ok, rfl⟩ :
      FileTree.checkPath (root ++ ["spines"]) = .ok () ∧ folder = { tree := next, root } := by
    unfold Folder.open FileTree.createDirectories at hopen
    split at hopen
    · cases hopen
    · cases hpath : FileTree.checkPath (root ++ ["spines"]) with
      | error error =>
        rw [hpath] at hopen
        cases hopen
      | ok _ =>
        simp only [hpath, hcreate] at hopen
        cases hopen
        exact ⟨rfl, rfl⟩
  obtain ⟨names, hnames, hnodup, hmem⟩ := (hkeeps.leadsTo hleads).exists_names hpath
  obtain ⟨names', hnames', -, hmem'⟩ := hspines.exists_names hspines_ok
  have honly : names = ["spines"] := by
    rw [← List.perm_singleton, List.perm_ext_iff_of_nodup hnodup (List.nodup_singleton _)]
    intro name
    rw [hmem, hnode, List.mem_singleton]
    by_cases hname : name = "spines"
    · simp [hname]
    · simp [hname, hnone]
  have hnil : names' = [] := by
    refine List.eq_nil_iff_forall_not_mem.mpr fun name hname => ?_
    rw [hmem', hnode, if_neg (by simp), List.append_assoc, List.singleton_append, hnone] at hname
    cases hname
  exact ⟨honly ▸ hnames, hnil ▸ hnames'⟩

/-- An empty folder mirrors an empty shelf. -/
theorem IsEmpty.exists_mirrors (h : folder.IsEmpty) :
    ∃ place, Mirrors place folder Shelf.empty := by
  obtain ⟨hpath, place, hroot⟩ := FileTree.leadsTo_of_names h.root
  obtain ⟨hpath', _, hspines⟩ := FileTree.leadsTo_of_names h.spines
  obtain ⟨parent, hparent, rfl⟩ := hspines.exists_parent isPlain_spines
  obtain rfl := hroot.unique hparent
  obtain ⟨names, hnames, -, hmem⟩ := hroot.exists_names hpath
  obtain ⟨names', hnames', -, hmem'⟩ := hspines.exists_names hpath'
  obtain rfl : names = ["spines"] := Except.ok.inj (hnames.symm.trans h.root)
  obtain rfl : names' = [] := Except.ok.inj (hnames'.symm.trans h.spines)
  have hrest (name : String) (hname : name ≠ "spines") :
      folder.tree.node? (parent ++ [name]) = none := by
    rw [← Option.not_isSome_iff_eq_none, ← hmem]
    simpa using hname
  have hnone (name : String) : folder.tree.node? (parent ++ ["spines"] ++ [name]) = none := by
    rw [← Option.not_isSome_iff_eq_none, ← hmem']
    exact List.not_mem_nil
  have htable (name : String) : tableName name ≠ "spines" :=
    ne_of_getLast? (getLast?_tableName name) rfl (by decide)
  refine ⟨parent, hroot, hspines, hpath', fun w => ?_, fun name hname => ?_, fun name => ?_,
    fun name index hname => ?_, fun index hindex => ?_⟩
  · cases w with
    | table name bytes =>
      rw [Write.directory, Write.name, hrest _ (htable name)]
      simp [Write.found?, Shelf.readTable, Shelf.empty]
    | spine index bytes =>
      rw [Write.directory, hnone]
      simp [Write.found?, Shelf.readSpine, Shelf.empty]
  · by_contra hne
    rw [hrest name hne] at hname
    cases hname
  · rw [hnone]
    simp
  · rw [hnone] at hname
    cases hname
  · simp [Shelf.readSpine, Shelf.empty] at hindex

end Folder

namespace Backing

/-- What a medium is asked for. -/
inductive Request where
  | write (w : Write)
  | readSpine (index : Nat)
  | spineIndices
  | readTable (name : String)
  deriving DecidableEq

/-- What a medium answers with. -/
inductive Reply where
  | written
  | blob (found : Option Bytes)
  | indices (found : List Nat)
  deriving DecidableEq

/-- Serves a request. -/
def serve (backing : Backing) : Request → Except IoError Reply × Backing
  | .write w => ((backing.put w).1.map fun _ => .written, backing.after w)
  | .readSpine index => ((backing.readSpine index).map .blob, backing)
  | .spineIndices => (backing.spineIndices.map .indices, backing)
  | .readTable name => ((backing.readTable name).map .blob, backing)

/-- What happens to a medium. -/
inductive Incident where
  | asked (request : Request)
  /-- A write is cut off, and then the medium is opened anew. -/
  | cutOff (w : Write) (cut : Cut)
  deriving DecidableEq

/-- Cuts a write off, and opens the medium anew. In memory, where a write takes no steps, it counts
once the file would be in place. -/
def cutOff (backing : Backing) (w : Write) (cut : Cut) : Except ConfigurationError Backing :=
  match backing with
  | shelf s => .ok (.shelf (if cut = .renamed then s.after w else s))
  | folder f =>
    (Folder.open (f.tree.takeAll (cut.steps (w.directory f.root) w.name w.data)).2 f.root).map
      .folder

/-- The answers to the requests among some incidents, unless the medium cannot be opened anew. -/
def run (backing : Backing) :
    List Incident → Except ConfigurationError (List (Except IoError Reply))
  | [] => .ok []
  | .asked request :: incidents => do
    let answers ← run (backing.serve request).2 incidents
    return (backing.serve request).1 :: answers
  | .cutOff w cut :: incidents => do run (← backing.cutOff w cut) incidents

/-- A plain request, for a blob that the file system takes. -/
def Request.Admissible (root : List String) : Request → Prop
  | write w => w.IsPlain ∧ w.Fits root
  | readSpine index =>
    index < UInt32.size ∧ FileTree.Fits (root ++ ["spines"]) (Folder.spineName index)
  | spineIndices => True
  | readTable name => Folder.IsPlainTable name ∧ FileTree.Fits root (Folder.tableName name)

/-- An incident whose request is plain and fits, or whose write does. -/
def Incident.Admissible (root : List String) : Incident → Prop
  | asked request => request.Admissible root
  | cutOff w _ => w.IsPlain ∧ w.Fits root

instance (root : List String) : (request : Request) → Decidable (request.Admissible root)
  | .write w => inferInstanceAs (Decidable (w.IsPlain ∧ w.Fits root))
  | .readSpine index => inferInstanceAs (Decidable (index < UInt32.size ∧
      FileTree.Fits (root ++ ["spines"]) (Folder.spineName index)))
  | .spineIndices => inferInstanceAs (Decidable True)
  | .readTable name => inferInstanceAs (Decidable (Folder.IsPlainTable name ∧
      FileTree.Fits root (Folder.tableName name)))

instance (root : List String) : (incident : Incident) → Decidable (incident.Admissible root)
  | .asked request => inferInstanceAs (Decidable (request.Admissible root))
  | .cutOff w _ => inferInstanceAs (Decidable (w.IsPlain ∧ w.Fits root))

/-- Whether indices, where they are answered, are in ascending order and none occurs twice. -/
def Reply.IsAscending : Reply → Prop
  | indices found => found.Pairwise (· < ·)
  | _ => True

variable {place : List String} {folder : Folder} {shelf : Shelf}

private theorem put_shelf (shelf : Shelf) (w : Write) :
    put (.shelf shelf) w = (.ok (), .shelf (shelf.after w)) := by
  cases w <;> rfl

/-- A request has the same reply on disk and in memory, and leaves both alike. -/
theorem serve_mirrors (h : Mirrors place folder shelf) {request : Request}
    (hrequest : request.Admissible folder.root) :
    ∃ reply tree shelf', serve (.folder folder) request = (.ok reply, .folder { folder with tree }) ∧
      serve (.shelf shelf) request = (.ok reply, .shelf shelf') ∧
      Mirrors place { folder with tree } shelf' ∧ reply.IsAscending := by
  cases request with
  | write w =>
    obtain ⟨hput, tree, hafter, hmirrors⟩ := h.after hrequest.1 hrequest.2
    refine ⟨.written, tree, shelf.after w, ?_, ?_, hmirrors, trivial⟩
    · rw [serve, hput, hafter]
      rfl
    · rw [serve, Backing.after, put_shelf]
      rfl
  | readSpine index =>
    have hread : folder.readSpine index = .ok (shelf.readSpine index) :=
      h.readSpine_eq hrequest.2
    refine ⟨.blob (shelf.readSpine index), folder.tree, shelf, ?_, rfl, h, trivial⟩
    rw [serve, readSpine, hread]
    rfl
  | spineIndices =>
    refine ⟨.indices shelf.spineIndices, folder.tree, shelf, ?_, rfl, h,
      Mirrors.pairwise_spineIndices shelf⟩
    rw [serve, spineIndices, h.spineIndices_eq]
    rfl
  | readTable name =>
    have hread : folder.readTable name = .ok (shelf.readTable name) :=
      h.readTable_eq hrequest.1 hrequest.2
    refine ⟨.blob (shelf.readTable name), folder.tree, shelf, ?_, rfl, h, trivial⟩
    rw [serve, readTable, hread]
    rfl

/-- So does a write that is cut off. -/
theorem cutOff_mirrors (h : Mirrors place folder shelf) {w : Write} (hw : w.IsPlain)
    (hfits : w.Fits folder.root) (cut : Cut) :
    ∃ tree shelf', cutOff (.folder folder) w cut = .ok (.folder { folder with tree }) ∧
      cutOff (.shelf shelf) w cut = .ok (.shelf shelf') ∧
      Mirrors place { folder with tree } shelf' := by
  have hmirrors := h.takeAll_cut hw hfits cut
  refine ⟨_, _, ?_, rfl, hmirrors⟩
  have hopen := hmirrors.open_eq
  dsimp only at hopen
  rw [cutOff, hopen]
  rfl

/-- Media that are alike give the same replies. -/
theorem run_mirrors (incidents : List Incident) :
    ∀ {folder : Folder} {shelf : Shelf}, Mirrors place folder shelf →
      (∀ incident ∈ incidents, incident.Admissible folder.root) →
      ∃ replies : List Reply, run (.folder folder) incidents = .ok (replies.map .ok) ∧
        run (.shelf shelf) incidents = .ok (replies.map .ok) ∧
        ∀ reply ∈ replies, reply.IsAscending := by
  induction incidents with
  | nil => exact fun _ _ => ⟨[], rfl, rfl, by simp⟩
  | cons incident incidents ih =>
    intro folder shelf h hall
    rw [List.forall_mem_cons] at hall
    cases incident with
    | asked request =>
      obtain ⟨reply, tree, shelf', hfolder, hshelf, hmirrors, hascending⟩ :=
        serve_mirrors h hall.1
      obtain ⟨replies, hreplies, hreplies', hrest⟩ := ih hmirrors hall.2
      refine ⟨reply :: replies, ?_, ?_, List.forall_mem_cons.mpr ⟨hascending, hrest⟩⟩
      · simp only [run, hfolder, hreplies]
        rfl
      · simp only [run, hshelf, hreplies']
        rfl
    | cutOff w cut =>
      obtain ⟨tree, shelf', hfolder, hshelf, hmirrors⟩ := cutOff_mirrors h hall.1.1 hall.1.2 cut
      obtain ⟨replies, hreplies, hreplies', hrest⟩ := ih hmirrors hall.2
      refine ⟨replies, ?_, ?_, hrest⟩
      · simp only [run, hfolder]
        exact hreplies
      · simp only [run, hshelf]
        exact hreplies'

/-- **Media agree.** Whatever is asked of an empty folder and of an empty shelf, and wherever writes
are cut off in between, the folder can be opened anew each time and both reply the same: all that is
asked is done, a blob is found as it was last written, and indices are listed in ascending order. -/
theorem folder_agrees_with_shelf {folder : Folder} (hempty : folder.IsEmpty)
    (incidents : List Incident)
    (hadmissible : ∀ incident ∈ incidents, incident.Admissible folder.root) :
    ∃ replies : List Reply, run (.folder folder) incidents = .ok (replies.map .ok) ∧
      run (.shelf .empty) incidents = .ok (replies.map .ok) ∧
      ∀ indices, .indices indices ∈ replies → indices.Pairwise (· < ·) := by
  obtain ⟨place, hmirrors⟩ := hempty.exists_mirrors
  obtain ⟨replies, hfolder, hshelf, hascending⟩ := run_mirrors incidents hmirrors hadmissible
  exact ⟨replies, hfolder, hshelf, fun indices hindices => hascending _ hindices⟩

/-- In a directory that was opened empty, a spine keeps its bytes if a write is cut off before the
file is in place, and a table has its new ones if a write is cut off after that. -/
theorem folder_agrees_with_shelf_where_cut_off :
    ∃ (tree : FileTree) (folder : Folder), Folder.open tree ["store"] = .ok folder ∧
      run (.folder folder)
          [.asked (.write (.spine 3 [3])), .cutOff (.spine 3 [4, 5]) (.filled 1),
            .asked (.readSpine 3), .cutOff (.table "paths" [6]) .renamed,
            .asked (.readTable "paths"), .asked .spineIndices] =
        .ok [.ok .written, .ok (.blob (some [3])), .ok (.blob (some [6])), .ok (.indices [3])] := by
  let entries : Std.ExtTreeMap (List String) FileNode := ∅
  let tree : FileTree := ⟨entries.insert ["store"] .directory⟩
  let folder : Folder :=
    { tree := ⟨tree.entries.insert ["store", "spines"] .directory⟩, root := ["store"] }
  have hopen : Folder.open tree ["store"] = .ok folder := by decide +kernel
  have hroot : tree.locate ["store"] = .ok ["store"] := by decide +kernel
  have hempty : folder.IsEmpty :=
    Folder.isEmpty_of_open hroot (by decide +kernel) (by decide +kernel) hopen
  obtain ⟨replies, hfolder, hshelf, -⟩ := folder_agrees_with_shelf hempty
    [.asked (.write (.spine 3 [3])), .cutOff (.spine 3 [4, 5]) (.filled 1), .asked (.readSpine 3),
      .cutOff (.table "paths" [6]) .renamed, .asked (.readTable "paths"), .asked .spineIndices]
    (by decide +kernel)
  refine ⟨tree, folder, hopen, ?_⟩
  rw [hfolder, ← hshelf]
  decide +kernel

/-- A table whose name is a single point is refused on disk, and taken in memory. -/
theorem single_point_refused :
    ∃ folder : Folder, Folder.open FileTree.empty ["store"] = .ok folder ∧ folder.IsEmpty ∧
      FileTree.Fits folder.root (Folder.tableName ".") ∧
      run (.folder folder) [.asked (.write (.table "." [2])), .asked (.readTable ".")] =
        .ok [.error .system, .ok (.blob none)] ∧
      run (.shelf .empty) [.asked (.write (.table "." [2])), .asked (.readTable ".")] =
        .ok [.ok .written, .ok (.blob (some [2]))] := by
  let entries : Std.ExtTreeMap (List String) FileNode := ∅
  let tree : FileTree :=
    ⟨(entries.insert ["store"] .directory).insert ["store", "spines"] .directory⟩
  exact ⟨{ tree, root := ["store"] }, by decide +kernel, by decide +kernel, by decide +kernel,
    by decide +kernel, by decide +kernel⟩

end Backing

end Chronicle
