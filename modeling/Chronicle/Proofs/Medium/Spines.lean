import Chronicle.Medium.Basic
import Chronicle.Proofs.Medium.FileTree
import Chronicle.Proofs.Medium.SpineFile

/-!
# Spines on a medium

A medium in memory and one in a directory obey the same laws. A spine that was written is read back,
a write that fails changes no spine, and no write changes another spine. The listing has every spine
there is, as far as its index is a 32-bit word.
-/

namespace Chronicle

namespace Folder

variable {folder next : Folder} {index : Nat} {blob : Bytes}

/-- The name of a spine file is plain. -/
theorem isPlain_spineName (index : Nat) : FileTree.IsPlain (spineName index) :=
  fun directory => advance_spineName directory index

/-- The name of the temporary sibling of a spine file is plain. -/
theorem isPlain_temporaryName (index : Nat) :
    FileTree.IsPlain (FileTree.temporaryName (spineName index)) :=
  fun directory => advance_temporaryName directory index

/-- A spine is read the same where its file is. -/
theorem readSpine_congr (hroot : next.root = folder.root)
    (h : next.tree.read (folder.spineDirectory ++ [spineName index]) =
      folder.tree.read (folder.spineDirectory ++ [spineName index])) :
    next.readSpine index = folder.readSpine index := by
  have hdirectory : next.spineDirectory = folder.spineDirectory := by
    rw [spineDirectory, hroot, spineDirectory]
  rw [readSpine, readSpine, hdirectory, read, read, h]

/-- Writing a spine replaces its file. -/
theorem replaceFile_of_writeSpine {answer : Except IoError Unit}
    (h : folder.writeSpine index blob = (answer, next)) :
    ∃ outcome, folder.tree.replaceFile folder.spineDirectory (spineName index) blob =
        (outcome, next.tree) ∧
      next.root = folder.root ∧ (answer = .ok () ↔ outcome = .ok ()) := by
  rw [writeSpine, write] at h
  split at h <;> rename_i hreplace <;> cases h
  · exact ⟨_, hreplace, rfl, by simp⟩
  · exact ⟨_, hreplace, rfl, by simp⟩

/-- A spine that was written is read back. -/
theorem readSpine_self (h : folder.writeSpine index blob = (.ok (), next)) :
    next.readSpine index = .ok (some blob) := by
  obtain ⟨outcome, hreplace, hroot, hok⟩ := replaceFile_of_writeSpine h
  obtain rfl := hok.mp rfl
  have hdirectory : next.spineDirectory = folder.spineDirectory := by
    rw [spineDirectory, hroot, spineDirectory]
  obtain ⟨⟨error, herror⟩, -⟩ | ⟨place, -, hreplaced⟩ :=
    FileTree.replaceFile_spec (isPlain_spineName index) (isPlain_temporaryName index)
      (spineName_ne_temporaryName index index) hreplace
  · cases herror
  · rw [readSpine, hdirectory, read, hreplaced.read_of_ok rfl]

/-- A write changes no other spine, and none at all if it fails. -/
theorem readSpine_other {answer : Except IoError Unit} {other : Nat}
    (h : folder.writeSpine index blob = (answer, next))
    (hother : other ≠ index ∨ answer ≠ .ok ()) :
    next.readSpine other = folder.readSpine other := by
  obtain ⟨outcome, hreplace, hroot, hok⟩ := replaceFile_of_writeSpine h
  simp only [ne_eq, hok] at hother
  apply readSpine_congr hroot
  obtain ⟨-, htree⟩ | ⟨place, hplace, hreplaced⟩ :=
    FileTree.replaceFile_spec (isPlain_spineName index) (isPlain_temporaryName index)
      (spineName_ne_temporaryName index index) hreplace
  · rw [htree]
  · refine hplace.read_congr (hreplaced.agree.keepsDirectories.leadsTo hplace)
      (isPlain_spineName other) ?_
    by_cases heq : other = index
    · subst heq
      cases outcome with
      | ok _ => simp at hother
      | error error => exact hreplaced.node?_of_error error rfl
    · have hname : spineName other ≠ spineName index := fun hname => heq (spineName_inj hname)
      exact hreplaced.agree.node?_eq (by simp [hname, spineName_ne_temporaryName])

/-- The indices that are listed are those in the names of the directory of the spines. -/
theorem exists_names_of_spineIndices {indices : List Nat} (h : folder.spineIndices = .ok indices) :
    ∃ names, folder.tree.names folder.spineDirectory = .ok names ∧
      ∀ index, index ∈ indices ↔ ∃ name ∈ names, spineIndex? name = some index := by
  rw [spineIndices] at h
  split at h
  · rename_i names hnames
    cases h
    exact ⟨names, hnames, fun index => by simp [List.mem_filterMap]⟩
  · cases h

/-- The listing has every spine whose index is a 32-bit word. -/
theorem mem_spineIndices {indices : List Nat} (h : folder.spineIndices = .ok indices)
    (hread : folder.readSpine index = .ok (some blob)) (hindex : index < UInt32.size) :
    index ∈ indices := by
  obtain ⟨names, hnames, hmem⟩ := exists_names_of_spineIndices h
  refine (hmem index).mpr ⟨spineName index, ?_, spineIndex?_spineName hindex⟩
  have hfile : folder.tree.read (folder.spineDirectory ++ [spineName index]) = .ok blob := by
    rw [readSpine, read] at hread
    split at hread
    · rename_i hfile
      cases hread
      exact hfile
    · cases hread
    · cases hread
  exact FileTree.mem_names hnames (isPlain_spineName index) hfile

/-- Every index that is listed is a 32-bit word. -/
theorem lt_of_mem_spineIndices {indices : List Nat} (h : folder.spineIndices = .ok indices)
    (hmem : index ∈ indices) : index < UInt32.size := by
  obtain ⟨names, -, hindices⟩ := exists_names_of_spineIndices h
  obtain ⟨name, -, hname⟩ := (hindices index).mp hmem
  exact lt_of_spineIndex? hname

end Folder

namespace Backing

variable {backing next : Backing} {index other : Nat} {blob : Bytes}

/-- A spine that was written is read. -/
theorem readSpine_self (h : backing.writeSpine index blob = (.ok (), next)) :
    next.readSpine index = .ok (some blob) := by
  cases backing with
  | shelf shelf =>
    cases h
    simp [readSpine, Shelf.readSpine, Shelf.writeSpine]
  | folder folder =>
    cases hwrite : folder.writeSpine index blob with
    | mk answer folder' =>
      simp only [writeSpine, hwrite] at h
      cases h
      exact Folder.readSpine_self hwrite

/-- Writing a spine changes no other one, and not even its own blob if it fails. -/
theorem readSpine_other {answer : Except IoError Unit}
    (h : backing.writeSpine index blob = (answer, next))
    (hother : other ≠ index ∨ answer ≠ .ok ()) :
    next.readSpine other = backing.readSpine other := by
  cases backing with
  | shelf shelf =>
    cases h
    have hne : index ≠ other := by simpa using Ne.symm (hother.resolve_right (by simp))
    simp [readSpine, Shelf.readSpine, Shelf.writeSpine, Std.ExtTreeMap.getElem?_insert, hne]
  | folder folder =>
    cases hwrite : folder.writeSpine index blob with
    | mk answer' folder' =>
      simp only [writeSpine, hwrite] at h
      cases h
      exact Folder.readSpine_other hwrite hother

/-- The listing has every spine there is, or the index of the spine is no 32-bit word and every
index that is listed is one. -/
theorem mem_spineIndices {indices : List Nat} (h : backing.spineIndices = .ok indices)
    (hread : backing.readSpine index = .ok (some blob)) :
    index ∈ indices ∨ UInt32.size ≤ index ∧ ∀ listed ∈ indices, listed < UInt32.size := by
  cases backing with
  | shelf shelf =>
    cases h
    simp only [readSpine, Shelf.readSpine, Except.ok.injEq] at hread
    left
    rw [Shelf.spineIndices, Std.ExtTreeMap.mem_keys, Std.ExtTreeMap.mem_iff_isSome_getElem?, hread]
    rfl
  | folder folder =>
    by_cases hindex : index < UInt32.size
    · exact Or.inl (Folder.mem_spineIndices h hread hindex)
    · exact Or.inr ⟨by omega, fun listed hlisted => Folder.lt_of_mem_spineIndices h hlisted⟩

/-- The blob of a spine, if it can be read. -/
def blob? (backing : Backing) (index : Nat) : Option Bytes :=
  (backing.readSpine index).toOption.join

/-- There is a blob exactly if it can be read. -/
theorem blob?_eq_some_iff :
    backing.blob? index = some blob ↔ backing.readSpine index = .ok (some blob) := by
  rw [blob?]
  cases backing.readSpine index with
  | error error => simp [Except.toOption]
  | ok answer => simp [Except.toOption]

/-- Writing a spine puts its blob in place and leaves the others. -/
theorem blob?_of_writeSpine (h : backing.writeSpine index blob = (.ok (), next)) (other : Nat) :
    next.blob? other = if other = index then some blob else backing.blob? other := by
  split
  · rename_i heq
    rw [heq, blob?_eq_some_iff]
    exact readSpine_self h
  · rename_i hne
    rw [blob?, blob?, readSpine_other h (Or.inl hne)]

end Backing

end Chronicle
