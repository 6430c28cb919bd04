import Chronicle.Proofs.Medium.Tables

/-!
# Names of table files

The file of a table ends differently from every temporary sibling of one, and from the directory of
the spines. So a table whose name is plain lies in the root directory, and writing it touches the
file of no other table. The one name without a slash that is not plain is the single point, whose
file has no temporary sibling.
-/

namespace Chronicle.Folder

open FileTree (IsPlain temporaryName)

variable {name other : String}

/-- A table name without a slash that is no single point. -/
def IsPlainTable (name : String) : Prop :=
  '/' ∉ name.toList ∧ name ≠ "."

instance (name : String) : Decidable (IsPlainTable name) :=
  inferInstanceAs (Decidable (_ ∧ _))

/-- A name that does not end in a point is plain. -/
theorem isPlain_of_getLast? {c : Char} (h : name.toList.getLast? = some c) (hc : c ≠ '.') :
    IsPlain name := by
  have hne (points : String) (hpoints : points.toList.getLast? = some '.') : name ≠ points := by
    rintro rfl
    exact hc (Option.some.inj (h.symm.trans hpoints))
  intro directory
  rw [FileTree.advance, if_neg (hne "." rfl), if_neg (hne ".." rfl)]

/-- Names that end in different characters are different. -/
theorem ne_of_getLast? {c d : Char} (hname : name.toList.getLast? = some c)
    (hother : other.toList.getLast? = some d) (h : c ≠ d) : name ≠ other := by
  rintro rfl
  exact h (Option.some.inj (hname.symm.trans hother))

private theorem toList_tableName (name : String) :
    (tableName name).toList = name.toList ++ ['.', 't', 'b', 'l'] := by
  rw [tableName, String.toList_append]
  rfl

/-- The name of every table file ends in the last letter of its extension. -/
theorem getLast?_tableName (name : String) : (tableName name).toList.getLast? = some 'l' := by
  simp [toList_tableName]

/-- Two tables have two files. -/
theorem tableName_inj (h : tableName name = tableName other) : name = other := by
  have hchars := congrArg String.toList h
  rw [toList_tableName, toList_tableName, List.append_cancel_right_eq] at hchars
  exact String.toList_inj.mp hchars

/-- The temporary sibling of a table has another suffix. Without a name, the suffix of the table is
the name. -/
theorem temporaryName_tableName (h : name ≠ ".") :
    temporaryName (tableName name) = (if name = "" then ".tbl" else name) ++ ".tmp" := by
  have hstem : (((name.toList ++ ['.', 't', 'b', 'l']).reverse.dropWhile
      (· ≠ '.')).reverse).dropLast = name.toList := by
    simp
  have hpoint : name.toList ≠ ['.'] := fun hchars => h (String.toList_inj.mp hchars)
  simp only [temporaryName, toList_tableName, hstem, if_neg hpoint]
  by_cases hempty : name = ""
  · subst hempty
    rfl
  · have hnil : name.toList ≠ [] := fun hchars => hempty (String.toList_inj.mp hchars)
    rw [if_neg hnil, if_neg hempty, String.ofList_toList]

private theorem getLast?_temporaryName_tableName (h : name ≠ ".") :
    (temporaryName (tableName name)).toList.getLast? = some 'p' := by
  simp [temporaryName_tableName h]

/-- No table has its file where another one has its temporary sibling. -/
theorem tableName_ne_temporaryName (h : name ≠ ".") (other : String) :
    tableName other ≠ temporaryName (tableName name) :=
  ne_of_getLast? (getLast?_tableName other) (getLast?_temporaryName_tableName h) (by decide)

/-- A path without a slash leads to a file of the directory that it starts from. -/
theorem pathFrom_eq (directory : List String) (hname : name ≠ "") (h : '/' ∉ name.toList) :
    FileTree.pathFrom directory name = directory ++ [name] := by
  have hnil : name.toList ≠ [] := fun hchars => hname (String.toList_inj.mp hchars)
  have hhead : name.toList.head? ≠ some '/' := fun hhead => h (List.mem_of_head? hhead)
  simp only [FileTree.pathFrom]
  rw [if_neg hhead, List.splitOn_eq_singleton h, List.filter_cons_of_pos (by simpa using hnil),
    List.filter_nil, List.map_singleton, String.ofList_toList]

/-- A table with a plain name lies in the root directory, next to its temporary sibling. -/
theorem IsPlainTable.isRootTable (h : IsPlainTable name) : IsRootTable name where
  tablePath_eq folder := by
    have hslash : '/' ∉ (tableName name).toList := by
      rw [toList_tableName, List.mem_append]
      rintro (hmem | hmem)
      · exact h.1 hmem
      · exact absurd hmem (by decide)
    have hname : tableName name ≠ "" := by
      intro hempty
      have hlast := getLast?_tableName name
      rw [hempty] at hlast
      cases hlast
    simp [tablePath, pathFrom_eq folder.root hname hslash]
  file := isPlain_of_getLast? (getLast?_tableName name) (by decide)
  temporary := isPlain_of_getLast? (getLast?_temporaryName_tableName h.2) (by decide)
  ne_temporary := tableName_ne_temporaryName h.2 name
  ne_spines :=
    ⟨ne_of_getLast? rfl (getLast?_tableName name) (by decide),
      ne_of_getLast? rfl (getLast?_temporaryName_tableName h.2) (by decide)⟩

/-- Tables of different names are apart. -/
theorem IsPlainTable.apart (h : IsPlainTable name) (hother : other ≠ name) : Apart name other :=
  ⟨fun hfile => hother (tableName_inj hfile), tableName_ne_temporaryName h.2 other⟩

end Chronicle.Folder
