import Chronicle.Medium.Folder

/-!
# Names of spine files

The name of a spine file determines the index of the spine, and it is found again in the listing of
a directory. The temporary sibling of a spine file is no spine file.
-/

namespace Chronicle

namespace Numeral

/-- Reading digits in turn never fails, and gives the number that they write. -/
theorem ofDigits?_eq_some {digits : List Char} (h : ∀ c ∈ digits, c.isDigit = true) :
    ofDigits? digits = some (Nat.ofDigitChars 10 digits 0) := by
  suffices hfold : ∀ n, digits.foldlM (fun n c => (digitValue? c).map (10 * n + ·)) n =
      some (Nat.ofDigitChars 10 digits n) from hfold 0
  intro n
  induction digits generalizing n with
  | nil => simp
  | cons c digits ih =>
    rw [List.forall_mem_cons] at h
    have hc : digitValue? c = some (c.toNat - '0'.toNat) := by
      have hdigit := h.1
      simp only [Char.isDigit, Bool.and_eq_true, decide_eq_true_eq] at hdigit
      rw [digitValue?, if_pos ⟨hdigit.1, hdigit.2⟩]
    rw [List.foldlM_cons, hc, Nat.ofDigitChars_cons]
    exact ih h.2 _

/-- The characters of a padded numeral. -/
def paddedDigits (width n : Nat) : List Char :=
  List.replicate (width - (Nat.toDigits 10 n).length) '0' ++ Nat.toDigits 10 n

private theorem toList_padded (width n : Nat) : (padded width n).toList = paddedDigits width n := by
  simp [padded, paddedDigits]

private theorem isDigit_of_mem_paddedDigits {width n : Nat} {c : Char}
    (h : c ∈ paddedDigits width n) :
    c.isDigit = true := by
  rw [paddedDigits, List.mem_append] at h
  cases h with
  | inl h =>
    rw [List.eq_of_mem_replicate h]
    rfl
  | inr h => exact Nat.isDigit_of_mem_toDigits (by decide) (by decide) h

private theorem ofDigitChars_paddedDigits (width n : Nat) :
    Nat.ofDigitChars 10 (paddedDigits width n) 0 = n := by
  rw [paddedDigits, Nat.ofDigitChars_append, Nat.ofDigitChars_replicate_zero, Nat.mul_zero,
    Nat.ofDigitChars_ten_toDigits]

private theorem paddedDigits_ne_nil (width n : Nat) : paddedDigits width n ≠ [] := by
  simp [paddedDigits, Nat.toDigits_ne_nil]

/-- A padded numeral below the bound is read as its number. -/
theorem parse?_paddedDigits {bound n : Nat} (h : n < bound) (width : Nat) :
    parse? bound (paddedDigits width n) = some n := by
  have hdigits : ofDigits? (paddedDigits width n) =
      some (Nat.ofDigitChars 10 (paddedDigits width n) 0) :=
    ofDigits?_eq_some fun c hc => isDigit_of_mem_paddedDigits hc
  cases hchars : paddedDigits width n with
  | nil => exact absurd hchars (paddedDigits_ne_nil width n)
  | cons c rest =>
    have hsign : c ≠ '+' := by
      rintro rfl
      have := isDigit_of_mem_paddedDigits (hchars ▸ List.mem_cons_self)
      exact absurd this (by decide)
    rw [ofDigitChars_paddedDigits, hchars] at hdigits
    simp [parse?, hsign, hdigits, h]

private theorem lt_of_parse? {bound n : Nat} {text : List Char} (h : parse? bound text = some n) :
    n < bound := by
  have hfilter := (Option.ite_none_left_eq_some.mp h).2
  simpa using (Option.filter_eq_some_iff.mp hfilter).2

end Numeral

namespace Folder

/-- The digits in front of the suffix in the name of a spine file. -/
def indexDigits (index : Nat) : List Char :=
  Numeral.paddedDigits 8 index

private theorem toList_spineName (index : Nat) :
    (spineName index).toList = indexDigits index ++ ['.', 's', 'p', 'i', 'n', 'e'] := by
  rw [spineName, String.toList_append, Numeral.toList_padded]
  rfl

private theorem isDigit_of_mem_indexDigits {index : Nat} {c : Char} (h : c ∈ indexDigits index) :
    c.isDigit = true :=
  Numeral.isDigit_of_mem_paddedDigits h

/-- Two spines have two files. -/
theorem spineName_inj {i j : Nat} (h : spineName i = spineName j) : i = j := by
  have hchars := congrArg String.toList h
  rw [toList_spineName, toList_spineName, List.append_cancel_right_eq] at hchars
  rw [← Numeral.ofDigitChars_paddedDigits 8 i, ← Numeral.ofDigitChars_paddedDigits 8 j]
  exact congrArg _ hchars

/-- The index of a spine is read off the name of its file. -/
theorem spineIndex?_spineName {index : Nat} (h : index < UInt32.size) :
    spineIndex? (spineName index) = some index := by
  have hsuffix : ".spine".toList = ['.', 's', 'p', 'i', 'n', 'e'] := rfl
  have hparse := Numeral.parse?_paddedDigits h 8
  rw [spineIndex?, toList_spineName, hsuffix]
  simp [indexDigits, hparse]

/-- The index in the name of a spine file fits 32 bits. -/
theorem lt_of_spineIndex? {name : String} {index : Nat} (h : spineIndex? name = some index) :
    index < UInt32.size := by
  rw [spineIndex?] at h
  split at h
  · exact Numeral.lt_of_parse? h
  · cases h

/-- The temporary sibling of a spine file has the digits and another suffix. -/
theorem temporaryName_spineName (index : Nat) :
    FileTree.temporaryName (spineName index) = String.ofList (indexDigits index) ++ ".tmp" := by
  have hstem : (((indexDigits index ++ ['.', 's', 'p', 'i', 'n', 'e']).reverse.dropWhile
      (· ≠ '.')).reverse).dropLast = indexDigits index := by
    simp
  have hnil : indexDigits index ≠ [] := Numeral.paddedDigits_ne_nil 8 index
  have hpoint : indexDigits index ≠ ['.'] := by
    intro h
    have := isDigit_of_mem_indexDigits (h ▸ List.mem_singleton_self '.')
    exact absurd this (by decide)
  simp only [FileTree.temporaryName, toList_spineName, hstem, if_neg hnil, if_neg hpoint]

/-- The temporary sibling of a spine file is no spine file. -/
theorem spineName_ne_temporaryName (i j : Nat) :
    spineName i ≠ FileTree.temporaryName (spineName j) := by
  intro h
  have hchars := congrArg String.toList h
  rw [temporaryName_spineName, toList_spineName, String.toList_append, String.toList_ofList]
    at hchars
  have hlast := congrArg List.getLast? hchars
  simp at hlast

/-- No index is read off the name of a temporary sibling. -/
theorem spineIndex?_temporaryName (index : Nat) :
    spineIndex? (FileTree.temporaryName (spineName index)) = none := by
  have hsuffix :
      ¬ ".spine".toList.isSuffixOf (FileTree.temporaryName (spineName index)).toList = true := by
    intro hsuffix
    have hlast := (List.isSuffixOf_iff_suffix.mp hsuffix).getLast (by decide)
    simp [temporaryName_spineName] at hlast
  rw [spineIndex?, if_neg hsuffix]

/-- The name of a spine file, or of its temporary sibling, leads further down. -/
theorem advance_spineName (directory : List String) (index : Nat) :
    FileTree.advance directory (spineName index) = directory ++ [spineName index] := by
  have hne (name : String) (hname : name.toList.length ≤ 2) : spineName index ≠ name := by
    rintro rfl
    rw [toList_spineName] at hname
    simp at hname
  rw [FileTree.advance, if_neg (hne "." (by decide)), if_neg (hne ".." (by decide))]

/-- The temporary sibling of a spine file lies in the same directory. -/
theorem advance_temporaryName (directory : List String) (index : Nat) :
    FileTree.advance directory (FileTree.temporaryName (spineName index)) =
      directory ++ [FileTree.temporaryName (spineName index)] := by
  have hne (name : String) (hname : name.toList.length ≤ 2) :
      FileTree.temporaryName (spineName index) ≠ name := by
    rintro rfl
    rw [temporaryName_spineName, String.toList_append] at hname
    simp at hname
  rw [FileTree.advance, if_neg (hne "." (by decide)), if_neg (hne ".." (by decide))]

end Folder

end Chronicle
