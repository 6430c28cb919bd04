import Chronicle.Proofs.FirstPlaces
import Chronicle.PublicId

/-!
# Merged public ids

Merging appends the aliases that are new, and making a public id of a list drops the repetitions in
it. Both leave each alias at its first place, so merging is an ordered union: the public id that is
merged from several ones is the one that is made of all their lists together.
-/

namespace Chronicle.PublicId

variable {a b : PublicId} {ids : List PublicId} {uuids known : List Uuid}
  {lists : List (List Uuid)}

/-! ## Aliases taken one by one -/

/-- One more alias behind those that are known, unless it is one of them. -/
def addAlias (known : List Uuid) (uuid : Uuid) : Except ConfigurationError (List Uuid) :=
  if uuid.isNil then .error .nilUuid
  else if uuid ∈ known then .ok known
  else .ok (known ++ [uuid])

/-- The aliases in a list, taken one by one up to the nil UUID. There has to be one. -/
def gatherAliases (uuids : List Uuid) : Except ConfigurationError (List Uuid) := do
  let known ← uuids.foldlM addAlias []
  if known = [] then throw .emptyAliasSet else return known

/-- The nil UUID is refused as an alias. -/
theorem addAlias_nil (known : List Uuid) : addAlias known Uuid.nil = .error .nilUuid :=
  rfl

/-- An alias that is taken leaves what dropping repetitions does. -/
theorem addAlias_eq_eraseDups {uuid : Uuid} (hknown : known.Nodup) (huuid : uuid ≠ Uuid.nil) :
    addAlias known uuid = .ok (known ++ [uuid]).eraseDups := by
  have hnil : ¬ uuid.isNil = true := by simpa [Uuid.isNil] using huuid
  rw [addAlias, if_neg hnil, eraseDups_concat, eraseDups_of_nodup hknown]
  split <;> rfl

/-- The nil UUID stops the walk wherever it stands, and otherwise each alias keeps its first
place. -/
theorem foldlM_addAlias (hknown : known.Nodup) :
    uuids.foldlM addAlias known =
      if Uuid.nil ∈ uuids then .error .nilUuid else .ok (known ++ uuids).eraseDups := by
  induction uuids generalizing known with
  | nil =>
    rw [if_neg List.not_mem_nil, List.append_nil, eraseDups_of_nodup hknown]
    rfl
  | cons uuid uuids ih =>
    rw [List.foldlM_cons]
    by_cases huuid : uuid = Uuid.nil
    · rw [huuid, addAlias_nil, if_pos List.mem_cons_self]
      rfl
    · have hnil : Uuid.nil ∈ uuid :: uuids ↔ Uuid.nil ∈ uuids := by
        rw [List.mem_cons, or_iff_right (Ne.symm huuid)]
      rw [addAlias_eq_eraseDups hknown huuid]
      -- The walk goes on from a list that has no repetition either.
      change uuids.foldlM addAlias (known ++ [uuid]).eraseDups = _
      rw [ih (nodup_eraseDups _), eraseDups_eraseDups_append, List.append_assoc]
      simp only [hnil, List.singleton_append]

/-- A public id is made of the aliases that are gathered from its list. -/
theorem map_uuids_ofList (uuids : List Uuid) :
    (ofList uuids).map PublicId.uuids = gatherAliases uuids := by
  rw [gatherAliases, foldlM_addAlias List.nodup_nil, List.nil_append, ofList]
  split
  · rfl
  · split
    · rename_i hempty
      rw [hempty]
      rfl
    · rename_i hempty
      have hne : uuids.eraseDups ≠ [] := by
        obtain ⟨uuid, huuid⟩ := List.exists_mem_of_ne_nil uuids hempty
        exact List.ne_nil_of_mem (List.mem_eraseDups.mpr huuid)
      change Except.ok _ = if uuids.eraseDups = [] then _ else _
      rw [if_neg hne]
      rfl

/-! ## Two public ids -/

/-- The aliases of both, each at its first place. -/
theorem uuids_merged_eq_eraseDups (a b : PublicId) :
    (a.merged b).uuids = (a.uuids ++ b.uuids).eraseDups := by
  have hnew : b.uuids.removeAll a.uuids = b.uuids.filter fun uuid => uuid ∉ a.uuids := by
    simp [List.removeAll]
  rw [uuids_merged, List.eraseDups_append, hnew, eraseDups_of_nodup a.nodup,
    eraseDups_of_nodup (b.nodup.filter _)]

/-- A merged public id has the aliases of both. -/
theorem mem_merged {uuid : Uuid} : uuid ∈ (a.merged b).uuids ↔ uuid ∈ a.uuids ∨ uuid ∈ b.uuids := by
  rw [uuids_merged_eq_eraseDups, List.mem_eraseDups, List.mem_append]

/-- Merging changes nothing exactly if there is no new alias. -/
theorem merged_eq_self_iff : a.merged b = a ↔ ∀ uuid ∈ b.uuids, uuid ∈ a.uuids := by
  constructor
  · intro h uuid huuid
    rw [← h, mem_merged]
    exact Or.inr huuid
  · intro h
    apply ext
    rw [uuids_merged, List.append_right_eq_self, List.filter_eq_nil_iff]
    intro uuid huuid
    simp [h uuid huuid]

/-- Three public ids are merged in any grouping. -/
theorem merged_assoc (a b c : PublicId) : (a.merged b).merged c = a.merged (b.merged c) := by
  apply ext
  calc
    ((a.merged b).merged c).uuids
    _ = ((a.uuids ++ b.uuids).eraseDups ++ c.uuids).eraseDups := by
      rw [uuids_merged_eq_eraseDups, uuids_merged_eq_eraseDups]
    _ = (a.uuids ++ b.uuids ++ c.uuids).eraseDups := eraseDups_eraseDups_append _ _
    _ = (a.uuids ++ (b.uuids ++ c.uuids).eraseDups).eraseDups := by
      rw [eraseDups_append_eraseDups, List.append_assoc]
    _ = (a.merged (b.merged c)).uuids := by
      rw [uuids_merged_eq_eraseDups, uuids_merged_eq_eraseDups]

/-! ## Several public ids -/

/-- Several public ids in one, merged from the first one on. -/
def mergedAll : List PublicId → Except ConfigurationError PublicId
  | [] => .error .emptyAliasSet
  | id :: ids => .ok (ids.foldl merged id)

/-- Merging further ids keeps each alias at its first place. -/
theorem uuids_foldl_merged (id : PublicId) (ids : List PublicId) :
    (ids.foldl merged id).uuids = (id.uuids ++ ids.flatMap PublicId.uuids).eraseDups := by
  induction ids generalizing id with
  | nil => rw [List.foldl_nil, List.flatMap_nil, List.append_nil, eraseDups_of_nodup id.nodup]
  | cons other ids ih =>
    rw [List.foldl_cons, ih, uuids_merged_eq_eraseDups, eraseDups_eraseDups_append,
      List.append_assoc, List.flatMap_cons]

section Accepted

variable (h : List.Forall₂ (fun uuids id => ofList uuids = .ok id) lists ids)

include h

/-- The ids and the lists that they are made of hold the same aliases in the same order. -/
theorem eraseDups_flatMap_uuids :
    (ids.flatMap PublicId.uuids).eraseDups = lists.flatten.eraseDups := by
  induction h with
  | nil => rfl
  | @cons list id lists ids hid _ ih =>
    obtain ⟨-, -, huuids⟩ := ofList_eq_ok_iff.mp hid
    calc
      ((id :: ids).flatMap PublicId.uuids).eraseDups
      _ = (list.eraseDups ++ ids.flatMap PublicId.uuids).eraseDups := by
        rw [List.flatMap_cons, huuids]
      _ = (list ++ (ids.flatMap PublicId.uuids).eraseDups).eraseDups := by
        rw [eraseDups_eraseDups_append, eraseDups_append_eraseDups]
      _ = (list ++ lists.flatten).eraseDups := by rw [ih, eraseDups_append_eraseDups]
      _ = (list :: lists).flatten.eraseDups := by rw [List.flatten_cons]

private theorem nil_notMem_flatten : Uuid.nil ∉ lists.flatten := by
  induction h with
  | nil => exact List.not_mem_nil
  | cons hid _ ih =>
    rw [List.flatten_cons, List.mem_append, not_or]
    exact ⟨(ofList_eq_ok_iff.mp hid).1, ih⟩

/-- What is merged from several ids is made of all their lists together. -/
theorem ofList_flatten : ofList lists.flatten = mergedAll ids := by
  have hnil := nil_notMem_flatten h
  have hsame := eraseDups_flatMap_uuids h
  cases h with
  | nil => rfl
  | @cons list id lists ids hid _ =>
    rw [mergedAll, ofList_eq_ok_iff]
    refine ⟨hnil, ?_, ?_⟩
    · have hlist := (ofList_eq_ok_iff.mp hid).2.1
      simp [hlist]
    · rw [uuids_foldl_merged, ← List.flatMap_cons, hsame]

end Accepted

/-- **Merging is an ordered union.** What is merged from two public ids holds the aliases of both,
each once and at its first place, so that those of the first id stay in front. Nothing changes
exactly if no alias is new, merging again adds nothing, and it does not matter which ids are merged
first. Making a public id of a list takes its aliases one by one, and yet several lists that are
accepted make the same public id together as the ids that are made of them and then merged. -/
theorem merged_unites (a b c : PublicId) :
    (∀ uuids, uuids = (a.merged b).uuids ↔ FirstPlaces (a.uuids ++ b.uuids) uuids) ∧
    (a.uuids <+: (a.merged b).uuids ∧ (a.merged b).uuids.Nodup ∧
      Uuid.nil ∉ (a.merged b).uuids) ∧
    (a.merged b = a ↔ ∀ uuid ∈ b.uuids, a.contains uuid) ∧
    (a.merged a = a ∧ (a.merged b).merged b = a.merged b ∧
      (a.merged b).merged a = a.merged b) ∧
    (a.merged b).merged c = a.merged (b.merged c) ∧
    (∀ uuids, (ofList uuids).map PublicId.uuids = gatherAliases uuids) ∧
    ∀ lists ids, List.Forall₂ (fun uuids id => ofList uuids = .ok id) lists ids →
      ofList lists.flatten = mergedAll ids := by
  have hunion : FirstPlaces (a.uuids ++ b.uuids) (a.merged b).uuids :=
    firstPlaces_iff.mpr (uuids_merged_eq_eraseDups a b)
  refine ⟨fun uuids => ?_, ⟨?_, hunion.nodup, ?_⟩, ?_, ⟨?_, ?_, ?_⟩, merged_assoc a b c,
    map_uuids_ofList, fun lists ids h => ofList_flatten h⟩
  · rw [firstPlaces_iff, uuids_merged_eq_eraseDups]
  · exact List.prefix_append ..
  · rw [mem_merged, not_or]
    exact ⟨a.nil_notMem, b.nil_notMem⟩
  · simp only [merged_eq_self_iff, contains, decide_eq_true_eq]
  · exact merged_eq_self_iff.mpr fun uuid huuid => huuid
  · exact merged_eq_self_iff.mpr fun uuid huuid => mem_merged.mpr (Or.inr huuid)
  · exact merged_eq_self_iff.mpr fun uuid huuid => mem_merged.mpr (Or.inl huuid)

/-- Three lists that overlap, one of them with a repetition. -/
theorem merged_unites_overlapping :
    ∃ a b c : PublicId, ofList [⟨1⟩, ⟨2⟩, ⟨1⟩] = .ok a ∧ ofList [⟨3⟩, ⟨2⟩] = .ok b ∧
      ofList [⟨2⟩, ⟨4⟩, ⟨1⟩] = .ok c ∧ (a.merged b).uuids = [⟨1⟩, ⟨2⟩, ⟨3⟩] ∧
      FirstPlaces ([⟨1⟩, ⟨2⟩, ⟨3⟩, ⟨2⟩] : List Uuid) [⟨1⟩, ⟨2⟩, ⟨3⟩] ∧
      (a.merged b).merged c = a.merged (b.merged c) ∧
      ofList [⟨1⟩, ⟨2⟩, ⟨1⟩, ⟨3⟩, ⟨2⟩, ⟨2⟩, ⟨4⟩, ⟨1⟩] = .ok ((a.merged b).merged c) ∧
      ((a.merged b).merged c).uuids = [⟨1⟩, ⟨2⟩, ⟨3⟩, ⟨4⟩] := by
  let a : PublicId := ⟨[⟨1⟩, ⟨2⟩], by decide, by decide, by decide⟩
  let b : PublicId := ⟨[⟨3⟩, ⟨2⟩], by decide, by decide, by decide⟩
  let c : PublicId := ⟨[⟨2⟩, ⟨4⟩, ⟨1⟩], by decide, by decide, by decide⟩
  have ha : ofList [⟨1⟩, ⟨2⟩, ⟨1⟩] = .ok a := by rfl
  have hb : ofList [⟨3⟩, ⟨2⟩] = .ok b := by rfl
  have hc : ofList [⟨2⟩, ⟨4⟩, ⟨1⟩] = .ok c := by rfl
  obtain ⟨hunion, -, -, -, hassoc, -, hlists⟩ := merged_unites a b c
  exact ⟨a, b, c, ha, hb, hc, rfl, (hunion _).mp rfl, hassoc,
    hlists _ _ (.cons ha (.cons hb (.cons hc .nil))), rfl⟩

end Chronicle.PublicId
