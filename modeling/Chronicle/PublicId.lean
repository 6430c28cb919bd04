import Chronicle.Distinct
import Chronicle.Error

/-!
# Public ids

A component is named across systems by one or more UUIDs. The first one is primary, the others are
known aliases. A public id is never empty, repeats no UUID and never holds the nil UUID: making one
drops repetitions and refuses the rest, and merging two keeps all three facts.
-/

namespace Chronicle

/-- The UUIDs that name one component, the primary one first. -/
structure PublicId where
  uuids : List Uuid
  ne_nil : uuids ≠ []
  nodup : uuids.Nodup
  nil_notMem : Uuid.nil ∉ uuids
  deriving DecidableEq

namespace PublicId

/-- The public id with the given aliases, each at its first place. -/
def ofList (uuids : List Uuid) : Except ConfigurationError PublicId :=
  if hnil : Uuid.nil ∈ uuids then .error .nilUuid
  else if hempty : uuids = [] then .error .emptyAliasSet
  else .ok {
    uuids := uuids.eraseDups
    ne_nil := by
      obtain ⟨u, us, rfl⟩ := List.exists_cons_of_ne_nil hempty
      simp [List.eraseDups_cons]
    nodup := nodup_eraseDups uuids
    nil_notMem := by simpa [List.mem_eraseDups] using hnil }

/-- The public id with one UUID. -/
def ofUuid (uuid : Uuid) : Except ConfigurationError PublicId :=
  ofList [uuid]

/-- The first alias. -/
def primary (id : PublicId) : Uuid :=
  id.uuids.head id.ne_nil

/-- Whether a UUID is an alias. -/
def contains (id : PublicId) (uuid : Uuid) : Bool :=
  uuid ∈ id.uuids

/-- The aliases that are kept, if any is. -/
def filter? (id : PublicId) (keep : Uuid → Bool) : Option PublicId :=
  if h : id.uuids.filter keep = [] then none
  else some {
    uuids := id.uuids.filter keep
    ne_nil := h
    nodup := id.nodup.filter keep
    nil_notMem := fun hmem => id.nil_notMem (List.mem_filter.mp hmem).1 }

/-- Both alias sets in one, the first id's UUIDs in front. -/
def merged (id other : PublicId) : PublicId where
  uuids := id.uuids ++ other.uuids.filter fun uuid => uuid ∉ id.uuids
  ne_nil := by simp [id.ne_nil]
  nodup := by
    refine List.nodup_append.mpr ⟨id.nodup, other.nodup.filter _, ?_⟩
    intro a ha b hb hab
    subst hab
    simp [ha] at hb
  nil_notMem := by simp [id.nil_notMem, other.nil_notMem]

instance : ToString PublicId where
  toString id := "PublicId(" ++ ", ".intercalate (id.uuids.map Uuid.text) ++ ")"

/-- A public id is told by its UUIDs, in their order. -/
@[ext]
theorem ext {a b : PublicId} (h : a.uuids = b.uuids) : a = b := by
  cases a
  cases b
  cases h
  rfl

/-- Merging keeps the aliases of the first public id and appends those of the second that it lacks.
-/
@[simp]
theorem uuids_merged (a b : PublicId) :
    (a.merged b).uuids = a.uuids ++ b.uuids.filter fun uuid => uuid ∉ a.uuids :=
  rfl

/-- A list makes a public id exactly if it has UUIDs and none is nil; repetitions are dropped. -/
theorem ofList_eq_ok_iff {uuids : List Uuid} {id : PublicId} :
    ofList uuids = .ok id ↔
      Uuid.nil ∉ uuids ∧ uuids ≠ [] ∧ id.uuids = uuids.eraseDups := by
  unfold ofList
  split
  · simp_all
  · split
    · simp_all
    · rename_i hnil hempty
      simp only [Except.ok.injEq, hnil, not_false_iff, ne_eq, hempty, true_and]
      exact ⟨fun h => h ▸ rfl, fun h => ext h.symm⟩

end PublicId

end Chronicle
