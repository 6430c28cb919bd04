import Chronicle.Proofs.Address
import Chronicle.Registry

/-!
# Consistent registries

The two directions of a registry say the same, and the nids that have a public id are exactly those
that were handed out: from the first one up to the one that is handed out next. Resolving keeps this
so. It maps the aliases that are new and leaves the others where they are.
-/

namespace Chronicle

namespace Nid

/-- The last nid is the one that no other follows. -/
theorem next?_eq_none_iff {nid : Nid} : nid.next? = none ↔ nid.raw = Int32.maxValue := by
  have hlast : nid = last ↔ nid.raw = Int32.maxValue := by
    constructor
    · rintro rfl
      rfl
    · intro hraw
      cases nid
      cases hraw
      rfl
  rw [next?, ← hlast]
  by_cases h : nid = last <;> simp [h]

/-- The nid after another one is the next number. -/
theorem toInt_of_next? {nid following : Nid} (h : nid.next? = some following) :
    following.raw.toInt = nid.raw.toInt + 1 := by
  have hmax := toInt_maxValue
  have hle := nid.raw.toInt_le
  have hge := nid.raw.le_toInt
  simp only [next?] at h
  split at h
  · cases h
  · rename_i hlast
    cases h
    have hne : nid.raw.toInt ≠ Int32.maxValue.toInt := by
      intro heq
      apply hlast
      cases nid
      exact congrArg Nid.mk (Int32.toInt_inj.mp heq)
    have hone : (1 : Int32).toInt = 1 := rfl
    change (nid.raw + 1).toInt = _
    rw [Int32.toInt_add, hone, Int.bmod_eq_of_le (by omega) (by omega)]

end Nid

namespace Registry

variable {r r' : Registry} {id : PublicId} {nid other : Nid} {uuid : Uuid}

/-- The aliases of a nid, none if it has no public id. -/
def aliases (r : Registry) (nid : Nid) : List Uuid :=
  ((r.publicId? nid).map PublicId.uuids).getD []

/-- A nid that was handed out. -/
def Allocated (r : Registry) (nid : Nid) : Prop :=
  Nid.first.raw ≤ nid.raw ∧ nid.raw < r.next.raw

/-- The next nid was not handed out. -/
theorem not_allocated_next (r : Registry) : ¬ r.Allocated r.next :=
  fun h => Int32.lt_irrefl h.2

/-- The rules that every registry obeys which is only changed by resolving. -/
structure Consistent (r : Registry) : Prop where
  first_le : Nid.first.raw ≤ r.next.raw
  nid?_iff : ∀ uuid nid, r.nid? uuid = some nid ↔ uuid ∈ r.aliases nid
  aliases_iff : ∀ nid, r.aliases nid ≠ [] ↔ r.Allocated nid

/-- A nid has no alias exactly if it has no public id. -/
theorem aliases_eq_nil_iff : r.aliases nid = [] ↔ r.publicId? nid = none := by
  rw [aliases]
  cases hid : r.publicId? nid with
  | none => simp
  | some id => simp [id.ne_nil]

/-- The aliases of a nid are those of its public id. -/
theorem aliases_of_some (h : r.publicId? nid = some id) : r.aliases nid = id.uuids := by
  rw [aliases, h]
  rfl

/-- The empty registry obeys the rules. -/
theorem consistent_empty : empty.Consistent := by
  constructor
  · exact Int32.le_refl _
  · intro uuid nid
    simp [nid?, aliases, publicId?, empty]
  · intro nid
    have hnone : empty.aliases nid = [] := by simp [aliases, publicId?, empty]
    simp only [hnone, ne_eq, not_true_eq_false, false_iff]
    rintro ⟨hfirst, hnext⟩
    exact Int32.not_lt.mpr hfirst hnext

/-- A nid that an alias has was handed out. -/
theorem Consistent.allocated (h : r.Consistent) (hnid : r.nid? uuid = some nid) :
    r.Allocated nid :=
  (h.aliases_iff nid).mp (List.ne_nil_of_mem ((h.nid?_iff uuid nid).mp hnid))

/-! ## Resolving -/

/-- The aliases that are not mapped yet. -/
def unmapped (r : Registry) (id : PublicId) : List Uuid :=
  id.uuids.filter fun uuid => (r.nid? uuid).isNone

/-- The aliases that are not mapped yet are those without a nid. -/
theorem mem_unmapped_iff : uuid ∈ r.unmapped id ↔ uuid ∈ id.uuids ∧ r.nid? uuid = none := by
  rw [unmapped, List.mem_filter, Option.isNone_iff_eq_none]

/-- Folding aliases onto a nid maps those that were not mapped. -/
theorem nid?_adopt (r : Registry) (nid : Nid) (id : PublicId) (uuid : Uuid) :
    (r.adopt nid id).nid? uuid = if uuid ∈ r.unmapped id then some nid else r.nid? uuid := by
  change (r.nids.insertMany ((r.unmapped id).map (·, nid)))[uuid]? = _
  by_cases hmem : uuid ∈ r.unmapped id
  · rw [if_pos hmem]
    refine Std.ExtTreeMap.getElem?_insertMany_list_of_mem Std.ReflCmp.compare_self ?_
      (List.mem_map_of_mem hmem)
    rw [List.pairwise_map]
    have hnodup : (r.unmapped id).Nodup := id.nodup.filter _
    exact hnodup.imp fun hne => by simpa using hne
  · rw [if_neg hmem]
    refine Std.ExtTreeMap.getElem?_insertMany_list_of_contains_eq_false ?_
    rw [← Bool.not_eq_true, List.contains_iff_mem]
    simpa using hmem

private theorem ids_adopt (r : Registry) (nid : Nid) (id : PublicId) :
    (r.adopt nid id).ids =
      match r.publicId? nid, id.filter? fun uuid => (r.nid? uuid).isNone with
      | some known, some new => r.ids.insert nid (known.merged new)
      | none, some new => r.ids.insert nid new
      | _, none => r.ids :=
  rfl

/-- Folding aliases onto a nid appends those that were not mapped to the ones it has. -/
theorem aliases_adopt (r : Registry) (nid : Nid) (id : PublicId) (other : Nid) :
    (r.adopt nid id).aliases other =
      if other = nid then r.aliases nid ++ (r.unmapped id).filter fun uuid => uuid ∉ r.aliases nid
      else r.aliases other := by
  have hids := r.ids_adopt nid id
  have hinsert (new : PublicId) :
      (r.ids.insert nid new)[other]? = if other = nid then some new else r.ids[other]? := by
    simp only [Std.ExtTreeMap.getElem?_insert, Std.compare_eq_iff_eq, eq_comm (a := nid)]
  cases hfilter : id.filter? fun uuid => (r.nid? uuid).isNone with
  | none =>
    have hnil : r.unmapped id = [] := by
      simp only [PublicId.filter?] at hfilter
      split at hfilter
      · assumption
      · cases hfilter
    have hsame : (r.adopt nid id).ids = r.ids := by
      rw [hids, hfilter]
      cases r.publicId? nid <;> rfl
    have haliases : (r.adopt nid id).aliases other = r.aliases other := by
      rw [aliases, publicId?, hsame, aliases, publicId?]
    rw [haliases, hnil]
    by_cases hother : other = nid
    · simp [hother]
    · simp [hother]
  | some new =>
    have hnew : new.uuids = r.unmapped id := by
      simp only [PublicId.filter?] at hfilter
      split at hfilter
      · cases hfilter
      · cases hfilter
        rfl
    rw [← hnew]
    cases hknown : r.publicId? nid with
    | none =>
      have hnil : r.aliases nid = [] := aliases_eq_nil_iff.mpr hknown
      simp only [hknown, hfilter] at hids
      have hall : (new.uuids.filter fun uuid => uuid ∉ ([] : List Uuid)) = new.uuids :=
        List.filter_eq_self.mpr (by simp)
      rw [aliases, publicId?, hids, hinsert, hnil, hall]
      by_cases hother : other = nid
      · simp [hother]
      · simp [hother, aliases, publicId?]
    | some known =>
      have huuids : r.aliases nid = known.uuids := aliases_of_some hknown
      simp only [hknown, hfilter] at hids
      rw [aliases, publicId?, hids, hinsert, huuids]
      by_cases hother : other = nid
      · simp [hother]
      · simp [hother, aliases, publicId?]

/-- What resolving a public id does. The nid is the one that its first known alias has, or the next
one if none is known. -/
structure Resolves (r : Registry) (id : PublicId) (nid : Nid) (r' : Registry) : Prop where
  nid?_eq : ∀ uuid, r'.nid? uuid = if uuid ∈ r.unmapped id then some nid else r.nid? uuid
  aliases_eq : ∀ other, r'.aliases other =
    if other = nid then r.aliases nid ++ (r.unmapped id).filter fun uuid => uuid ∉ r.aliases nid
    else r.aliases other
  origin : (∃ uuid ∈ id.uuids, r.nid? uuid = some nid) ∧ r'.next = r.next ∨
    (∀ uuid ∈ id.uuids, r.nid? uuid = none) ∧ nid = r.next ∧ r.next.next? = some r'.next
  changed : r' = r ∨ r'.changed = true

/-- Whatever is resolved is resolved as `Resolves` says. -/
theorem resolves_of_resolve (h : r.resolve id = .ok (nid, r')) : Resolves r id nid r' := by
  simp only [resolve] at h
  split at h
  · rename_i shared hshared
    cases h
    rw [sharedNid?, Option.filter_eq_some_iff, List.all_eq_true] at hshared
    obtain ⟨hprimary, hall⟩ := hshared
    have hnil : r.unmapped id = [] := by
      rw [unmapped, List.filter_eq_nil_iff]
      intro uuid huuid
      have hsome : r.nid? uuid = some nid := by simpa using hall uuid huuid
      simp [hsome]
    refine ⟨fun uuid => ?_, fun other => ?_, Or.inl ⟨⟨id.primary, ?_, hprimary⟩, rfl⟩, Or.inl rfl⟩
    · simp [hnil]
    · by_cases hother : other = nid
      · simp [hnil, hother]
      · simp [hother]
    · exact List.head_mem id.ne_nil
  · split at h
    · rename_i known hknown
      cases h
      obtain ⟨uuid, huuid, hnid⟩ := List.exists_of_findSome?_eq_some hknown
      exact ⟨nid?_adopt r nid id, aliases_adopt r nid id, Or.inl ⟨⟨uuid, huuid, hnid⟩, rfl⟩,
        Or.inr rfl⟩
    · rename_i hunknown
      split at h
      · rename_i following hfollowing
        cases h
        have hnone : ∀ uuid ∈ id.uuids, r.nid? uuid = none :=
          List.findSome?_eq_none_iff.mp hunknown
        exact ⟨nid?_adopt { r with next := following } r.next id,
          aliases_adopt { r with next := following } r.next id,
          Or.inr ⟨hnone, rfl, hfollowing⟩, Or.inr rfl⟩
      · cases h

namespace Resolves

variable (h : Resolves r id nid r')

include h

/-- What was mapped stays mapped. -/
theorem nid?_of_some (hother : r.nid? uuid = some other) : r'.nid? uuid = some other := by
  rw [h.nid?_eq, if_neg, hother]
  intro hmem
  rw [(mem_unmapped_iff.mp hmem).2] at hother
  cases hother

/-- Every alias of the id is mapped afterwards. -/
theorem isSome_nid? (huuid : uuid ∈ id.uuids) : (r'.nid? uuid).isSome := by
  rw [h.nid?_eq]
  split
  · rfl
  · rename_i hmem
    rw [mem_unmapped_iff, not_and] at hmem
    exact Option.isSome_iff_ne_none.mpr (hmem huuid)

/-- A single alias is mapped to the nid that is answered. -/
theorem nid?_single (huuids : id.uuids = [uuid]) : r'.nid? uuid = some nid := by
  have hsingle (other : Uuid) : other ∈ id.uuids ↔ other = uuid := by
    rw [huuids, List.mem_singleton]
  obtain ⟨⟨known, hknown, hnid⟩, -⟩ | ⟨hnone, -, -⟩ := h.origin
  · obtain rfl := (hsingle known).mp hknown
    exact h.nid?_of_some hnid
  · rw [h.nid?_eq, if_pos]
    exact mem_unmapped_iff.mpr ⟨(hsingle uuid).mpr rfl, hnone uuid ((hsingle uuid).mpr rfl)⟩

/-- A single alias that is new gets the next nid. -/
theorem eq_next_of_new (huuids : id.uuids = [uuid]) (hnew : r.nid? uuid = none) :
    nid = r.next ∧ r.next.next? = some r'.next := by
  obtain ⟨⟨known, hknown, hnid⟩, -⟩ | ⟨-, hnid, hnext⟩ := h.origin
  · rw [huuids, List.mem_singleton] at hknown
    rw [hknown, hnew] at hnid
    cases hnid
  · exact ⟨hnid, hnext⟩

/-- The counter never goes back. -/
theorem next_le : r.next.raw ≤ r'.next.raw := by
  obtain ⟨-, hnext⟩ | ⟨-, -, hnext⟩ := h.origin
  · rw [hnext]
    exact Int32.le_refl _
  · have := Nid.toInt_of_next? hnext
    rw [Int32.le_iff_toInt_le]
    omega

/-- What was handed out stays so. -/
theorem allocated_of_allocated (hother : r.Allocated other) : r'.Allocated other :=
  ⟨hother.1, Int32.lt_of_lt_of_le hother.2 h.next_le⟩

/-- The nid is one that was handed out before, or the one that follows them. -/
theorem allocated_iff (hr : r.Consistent) :
    r'.Allocated other ↔ r.Allocated other ∨ other = nid := by
  constructor
  · intro hother
    obtain ⟨-, hnext⟩ | ⟨-, rfl, hnext⟩ := h.origin
    · left
      rw [Allocated, hnext] at hother
      exact hother
    · have hstep := Nid.toInt_of_next? hnext
      rw [Allocated, Int32.lt_iff_toInt_lt] at hother
      by_cases heq : other.raw.toInt = r.next.raw.toInt
      · right
        cases other
        exact congrArg Nid.mk (Int32.toInt_inj.mp heq)
      · left
        refine ⟨hother.1, ?_⟩
        rw [Int32.lt_iff_toInt_lt]
        omega
  · rintro (hother | rfl)
    · exact h.allocated_of_allocated hother
    · obtain ⟨⟨uuid, huuid, hnid⟩, -⟩ | ⟨-, rfl, hnext⟩ := h.origin
      · exact h.allocated_of_allocated (hr.allocated hnid)
      · have hstep := Nid.toInt_of_next? hnext
        refine ⟨hr.first_le, ?_⟩
        rw [Int32.lt_iff_toInt_lt]
        omega

/-- A public id is resolved to a nid that was handed out. -/
theorem allocated (hr : r.Consistent) : r'.Allocated nid :=
  (h.allocated_iff hr).mpr (Or.inr rfl)

/-- If the two directions said the same before, they do so afterwards. -/
theorem nid?_iff (hr : ∀ uuid nid, r.nid? uuid = some nid ↔ uuid ∈ r.aliases nid) (uuid : Uuid)
    (other : Nid) : r'.nid? uuid = some other ↔ uuid ∈ r'.aliases other := by
  rw [h.nid?_eq, h.aliases_eq]
  have hnew : uuid ∈ r.unmapped id → uuid ∉ r.aliases other := by
    intro hmem halias
    rw [← hr, (mem_unmapped_iff.mp hmem).2] at halias
    cases halias
  by_cases hmem : uuid ∈ r.unmapped id
  · rw [if_pos hmem, Option.some.injEq]
    by_cases hother : other = nid
    · subst hother
      simp [hmem, hnew hmem]
    · simp [hother, Ne.symm hother, hnew hmem]
  · rw [if_neg hmem, hr]
    by_cases hother : other = nid
    · simp [hother, hmem]
    · simp [hother]

/-- Resolving keeps a registry consistent. -/
theorem consistent (hr : r.Consistent) : r'.Consistent := by
  refine ⟨Int32.le_trans hr.first_le h.next_le, h.nid?_iff hr.nid?_iff, fun other => ?_⟩
  rw [h.allocated_iff hr, ← hr.aliases_iff, h.aliases_eq]
  by_cases hother : other = nid
  · -- A nid that no alias leads to is new, and then every alias of the id is folded onto it.
    subst hother
    simp only [if_true, or_true, iff_true, ne_eq, List.append_eq_nil_iff, not_and]
    intro hnil
    obtain ⟨⟨uuid, huuid, hnid⟩, -⟩ | ⟨hnone, -, -⟩ := h.origin
    · rw [hr.nid?_iff, hnil] at hnid
      cases hnid
    · rw [List.filter_eq_nil_iff]
      intro hall
      have hprimary : id.primary ∈ r.unmapped id :=
        mem_unmapped_iff.mpr ⟨List.head_mem id.ne_nil, hnone _ (List.head_mem id.ne_nil)⟩
      have := hall id.primary hprimary
      simp [hnil] at this
  · simp [hother]

end Resolves

/-- Resolving a public id keeps a registry consistent. -/
theorem Consistent.resolve (h : r.Consistent) (hresolve : r.resolve id = .ok (nid, r')) :
    r'.Consistent ∧ r'.Allocated nid := by
  have hresolves := resolves_of_resolve hresolve
  exact ⟨hresolves.consistent h, hresolves.allocated h⟩

end Registry

end Chronicle
