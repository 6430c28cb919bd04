import Chronicle.Proofs.Identity.Registry
import Chronicle.Proofs.Reader
import Chronicle.Proofs.Sorting
import Chronicle.Registry.Table
import Mathlib.Data.List.Nodup
import Mathlib.Data.List.Perm.Subperm

/-!
# Identity tables

A consistent registry is read back from its table, except that it then has no changes, as long as
the table can count the aliases of every nid. The number of entries is never in the way, because
there are fewer nids than four bytes can count.
-/

namespace Chronicle

/-- A public id is the one that is made of its aliases. -/
theorem PublicId.ofList_uuids (id : PublicId) : PublicId.ofList id.uuids = .ok id :=
  PublicId.ofList_eq_ok_iff.mpr ⟨id.nil_notMem, id.ne_nil, (eraseDups_of_nodup id.nodup).symm⟩

namespace Registry

variable {r : Registry}

/-- Four bytes count the aliases of every nid. -/
def Writable (r : Registry) : Prop :=
  ∀ nid, (r.aliases nid).length < UInt32.size

/-- Every nid with a public id was handed out, and there are fewer of those than four bytes
count. -/
theorem Consistent.size_lt (h : r.Consistent) : r.ids.size < UInt32.size := by
  have hoffset (nid : Nid) (hnid : nid ∈ r.ids.keys) : ∃ offset, nid.offset? = some offset := by
    rw [Std.ExtTreeMap.mem_keys, Std.ExtTreeMap.mem_iff_isSome_getElem?] at hnid
    have hne : r.aliases nid ≠ [] := by
      rw [ne_eq, aliases_eq_nil_iff]
      exact Option.isSome_iff_ne_none.mp hnid
    have hfirst : Nid.first.raw ≤ nid.raw := ((h.aliases_iff nid).mp hne).1
    refine Option.ne_none_iff_exists'.mp fun hnone => ?_
    exact Int32.not_lt.mpr hfirst (Nid.offset?_eq_none_iff.mp hnone)
  have hnodup : (r.ids.keys.map fun nid => nid.offset?.getD 0).Nodup := by
    refine List.Nodup.map_on (fun a ha b hb hab => ?_) Std.ExtTreeMap.nodup_keys
    obtain ⟨m, hm⟩ := hoffset a ha
    obtain ⟨n, hn⟩ := hoffset b hb
    rw [hm, hn, Option.getD_some, Option.getD_some] at hab
    subst hab
    rw [← Nid.ofOffset?_eq_some_iff] at hm hn
    rw [hm, Option.some.injEq] at hn
    exact hn
  have hsubset : (r.ids.keys.map fun nid => nid.offset?.getD 0) ⊆ List.range (UInt32.size - 1) := by
    intro offset hmem
    obtain ⟨nid, hnid, rfl⟩ := List.mem_map.mp hmem
    obtain ⟨m, hm⟩ := hoffset nid hnid
    rw [hm, Option.getD_some, List.mem_range]
    exact Nid.offset_lt hm
  have hle := (List.subperm_of_subset hnodup hsubset).length_le
  rw [List.length_map, Std.ExtTreeMap.length_keys, List.length_range] at hle
  have hsize : 0 < UInt32.size := by decide
  omega

/-- Records the entries of a registry. -/
def restoreEntries (entries : List (Nid × PublicId)) (r : Registry) : Registry :=
  entries.foldl (fun r entry => r.restore entry.1 entry.2 entry.2.uuids) r

/-- Reading entries restores them one after another. -/
theorem reads_readEntries (entries : List (Nid × PublicId)) (r : Registry)
    (h : ∀ entry ∈ entries, entry.2.uuids.length < UInt32.size) :
    Reader.Reads (readEntries entries.length r) (entries.flatMap encodeEntry)
      (restoreEntries entries r) := by
  induction entries generalizing r with
  | nil => exact Reader.reads_pure r
  | cons entry entries ih =>
    rw [List.forall_mem_cons] at h
    rw [List.flatMap_cons, encodeEntry, List.append_assoc, List.append_assoc]
    refine (Reader.reads_nid entry.1).bind ((Reader.reads_count h.1).bind
      ((Reader.reads_items fun uuid _ => Reader.reads_uuid uuid).bind ?_))
    rw [PublicId.ofList_uuids]
    exact ih _ h.2

/-- Restoring entries one after another inserts them all. -/
theorem restoreEntries_eq (entries : List (Nid × PublicId)) (r : Registry) :
    restoreEntries entries r =
      { r with
        nids := r.nids.insertMany
          (entries.flatMap fun entry => entry.2.uuids.map (·, entry.1))
        ids := r.ids.insertMany entries } := by
  induction entries generalizing r with
  | nil => simp [restoreEntries]
  | cons entry entries ih =>
    rw [restoreEntries, List.foldl_cons, ← restoreEntries, ih, restore, List.flatMap_cons,
      Std.ExtTreeMap.insertMany_append, Std.ExtTreeMap.insertMany_cons]

/-- The entries of a registry are its nids with their public ids. -/
theorem mem_toList_iff {nid : Nid} {id : PublicId} :
    (nid, id) ∈ r.ids.toList ↔ r.publicId? nid = some id :=
  Std.ExtTreeMap.mem_toList_iff_getElem?_eq_some

/-- The entries of a registry restore its public ids. -/
theorem insertMany_toList (r : Registry) :
    (∅ : Std.ExtTreeMap Nid PublicId).insertMany r.ids.toList = r.ids := by
  apply Std.ExtTreeMap.ext_getElem?
  intro nid
  cases hid : r.ids[nid]? with
  | some id =>
    exact Std.ExtTreeMap.getElem?_insertMany_list_of_mem Std.ReflCmp.compare_self
      Std.ExtTreeMap.distinct_keys_toList (mem_toList_iff.mpr hid)
  | none =>
    rw [Std.ExtTreeMap.getElem?_insertMany_list_of_contains_eq_false,
      Std.ExtTreeMap.getElem?_empty]
    rw [← Bool.not_eq_true, List.contains_iff_mem, List.mem_map]
    rintro ⟨⟨other, id⟩, hmem, rfl⟩
    rw [mem_toList_iff, publicId?, hid] at hmem
    cases hmem

/-- The pairs of an alias and its nid that the entries of a registry hold. -/
def pairs (r : Registry) : List (Uuid × Nid) :=
  r.ids.toList.flatMap fun entry => entry.2.uuids.map (·, entry.1)

/-- The pairs that the entries hold are the aliases with their nids. -/
theorem Consistent.mem_pairs_iff (h : r.Consistent) {uuid : Uuid} {nid : Nid} :
    (uuid, nid) ∈ r.pairs ↔ r.nid? uuid = some nid := by
  rw [h.nid?_iff, pairs, List.mem_flatMap]
  constructor
  · rintro ⟨⟨other, id⟩, hmem, hpair⟩
    obtain ⟨_, huuid, heq⟩ := List.mem_map.mp hpair
    cases heq
    rwa [aliases_of_some (mem_toList_iff.mp hmem)]
  · intro hmem
    cases hid : r.publicId? nid with
    | none =>
      rw [aliases_eq_nil_iff.mpr hid] at hmem
      cases hmem
    | some id =>
      rw [aliases_of_some hid] at hmem
      exact ⟨(nid, id), mem_toList_iff.mpr hid, List.mem_map_of_mem hmem⟩

/-- No alias occurs in two pairs. -/
theorem Consistent.pairwise_pairs (h : r.Consistent) :
    r.pairs.Pairwise fun a b => ¬ compare a.1 b.1 = .eq := by
  have hall (entry : Nid × PublicId) (hentry : entry ∈ r.ids.toList) (uuid : Uuid)
      (huuid : uuid ∈ entry.2.uuids) : r.nid? uuid = some entry.1 := by
    rw [h.nid?_iff, aliases_of_some (mem_toList_iff.mp hentry)]
    exact huuid
  have hkeys := pairwise_toList_ne r.ids
  rw [pairs, List.pairwise_flatMap]
  refine ⟨fun entry _ => ?_, hkeys.imp_of_mem fun {a b} ha hb hne => ?_⟩
  · rw [List.pairwise_map]
    exact entry.2.nodup.imp fun hne => by simpa using hne
  · rintro ⟨uuid, _⟩ hx ⟨other, _⟩ hy heq
    obtain ⟨_, huuid, hpair⟩ := List.mem_map.mp hx
    cases hpair
    obtain ⟨_, hother, hpair⟩ := List.mem_map.mp hy
    cases hpair
    obtain rfl := Std.LawfulEqOrd.eq_of_compare heq
    have hsame := hall a ha uuid huuid
    rw [hall b hb uuid hother, Option.some.injEq] at hsame
    exact hne hsame.symm

/-- The pairs of the entries make the mapping of the aliases again. -/
theorem Consistent.insertMany_pairs (h : r.Consistent) :
    (∅ : Std.ExtTreeMap Uuid Nid).insertMany r.pairs = r.nids := by
  apply Std.ExtTreeMap.ext_getElem?
  intro uuid
  cases hnid : r.nids[uuid]? with
  | some nid =>
    exact Std.ExtTreeMap.getElem?_insertMany_list_of_mem Std.ReflCmp.compare_self h.pairwise_pairs
      (h.mem_pairs_iff.mpr hnid)
  | none =>
    rw [Std.ExtTreeMap.getElem?_insertMany_list_of_contains_eq_false,
      Std.ExtTreeMap.getElem?_empty]
    rw [← Bool.not_eq_true, List.contains_iff_mem, List.mem_map]
    rintro ⟨⟨other, nid⟩, hmem, rfl⟩
    rw [h.mem_pairs_iff, nid?, hnid] at hmem
    cases hmem

/-- A registry can be written exactly if the aliases of each of its public ids can be counted. -/
theorem writable_iff :
    r.Writable ↔ ∀ nid id, r.publicId? nid = some id → id.uuids.length < UInt32.size := by
  constructor
  · intro h nid id hid
    rw [← aliases_of_some hid]
    exact h nid
  · intro h nid
    cases hid : r.publicId? nid with
    | none =>
      rw [aliases_eq_nil_iff.mpr hid]
      decide
    | some id =>
      rw [aliases_of_some hid]
      exact h nid id hid

/-- A registry can be written if the aliases of each of its entries can be counted. -/
theorem writable_of_toList
    (h : ∀ entry ∈ r.ids.toList, entry.2.uuids.length < UInt32.size) : r.Writable :=
  writable_iff.mpr fun nid id hid => h (nid, id) (mem_toList_iff.mpr hid)

private theorem Writable.length_lt (h : r.Writable) :
    ∀ entry ∈ r.ids.toList, entry.2.uuids.length < UInt32.size :=
  fun _ hmem => writable_iff.mp h _ _ (mem_toList_iff.mp hmem)

/-- The entries are read from behind the marker, the counter and their number. -/
theorem reads_readTable (hsize : r.ids.size < UInt32.size) (h : r.Writable) :
    Reader.Reads readTable r.encodeTable
      (restoreEntries r.ids.toList { empty with next := r.next }) := by
  rw [encodeTable, List.append_assoc, List.append_assoc]
  refine (Reader.reads_marker tableMarker).bind ((Reader.reads_nid r.next).bind
    ((Reader.reads_count hsize).bind ?_))
  rw [← Std.ExtTreeMap.length_toList]
  exact reads_readEntries _ _ h.length_lt

/-- A consistent registry is read back from its table, without changes. -/
theorem Consistent.decodeTable_encodeTable (h : r.Consistent) (hwritable : r.Writable) :
    decodeTable r.encodeTable = .ok r.settled := by
  have hrestored : restoreEntries r.ids.toList { empty with next := r.next } = r.settled := by
    rw [restoreEntries_eq]
    change Registry.mk ((∅ : Std.ExtTreeMap Uuid Nid).insertMany r.pairs)
      ((∅ : Std.ExtTreeMap Nid PublicId).insertMany r.ids.toList) r.next false = _
    rw [h.insertMany_pairs, insertMany_toList]
    rfl
  have hwhole := (reads_readTable h.size_lt hwritable).whole []
  rwa [hrestored, List.append_nil, ← Reader.decode_eq_ok_iff] at hwhole

/-- A consistent registry is so without its mark. -/
theorem Consistent.settled (h : r.Consistent) : r.settled.Consistent :=
  ⟨h.first_le, h.nid?_iff, h.aliases_iff⟩

end Registry

end Chronicle
