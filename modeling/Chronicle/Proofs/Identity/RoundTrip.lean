import Chronicle.Proofs.Identity.History

/-!
# Registries and their tables

A table is written from the counter and the public ids of a registry, in the order of their nids. So
it does not matter in which order these are listed, nor how they came about: registries that say the
same have the same table. The other way round, a registry that was only changed by resolving is told
by its table, from which it is read back as it was.
-/

namespace Chronicle.Registry

variable {r r' : Registry} {entries : List (Nid × PublicId)}

/-- Whether an entry comes before another one in the table, or may. -/
def entryLE (a b : Nid × PublicId) : Bool :=
  (compare a.1 b.1).isLE

/-- The table of a counter and some entries, which are sorted by their nids before they are
written. -/
def tableSorted (next : Nid) (entries : List (Nid × PublicId)) : Bytes :=
  tableMarker ++ Wire.nid next ++ Wire.count entries.length ++
    (entries.mergeSort entryLE).flatMap encodeEntry

/-- The nids of a registry with their public ids, each once and in any order. -/
structure Enumerates (entries : List (Nid × PublicId)) (r : Registry) : Prop where
  nodup : (entries.map Prod.fst).Nodup
  mem_iff : ∀ nid id, (nid, id) ∈ entries ↔ r.publicId? nid = some id

private theorem enumerates_toList (r : Registry) : Enumerates r.ids.toList r :=
  ⟨List.pairwise_map.mpr (pairwise_toList_ne r.ids), fun _ _ => mem_toList_iff⟩

/-- Two enumerations differ in their order only. -/
theorem Enumerates.perm (h : Enumerates entries r) : entries.Perm r.ids.toList := by
  refine (List.perm_ext_iff_of_nodup h.nodup.of_map (enumerates_toList r).nodup.of_map).mpr ?_
  rintro ⟨nid, id⟩
  rw [h.mem_iff, mem_toList_iff]

/-- However the entries are listed, they are written in the order of the map. -/
theorem Enumerates.mergeSort_eq (h : Enumerates entries r) :
    entries.mergeSort entryLE = r.ids.toList := by
  have hsorted : (entries.mergeSort entryLE).Pairwise fun a b => (compare a.1 b.1).isLE :=
    pairwise_mergeSort_key Prod.fst entries
  have hordered : r.ids.toList.Pairwise fun a b => (compare a.1 b.1).isLE :=
    Std.ExtTreeMap.ordered_keys_toList.imp fun hlt => by rw [hlt]; rfl
  have hperm := (List.mergeSort_perm entries entryLE).trans h.perm
  refine List.Perm.eq_of_pairwise (fun a b ha hb hab hba => ?_) hsorted hordered hperm
  have hnid : a.1 = b.1 :=
    Std.LawfulEqOrd.eq_of_compare (Std.OrientedCmp.isLE_antisymm hab hba)
  have hid := mem_toList_iff.mp (hperm.subset ha)
  rw [hnid, mem_toList_iff.mp hb, Option.some.injEq] at hid
  exact Prod.ext hnid hid.symm

/-- The table of a registry does not depend on the order in which its entries are listed. -/
theorem Enumerates.encodeTable_eq (h : Enumerates entries r) :
    r.encodeTable = tableSorted r.next entries := by
  rw [encodeTable, tableSorted, h.mergeSort_eq, h.perm.length_eq, Std.ExtTreeMap.length_toList]

/-- Registries that say the same have the same table. -/
theorem encodeTable_congr (hnext : r'.next = r.next)
    (hids : ∀ nid, r'.publicId? nid = r.publicId? nid) : r'.encodeTable = r.encodeTable := by
  have hsame : r'.ids = r.ids := Std.ExtTreeMap.ext_getElem? hids
  rw [encodeTable, encodeTable, hnext, hsame]

/-- Registries with the same table were persisted in the same state. -/
theorem Consistent.settled_eq (h : r.Consistent) (hwritable : r.Writable) (h' : r'.Consistent)
    (hwritable' : r'.Writable) (htable : r'.encodeTable = r.encodeTable) :
    r'.settled = r.settled := by
  have hdecode := h.decodeTable_encodeTable hwritable
  rw [← htable, h'.decodeTable_encodeTable hwritable', Except.ok.injEq] at hdecode
  exact hdecode

/-- **Tables and registries.** Whatever was resolved, marked, encoded or read back, as long as four
bytes count the aliases of every nid: the table is read back as a registry with the same counter, the
same nid of every UUID and the same public id of every nid, its aliases in the same order. This
registry has no changes, and the same table. The table is the one that is written from the counter
and the public ids, listed in any order; and two registries have the same table exactly if they have
the same counter and the same public ids. -/
theorem table_tells_registry (h : Reachable r) (hwritable : r.Writable) :
    (∃ restored, decodeTable r.encodeTable = .ok restored ∧ restored.next = r.next ∧
      (∀ uuid, restored.nid? uuid = r.nid? uuid) ∧
      (∀ nid, restored.publicId? nid = r.publicId? nid) ∧
      restored.changed = false ∧ restored.encodeTable = r.encodeTable) ∧
    (∀ entries : List (Nid × PublicId), (entries.map Prod.fst).Nodup →
      (∀ nid id, (nid, id) ∈ entries ↔ r.publicId? nid = some id) →
      r.encodeTable = tableSorted r.next entries) ∧
    (∀ r' : Registry, r'.next = r.next → (∀ nid, r'.publicId? nid = r.publicId? nid) →
      r'.encodeTable = r.encodeTable) ∧
    ∀ r' : Registry, Reachable r' → r'.Writable → r'.encodeTable = r.encodeTable →
      r'.next = r.next ∧ (∀ uuid, r'.nid? uuid = r.nid? uuid) ∧
      ∀ nid, r'.publicId? nid = r.publicId? nid := by
  have hr := h.consistent
  refine ⟨⟨r.settled, hr.decodeTable_encodeTable hwritable, rfl, fun _ => rfl, fun _ => rfl, rfl,
    rfl⟩, fun entries hnodup hmem => ?_, fun r' hnext hids => encodeTable_congr hnext hids,
    fun r' h' hwritable' htable => ?_⟩
  · exact Enumerates.encodeTable_eq ⟨hnodup, hmem⟩
  · have hsettled := hr.settled_eq hwritable h'.consistent hwritable' htable
    rw [settled, settled, Registry.mk.injEq] at hsettled
    obtain ⟨hnids, hids, hnext, -⟩ := hsettled
    exact ⟨hnext, fun uuid => by rw [nid?, nid?, hnids],
      fun nid => by rw [publicId?, publicId?, hids]⟩

/-- Two public ids are resolved, an alias is folded onto the second one, and the entries are listed
the other way round. -/
theorem table_tells_registry_folded :
    ∃ r, Reachable r ∧ r.next = ⟨-2147483645⟩ ∧
      (∃ restored, decodeTable r.encodeTable = .ok restored ∧
        restored.nid? ⟨4⟩ = some ⟨-2147483646⟩) ∧
      ∃ entries, entries.map Prod.fst = [⟨-2147483646⟩, ⟨-2147483647⟩] ∧
        r.encodeTable = tableSorted ⟨-2147483645⟩ entries := by
  obtain ⟨r, hr, hwritable, hnid, hnext, hnids⟩ : ∃ r, Reachable r ∧ r.Writable ∧
      r.nid? ⟨4⟩ = some ⟨-2147483646⟩ ∧ r.next = ⟨-2147483645⟩ ∧
      r.ids.toList.reverse.map Prod.fst = [⟨-2147483646⟩, ⟨-2147483647⟩] := by
    refine ⟨_, .tail (.tail (.tail .refl (.resolved ⟨[⟨1⟩, ⟨2⟩], ?_, ?_, ?_⟩ rfl))
      (.resolved ⟨[⟨3⟩], ?_, ?_, ?_⟩ rfl))
      (.resolved ⟨[⟨3⟩, ⟨4⟩, ⟨1⟩], ?_, ?_, ?_⟩ rfl), writable_of_toList ?_, ?_, ?_, ?_⟩ <;>
      decide +kernel
  obtain ⟨⟨restored, hrestored, -, hsame, -⟩, hlisted, -⟩ := table_tells_registry hr hwritable
  refine ⟨r, hr, hnext, ⟨restored, hrestored, (hsame ⟨4⟩).trans hnid⟩, _, hnids, ?_⟩
  rw [← hnext]
  refine hlisted _ ?_ fun nid id => ?_
  · rw [hnids]
    decide
  · rw [List.mem_reverse, mem_toList_iff]

end Chronicle.Registry
