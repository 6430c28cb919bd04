import Chronicle.Spine.Store
import Mathlib.Data.List.Nodup
import Mathlib.Data.List.Perm.Subperm

/-!
# Addresses of nids

A nid is addressed by its distance from the first one, which a spined store divides into the index
of a spine and a slot. This file proves that nothing is lost on the way: distances and nids
determine each other, and so do nids and the places that hold them.
-/

namespace Chronicle

namespace Nid

/-- The first nid that can be given out is the second smallest word. -/
theorem toInt_first : first.raw.toInt = -2147483647 := by decide

/-- The last nid is the largest word. -/
theorem toInt_maxValue : Int32.maxValue.toInt = 2147483647 := by decide

/-- A nid has a distance exactly if it does not lie below the first one. -/
theorem offset?_eq_some_iff {nid : Nid} {offset : Nat} :
    nid.offset? = some offset ↔ nid.raw.toInt = first.raw.toInt + offset := by
  have hfirst := toInt_first
  simp only [offset?, Int32.le_iff_toInt_le]
  split
  · rw [Option.some.injEq]
    omega
  · simp only [reduceCtorEq, false_iff]
    omega

/-- The nids without an offset are those below the first one. -/
theorem offset?_eq_none_iff {nid : Nid} : nid.offset? = none ↔ nid.raw < first.raw := by
  simp only [offset?, Int32.le_iff_toInt_le, Int32.lt_iff_toInt_lt]
  split
  · simp only [reduceCtorEq, false_iff]
    omega
  · simp only [true_iff]
    omega

/-- A distance leaves the last 32-bit number unused. -/
theorem offset_lt {nid : Nid} {offset : Nat} (h : nid.offset? = some offset) :
    offset < UInt32.size - 1 := by
  have hfirst := toInt_first
  have hmax := toInt_maxValue
  have hsize : UInt32.size = 4294967296 := rfl
  have hle := nid.raw.toInt_le
  rw [offset?_eq_some_iff] at h
  omega

/-- The nid at a distance is the one that has the distance. -/
theorem ofOffset?_eq_some_iff {offset : Nat} {nid : Nid} :
    ofOffset? offset = some nid ↔ nid.offset? = some offset := by
  have hfirst := toInt_first
  have hmax := toInt_maxValue
  have hle := nid.raw.toInt_le
  rw [offset?_eq_some_iff]
  simp only [ofOffset?]
  split
  · have hround : (Int32.ofInt (first.raw.toInt + offset)).toInt = first.raw.toInt + offset := by
      rw [Int32.toInt_ofInt_of_le] <;> simp <;> omega
    rw [Option.some.injEq]
    constructor
    · rintro rfl
      exact hround
    · intro h
      cases nid
      congr 1
      exact Int32.toInt_inj.mp (by rw [hround, h])
  · simp only [reduceCtorEq, false_iff]
    omega

/-- Every distance that is not longer than one of a nid is one of a nid. -/
theorem exists_offset?_of_le {nid : Nid} {m n : Nat} (h : nid.offset? = some n) (hle : m ≤ n) :
    ∃ other : Nid, other.offset? = some m := by
  have hmax := toInt_maxValue
  have hbound := nid.raw.toInt_le
  rw [offset?_eq_some_iff] at h
  refine ⟨⟨Int32.ofInt (first.raw.toInt + m)⟩, ofOffset?_eq_some_iff.mp ?_⟩
  rw [ofOffset?, if_pos (by omega)]

/-- Nids are in the order of their distances. -/
theorem compare_eq_lt_iff {a b : Nid} {m n : Nat} (ha : a.offset? = some m)
    (hb : b.offset? = some n) : compare a b = .lt ↔ m < n := by
  rw [offset?_eq_some_iff] at ha hb
  change compare a.raw b.raw = .lt ↔ m < n
  rw [Std.compare_eq_lt, Int32.lt_iff_toInt_lt]
  omega

/-- Nids that are all different are at most as many as there are words. -/
theorem length_le_of_nodup {nids : List Nid} (h : nids.Nodup) : nids.length ≤ UInt32.size := by
  let word : Nid → Nat := fun nid => nid.raw.toUInt32.toNat
  have hinj : Function.Injective word := by
    intro a b hab
    have hraw := congrArg UInt32.toInt32 (UInt32.toNat_inj.mp hab)
    exact congrArg Nid.mk hraw
  have hsub : nids.map word ⊆ List.range UInt32.size := by
    intro n hn
    obtain ⟨nid, -, rfl⟩ := List.mem_map.mp hn
    exact List.mem_range.mpr nid.raw.toUInt32.toNat_lt
  have hle := (List.subperm_of_subset (h.map hinj) hsub).length_le
  rwa [List.length_map, List.length_range] at hle

end Nid

namespace SpineStore

variable {s : SpineStore} {nid : Nid} {place : Place}

/-- A nid and its place determine each other: the place of a nid is the one place, among those with
a slot that a spine has, that is for this nid. -/
theorem place?_eq_some_iff (hsize : 0 < s.spineSize) :
    s.place? nid = some place ↔ place.slot < s.spineSize ∧ s.nidAt? place = some nid := by
  simp only [place?, nidAt?, Option.map_eq_some_iff, Nid.ofOffset?_eq_some_iff]
  constructor
  · rintro ⟨offset, hoffset, rfl⟩
    refine ⟨Nat.mod_lt _ hsize, ?_⟩
    rw [hoffset, Nat.mul_comm, Nat.div_add_mod]
  · rintro ⟨hslot, hoffset⟩
    refine ⟨_, hoffset, ?_⟩
    cases place
    simp only [Place.mk.injEq] at hslot ⊢
    rw [Nat.mul_comm, Nat.mul_add_div hsize, Nat.mul_add_mod, Nat.div_eq_of_lt hslot,
      Nat.mod_eq_of_lt hslot]
    exact ⟨by omega, rfl⟩

/-- The slot of a nid lies within its spine. -/
theorem slot_lt (hsize : 0 < s.spineSize) (h : s.place? nid = some place) :
    place.slot < s.spineSize :=
  ((place?_eq_some_iff hsize).mp h).1

/-- The place of a nid leads back to it. -/
theorem nidAt?_of_place? (h : s.place? nid = some place) : s.nidAt? place = some nid := by
  simp only [place?, Option.map_eq_some_iff] at h
  obtain ⟨offset, hoffset, rfl⟩ := h
  rw [nidAt?, Nid.ofOffset?_eq_some_iff, hoffset, Nat.mul_comm, Nat.div_add_mod]

/-- No two nids share a slot. -/
theorem place?_inj {other : Nid} (h : s.place? nid = some place)
    (hother : s.place? other = some place) : nid = other := by
  have hnid := nidAt?_of_place? h
  rw [nidAt?_of_place? hother, Option.some.injEq] at hnid
  exact hnid.symm

/-- The index of a spine that a nid lies in is a 32-bit word. -/
theorem index_lt (h : s.place? nid = some place) : place.index < UInt32.size := by
  simp only [place?, Option.map_eq_some_iff] at h
  obtain ⟨offset, hoffset, rfl⟩ := h
  have hlt := Nid.offset_lt hoffset
  have hle := Nat.div_le_self offset s.spineSize
  simp only
  omega

/-- Where a nid is kept depends on the size of the spines alone. -/
theorem place?_congr {t : SpineStore} (h : t.spineSize = s.spineSize) (nid : Nid) :
    t.place? nid = s.place? nid := by
  rw [place?, place?, h]

/-- The nids without a place are those below the first one. -/
theorem place?_eq_none_iff : s.place? nid = none ↔ nid.raw < Nid.first.raw := by
  rw [place?, Option.map_eq_none_iff, Nid.offset?_eq_none_iff]

end SpineStore

end Chronicle
