import Chronicle.Proofs.Spine.Activity
import Chronicle.Proofs.Spine.Reports

/-!
# Addresses in words and in scans

Distances and places are computed in words of fixed widths, one converted into another on the way.
No conversion cuts anything off, whatever the number of slots: the nids from the first one on and
the distances below the last number of 32 bits determine each other, and so do nids and slots. So a
scan, which goes through the slots, reports each payload under the nid by which it is looked up.
-/

namespace Chronicle

namespace Nid

/-- The distance from the first nid, as a signed word of 64 bits that is taken as an unsigned one
unless it is negative. -/
def distance? (nid : Nid) : Option UInt64 :=
  let difference := nid.raw.toInt64 - first.raw.toInt64
  if difference < 0 then none else some difference.toUInt64

/-- The nid at a distance, unless the distance is too large for a signed word of 64 bits or its sum
with the first nid for one of 32 bits. -/
def ofDistance? (distance : UInt64) : Option Nid :=
  let signed := distance.toInt64
  let sum := first.raw.toInt64 + signed
  if signed < 0 then none
  else if Int32.minValue.toInt64 ≤ sum ∧ sum ≤ Int32.maxValue.toInt64 then some ⟨sum.toInt32⟩
  else none

/-- The index, cut to 32 bits, and the slot of a nid. -/
def indexAndSlot? (size : UInt64) (nid : Nid) : Option (UInt32 × UInt64) :=
  nid.distance?.map fun distance => ((distance / size).toUInt32, distance % size)

/-- The nid at a slot of a spine: the product of the index and the number of slots is taken in words
of 64 bits, and so is its sum with the slot. -/
def atSlot? (size index slot : UInt64) : Option Nid :=
  ofDistance? (index * size + slot)

private theorem toInt_minValue : Int32.minValue.toInt = -2147483648 := by decide

/-- Nids lie so close together that signed words of 64 bits hold every difference. -/
theorem distance?_eq (nid : Nid) : nid.distance?.map UInt64.toNat = nid.offset? := by
  have hfirst := toInt_first
  have hmax := toInt_maxValue
  have hmin := toInt_minValue
  have hle := nid.raw.toInt_le
  have hge := nid.raw.le_toInt
  have hdifference : (nid.raw.toInt64 - first.raw.toInt64).toInt =
      nid.raw.toInt - first.raw.toInt := by
    rw [Int64.toInt_sub, Int32.toInt_toInt64, Int32.toInt_toInt64]
    exact Int.bmod_eq_of_le (by omega) (by omega)
  have hzero : (0 : Int64).toInt = 0 := rfl
  simp only [distance?, offset?, Int64.lt_iff_toInt_lt, hdifference, hzero, Int32.le_iff_toInt_le]
  by_cases hbelow : nid.raw.toInt < first.raw.toInt
  · rw [if_pos (by omega), if_neg (by omega)]
    rfl
  · have hnonneg : 0 ≤ nid.raw.toInt64 - first.raw.toInt64 := by
      rw [Int64.le_iff_toInt_le, hdifference, hzero]
      omega
    rw [if_neg (by omega), if_pos (by omega), Option.map_some, Int64.toNat_toUInt64_of_le hnonneg,
      Int64.toNatClampNeg, hdifference]

/-- Taken as a signed word, a distance in the upper half is negative. -/
theorem toInt_toInt64 (distance : UInt64) : distance.toInt64.toInt =
    if distance.toNat < 9223372036854775808 then (distance.toNat : Int)
    else distance.toNat - 18446744073709551616 := by
  have hnat : distance.toBitVec.toNat = distance.toNat := rfl
  change distance.toBitVec.toInt = _
  rw [BitVec.toInt_eq_toNat_cond, hnat]
  split <;> split <;> omega

/-- The sum with the first nid stays within signed words of 64 bits, as one of its terms is negative
and the other is not. -/
theorem ofDistance?_eq (distance : UInt64) : ofDistance? distance = ofOffset? distance.toNat := by
  have hfirst := toInt_first
  have hmax := toInt_maxValue
  have hmin := toInt_minValue
  have hlt := distance.toNat_lt
  have hsigned := toInt_toInt64 distance
  have hzero : (0 : Int64).toInt = 0 := rfl
  simp only [ofDistance?, ofOffset?, Int64.lt_iff_toInt_lt, hzero]
  by_cases hlarge : distance.toNat < 9223372036854775808
  · rw [if_pos hlarge] at hsigned
    have hsum : (first.raw.toInt64 + distance.toInt64).toInt =
        first.raw.toInt + distance.toNat := by
      rw [Int64.toInt_add, Int32.toInt_toInt64, hsigned]
      exact Int.bmod_eq_of_le (by omega) (by omega)
    rw [if_neg (by omega)]
    simp only [Int64.le_iff_toInt_le, hsum, Int32.toInt_toInt64]
    by_cases hfits : first.raw.toInt + distance.toNat ≤ Int32.maxValue.toInt
    · have hcut : (first.raw.toInt64 + distance.toInt64).toInt32 =
          Int32.ofInt (first.raw.toInt + distance.toNat) := by
        rw [← Int32.toInt_inj, Int64.toInt_toInt32, hsum, Int32.toInt_ofInt]
      rw [if_pos ⟨by omega, hfits⟩, if_pos hfits, hcut]
    · rw [if_neg fun h => hfits h.2, if_neg hfits]
  · rw [if_neg hlarge] at hsigned
    rw [if_pos (by omega), if_neg (by omega)]

/-- Of the numbers of 32 bits, all but the last are distances of nids. -/
theorem exists_ofOffset?_iff {offset : Nat} :
    (∃ nid, ofOffset? offset = some nid) ↔ offset ≤ UInt32.size - 2 := by
  have hfirst := toInt_first
  have hmax := toInt_maxValue
  have hsize : UInt32.size = 4294967296 := rfl
  simp only [ofOffset?]
  split
  · exact iff_of_true ⟨_, rfl⟩ (by omega)
  · exact iff_of_false (by simp) (by omega)

end Nid

namespace SpineStore

variable {s : SpineStore} {nid : Nid} {place : Place}

/-- For a number of slots that a word holds, words give each nid its place. -/
theorem indexAndSlot?_eq (hsize : s.spineSize < UInt64.size) (nid : Nid) :
    (nid.indexAndSlot? (UInt64.ofNat s.spineSize)).map
        (fun words => { index := words.1.toNat, slot := words.2.toNat }) = s.place? nid := by
  have hwords : (UInt64.ofNat s.spineSize).toNat = s.spineSize := UInt64.toNat_ofNat_of_lt' hsize
  rw [place?, Nid.indexAndSlot?, ← Nid.distance?_eq, Option.map_map, Option.map_map]
  cases hdistance : nid.distance? with
  | none => rfl
  | some distance =>
    have hoffset : nid.offset? = some distance.toNat := by
      rw [← Nid.distance?_eq, hdistance, Option.map_some]
    have hlt := Nid.offset_lt hoffset
    have hindex : distance.toNat / s.spineSize < 2 ^ 32 :=
      Nat.lt_of_le_of_lt (Nat.div_le_self ..) (Nat.lt_trans hlt (by decide))
    simp only [Option.map_some, Function.comp, UInt64.toNat_toUInt32, UInt64.toNat_div,
      UInt64.toNat_mod, hwords, Nat.mod_eq_of_lt hindex]

/-- Words give each slot its nid, as long as they hold the distance that the slot stands for. -/
theorem atSlot?_eq (h : place.index * s.spineSize + place.slot < UInt64.size) :
    Nid.atSlot? (UInt64.ofNat s.spineSize) (UInt64.ofNat place.index) (UInt64.ofNat place.slot) =
      s.nidAt? place := by
  rw [Nid.atSlot?, ← UInt64.ofNat_mul, ← UInt64.ofNat_add, Nid.ofDistance?_eq,
    UInt64.toNat_ofNat_of_lt' h, nidAt?]

/-- Words hold the distances of all slots of a spine that ends within them. -/
theorem distance_lt (hslot : place.slot < s.spineSize)
    (hend : (place.index + 1) * s.spineSize ≤ UInt64.size) :
    place.index * s.spineSize + place.slot < UInt64.size := by
  rw [Nat.add_mul, Nat.one_mul] at hend
  omega

/-- No spine of at most as many slots as words of 32 bits count ends beyond words of 64 bits. -/
theorem end_le {index : Nat} (hsize : s.spineSize ≤ UInt32.size) (hindex : index < UInt32.size) :
    (index + 1) * s.spineSize ≤ UInt64.size :=
  calc (index + 1) * s.spineSize ≤ UInt32.size * UInt32.size := Nat.mul_le_mul hindex hsize
    _ = UInt64.size := by decide

/-- The next power of two is too many for spines with large indices. -/
example : UInt64.size < (UInt32.size - 1 + 1) * (2 * UInt32.size) := by decide

/-- The slot that a nid has stands for its distance, which words hold whatever the number of
slots. -/
theorem atSlot?_of_place? (hplace : s.place? nid = some place) :
    Nid.atSlot? (UInt64.ofNat s.spineSize) (UInt64.ofNat place.index) (UInt64.ofNat place.slot) =
      some nid := by
  have hnid := nidAt?_of_place? hplace
  rw [← hnid]
  refine atSlot?_eq (Nat.lt_trans (Nid.offset_lt (Nid.ofOffset?_eq_some_iff.mp hnid)) ?_)
  decide

/-! ## Scans -/

/-- A look-up of the nid of a slot that can be reached answers what lies there. -/
theorem lookup_of_cell {cell : Cell} (hplace : s.place? nid = some place)
    (hreaches : s.reaches place.index = true) (hcell : s.cell? place = some cell) :
    lookup nid s = (some cell.payload, s) := by
  rw [cell?, Option.bind_eq_bind, Option.bind_eq_some_iff] at hcell
  obtain ⟨spine, hspine, hcell⟩ := hcell
  have hpayload : spine.payload? place.slot = some cell.payload := by
    rw [Spine.payload?, hcell, Option.map_some]
  simp only [lookup, hplace, hreaches, if_true, touch_of_loaded hspine, hpayload]

variable {σ : Type}

/-- A visit of a slot that a nid has reports what lies there under this nid. -/
theorem visitSlots_of_cell {cell : Cell} (hplace : s.place? nid = some place)
    (hcell : s.cell? place = some cell) (visit : Nid → Bytes → Scan σ Unit) (state : σ) :
    (visitSlots visit place.index 1 place.slot).run state s =
      (visit nid cell.payload).run state s := by
  rw [visitSlots, run_getThe_store]
  simp only [hcell, nidAt?_of_place? hplace]
  rfl

/-- What is done at a payload once its nid was looked up and the payload was found, and what is done
otherwise. -/
def confirmed (visit refuse : Nid → Bytes → Scan σ Unit) (nid : Nid) (payload : Bytes) :
    Scan σ Unit := do
  if (← (lookup nid : StateM SpineStore (Option Bytes))) = some payload then visit nid payload
  else refuse nid payload

/-- Whatever lies in a slot that can be reached is found by the nid that has the slot. -/
theorem tracks_confirmed {visit : Nid → Bytes → Scan σ Unit}
    (hvisit : ∀ nid payload state, Activity (fun _ => True) ((visit nid payload).run state))
    (refuse : Nid → Bytes → Scan σ Unit) (target : Place) :
    Tracks target (fun _ _ _ => True) visit (confirmed visit refuse) where
  mono _ _ := trivial
  touch _ _ _ _ _ _ := trivial
  visit {_ nid place cell state s} _ hplace hreaches hcell := by
    have hlookup := lookup_of_cell hplace hreaches hcell
    have hconfirmed : (confirmed visit refuse nid cell.payload).run state s =
        (if (lookup nid s).1 = some cell.payload then visit nid cell.payload
          else refuse nid cell.payload).run state (lookup nid s).2 := rfl
    refine ⟨by rw [hconfirmed, hlookup, if_pos rfl], trivial, ?_⟩
    obtain ⟨events, -, hevents⟩ := (hvisit nid cell.payload state).acts s
    rw [hevents]
    exact stays_after s events
  empty _ _ _ := trivial
  unreached _ _ := trivial

/-- **Nids and slots determine each other.** Whatever the number of slots of a spine, each nid from
the first one on has a slot, in a spine whose index is a word of 32 bits, and is the nid of the
distance that the slot stands for. The distances of nids are the numbers of 32 bits but the last,
and the nid at a distance has the slot at which it divides. No nid below the first one has a slot,
and no two share one. Words of fixed widths compute the same: the place of every nid, and the nid of
every slot of a spine that ends within words of 64 bits, as all do that have at most as many slots
as words of 32 bits count. So a visit of a slot reports what lies there under the nid that has the
slot, and a scan, with one worker or several, does the same if every payload is confirmed by a
look-up of the nid under which it is reported. -/
theorem nids_and_slots (s : SpineStore) (hsize : 0 < s.spineSize) :
    (∀ nid : Nid, Nid.first.raw ≤ nid.raw → ∃ place, s.place? nid = some place ∧
      place.index < UInt32.size ∧ place.slot < s.spineSize ∧
      Nid.ofOffset? (place.index * s.spineSize + place.slot) = some nid) ∧
    (∀ offset, (∃ nid, Nid.ofOffset? offset = some nid) ↔ offset ≤ UInt32.size - 2) ∧
    (∀ offset nid, Nid.ofOffset? offset = some nid → nid.offset? = some offset ∧
      s.place? nid = some { index := offset / s.spineSize, slot := offset % s.spineSize }) ∧
    (∀ nid : Nid, nid.raw < Nid.first.raw → s.place? nid = none) ∧
    (∀ nid other place, s.place? nid = some place → s.place? other = some place → nid = other) ∧
    (∀ nid : Nid, nid.distance?.map UInt64.toNat = nid.offset?) ∧
    (∀ distance : UInt64, Nid.ofDistance? distance = Nid.ofOffset? distance.toNat) ∧
    (s.spineSize < UInt64.size → ∀ nid : Nid,
      (nid.indexAndSlot? (UInt64.ofNat s.spineSize)).map
        (fun words => { index := words.1.toNat, slot := words.2.toNat }) = s.place? nid) ∧
    (∀ nid place, s.place? nid = some place → Nid.atSlot? (UInt64.ofNat s.spineSize)
      (UInt64.ofNat place.index) (UInt64.ofNat place.slot) = some nid) ∧
    (∀ place : Place, place.slot < s.spineSize →
      (place.index + 1) * s.spineSize ≤ UInt64.size → Nid.atSlot? (UInt64.ofNat s.spineSize)
        (UInt64.ofNat place.index) (UInt64.ofNat place.slot) = s.nidAt? place) ∧
    (s.spineSize ≤ UInt32.size → ∀ index < UInt32.size,
      (index + 1) * s.spineSize ≤ UInt64.size) ∧
    (∀ nid place cell, s.place? nid = some place → s.cell? place = some cell →
      ∀ {σ : Type} (visit : Nid → Bytes → Scan σ Unit) (state : σ),
        (visitSlots visit place.index 1 place.slot).run state s =
          (visit nid cell.payload).run state s) ∧
    ∀ {σ : Type} (stop : σ → Bool) (visit refuse : Nid → Bytes → Scan σ Unit) (state : σ),
      (∀ nid payload state, Activity (fun _ => True) ((visit nid payload).run state)) →
      (forEachUntil stop (confirmed visit refuse)).run state s =
        (forEachUntil stop visit).run state s ∧
      ∀ workers schedule,
        (forEachParallelUntil stop (confirmed visit refuse) workers schedule).run state s =
          (forEachParallelUntil stop visit workers schedule).run state s := by
  refine ⟨fun nid hnid => ?_, fun _ => Nid.exists_ofOffset?_iff, fun offset nid hnid => ?_,
    fun _ => place?_eq_none_iff.mpr, fun _ _ _ => place?_inj, Nid.distance?_eq,
    Nid.ofDistance?_eq, indexAndSlot?_eq, fun _ _ => atSlot?_of_place?,
    fun _ hslot hend => atSlot?_eq (distance_lt hslot hend), fun hcount _ => end_le hcount,
    fun _ _ _ hplace hcell => visitSlots_of_cell hplace hcell,
    fun stop visit refuse state hvisit => ?_⟩
  · cases hplace : s.place? nid with
    | none =>
      rw [place?_eq_none_iff] at hplace
      exact absurd hplace (Int32.not_lt.mpr hnid)
    | some place =>
      exact ⟨place, rfl, index_lt hplace, slot_lt hsize hplace, nidAt?_of_place? hplace⟩
  · have hoffset := Nid.ofOffset?_eq_some_iff.mp hnid
    exact ⟨hoffset, by rw [place?, hoffset, Option.map_some]⟩
  · have htracks := tracks_confirmed hvisit refuse { index := 0, slot := 0 }
    exact ⟨(htracks.forEachUntil hsize rfl trivial).1.symm, fun workers schedule =>
      (htracks.forEachParallelUntil hsize rfl trivial workers schedule).1.symm⟩

/-- In spines of three slots, the last nid has the last slot of its spine. -/
theorem nids_and_slots_last :
    let s := ofMedium Medium.inMemory 3 1 4
    0 < s.spineSize ∧ ∃ place, s.place? Nid.last = some place ∧ place.index < UInt32.size ∧
      place = { index := 1431655764, slot := 2 } ∧
      Nid.ofOffset? (place.index * 3 + place.slot) = some Nid.last := by
  intro s
  obtain ⟨hplaces, -⟩ := s.nids_and_slots (by decide)
  obtain ⟨place, hplace, hindex, -, hnid⟩ := hplaces Nid.last (by decide)
  have hlast : s.place? Nid.last = some { index := 1431655764, slot := 2 } := by decide +kernel
  exact ⟨by decide, place, hplace, hindex, Option.some.inj (hplace.symm.trans hlast), hnid⟩

end SpineStore

end Chronicle
