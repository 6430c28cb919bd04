import Chronicle.Proofs.Reader
import Chronicle.Spine.Basic

/-!
# Blobs of spines

A blob holds a row of payloads, one for each slot, of which the empty ones stand for empty slots.
This file proves that decoding accepts exactly the rows that the format can write and that have no
more slots than the spine, and what is found in each slot of the spine that is decoded.
-/

namespace Chronicle

/-- Payloads one after another, each behind its length. -/
def Wire.blocks (payloads : List Bytes) : Bytes :=
  payloads.flatMap block

/-- The blob of a row of payloads. -/
def Wire.row (payloads : List Bytes) : Bytes :=
  count payloads.length ++ blocks payloads

/-- Signed words hold the number of slots and every length. -/
structure Wire.Writable (payloads : List Bytes) : Prop where
  slots_lt : payloads.length < signedLimit
  length_lt : ∀ payload ∈ payloads, payload.length < signedLimit

namespace Wire

/-- Two counts of 32 bits written alike are equal. -/
theorem count_inj {m n : Nat} (hm : m < UInt32.size) (hn : n < UInt32.size)
    (h : count m = count n) : m = n := by
  have hdecode := congrArg BigEndian.decode h
  simp only [count, BigEndian.decode_encode] at hdecode
  have hcapacity : BigEndian.capacity 4 = UInt32.size := rfl
  rwa [hcapacity, Nat.mod_eq_of_lt hm, Nat.mod_eq_of_lt hn] at hdecode

/-- A count is written modulo the size of its word. -/
theorem count_mod (n : Nat) : count (n % UInt32.size) = count n :=
  BigEndian.encode_mod 4 n

/-- What is shorter than the signed limit fits a count. -/
theorem signedLimit_lt : signedLimit < UInt32.size := by decide

/-- Two numbers written in front of other bytes are the same number in front of the same bytes. -/
theorem count_append_inj {m n : Nat} {left rest : Bytes} (h : count m ++ left = count n ++ rest) :
    count m = count n ∧ left = rest :=
  List.append_inj h (by simp [count])

/-- Only an empty list of payloads is written with no bytes. -/
theorem blocks_eq_nil_iff {ps : List Bytes} : blocks ps = [] ↔ ps = [] := by
  cases ps with
  | nil => simp [blocks]
  | cons p ps =>
    refine iff_of_false (fun hnil => ?_) (by simp)
    have := congrArg List.length hnil
    simp [blocks, block, count] at this

/-- Payloads are told apart by how they are written, if four bytes count each of them. -/
theorem blocks_inj {as bs : List Bytes} (ha : ∀ a ∈ as, a.length < UInt32.size)
    (hb : ∀ b ∈ bs, b.length < UInt32.size) (h : blocks as = blocks bs) : as = bs := by
  induction as generalizing bs with
  | nil => exact (blocks_eq_nil_iff.mp h.symm).symm
  | cons a as ih =>
    cases bs with
    | nil => exact absurd h (by rw [blocks_eq_nil_iff.mpr rfl, blocks_eq_nil_iff]; simp)
    | cons b bs =>
      rw [List.forall_mem_cons] at ha hb
      simp only [blocks, List.flatMap_cons, block, List.append_assoc] at h
      obtain ⟨hcount, hrest⟩ := count_append_inj h
      obtain ⟨rfl, hblocks⟩ := List.append_inj hrest (count_inj ha.1 hb.1 hcount)
      rw [ih ha.2 hb.2 hblocks]

end Wire

namespace Spine

/-- Puts a row of payloads into slots, from a slot on. Empty payloads leave their slots empty. -/
def fill : (slot : Nat) → List Bytes → Std.ExtTreeMap Nat Cell → Std.ExtTreeMap Nat Cell
  | _, [], slots => slots
  | slot, payload :: payloads, slots =>
    fill (slot + 1) payloads
      (if payload = [] then slots else slots.insert slot { payload, revision := 0 })

/-- The spine that holds a row of payloads. -/
def ofRow (payloads : List Bytes) : Spine :=
  { empty with slots := fill 0 payloads ∅ }

/-- The payloads of the slots of a spine, an empty one for an empty slot. -/
def row (size : Nat) (spine : Spine) : List Bytes :=
  (List.range size).map fun slot => (spine.payload? slot).getD []

/-- A spine is written as the row of its payloads. -/
theorem encode_eq_row (size : Nat) (spine : Spine) :
    encode size spine = Wire.row (spine.row size) := by
  simp only [encode, Wire.row, Wire.blocks, row, List.length_map, List.length_range,
    List.flatMap_map]
  rfl

/-- A length is read exactly if it stands in front and a signed word holds it. -/
theorem readLength_eq_ok_iff {n : Nat} {left rest : Bytes} :
    readLength left = .ok n rest ↔ left = Wire.count n ++ rest ∧ n < Wire.signedLimit := by
  have hcapacity : BigEndian.capacity 4 = UInt32.size := rfl
  have hlimit := Wire.signedLimit_lt
  have hzero : (0 : Int32).toInt = 0 := rfl
  simp only [readLength, Reader.bind_eq_ok_iff, Reader.int32, Reader.map_eq_ok_iff,
    Reader.word_eq_ok_iff, hcapacity]
  constructor
  · rintro ⟨_, _, ⟨m, ⟨rfl, hm⟩, rfl⟩, h⟩
    split at h
    · cases h
    · rename_i hneg
      obtain ⟨rfl, rfl⟩ := Reader.pure_eq_ok_iff.mp h
      rw [Int32.lt_iff_toInt_lt, Wire.toInt_ofNat hm, hzero] at hneg
      rw [Wire.toInt_ofNat hm]
      split at hneg
      · rename_i hlt
        rw [if_pos hlt, Int.toNat_natCast]
        exact ⟨rfl, hlt⟩
      · omega
  · rintro ⟨rfl, hn⟩
    have hn' : n < UInt32.size := by omega
    have hword : (UInt32.ofNat n).toInt32.toInt = n := by rw [Wire.toInt_ofNat hn', if_pos hn]
    have hneg : ¬ (UInt32.ofNat n).toInt32 < 0 := by
      rw [Int32.lt_iff_toInt_lt, hword, hzero]
      omega
    refine ⟨_, rest, ⟨n, ⟨rfl, hn'⟩, rfl⟩, ?_⟩
    rw [if_neg hneg]
    exact Reader.pure_eq_ok_iff.mpr ⟨by rw [hword, Int.toNat_natCast], rfl⟩

/-- Slots are read exactly if the blocks of as many payloads stand in front. -/
theorem readSlots_eq_ok_iff {n slot : Nat} {slots filled : Std.ExtTreeMap Nat Cell}
    {left rest : Bytes} :
    readSlots n slot slots left = .ok filled rest ↔
      ∃ payloads : List Bytes, payloads.length = n ∧
        (∀ payload ∈ payloads, payload.length < Wire.signedLimit) ∧
        left = Wire.blocks payloads ++ rest ∧ filled = fill slot payloads slots := by
  induction n generalizing slot slots left with
  | zero =>
    simp only [readSlots, Reader.pure_eq_ok_iff, List.length_eq_zero_iff]
    constructor
    · rintro ⟨rfl, rfl⟩
      exact ⟨[], rfl, by simp, rfl, rfl⟩
    · rintro ⟨_, rfl, -, rfl, rfl⟩
      exact ⟨rfl, rfl⟩
  | succ n ih =>
    simp only [readSlots, Reader.bind_eq_ok_iff, readLength_eq_ok_iff, Reader.slice_eq_ok_iff, ih]
    constructor
    · rintro ⟨_, _, ⟨rfl, hlength⟩, payload, _, ⟨rfl, rfl⟩, payloads, rfl, hshort, rfl, rfl⟩
      refine ⟨payload :: payloads, rfl, ?_, ?_, rfl⟩
      · simpa using ⟨hlength, hshort⟩
      · simp [Wire.blocks, Wire.block]
    · rintro ⟨payloads, hlength, hshort, rfl, rfl⟩
      cases payloads with
      | nil => simp at hlength
      | cons payload payloads =>
        rw [List.forall_mem_cons] at hshort
        refine ⟨payload.length, payload ++ (Wire.blocks payloads ++ rest), ⟨?_, hshort.1⟩,
          payload, Wire.blocks payloads ++ rest, ⟨rfl, rfl⟩, payloads, ?_, hshort.2, rfl, rfl⟩
        · simp [Wire.blocks, Wire.block]
        · simpa using hlength

/-- A blob is decoded exactly if it is the blob of a row that the format can write and that has no
more slots than the spine; the spine that is found holds this row. -/
theorem decode_eq_ok_iff {size : Nat} {blob : Bytes} {spine : Spine} :
    decode size blob = .ok spine ↔
      ∃ payloads, Wire.Writable payloads ∧ payloads.length ≤ size ∧
        blob = Wire.row payloads ∧ spine = ofRow payloads := by
  rw [decode, Reader.decode_eq_ok_iff]
  simp only [read, Reader.bind_eq_ok_iff, readLength_eq_ok_iff]
  constructor
  · rintro ⟨n, _, ⟨rfl, hn⟩, h⟩
    split at h
    · cases h
    · rename_i hsize
      simp only [Reader.bind_eq_ok_iff, readSlots_eq_ok_iff, Reader.pure_eq_ok_iff] at h
      obtain ⟨_, _, ⟨payloads, rfl, hshort, rfl, rfl⟩, rfl, rfl⟩ := h
      exact ⟨payloads, ⟨hn, hshort⟩, by omega, by simp [Wire.row], rfl⟩
  · rintro ⟨payloads, hwritable, hsize, rfl, rfl⟩
    refine ⟨payloads.length, Wire.blocks payloads, ⟨rfl, hwritable.slots_lt⟩, ?_⟩
    rw [if_neg (by omega)]
    simp only [Reader.bind_eq_ok_iff, readSlots_eq_ok_iff, Reader.pure_eq_ok_iff]
    exact ⟨_, [], ⟨payloads, rfl, hwritable.length_lt, by simp, rfl⟩, rfl, rfl⟩

/-! ## Blobs that are there in part -/

/-- A length that a signed word holds is read from the word in which it is written. -/
theorem reads_readLength {n : Nat} (h : n < Wire.signedLimit) :
    Reader.Reads readLength (Wire.count n) n where
  whole _ := readLength_eq_ok_iff.mpr ⟨rfl, h⟩
  torn part hpart hne := by
    have hword := (Reader.reads_count (Nat.lt_trans h Wire.signedLimit_lt)).map
      fun n => (UInt32.ofNat n).toInt32
    obtain ⟨needed, remaining, left, hlt, hrun⟩ := hword.torn part hpart hne
    exact ⟨needed, remaining, left, hlt, Reader.bind_of_error hrun⟩

/-- Reading the slots of a row fills them one after the other. -/
theorem reads_readSlots {payloads : List Bytes}
    (h : ∀ payload ∈ payloads, payload.length < Wire.signedLimit) (slot : Nat)
    (slots : Std.ExtTreeMap Nat Cell) :
    Reader.Reads (readSlots payloads.length slot slots) (Wire.blocks payloads)
      (fill slot payloads slots) := by
  induction payloads generalizing slot slots with
  | nil => exact Reader.reads_pure slots
  | cons payload payloads ih =>
    rw [List.forall_mem_cons] at h
    rw [Wire.blocks, List.flatMap_cons, Wire.block, List.append_assoc]
    exact (reads_readLength h.1).bind ((Reader.reads_slice payload).bind (ih h.2 _ _))

/-- A row with no more payloads than the spine has slots is read from its blob. -/
theorem reads_row {size : Nat} {payloads : List Bytes} (h : Wire.Writable payloads)
    (hsize : payloads.length ≤ size) :
    Reader.Reads (read size) (Wire.row payloads) (ofRow payloads) := by
  refine (reads_readLength h.slots_lt).bind ?_
  rw [if_neg (Nat.not_lt.mpr hsize)]
  exact (reads_readSlots h.length_lt 0 ∅).bind_pure

/-! ## What a slot holds -/

/-- An empty spine has no payload. -/
@[simp]
theorem payload?_empty (slot : Nat) : empty.payload? slot = none := by
  simp [payload?, empty]

/-- A spine whose blob could not be read has no payload. -/
@[simp]
theorem payload?_unreadable (slot : Nat) : unreadable.payload? slot = none := by
  simp [payload?, unreadable, empty]

/-- Installing a payload changes its own slot and no other. -/
theorem payload?_install (spine : Spine) (slot other : Nat) (payload : Bytes) :
    (spine.install slot payload).payload? other =
      if slot = other then some payload else spine.payload? other := by
  simp only [payload?, install, Std.ExtTreeMap.getElem?_insert, Nat.compare_eq_eq]
  split <;> rfl

/-- Installing a payload in the place of an equal one changes no payload. -/
theorem payload?_install_self {spine : Spine} {slot : Nat} {payload : Bytes}
    (h : spine.payload? slot = some payload) :
    (spine.install slot payload).payload? = spine.payload? := by
  funext other
  rw [payload?_install]
  split
  · rename_i hslot
    rw [← hslot, h]
  · rfl

/-- Filling slots leaves the slots before them alone. -/
theorem getElem?_fill_of_lt {payloads : List Bytes} {first slot : Nat} (h : slot < first)
    (slots : Std.ExtTreeMap Nat Cell) : (fill first payloads slots)[slot]? = slots[slot]? := by
  induction payloads generalizing first slots with
  | nil => rfl
  | cons payload payloads ih =>
    rw [fill, ih (by omega)]
    split
    · rfl
    · rw [Std.ExtTreeMap.getElem?_insert, if_neg (by rw [Nat.compare_eq_eq]; omega)]

/-- In slots that were empty, filling leaves those payloads that are not empty. -/
theorem payload_fill {payloads : List Bytes} {first : Nat} {slots : Std.ExtTreeMap Nat Cell}
    (h : ∀ slot, first ≤ slot → slots[slot]? = none) (k : Nat) :
    (fill first payloads slots)[first + k]?.map Cell.payload = payloads[k]?.filter (· ≠ []) := by
  induction payloads generalizing first slots k with
  | nil => simp [fill, h]
  | cons payload payloads ih =>
    rw [fill]
    cases k with
    | zero =>
      simp only [Nat.add_zero, getElem?_fill_of_lt (Nat.lt_add_one first)]
      by_cases hpayload : payload = []
      · simp [hpayload, h, Option.filter]
      · simp [hpayload, Option.filter]
    | succ k =>
      have hslots (slot : Nat) (hslot : first + 1 ≤ slot) :
          (if payload = [] then slots else slots.insert first { payload, revision := 0 })[slot]? =
            none := by
        split
        · exact h slot (by omega)
        · rw [Std.ExtTreeMap.getElem?_insert, if_neg (by rw [Nat.compare_eq_eq]; omega)]
          exact h slot (by omega)
      rw [show first + (k + 1) = first + 1 + k by omega, ih hslots, List.getElem?_cons_succ]

/-- A row leaves a slot empty for which it has no payload or an empty one. -/
theorem payload?_ofRow (payloads : List Bytes) (slot : Nat) :
    (ofRow payloads).payload? slot = payloads[slot]?.filter (· ≠ []) := by
  rw [payload?, ofRow, ← payload_fill (fun _ _ => Std.ExtTreeMap.getElem?_empty), Nat.zero_add]

private theorem payload?_row (size slot : Nat) (spine : Spine) :
    (spine.row size)[slot]?.filter (· ≠ []) =
      if slot < size then (spine.payload? slot).filter (· ≠ []) else none := by
  rw [row, List.getElem?_map]
  by_cases hslot : slot < size
  · rw [List.getElem?_range hslot, if_pos hslot, Option.map_some]
    cases spine.payload? slot with
    | none => simp
    | some payload => rfl
  · rw [List.getElem?_eq_none (by simpa using hslot), if_neg hslot]
    rfl

/-! ## Spines that are decoded and encoded -/

/-- Signed words hold the length of every payload. -/
def Short (spine : Spine) : Prop :=
  ∀ slot payload, spine.payload? slot = some payload → payload.length < Wire.signedLimit

/-- No slot is occupied from a number on. -/
def Within (size : Nat) (spine : Spine) : Prop :=
  ∀ slot payload, spine.payload? slot = some payload → slot < size

/-- An empty spine has no payload beyond its size. -/
theorem within_empty (size : Nat) : empty.Within size := by
  intro slot payload h
  rw [payload?_empty] at h
  cases h

/-- An empty spine has no payload that is too long. -/
theorem short_empty : empty.Short := by
  intro slot payload h
  rw [payload?_empty] at h
  cases h

/-- A payload put into a slot of the spine stays within its size. -/
theorem Within.install {size slot : Nat} {spine : Spine} (h : spine.Within size)
    (hslot : slot < size) (payload : Bytes) : (spine.install slot payload).Within size := by
  intro other found hfound
  rw [payload?_install] at hfound
  split at hfound
  · rename_i heq
    rwa [← heq]
  · exact h other found hfound

/-- A blob that is short has short payloads only. -/
theorem short_of_length_encode {size : Nat} {spine : Spine} (h : spine.Within size)
    (hlength : (encode size spine).length < Wire.signedLimit) : spine.Short := by
  intro slot payload hpayload
  have hslot : spine.encodeSlot slot ∈ (List.range size).map spine.encodeSlot :=
    List.mem_map.mpr ⟨slot, List.mem_range.mpr (h slot payload hpayload), rfl⟩
  have hle := (List.sublist_flatten_of_mem hslot).length_le
  rw [encodeSlot, hpayload, Option.getD_some, Wire.block, List.length_append] at hle
  rw [encode, List.length_append, List.flatMap_def] at hlength
  omega

/-- A spine with one more payload below the limit is still short. -/
theorem Short.install {slot : Nat} {payload : Bytes} {spine : Spine} (h : spine.Short)
    (hpayload : payload.length < Wire.signedLimit) : (spine.install slot payload).Short := by
  intro other found hfound
  rw [payload?_install] at hfound
  split at hfound
  · cases hfound
    exact hpayload
  · exact h other found hfound

/-- The row of a short spine of a size below the limit can be written. -/
theorem writable_row {size : Nat} {spine : Spine} (hsize : size < Wire.signedLimit)
    (hshort : spine.Short) : Wire.Writable (spine.row size) := by
  refine ⟨by simpa [row] using hsize, fun payload hpayload => ?_⟩
  simp only [row, List.mem_map, List.mem_range] at hpayload
  obtain ⟨slot, -, rfl⟩ := hpayload
  cases hslot : spine.payload? slot with
  | none => exact Nat.lt_of_le_of_lt (Nat.zero_le _) hsize
  | some payload => exact hshort slot payload hslot

/-- What was written is read in full, by a spine with as many slots or more. -/
theorem reads_encode {size larger : Nat} {spine : Spine} (hsize : size < Wire.signedLimit)
    (hlarger : size ≤ larger) (hshort : spine.Short) :
    Reader.Reads (read larger) (encode size spine) (ofRow (spine.row size)) := by
  rw [encode_eq_row]
  exact reads_row (writable_row hsize hshort) (by simpa [row] using hlarger)

/-- What was written is read back, in a spine with as many slots or more. Empty payloads are not. -/
theorem exists_decode_encode {size larger : Nat} {spine : Spine} (hsize : size < Wire.signedLimit)
    (hlarger : size ≤ larger) (hshort : spine.Short) :
    ∃ decoded, decode larger (encode size spine) = .ok decoded ∧ ∀ slot, decoded.payload? slot =
      if slot < size then (spine.payload? slot).filter (· ≠ []) else none := by
  refine ⟨ofRow (spine.row size), ?_, fun slot => ?_⟩
  · rw [decode_eq_ok_iff]
    exact ⟨_, writable_row hsize hshort, by simpa [row] using hlarger, encode_eq_row .., rfl⟩
  · rw [payload?_ofRow, payload?_row]

/-- What was written and can be read was a row that the format can write, and this row is what is
read, if four bytes count each payload. -/
theorem writable_of_decode_encode {size larger : Nat} {spine decoded : Spine}
    (hcounted : ∀ slot payload, spine.payload? slot = some payload → payload.length < UInt32.size)
    (h : decode larger (encode size spine) = .ok decoded) :
    Wire.Writable (spine.row size) ∧ size ≤ larger ∧ decoded = ofRow (spine.row size) := by
  obtain ⟨payloads, hwritable, hlength, hblob, rfl⟩ := decode_eq_ok_iff.mp h
  rw [encode_eq_row] at hblob
  have hrow : spine.row size = payloads := by
    refine Wire.blocks_inj (fun payload hpayload => ?_) (fun payload hpayload => ?_)
      (Wire.count_append_inj hblob).2
    · simp only [row, List.mem_map, List.mem_range] at hpayload
      obtain ⟨slot, -, rfl⟩ := hpayload
      cases hslot : spine.payload? slot with
      | none => exact (by decide : 0 < UInt32.size)
      | some payload => exact hcounted slot payload hslot
    · exact Nat.lt_trans (hwritable.length_lt payload hpayload) Wire.signedLimit_lt
  rw [← hrow] at hwritable hlength ⊢
  exact ⟨hwritable, by simpa [row] using hlength, rfl⟩

/-- Whenever what was written can be read, it is read back, if four bytes count each payload. -/
theorem payload?_of_decode_encode {size larger : Nat} {spine decoded : Spine}
    (hcounted : ∀ slot payload, spine.payload? slot = some payload → payload.length < UInt32.size)
    (h : decode larger (encode size spine) = .ok decoded) (slot : Nat) :
    decoded.payload? slot =
      if slot < size then (spine.payload? slot).filter (· ≠ []) else none := by
  obtain ⟨-, -, rfl⟩ := writable_of_decode_encode hcounted h
  rw [payload?_ofRow, payload?_row]

/-- Of a spine that stays within its size no payload is cut off. -/
theorem Within.payload?_eq {size : Nat} {spine : Spine} (h : spine.Within size) (slot : Nat) :
    (if slot < size then (spine.payload? slot).filter (· ≠ []) else none) =
      (spine.payload? slot).filter (· ≠ []) := by
  split
  · rfl
  · rename_i hslot
    cases hpayload : spine.payload? slot with
    | none => rfl
    | some payload => exact absurd (h slot payload hpayload) hslot

section

variable {size larger : Nat} {blob : Bytes} {spine other : Spine}

/-- What a blob describes does not depend on how many slots the spine has. -/
theorem decode_mono (h : decode size blob = .ok spine) (hlarger : size ≤ larger) :
    decode larger blob = .ok spine := by
  rw [decode_eq_ok_iff] at h ⊢
  obtain ⟨payloads, hwritable, hlength, hblob, hspine⟩ := h
  exact ⟨payloads, hwritable, by omega, hblob, hspine⟩

/-- A spine that was just read has no change to write. -/
theorem changed_of_decode (h : decode size blob = .ok spine) : spine.changed = false := by
  obtain ⟨payloads, -, -, -, rfl⟩ := decode_eq_ok_iff.mp h
  rfl

/-- A spine that could be read is not degraded. -/
theorem degraded_of_decode (h : decode size blob = .ok spine) : spine.degraded = false := by
  obtain ⟨payloads, -, -, -, rfl⟩ := decode_eq_ok_iff.mp h
  rfl

private theorem mem_of_payload?_ofRow {payloads : List Bytes} {slot : Nat} {payload : Bytes}
    (h : (ofRow payloads).payload? slot = some payload) :
    payloads[slot]? = some payload ∧ payload ≠ [] := by
  rw [payload?_ofRow, Option.filter_eq_some_iff] at h
  exact ⟨h.1, by simpa using h.2⟩

/-- A decoded spine has no payload beyond the size it was decoded with. -/
theorem within_of_decode (h : decode size blob = .ok spine) : spine.Within size := by
  obtain ⟨payloads, -, hlength, -, rfl⟩ := decode_eq_ok_iff.mp h
  intro slot payload hpayload
  obtain ⟨hlt, -⟩ := List.getElem?_eq_some_iff.mp (mem_of_payload?_ofRow hpayload).1
  omega

/-- A decoded spine has no payload longer than a blob can hold. -/
theorem short_of_decode (h : decode size blob = .ok spine) : spine.Short := by
  obtain ⟨payloads, hwritable, -, -, rfl⟩ := decode_eq_ok_iff.mp h
  intro slot payload hpayload
  exact hwritable.length_lt payload (List.mem_of_getElem? (mem_of_payload?_ofRow hpayload).1)

/-- No decoded payload is empty, since an empty block stands for none. -/
theorem ne_nil_of_decode (h : decode size blob = .ok spine) {slot : Nat} {payload : Bytes}
    (hpayload : spine.payload? slot = some payload) : payload ≠ [] := by
  obtain ⟨payloads, -, -, -, rfl⟩ := decode_eq_ok_iff.mp h
  exact (mem_of_payload?_ofRow hpayload).2

/-- What a blob holds in a slot, for a spine with as many slots as a blob can have. -/
def payloadIn? (blob : Bytes) (slot : Nat) : Option Bytes := do
  let spine ← (decode Wire.signedLimit blob).toOption
  spine.payload? slot

/-- A blob has at most as many slots as signed words count. -/
theorem decode_signedLimit (h : decode size blob = .ok spine) :
    decode Wire.signedLimit blob = .ok spine := by
  rw [decode_eq_ok_iff] at h ⊢
  obtain ⟨payloads, hwritable, -, hblob, hspine⟩ := h
  exact ⟨payloads, hwritable, Nat.le_of_lt hwritable.slots_lt, hblob, hspine⟩

/-- The payload a blob has in a slot is the one it is decoded to. -/
theorem payloadIn?_of_decode (h : decode size blob = .ok spine) (slot : Nat) :
    payloadIn? blob slot = spine.payload? slot := by
  rw [payloadIn?, decode_signedLimit h]
  rfl

/-- No payload of a blob is empty. -/
theorem ne_nil_of_payloadIn? {slot : Nat} {payload : Bytes}
    (h : payloadIn? blob slot = some payload) : payload ≠ [] := by
  simp only [payloadIn?, Option.bind_eq_bind, Option.bind_eq_some_iff] at h
  obtain ⟨spine, hdecode, hpayload⟩ := h
  cases hblob : decode Wire.signedLimit blob with
  | error error =>
    rw [hblob] at hdecode
    cases hdecode
  | ok found =>
    rw [hblob] at hdecode
    cases hdecode
    exact ne_nil_of_decode hblob hpayload

/-- A written spine has the payloads it had in memory, less the empty ones and those beyond its
size. -/
theorem payloadIn?_encode (hsize : size < Wire.signedLimit) (hshort : spine.Short) (slot : Nat) :
    payloadIn? (encode size spine) slot =
      if slot < size then (spine.payload? slot).filter (· ≠ []) else none := by
  obtain ⟨decoded, hdecode, hslots⟩ := exists_decode_encode hsize (Nat.le_refl _) hshort
  rw [payloadIn?_of_decode hdecode, hslots]

end

end Spine

end Chronicle
