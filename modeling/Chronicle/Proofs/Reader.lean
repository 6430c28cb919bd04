import Chronicle.Wire

/-!
# How readers compose

A reading of several fields is opened field by field: it succeeds exactly if each field is read in
turn from what the one before it left. A length that was written as a signed word is read back
exactly if a signed word holds it.
-/

namespace Chronicle

/-- The lengths that a signed word of four bytes holds lie below this number. -/
def Wire.signedLimit : Nat := 1 <<< 31

/-- A signed word stands for a number below the limit as that number, and for no other number below
the size of the word as one that is not negative. -/
theorem Wire.toInt_ofNat {n : Nat} (h : n < UInt32.size) :
    (UInt32.ofNat n).toInt32.toInt =
      if n < Wire.signedLimit then (n : Int) else n - UInt32.size := by
  have hlimit : Wire.signedLimit = 2147483648 := rfl
  have hsize : UInt32.size = 4294967296 := rfl
  rw [hlimit, hsize]
  change (BitVec.ofNat 32 n).toInt = _
  rw [BitVec.toInt_eq_toNat_cond, BitVec.toNat_ofNat]
  split <;> split <;> omega

namespace Reader

variable {α β : Type} {x : Reader α} {f : α → Reader β} {bytes left rest : Bytes}

/-- A reading that goes on after a first field goes on from what that field left. -/
theorem bind_of_ok {a : α} (h : x left = .ok a rest) : (x >>= f) left = f a rest := by
  change EStateM.bind x f left = f a rest
  simp only [EStateM.bind, h]

/-- A reader that failed ends what comes after it. -/
theorem bind_of_error {error : DecodeError} (h : x left = .error error rest) :
    (x >>= f) left = .error error rest := by
  change EStateM.bind x f left = .error error rest
  simp only [EStateM.bind, h]

/-- Two readers one after the other succeed exactly if both do, the second on what the first left.
-/
theorem bind_eq_ok_iff {b : β} :
    (x >>= f) left = .ok b rest ↔ ∃ a mid, x left = .ok a mid ∧ f a mid = .ok b rest := by
  cases hx : x left with
  | ok a mid =>
    rw [bind_of_ok hx]
    constructor
    · intro h
      exact ⟨a, mid, rfl, h⟩
    · rintro ⟨c, other, hc, h⟩
      cases hc
      exact h
  | error error mid => simp [bind_of_error hx]

/-- An answer that needs no bytes leaves all of them. -/
theorem pure_eq_ok_iff {a b : α} : (pure a : Reader α) left = .ok b rest ↔ a = b ∧ left = rest := by
  change EStateM.Result.ok a left = .ok b rest ↔ _
  rw [EStateM.Result.ok.injEq]

/-- Bytes are taken exactly if they stand in front of the rest. -/
theorem slice_eq_ok_iff {n : Nat} {head : Bytes} :
    slice n left = .ok head rest ↔ left = head ++ rest ∧ head.length = n := by
  simp only [slice]
  constructor
  · intro h
    split at h
    · cases h
    · rename_i hlength
      rw [EStateM.Result.ok.injEq] at h
      obtain ⟨rfl, rfl⟩ := h
      refine ⟨(List.take_append_drop n left).symm, ?_⟩
      rw [List.length_take] at hlength ⊢
      omega
  · rintro ⟨rfl, rfl⟩
    simp

/-- A function of what was read is answered exactly if the reading succeeds. -/
theorem map_eq_ok_iff {g : α → β} {b : β} :
    (g <$> x) left = .ok b rest ↔ ∃ a, x left = .ok a rest ∧ g a = b := by
  change EStateM.map g x left = _ ↔ _
  cases hx : x left with
  | ok a mid =>
    simp only [EStateM.map, hx, EStateM.Result.ok.injEq]
    constructor
    · rintro ⟨rfl, rfl⟩
      exact ⟨a, ⟨rfl, rfl⟩, rfl⟩
    · rintro ⟨c, ⟨rfl, rfl⟩, rfl⟩
      exact ⟨rfl, rfl⟩
  | error error mid => simp [EStateM.map, hx]

/-- A word of so many bytes is read exactly if the bytes of the number stand in front. -/
theorem word_eq_ok_iff {width n : Nat} :
    word width left = .ok n rest ↔
      left = BigEndian.encode width n ++ rest ∧ n < BigEndian.capacity width := by
  simp only [word, map_eq_ok_iff, slice_eq_ok_iff]
  constructor
  · rintro ⟨head, ⟨rfl, rfl⟩, rfl⟩
    exact ⟨by rw [BigEndian.encode_decode], BigEndian.decode_lt head⟩
  · rintro ⟨rfl, hn⟩
    refine ⟨_, ⟨rfl, BigEndian.length_encode ..⟩, ?_⟩
    rw [BigEndian.decode_encode, Nat.mod_eq_of_lt hn]

/-- A count is read exactly from the four bytes it is written with. -/
theorem count_eq_ok_iff {n : Nat} :
    count left = .ok n rest ↔ left = Wire.count n ++ rest ∧ n < UInt32.size :=
  word_eq_ok_iff

/-- A signed word is read exactly if its bytes stand in front. -/
theorem int32_eq_ok_iff {n : Int32} : int32 left = .ok n rest ↔ left = Wire.int32 n ++ rest := by
  constructor
  · intro h
    obtain ⟨m, hword, rfl⟩ := map_eq_ok_iff.mp h
    obtain ⟨rfl, hm⟩ := word_eq_ok_iff.mp hword
    have hnat : (UInt32.ofNat m).toInt32.toUInt32.toNat = m := by
      rw [UInt32.toUInt32_toInt32, UInt32.toNat_ofNat_of_lt' hm]
    rw [Wire.int32, hnat]
  · rintro rfl
    exact int32_wire n rest

/-- A time is read exactly from the eight bytes it is written with. -/
theorem int64_eq_ok_iff {n : Int64} : int64 left = .ok n rest ↔ left = Wire.int64 n ++ rest := by
  constructor
  · intro h
    obtain ⟨m, hword, rfl⟩ := map_eq_ok_iff.mp h
    obtain ⟨rfl, hm⟩ := word_eq_ok_iff.mp hword
    have hnat : (UInt64.ofNat m).toInt64.toUInt64.toNat = m := by
      rw [UInt64.toUInt64_toInt64, UInt64.toNat_ofNat_of_lt' hm]
    rw [Wire.int64, hnat]
  · rintro rfl
    exact int64_wire n rest

/-- A byte is read exactly where it stands first. -/
theorem byte_eq_ok_iff {b : UInt8} : byte left = .ok b rest ↔ left = [b] ++ rest := by
  constructor
  · intro h
    cases left with
    | nil => cases h
    | cons first left =>
      rw [byte_cons, EStateM.Result.ok.injEq] at h
      obtain ⟨rfl, rfl⟩ := h
      rfl
  · rintro rfl
    exact byte_cons b rest

/-- A nid is read exactly from the four bytes it is written with. -/
theorem nid_eq_ok_iff {n : Nid} : nid left = .ok n rest ↔ left = Wire.nid n ++ rest := by
  constructor
  · intro h
    obtain ⟨raw, hraw, rfl⟩ := map_eq_ok_iff.mp h
    exact int32_eq_ok_iff.mp hraw
  · rintro rfl
    exact nid_wire n rest

/-- A byte string behind its length is read exactly if it stands in front so. -/
theorem block_eq_ok_iff {block : Bytes} :
    Reader.block left = .ok block rest ↔
      block.length < UInt32.size ∧ left = Wire.block block ++ rest := by
  simp only [Reader.block, bind_eq_ok_iff, count_eq_ok_iff, slice_eq_ok_iff]
  constructor
  · rintro ⟨_, _, ⟨rfl, hcount⟩, rfl, rfl⟩
    exact ⟨hcount, by rw [Wire.block, List.append_assoc]⟩
  · rintro ⟨hlength, rfl⟩
    exact ⟨_, block ++ rest, ⟨by rw [Wire.block, List.append_assoc], hlength⟩, rfl, rfl⟩

private theorem uuid_eq_ok_iff {u : Uuid} : uuid left = .ok u rest ↔ left = u.toBytes ++ rest := by
  constructor
  · intro h
    obtain ⟨head, hhead, rfl⟩ := map_eq_ok_iff.mp h
    obtain ⟨rfl, hlength⟩ := slice_eq_ok_iff.mp hhead
    rw [Uuid.toBytes_ofBytes hlength]
  · rintro rfl
    exact uuid_wire u rest

/-- A marker is accepted exactly if the bytes begin with it. -/
theorem marker_eq_ok_iff {expected : Bytes} {u : Unit} :
    marker expected left = .ok u rest ↔ left = expected ++ rest := by
  constructor
  · intro h
    obtain ⟨head, mid, hhead, h⟩ := bind_eq_ok_iff.mp h
    split at h
    · rename_i heq
      obtain ⟨-, rfl⟩ := pure_eq_ok_iff.mp h
      rw [(slice_eq_ok_iff.mp hhead).1, heq]
    · cases h
  · rintro rfl
    rw [marker, bind_of_ok (slice_append expected rest), if_pos rfl]
    rfl

/-- Decoding fails with the error of the reader. -/
theorem decode_of_error {error : DecodeError} (h : x bytes = .error error rest) :
    x.decode bytes = .error error := by
  rw [decode, bind_of_error h]

/-- Bytes that are left over are refused. -/
theorem decode_of_left {a : α} (h : x bytes = .ok a rest) (hrest : rest ≠ []) :
    x.decode bytes = .error (.trailing rest.length) := by
  obtain ⟨byte, more, rfl⟩ := List.exists_cons_of_ne_nil hrest
  have hfinish : finish (byte :: more) =
      .error (.trailing (byte :: more).length) (byte :: more) := rfl
  rw [decode, bind_of_ok h, bind_of_error hfinish]

/-- A whole byte string is decoded exactly if it is read to its end. -/
theorem decode_eq_ok_iff {a : α} : x.decode bytes = .ok a ↔ x bytes = .ok a [] := by
  cases hx : x bytes with
  | error error rest => simp [decode_of_error hx]
  | ok b rest =>
    cases rest with
    | nil =>
      rw [decode, bind_of_ok hx, bind_of_ok (show finish [] = .ok () [] from rfl)]
      simp [pure, EStateM.pure]
    | cons byte rest => simp [decode_of_left hx]

/-! ## Fields that are there in part -/

/-- A value is read from certain bytes: from all of them, whatever follows, but not from a part of
them, of which some field finds too little. -/
structure Reads (x : Reader α) (bytes : Bytes) (a : α) : Prop where
  whole : ∀ rest, x (bytes ++ rest) = .ok a rest
  torn : ∀ part, part <+: bytes → part ≠ bytes → ∃ needed remaining left,
    remaining < needed ∧ x part = .error (.truncated needed remaining) left

/-- An answer that needs no bytes is read from none. -/
theorem reads_pure (a : α) : Reads (pure a) [] a where
  whole _ := rfl
  torn _ hpart hne := absurd (List.prefix_nil.mp hpart) hne

/-- Two fields are torn within the first of them or within the second. -/
theorem Reads.bind {used more : Bytes} {a : α} {b : β} (hx : Reads x used a)
    (hf : Reads (f a) more b) : Reads (x >>= f) (used ++ more) b where
  whole rest := by
    rw [List.append_assoc, bind_of_ok (hx.whole _), hf.whole]
  torn part hpart hne := by
    by_cases hwhole : used <+: part
    · obtain ⟨later, rfl⟩ := hwhole
      rw [List.prefix_append_right_inj] at hpart
      rw [bind_of_ok (hx.whole later)]
      exact hf.torn later hpart fun heq => hne (by rw [heq])
    · have hwithin : part <+: used :=
        (List.prefix_or_prefix_of_prefix hpart (List.prefix_append used more)).resolve_right hwhole
      have hshort : part ≠ used := by
        rintro rfl
        exact hwhole (List.prefix_refl part)
      obtain ⟨needed, remaining, left, hlt, hrun⟩ := hx.torn part hwithin hshort
      exact ⟨needed, remaining, left, hlt, bind_of_error hrun⟩

/-- A last field, of which the value is made. -/
theorem Reads.bind_pure {used : Bytes} {a : α} {g : α → β} (hx : Reads x used a) :
    Reads (x >>= fun a => pure (g a)) used (g a) := by
  have h := hx.bind (f := fun a => pure (g a)) (reads_pure (g a))
  rwa [List.append_nil] at h

/-- A function of what was read takes the same bytes. -/
theorem Reads.map {used : Bytes} {a : α} (hx : Reads x used a) (g : α → β) :
    Reads (g <$> x) used (g a) where
  whole rest := map_eq_ok_iff.mpr ⟨a, hx.whole rest, rfl⟩
  torn part hpart hne := by
    obtain ⟨needed, remaining, left, hlt, hrun⟩ := hx.torn part hpart hne
    refine ⟨needed, remaining, left, hlt, ?_⟩
    change EStateM.map g x part = _
    simp only [EStateM.map, hrun]

/-- What is read is determined by the bytes. -/
theorem Reads.congr {used : Bytes} {a b : α} (hx : Reads x used a)
    (hb : x (used ++ []) = .ok b []) : Reads x used b := by
  rw [hx.whole, EStateM.Result.ok.injEq] at hb
  rwa [← hb.1]

/-- A slice reads the bytes it was measured by. -/
theorem reads_slice (bytes : Bytes) : Reads (slice bytes.length) bytes bytes where
  whole := slice_append bytes
  torn part hpart hne := by
    have hshort : part.length < bytes.length :=
      Nat.lt_of_le_of_ne hpart.length_le fun heq => hne (hpart.eq_of_length heq)
    refine ⟨bytes.length, part.length, part, hshort, ?_⟩
    rw [slice, List.take_of_length_le (Nat.le_of_lt hshort), if_pos hshort]

private theorem reads_word {width n : Nat} (h : n < BigEndian.capacity width) :
    Reads (word width) (BigEndian.encode width n) n := by
  have hslice := reads_slice (BigEndian.encode width n)
  rw [BigEndian.length_encode] at hslice
  exact (hslice.map BigEndian.decode).congr (word_encode_of_lt h [])

/-- A count of 32 bits is read from the bytes it is written with. -/
theorem reads_count {n : Nat} (h : n < UInt32.size) : Reads count (Wire.count n) n :=
  reads_word h

/-- A byte is read from itself. -/
theorem reads_byte (b : UInt8) : Reads byte [b] b :=
  ((reads_slice [b]).map _ |>.map _).congr (byte_cons b [])

/-- A time is read from the bytes it is written with. -/
theorem reads_int64 (n : Int64) : Reads int64 (Wire.int64 n) n := by
  have hword : n.toUInt64.toNat < BigEndian.capacity 8 := n.toUInt64.toNat_lt
  exact ((reads_word hword).map _).congr (int64_wire n [])

/-- A nid is read from the bytes it is written with. -/
theorem reads_nid (n : Nid) : Reads nid (Wire.nid n) n := by
  have hword : n.raw.toUInt32.toNat < BigEndian.capacity 4 := n.raw.toUInt32.toNat_lt
  exact ((reads_word hword).map _ |>.map _).congr (nid_wire n [])

/-- A UUID is read from its sixteen bytes. -/
theorem reads_uuid (u : Uuid) : Reads uuid u.toBytes u := by
  have hslice := reads_slice u.toBytes
  rw [Uuid.length_toBytes] at hslice
  exact (hslice.map _).congr (uuid_wire u [])

/-- A block whose length fits its count is read from its length and its bytes. -/
theorem reads_block {bytes : Bytes} (h : bytes.length < UInt32.size) :
    Reads block (Wire.block bytes) bytes :=
  (reads_count h).bind (reads_slice bytes)

/-- A marker is read from its own bytes. -/
theorem reads_marker (expected : Bytes) : Reads (marker expected) expected () := by
  have hcheck : Reads (if expected = expected then pure () else fail .badMagic) [] () := by
    rw [if_pos rfl]
    exact reads_pure ()
  have h := (reads_slice expected).bind
    (f := fun found => if found = expected then pure () else fail .badMagic) hcheck
  rwa [List.append_nil] at h

/-- Items that were written one after another are read one after another. -/
theorem reads_items {write : α → Bytes} {values : List α}
    (hitem : ∀ a ∈ values, Reads x (write a) a) :
    Reads (items x values.length) (values.flatMap write) values := by
  induction values with
  | nil => exact reads_pure []
  | cons a values ih =>
    rw [List.forall_mem_cons] at hitem
    exact hitem.1.bind (ih hitem.2).bind_pure

/-! ## Formats -/

/-- Exactly the values that fit a format are read, each from the bytes in which it is written, and
whatever follows these is left. -/
def Exact (x : Reader α) (write : α → Bytes) (fits : α → Prop) : Prop :=
  ∀ a left rest, x left = .ok a rest ↔ fits a ∧ left = write a ++ rest

/-- Items of one format are read exactly if the bytes of as many that fit it stand in front. -/
theorem Exact.items_eq_ok_iff {write : α → Bytes} {fits : α → Prop} (hitem : Exact x write fits)
    {n : Nat} {values : List α} :
    items x n left = .ok values rest ↔
      values.length = n ∧ (∀ a ∈ values, fits a) ∧ left = values.flatMap write ++ rest := by
  induction n generalizing left rest values with
  | zero =>
    simp only [items, pure_eq_ok_iff, List.length_eq_zero_iff]
    constructor
    · rintro ⟨rfl, rfl⟩
      exact ⟨rfl, by simp, rfl⟩
    · rintro ⟨rfl, -, rfl⟩
      exact ⟨rfl, rfl⟩
  | succ n ih =>
    simp only [items, bind_eq_ok_iff, hitem _ _ _, ih, pure_eq_ok_iff]
    constructor
    · rintro ⟨first, _, ⟨hfits, rfl⟩, later, _, ⟨rfl, hall, rfl⟩, rfl, rfl⟩
      exact ⟨rfl, List.forall_mem_cons.mpr ⟨hfits, hall⟩, by simp⟩
    · rintro ⟨hlength, hall, rfl⟩
      cases values with
      | nil => cases hlength
      | cons first later =>
        rw [List.forall_mem_cons] at hall
        exact ⟨first, later.flatMap write ++ rest, ⟨hall.1, by simp⟩, later, rest,
          ⟨Nat.succ.inj hlength, hall.2, rfl⟩, rfl, rfl⟩

/-- Bytes are decoded as a value exactly if the value fits and they are the ones in which it is
written. -/
theorem Exact.decode_eq_ok_iff {write : α → Bytes} {fits : α → Prop} (h : Exact x write fits)
    {a : α} : x.decode bytes = .ok a ↔ fits a ∧ bytes = write a := by
  rw [Reader.decode_eq_ok_iff, h, List.append_nil]

/-- Items of a format are told apart by the bytes in which they are written one after another. -/
theorem Exact.flatMap_inj {write : α → Bytes} {fits : α → Prop} (hitem : Exact x write fits)
    (hne : ∀ a, write a ≠ []) {as bs : List α} (has : ∀ a ∈ as, fits a) (hbs : ∀ b ∈ bs, fits b)
    (h : as.flatMap write = bs.flatMap write) : as = bs := by
  induction as generalizing bs with
  | nil =>
    cases bs with
    | nil => rfl
    | cons b bs => simp [hne b] at h
  | cons a as ih =>
    cases bs with
    | nil => simp [hne a] at h
    | cons b bs =>
      rw [List.forall_mem_cons] at has hbs
      have hread : x (write a ++ as.flatMap write) = .ok a (as.flatMap write) :=
        (hitem a _ _).mpr ⟨has.1, rfl⟩
      rw [← List.flatMap_cons, h, List.flatMap_cons, (hitem b _ _).mpr ⟨hbs.1, rfl⟩,
        EStateM.Result.ok.injEq] at hread
      obtain ⟨rfl, hrest⟩ := hread
      rw [ih has.2 hbs.2 hrest.symm]

/-- Every UUID is written and read with the same sixteen bytes. -/
theorem exact_uuid : Exact uuid Uuid.toBytes fun _ => True := by
  intro u left rest
  rw [uuid_eq_ok_iff, true_and]

end Reader

end Chronicle
