import Chronicle.Proofs.Identity.History

/-!
# Identity tables of any origin

A table that was not written from a registry is accepted as long as its bytes can be taken apart
into entries, each of which makes a public id. Nothing is compared across entries. This file says
which registry such a table describes, and for which tables it obeys the rules that resolving keeps:
those that list no nid twice, no UUID under two nids, and only nids that were handed out.
-/

namespace Chronicle.Registry

variable {r r' : Registry} {id : PublicId} {nid : Nid} {uuid : Uuid}

/-- An entry as it stands in a table: a nid and its aliases, which may be repeated, with the public
id that they make. -/
structure Entry where
  nid : Nid
  uuids : List Uuid
  id : PublicId
  ofList_eq : PublicId.ofList uuids = .ok id

namespace Entry

variable {entry : Entry}

/-- The bytes of an entry. -/
def encode (entry : Entry) : Bytes :=
  Wire.nid entry.nid ++ Wire.count entry.uuids.length ++ entry.uuids.flatMap Uuid.toBytes

/-- The nid of an alias, as far as an entry tells. -/
def nidOf? (entry : Entry) (uuid : Uuid) : Option Nid :=
  if uuid ∈ entry.uuids then some entry.nid else none

/-- The public id of a nid, as far as an entry tells. -/
def idOf? (entry : Entry) (nid : Nid) : Option PublicId :=
  if nid = entry.nid then some entry.id else none

private theorem mem_id : uuid ∈ entry.id.uuids ↔ uuid ∈ entry.uuids := by
  rw [(PublicId.ofList_eq_ok_iff.mp entry.ofList_eq).2.2, List.mem_eraseDups]

private theorem length_id_le : entry.id.uuids.length ≤ entry.uuids.length :=
  (List.subperm_of_subset entry.id.nodup fun _ => mem_id.mp).length_le

private theorem nidOf?_eq_some_iff :
    entry.nidOf? uuid = some nid ↔ uuid ∈ entry.uuids ∧ entry.nid = nid := by
  simp [nidOf?]

private theorem idOf?_eq_some_iff :
    entry.idOf? nid = some id ↔ nid = entry.nid ∧ entry.id = id := by
  simp [idOf?]

end Entry

variable {entries : List Entry} {α : Type} {tells : Entry → Option α} {a : α}

/-- What the last of some entries tells that tells anything. -/
def lastTold (tells : Entry → Option α) (entries : List Entry) : Option α :=
  entries.reverse.findSome? tells

/-- What was told last was told by some entry. -/
theorem exists_of_lastTold (h : lastTold tells entries = some a) :
    ∃ entry ∈ entries, tells entry = some a := by
  obtain ⟨entry, hentry, htells⟩ := List.exists_of_findSome?_eq_some h
  exact ⟨entry, List.mem_reverse.mp hentry, htells⟩

/-- If some entry tells anything, there is a last one that does. -/
theorem exists_lastTold {entry : Entry} (hentry : entry ∈ entries) (htells : tells entry = some a) :
    ∃ b, lastTold tells entries = some b := by
  refine Option.ne_none_iff_exists'.mp fun hnone => ?_
  rw [List.findSome?_eq_none_iff.mp hnone entry (List.mem_reverse.mpr hentry)] at htells
  cases htells

/-- A table with some entries. -/
def tableOf (next : Nid) (entries : List Entry) : Bytes :=
  tableMarker ++ Wire.nid next ++ Wire.count entries.length ++ entries.flatMap Entry.encode

/-- Records entries, one after another. -/
def restoreAll (entries : List Entry) (r : Registry) : Registry :=
  entries.foldl (fun r entry => r.restore entry.nid entry.id entry.uuids) r

/-- Entries are read exactly if the bytes of as many stand in front, and then they are recorded. -/
theorem readEntries_eq_ok_iff {n : Nat} {left rest : Bytes} :
    readEntries n r left = .ok r' rest ↔
      ∃ entries : List Entry, entries.length = n ∧
        (∀ entry ∈ entries, entry.uuids.length < UInt32.size) ∧
        left = entries.flatMap Entry.encode ++ rest ∧ r' = restoreAll entries r := by
  have huuids {n : Nat} {left rest : Bytes} {uuids : List Uuid} :
      Reader.items Reader.uuid n left = .ok uuids rest ↔
        uuids.length = n ∧ left = uuids.flatMap Uuid.toBytes ++ rest := by
    simp only [Reader.exact_uuid.items_eq_ok_iff, implies_true, true_and]
  induction n generalizing r left with
  | zero =>
    simp only [readEntries, Reader.pure_eq_ok_iff, List.length_eq_zero_iff]
    constructor
    · rintro ⟨rfl, rfl⟩
      exact ⟨[], rfl, by simp, rfl, rfl⟩
    · rintro ⟨_, rfl, -, rfl, rfl⟩
      exact ⟨rfl, rfl⟩
  | succ n ih =>
    simp only [readEntries, Reader.bind_eq_ok_iff, Reader.nid_eq_ok_iff, Reader.count_eq_ok_iff,
      huuids]
    constructor
    · rintro ⟨nid, _, rfl, _, _, ⟨rfl, hcount⟩, uuids, _, ⟨rfl, rfl⟩, h⟩
      cases hid : PublicId.ofList uuids with
      | ok id =>
        rw [hid] at h
        obtain ⟨entries, rfl, hall, rfl, rfl⟩ := ih.mp h
        refine ⟨⟨nid, uuids, id, hid⟩ :: entries, rfl, ?_, ?_, rfl⟩
        · exact List.forall_mem_cons.mpr ⟨hcount, hall⟩
        · simp [Entry.encode]
      | error error =>
        rw [hid] at h
        cases h
    · rintro ⟨entries, hlength, hall, rfl, rfl⟩
      cases entries with
      | nil => cases hlength
      | cons entry entries =>
        rw [List.forall_mem_cons] at hall
        refine ⟨entry.nid, _, ?_, _, _, ⟨rfl, hall.1⟩, entry.uuids,
          entries.flatMap Entry.encode ++ rest, ⟨rfl, rfl⟩, ?_⟩
        · simp [Entry.encode]
        · simp only [entry.ofList_eq]
          exact ih.mpr ⟨entries, Nat.succ.inj hlength, hall.2, rfl, rfl⟩

/-- The bytes of a table are those of a counter and of some entries, as many as four bytes can count
and with as many aliases. -/
structure Records (table : Bytes) (next : Nid) (entries : List Entry) : Prop where
  count_lt : entries.length < UInt32.size
  aliases_lt : ∀ entry ∈ entries, entry.uuids.length < UInt32.size
  table_eq : table = tableOf next entries

/-- A table is decoded exactly if it records a counter and entries, and describes the registry in
which they are restored. -/
theorem decodeTable_eq_ok_iff {table : Bytes} :
    decodeTable table = .ok r ↔
      ∃ next entries, Records table next entries ∧ r = restoreAll entries { empty with next } := by
  rw [decodeTable, Reader.decode_eq_ok_iff]
  simp only [readTable, Reader.bind_eq_ok_iff, Reader.marker_eq_ok_iff, Reader.nid_eq_ok_iff,
    Reader.count_eq_ok_iff, readEntries_eq_ok_iff]
  constructor
  · rintro ⟨_, _, rfl, next, _, rfl, _, _, ⟨rfl, hcount⟩, entries, rfl, hall, rfl, rfl⟩
    exact ⟨next, entries, ⟨hcount, hall, by simp [tableOf]⟩, rfl⟩
  · rintro ⟨next, entries, ⟨hcount, hall, rfl⟩, rfl⟩
    exact ⟨(), _, by simp [tableOf], next, _, rfl, _, entries.flatMap Entry.encode, ⟨rfl, hcount⟩,
      entries, rfl, hall, by simp, rfl⟩

/-! ## What entries restore -/

/-- Restoring an entry maps its aliases to its nid and leaves the others. -/
theorem nid?_restore {uuids : List Uuid} :
    (r.restore nid id uuids).nid? uuid = if uuid ∈ uuids then some nid else r.nid? uuid := by
  -- The aliases may be repeated, so that they are inserted one by one here.
  change (r.nids.insertMany (uuids.map (·, nid)))[uuid]? = if _ then _ else r.nids[uuid]?
  generalize r.nids = nids
  induction uuids generalizing nids with
  | nil => simp
  | cons first uuids ih =>
    rw [List.map_cons, Std.ExtTreeMap.insertMany_cons, ih, Std.ExtTreeMap.getElem?_insert]
    simp only [Std.compare_eq_iff_eq, List.mem_cons]
    by_cases hmem : uuid ∈ uuids
    · simp [hmem]
    · simp [hmem, eq_comm]

/-- Restoring an entry gives its nid its public id and leaves the others. -/
theorem publicId?_restore {uuids : List Uuid} {other : Nid} :
    (r.restore nid id uuids).publicId? other =
      if other = nid then some id else r.publicId? other := by
  change (r.ids.insert nid id)[other]? = _
  simp only [Std.ExtTreeMap.getElem?_insert, Std.compare_eq_iff_eq, eq_comm (a := nid), publicId?]

/-- If each entry replaces what it tells something about, the last one decides. -/
theorem view_restoreAll (view : Registry → Option α) (tells : Entry → Option α)
    (hrestore : ∀ (r : Registry) (entry : Entry),
      view (r.restore entry.nid entry.id entry.uuids) = (tells entry).or (view r)) :
    view (restoreAll entries r) = (lastTold tells entries).or (view r) := by
  induction entries generalizing r with
  | nil => rfl
  | cons entry entries ih =>
    rw [restoreAll, List.foldl_cons, ← restoreAll, ih, hrestore, lastTold, lastTold,
      List.reverse_cons, List.findSome?_append, Option.or_assoc, List.findSome?_cons,
      List.findSome?_nil]
    cases tells entry <;> rfl

/-- Restoring entries leaves the counter as it is. -/
theorem next_restoreAll : (restoreAll entries r).next = r.next := by
  induction entries generalizing r with
  | nil => rfl
  | cons entry entries ih => exact ih

/-- The registry that some entries describe: the last one that mentions a UUID or a nid counts. -/
structure Describes (entries : List Entry) (r : Registry) : Prop where
  nid?_eq : ∀ uuid, r.nid? uuid = lastTold (Entry.nidOf? · uuid) entries
  publicId?_eq : ∀ nid, r.publicId? nid = lastTold (Entry.idOf? · nid) entries

/-- The entries that are restored into an empty registry describe it. -/
theorem describes_restoreAll {next : Nid} :
    Describes entries (restoreAll entries { empty with next }) := by
  constructor
  · intro uuid
    have hempty : ({ empty with next } : Registry).nid? uuid = none := by simp [nid?, empty]
    rw [view_restoreAll (nid? · uuid) (Entry.nidOf? · uuid), hempty, Option.or_none]
    intro r entry
    rw [nid?_restore, Entry.nidOf?]
    split <;> rfl
  · intro nid
    have hempty : ({ empty with next } : Registry).publicId? nid = none := by
      simp [publicId?, empty]
    rw [view_restoreAll (publicId? · nid) (Entry.idOf? · nid), hempty, Option.or_none]
    intro r entry
    rw [publicId?_restore, Entry.idOf?]
    split <;> rfl

/-- The entries of a table describe the registry that is decoded from it. -/
theorem Records.describes {table : Bytes} {next : Nid} (h : Records table next entries)
    (hdecode : decodeTable table = .ok r) : Describes entries r := by
  have hrestored := decodeTable_eq_ok_iff.mpr ⟨next, entries, h, rfl⟩
  rw [hdecode] at hrestored
  cases hrestored
  exact describes_restoreAll

namespace Describes

variable (h : Describes entries r)

include h

private theorem exists_of_nid? (hnid : r.nid? uuid = some nid) :
    ∃ entry ∈ entries, uuid ∈ entry.uuids ∧ entry.nid = nid := by
  obtain ⟨entry, hentry, htells⟩ := exists_of_lastTold ((h.nid?_eq uuid).symm.trans hnid)
  exact ⟨entry, hentry, Entry.nidOf?_eq_some_iff.mp htells⟩

private theorem exists_of_publicId? (hid : r.publicId? nid = some id) :
    ∃ entry ∈ entries, nid = entry.nid ∧ entry.id = id := by
  obtain ⟨entry, hentry, htells⟩ := exists_of_lastTold ((h.publicId?_eq nid).symm.trans hid)
  exact ⟨entry, hentry, Entry.idOf?_eq_some_iff.mp htells⟩

private theorem exists_nid? {entry : Entry} (hentry : entry ∈ entries)
    (huuid : uuid ∈ entry.uuids) :
    ∃ nid, r.nid? uuid = some nid := by
  rw [h.nid?_eq]
  exact exists_lastTold hentry (Entry.nidOf?_eq_some_iff.mpr ⟨huuid, rfl⟩)

private theorem exists_publicId? {entry : Entry} (hentry : entry ∈ entries) :
    ∃ id, r.publicId? entry.nid = some id := by
  rw [h.publicId?_eq]
  exact exists_lastTold hentry (Entry.idOf?_eq_some_iff.mpr ⟨rfl, rfl⟩)

/-- If every nid has one entry, it has the public id of this entry. -/
theorem publicId?_of_nodup (hnodup : (entries.map Entry.nid).Nodup) {entry : Entry}
    (hentry : entry ∈ entries) : r.publicId? entry.nid = some entry.id := by
  obtain ⟨id, hid⟩ := h.exists_publicId? hentry
  obtain ⟨other, hother, hnid, rfl⟩ := h.exists_of_publicId? hid
  rw [hid, List.inj_on_of_nodup_map hnodup hother hentry hnid.symm]

end Describes

/-- Whatever is read from a table, four bytes count the aliases of every nid. -/
theorem writable_of_decodeTable {table : Bytes} (h : decodeTable table = .ok r) : r.Writable := by
  obtain ⟨next, entries, hrecords, -⟩ := decodeTable_eq_ok_iff.mp h
  refine writable_iff.mpr fun nid id hid => ?_
  obtain ⟨entry, hentry, -, rfl⟩ := (hrecords.describes h).exists_of_publicId? hid
  exact Nat.lt_of_le_of_lt Entry.length_id_le (hrecords.aliases_lt entry hentry)

/-- If the table of a registry can be read at all, its counter is. -/
theorem next_of_decodeTable (h : decodeTable r.encodeTable = .ok r') : r'.next = r.next := by
  obtain ⟨next, entries, hrecords, rfl⟩ := decodeTable_eq_ok_iff.mp h
  rw [next_restoreAll]
  have htable := hrecords.table_eq
  simp only [encodeTable, tableOf, List.append_assoc, List.append_cancel_left_eq] at htable
  have hread := Reader.nid_eq_ok_iff.mpr htable
  rw [Reader.nid_eq_ok_iff.mpr rfl] at hread
  exact (EStateM.Result.ok.inj hread).1.symm

/-! ## Which tables obey the rules -/

/-- The rules that a registry has to obey: its two directions say the same, and every nid that has a
public id was handed out. -/
structure Sound (r : Registry) : Prop where
  nid?_iff : ∀ uuid nid, r.nid? uuid = some nid ↔ ∃ id, r.publicId? nid = some id ∧ uuid ∈ id.uuids
  allocated : ∀ nid, (r.publicId? nid).isSome → r.Allocated nid

/-- Entries that agree with each other and with the counter. -/
structure Orderly (next : Nid) (entries : List Entry) : Prop where
  nodup : (entries.map Entry.nid).Nodup
  apart : ∀ a ∈ entries, ∀ b ∈ entries, ∀ uuid ∈ a.uuids, uuid ∈ b.uuids → a.nid = b.nid
  handedOut : ∀ entry ∈ entries, Nid.first.raw ≤ entry.nid.raw ∧ entry.nid.raw < next.raw

/-- The registry of some entries obeys the rules, and no nid is listed twice, exactly if the entries
agree. -/
theorem Describes.sound_iff (h : Describes entries r) :
    r.Sound ∧ (entries.map Entry.nid).Nodup ↔ Orderly r.next entries := by
  constructor
  · rintro ⟨hsound, hnodup⟩
    have hnid {entry : Entry} (hentry : entry ∈ entries) {uuid : Uuid}
        (huuid : uuid ∈ entry.uuids) : r.nid? uuid = some entry.nid := by
      rw [hsound.nid?_iff]
      exact ⟨entry.id, h.publicId?_of_nodup hnodup hentry, Entry.mem_id.mpr huuid⟩
    refine ⟨hnodup, fun a ha b hb uuid huuid huuid' => ?_, fun entry hentry => ?_⟩
    · exact Option.some.inj ((hnid ha huuid).symm.trans (hnid hb huuid'))
    · obtain ⟨id, hid⟩ := h.exists_publicId? hentry
      exact hsound.allocated entry.nid (by rw [hid]; rfl)
  · rintro ⟨hnodup, hapart, hhandedOut⟩
    refine ⟨⟨fun uuid nid => ⟨fun hnid => ?_, ?_⟩, fun nid hsome => ?_⟩, hnodup⟩
    · obtain ⟨entry, hentry, huuid, rfl⟩ := h.exists_of_nid? hnid
      exact ⟨entry.id, h.publicId?_of_nodup hnodup hentry, Entry.mem_id.mpr huuid⟩
    · rintro ⟨id, hid, huuid⟩
      obtain ⟨entry, hentry, rfl, rfl⟩ := h.exists_of_publicId? hid
      have huuid := Entry.mem_id.mp huuid
      obtain ⟨nid, hnid⟩ := h.exists_nid? hentry huuid
      obtain ⟨other, hother, huuid', rfl⟩ := h.exists_of_nid? hnid
      rw [hnid, hapart other hother entry hentry uuid huuid' huuid]
    · obtain ⟨id, hid⟩ := Option.isSome_iff_exists.mp hsome
      obtain ⟨entry, hentry, rfl, -⟩ := h.exists_of_publicId? hid
      exact hhandedOut entry hentry

/-! ## Nids that are handed out later -/

/-- The counter is ahead of every nid that names a component. -/
structure Ahead (r : Registry) : Prop where
  nid?_iff : ∀ uuid nid, r.nid? uuid = some nid ↔ uuid ∈ r.aliases nid
  lt_next : ∀ nid, r.aliases nid ≠ [] → nid.raw < r.next.raw

/-- In a sound registry the counter is ahead. -/
theorem Sound.ahead (h : r.Sound) : r.Ahead := by
  refine ⟨fun uuid nid => by rw [h.nid?_iff, mem_aliases_iff], fun nid hne => ?_⟩
  rw [ne_eq, aliases_eq_nil_iff] at hne
  exact (h.allocated nid (Option.isSome_iff_ne_none.mpr hne)).2

/-- Resolving keeps the counter ahead. -/
theorem Resolves.ahead (h : Resolves r id nid r') (hr : r.Ahead) : r'.Ahead := by
  refine ⟨h.nid?_iff hr.nid?_iff, fun other hne => ?_⟩
  rw [h.aliases_eq] at hne
  by_cases hother : other = nid
  · subst hother
    obtain ⟨⟨uuid, -, hnid⟩, hnext⟩ | ⟨-, rfl, hnext⟩ := h.origin
    · rw [hnext]
      exact hr.lt_next other (List.ne_nil_of_mem ((hr.nid?_iff uuid other).mp hnid))
    · have hstep := Nid.toInt_of_next? hnext
      rw [Int32.lt_iff_toInt_lt]
      omega
  · rw [if_neg hother] at hne
    exact Int32.lt_of_lt_of_le (hr.lt_next other hne) h.next_le

/-- A registry after some public ids were resolved. -/
def Resolved : Registry → Registry → Prop :=
  Relation.ReflTransGen fun r r' => ∃ id nid, r.resolve id = .ok (nid, r')

/-- However much is resolved, the counter stays ahead. -/
theorem Resolved.ahead (h : Resolved r r') (hr : r.Ahead) : r'.Ahead := by
  induction h with
  | refl => exact hr
  | tail _ hstep ih =>
    obtain ⟨id, nid, hresolve⟩ := hstep
    exact (resolves_of_resolve hresolve).ahead ih

/-- If the counter is ahead, a nid that is handed out names nothing yet. -/
theorem Ahead.publicId?_eq_none (h : r.Ahead) (hunknown : r.nidFor? id = none)
    (hresolve : r.resolve id = .ok (nid, r')) : r.publicId? nid = none := by
  rw [← aliases_eq_nil_iff]
  by_contra hne
  obtain ⟨⟨uuid, huuid, hnid⟩, -⟩ | ⟨-, rfl, -⟩ := (resolves_of_resolve hresolve).origin
  · rw [nidFor?_eq_none_iff.mp hunknown uuid huuid] at hnid
    cases hnid
  · exact Int32.lt_irrefl (h.lt_next r.next hne)

/-- A table that is accepted records a counter and entries, and describes the registry in which a
UUID has the nid of the last entry that lists it, and a nid the public id of its last entry. This
registry obeys the rules, and no nid is listed twice, exactly if the entries agree with each other
and with the counter. If it obeys the rules, no nid that is handed out later names a component
already. -/
theorem decoded_sound_iff {table : Bytes} (h : decodeTable table = .ok r) :
    (∃ entries, Records table r.next entries) ∧
    ∀ entries, Records table r.next entries →
      (∀ uuid, r.nid? uuid = lastTold (Entry.nidOf? · uuid) entries) ∧
      (∀ nid, r.publicId? nid = lastTold (Entry.idOf? · nid) entries) ∧
      (r.Sound ∧ (entries.map Entry.nid).Nodup ↔ Orderly r.next entries) ∧
      (r.Sound → ∀ r' id nid r'', Resolved r r' → r'.nidFor? id = none →
        r'.resolve id = .ok (nid, r'') → r'.publicId? nid = none) := by
  constructor
  · obtain ⟨next, entries, hrecords, rfl⟩ := decodeTable_eq_ok_iff.mp h
    rw [next_restoreAll]
    exact ⟨entries, hrecords⟩
  · intro entries hrecords
    have hdescribes := hrecords.describes h
    exact ⟨hdescribes.nid?_eq, hdescribes.publicId?_eq, hdescribes.sound_iff,
      fun hsound r' id nid r'' hresolved => (hresolved.ahead hsound.ahead).publicId?_eq_none⟩

/-- A table that leaves out a nid, and repeats an alias within an entry, is in order. -/
theorem decoded_sound_gap :
    ∃ (table : Bytes) (r : Registry) (entries : List Entry),
      decodeTable table = .ok r ∧ Records table r.next entries ∧
      entries.map (fun entry => (entry.nid, entry.uuids)) =
        [(Nid.first, [⟨1⟩, ⟨2⟩, ⟨1⟩]), (⟨-2147483645⟩, [⟨3⟩])] ∧
      r.Sound ∧ r.nid? ⟨2⟩ = some Nid.first ∧
      ∀ id nid r', r.nidFor? id = none → r.resolve id = .ok (nid, r') →
        r.publicId? nid = none := by
  obtain ⟨entries, hshape, horderly, hcount, haliases, hnid⟩ : ∃ entries : List Entry,
      entries.map (fun entry => (entry.nid, entry.uuids)) =
        [(Nid.first, [⟨1⟩, ⟨2⟩, ⟨1⟩]), (⟨-2147483645⟩, [⟨3⟩])] ∧
      Orderly ⟨-2147483644⟩ entries ∧ entries.length < UInt32.size ∧
      (∀ entry ∈ entries, entry.uuids.length < UInt32.size) ∧
      lastTold (Entry.nidOf? · ⟨2⟩) entries = some Nid.first := by
    refine ⟨[⟨Nid.first, [⟨1⟩, ⟨2⟩, ⟨1⟩], ⟨[⟨1⟩, ⟨2⟩], ?_, ?_, ?_⟩, rfl⟩,
      ⟨⟨-2147483645⟩, [⟨3⟩], ⟨[⟨3⟩], ?_, ?_, ?_⟩, rfl⟩], rfl, ⟨?_, ?_, ?_⟩, ?_, ?_, rfl⟩ <;> decide
  have hrecords : Records (tableOf ⟨-2147483644⟩ entries) ⟨-2147483644⟩ entries :=
    ⟨hcount, haliases, rfl⟩
  have hdecode := decodeTable_eq_ok_iff.mpr ⟨_, entries, hrecords, rfl⟩
  obtain ⟨-, hall⟩ := decoded_sound_iff hdecode
  rw [next_restoreAll] at hall
  obtain ⟨hnids, -, hiff, hlater⟩ := hall entries hrecords
  have hsound := (hiff.mpr horderly).1
  exact ⟨_, _, entries, hdecode, by rwa [next_restoreAll], hshape, hsound, (hnids ⟨2⟩).trans hnid,
    fun id nid r' => hlater hsound _ id nid r' .refl⟩

/-- A table may list a UUID under two nids, of which the first one keeps it in its public id while
the UUID leads to the second one. It may also record a counter that is too low, and then a new
component gets a nid that names another one. -/
theorem decoded_not_sound :
    (∃ (entries : List Entry) (r : Registry) (id : PublicId),
      entries.map (fun entry => (entry.nid, entry.uuids)) =
        [(Nid.first, [⟨1⟩, ⟨2⟩]), (⟨-2147483646⟩, [⟨2⟩])] ∧
      decodeTable (tableOf ⟨-2147483645⟩ entries) = .ok r ∧
      r.publicId? Nid.first = some id ∧ (⟨2⟩ : Uuid) ∈ id.uuids ∧
      r.nid? ⟨2⟩ = some ⟨-2147483646⟩ ∧ ¬ r.Sound) ∧
    ∃ (entries : List Entry) (r r' : Registry) (id : PublicId),
      entries.map (fun entry => (entry.nid, entry.uuids)) = [(Nid.first, [⟨1⟩])] ∧
      decodeTable (tableOf Nid.first entries) = .ok r ∧ id.uuids = [⟨2⟩] ∧
      r.nidFor? id = none ∧ r.resolve id = .ok (Nid.first, r') ∧
      (r.publicId? Nid.first).isSome ∧ ¬ r.Sound := by
  constructor
  · obtain ⟨entries, hshape, hcount, haliases, hid, hnid⟩ : ∃ entries : List Entry,
        entries.map (fun entry => (entry.nid, entry.uuids)) =
          [(Nid.first, [⟨1⟩, ⟨2⟩]), (⟨-2147483646⟩, [⟨2⟩])] ∧
        entries.length < UInt32.size ∧ (∀ entry ∈ entries, entry.uuids.length < UInt32.size) ∧
        (∃ id, lastTold (Entry.idOf? · Nid.first) entries = some id ∧
          (⟨2⟩ : Uuid) ∈ id.uuids) ∧
        lastTold (Entry.nidOf? · ⟨2⟩) entries = some ⟨-2147483646⟩ := by
      refine ⟨[⟨Nid.first, [⟨1⟩, ⟨2⟩], ⟨[⟨1⟩, ⟨2⟩], ?_, ?_, ?_⟩, rfl⟩,
        ⟨⟨-2147483646⟩, [⟨2⟩], ⟨[⟨2⟩], ?_, ?_, ?_⟩, rfl⟩], rfl, ?_, ?_, ⟨_, rfl, ?_⟩, rfl⟩ <;>
        decide
    obtain ⟨id, hid, hmem⟩ := hid
    have hdescribes : Describes entries (restoreAll entries { empty with next := ⟨-2147483645⟩ }) :=
      describes_restoreAll
    rw [← hdescribes.publicId?_eq] at hid
    rw [← hdescribes.nid?_eq] at hnid
    refine ⟨entries, _, id, hshape, decodeTable_eq_ok_iff.mpr ⟨_, _, ⟨hcount, haliases, rfl⟩, rfl⟩,
      hid, hmem, hnid, fun hsound => ?_⟩
    have hfirst := (hsound.nid?_iff ⟨2⟩ Nid.first).mpr ⟨id, hid, hmem⟩
    rw [hnid] at hfirst
    exact absurd hfirst (by decide)
  · obtain ⟨entries, r, r', id, hshape, hrecords, hr, hid, hunknown, hresolve, hsome⟩ :
        ∃ (entries : List Entry) (r r' : Registry) (id : PublicId),
          entries.map (fun entry => (entry.nid, entry.uuids)) = [(Nid.first, [⟨1⟩])] ∧
          Records (tableOf Nid.first entries) Nid.first entries ∧
          r = restoreAll entries { empty with next := Nid.first } ∧ id.uuids = [⟨2⟩] ∧
          r.nidFor? id = none ∧ r.resolve id = .ok (Nid.first, r') ∧
          (r.publicId? Nid.first).isSome := by
      refine ⟨[⟨Nid.first, [⟨1⟩], ⟨[⟨1⟩], ?_, ?_, ?_⟩, rfl⟩], _, _, ⟨[⟨2⟩], ?_, ?_, ?_⟩, rfl,
        ⟨?_, ?_, rfl⟩, rfl, rfl, ?_, rfl, ?_⟩ <;> decide +kernel
    refine ⟨entries, r, r', id, hshape, decodeTable_eq_ok_iff.mpr ⟨_, _, hrecords, hr⟩, hid,
      hunknown, hresolve, hsome, fun hsound => ?_⟩
    have hnone := hsound.ahead.publicId?_eq_none hunknown hresolve
    rw [hnone] at hsome
    cases hsome

end Chronicle.Registry
