import Chronicle.Proofs.Spine.Capacity
import Chronicle.Proofs.Spine.Durability
import Chronicle.Proofs.Spine.Operations

/-!
# What a write stores

After a write that succeeded, the medium stores what the store holds, as long as signed words count
the slots of a spine. With more slots, the blob of every spine that is written is refused from then
on, and its payloads are lost; blobs that were only read go on to describe their spines. So the
medium stores what the store holds in two cases and no others: signed words count the slots, or
there was nothing to write since the blobs were read.
-/

namespace Chronicle

namespace SpineStore

variable {s t : SpineStore} {index : Nat}

/-- Every spine in memory could be loaded, and blobs can hold its payloads. -/
structure Storable (s : SpineStore) : Prop where
  clean : ∀ (index : Nat) (spine : Spine), s.loaded[index]? = some spine → spine.degraded = false
  nonempty : ∀ (index : Nat) (spine : Spine), s.loaded[index]? = some spine → ∀ slot payload,
    spine.payload? slot = some payload → payload ≠ []
  short : s.Short

/-- A store is storable if the spines it lists are. -/
theorem storable_of_toList {s : SpineStore}
    (h : ∀ entry ∈ s.loaded.toList, entry.2.degraded = false ∧ ∀ cell ∈ entry.2.slots.toList,
      cell.2.payload ≠ [] ∧ cell.2.payload.length < Wire.signedLimit) : s.Storable := by
  have hslots {index : Nat} {spine : Spine} (hspine : s.loaded[index]? = some spine) {slot : Nat}
      {payload : Bytes} (hpayload : spine.payload? slot = some payload) :
      payload ≠ [] ∧ payload.length < Wire.signedLimit := by
    rw [Spine.payload?, Option.map_eq_some_iff] at hpayload
    obtain ⟨cell, hcell, rfl⟩ := hpayload
    exact (h (index, spine) (Std.ExtTreeMap.mem_toList_iff_getElem?_eq_some.mpr hspine)).2
      (slot, cell) (Std.ExtTreeMap.mem_toList_iff_getElem?_eq_some.mpr hcell)
  exact ⟨fun index spine hspine =>
      (h (index, spine) (Std.ExtTreeMap.mem_toList_iff_getElem?_eq_some.mpr hspine)).1,
    fun _ _ hspine _ _ hpayload => (hslots hspine hpayload).1,
    fun _ _ hspine _ _ hpayload => (hslots hspine hpayload).2⟩

/-- A write keeps a storable store so. -/
theorem Kept.storable (h : Kept s t) (hs : s.Storable) : t.Storable := by
  have hbefore (index : Nat) (spine : Spine) (hspine : t.loaded[index]? = some spine) :
      ∃ found : Spine, s.loaded[index]? = some found ∧ spine.degraded = found.degraded ∧
        ∀ slot, spine.payload? slot = found.payload? slot := by
    cases hloaded : s.loaded[index]? with
    | none =>
      rw [(h.unloaded index hloaded).1] at hspine
      cases hspine
    | some found =>
      obtain hsame | hsame := h.loaded index found hloaded
      · rw [hsame] at hspine
        cases hspine
        exact ⟨_, rfl, rfl, fun _ => rfl⟩
      · rw [hsame] at hspine
        cases hspine
        exact ⟨_, rfl, rfl, fun _ => rfl⟩
  refine ⟨fun index spine hspine => ?_, fun index spine hspine slot payload hpayload => ?_,
    h.short hs.short⟩
  · obtain ⟨found, hfound, hdegraded, -⟩ := hbefore index spine hspine
    exact hdegraded.trans (hs.clean index found hfound)
  · obtain ⟨found, hfound, -, hslots⟩ := hbefore index spine hspine
    exact hs.nonempty index found hfound slot payload ((hslots slot).symm.trans hpayload)

/-- Writing keeps what a spine in memory holds. -/
theorem Kept.held?_eq {place : Place} {spine : Spine} (h : Kept s t)
    (hspine : s.loaded[place.index]? = some spine) :
    t.held? place = spine.payload? place.slot := by
  obtain hsame | hsame := h.loaded place.index spine hspine
  · exact held?_of_loaded hsame
  · rw [held?_of_loaded hsame]
    rfl

/-- If the medium backs a store whose payloads blobs can hold, it stores what the store holds. -/
theorem Backs.stored_eq_held (h : Backs s.medium s) (hs : s.Storable) (nid : Nid) :
    s.medium.stored s.spineSize nid = (s.place? nid).bind s.held? := by
  cases hplace : s.place? nid with
  | none => exact stored_of_place?_none hplace
  | some place =>
    rw [stored_of_place? hplace, Option.bind_some]
    cases hloaded : s.loaded[place.index]? with
    | none => exact (held?_of_not_loaded hloaded).symm
    | some spine =>
      have hreflects := h.loaded _ spine hloaded (hs.clean _ spine hloaded)
      rw [held?_of_loaded hloaded]
      refine (hreflects.payload?_eq place.slot).trans ?_
      cases hpayload : spine.payload? place.slot with
      | none => rfl
      | some payload =>
        simp [Option.filter, hs.nonempty _ spine hloaded place.slot payload hpayload]

/-- No spine in memory has changes, and each is the one that its blob describes. -/
def Described (s : SpineStore) : Prop :=
  ∀ (index : Nat) (spine : Spine), s.loaded[index]? = some spine →
    spine.changed = false ∧ s.medium.Reflects s.spineSize index spine

/-- A spine in memory has changes, or was written to its blob. -/
def Authored (s : SpineStore) (index : Nat) : Prop :=
  ∃ spine : Spine, s.loaded[index]? = some spine ∧
    (spine.changed = true ∨ s.medium.backing.blob? index = some (spine.encode s.spineSize))

/-- Where every spine is what its blob describes, those that are not degraded are. -/
theorem Described.faithful (h : s.Described) : s.Faithful :=
  fun index spine hspine _ _ => (h index spine hspine).2

/-- A spine that is not what its blob describes has changes or was written, for the sake of some
payload. -/
theorem Traced.authored (h : s.Traced) (hs : s.Storable) (hnot : ¬ s.Described) :
    ∃ (index : Nat) (spine : Spine), s.loaded[index]? = some spine ∧ s.Filled index spine ∧
      s.Authored index := by
  rw [Described] at hnot
  push Not at hnot
  obtain ⟨index, spine, hspine, hother⟩ := hnot
  cases hchanged : spine.changed with
  | true =>
    exact ⟨index, spine, hspine, h.filled index spine hspine hchanged, spine, hspine,
      Or.inl hchanged⟩
  | false =>
    obtain hreflects | ⟨hblob, hfilled⟩ :=
      (h.origin index spine hspine hchanged (hs.clean index spine hspine)).reflects_or
    · exact absurd hreflects (hother hchanged)
    · exact ⟨index, spine, hspine, hfilled, spine, hspine, Or.inr hblob⟩

/-- An access that leaves every blob as it is changes nothing about what blobs describe. -/
theorem described_accessed {medium : Medium}
    (hread : ∀ other, medium.backing.readSpine other = s.medium.backing.readSpine other) :
    Described { s with medium } ↔ s.Described := by
  simp only [Described, Medium.Reflects, Backing.blob?, hread]

/-- As long as no spine has changes, there is nothing to write. -/
theorem Described.flushed (h : s.Described) (htransition : Transition s (.flushed index) t) :
    t.Described := by
  cases htransition with
  | idle => exact h
  | written hloaded hchanged =>
    rw [(h _ _ hloaded).1] at hchanged
    cases hchanged
  | failed hread =>
    intro other spine hspine
    obtain ⟨hchanged, hreflects⟩ := h other spine hspine
    exact ⟨hchanged, hreflects.congr (by simp only [Backing.blob?, hread])⟩

/-- Once a spine has changes, it goes on to have them or is written to its blob. -/
theorem Authored.flushed {other : Nat} (h : s.Authored other)
    (htransition : Transition s (.flushed index) t) : t.Authored other := by
  obtain ⟨spine, hspine, hauthored⟩ := h
  cases htransition with
  | idle => exact ⟨spine, hspine, hauthored⟩
  | @written _ found medium permits hloaded hchanged hdegraded hwrite =>
    by_cases hother : other = index
    · subst hother
      obtain rfl := Option.some.inj (hspine.symm.trans hloaded)
      refine ⟨{ spine with changed := false }, ?_, Or.inr ?_⟩
      · simp only [getElem?_insert_index, if_true]
      · simp only
        rw [Backing.blob?_of_writeSpine hwrite, if_pos rfl]
        rfl
    · refine ⟨spine, ?_, hauthored.imp_right fun hblob => ?_⟩
      · simp only [getElem?_insert_index, if_neg hother]
        exact hspine
      · simp only
        rw [Backing.blob?_of_writeSpine hwrite, if_neg hother]
        exact hblob
  | failed hread =>
    refine ⟨spine, hspine, hauthored.imp_right fun hblob => ?_⟩
    simp only [Backing.blob?, hread]
    exact hblob

/-- With more slots than signed words count, a spine that had changes before a write that succeeded
or was written earlier is lost: the medium stores nothing for any nid of it. -/
theorem stored_of_authored {n : Nat} {nid : Nid} {place : Place} (hwrite : write s = .ok n t)
    (hshort : s.Short) (hlarge : Wire.signedLimit ≤ t.spineSize) (h : s.Authored place.index)
    (hplace : t.place? nid = some place) : t.medium.stored t.spineSize nid = none := by
  obtain ⟨hkept, hclean⟩ := kept_of_write hwrite
  obtain ⟨spine, hspine, hauthored⟩ : t.Authored place.index :=
    (write_induction (fun _ _ _ h htransition _ => Authored.flushed h htransition) h).of_ok hwrite
  have hblob := hauthored.resolve_left (by simp [hclean _ spine hspine])
  rw [stored_of_place? hplace]
  cases hdecode : Spine.decode t.spineSize (spine.encode t.spineSize) with
  | error error => exact Medium.payload?_of_error hblob hdecode
  | ok decoded =>
    obtain ⟨hcounted, -⟩ := (Spine.exists_decode_encode_iff
      (hkept.short hshort _ spine hspine)).mp ⟨decoded, hdecode⟩
    exact absurd hcounted (Nat.not_lt.mpr hlarge)

/-- After a write that succeeded, the medium stores what the store holds exactly if signed words
count the slots of a spine or there was nothing to write. -/
theorem stored_eq_held_iff {n : Nat} (hwrite : write s = .ok n t) (hs : s.Storable)
    (htraced : s.Traced) (htraced' : t.Traced) (hcoherent : t.Coherent) :
    (∀ nid, t.medium.stored t.spineSize nid = (t.place? nid).bind t.held?) ↔
      t.spineSize < Wire.signedLimit ∨ s.Described := by
  obtain ⟨hkept, -⟩ := kept_of_write hwrite
  have hafter := hkept.storable hs
  constructor
  · intro hstores
    by_contra hnot
    rw [not_or, Nat.not_lt] at hnot
    -- A payload is held where something was written, and is lost there.
    obtain ⟨index, spine, hspine, ⟨nid, place, hplace, rfl, hpayload⟩, hauthored⟩ :=
      htraced.authored hs hnot.2
    obtain ⟨payload, hpayload⟩ := Option.isSome_iff_exists.mp hpayload
    have hplace' : t.place? nid = some place := by
      rw [← hplace, place?, place?, hkept.spineSize_eq]
    have hheld := hstores nid
    rw [stored_of_authored hwrite hs.short hnot.1 hauthored hplace', hplace', Option.bind_some,
      hkept.held?_eq hspine, hpayload] at hheld
    cases hheld
  · intro hcases nid
    have hfaithful : t.Faithful := by
      obtain hsize | hdescribed := hcases
      · exact htraced'.faithful hcoherent hsize hafter.short
      · exact Described.faithful ((write_induction (fun _ _ _ h htransition _ =>
          Described.flushed h htransition) hdescribed).of_ok hwrite)
    exact (backs_of_write hwrite htraced' hfaithful).1.stored_eq_held hafter nid

end SpineStore

end Chronicle
