import Chronicle.Proofs.Spine.ReadOnly

/-!
# Durability

A spine in memory that has no changes and could be loaded is the one that its blob describes. So
once all changes are written, the medium alone determines what a store answers: another store that
is opened over it finds every payload again, except that it takes an empty payload for none.
-/

namespace Chronicle

/-- The blob at an index describes a spine: there is none, or it holds the payloads that are not
empty. -/
def Medium.Reflects (size : Nat) (medium : Medium) (index : Nat) (spine : Spine) : Prop :=
  (medium.backing.blob? index = none ∧ ∀ slot, spine.payload? slot = none) ∨
    ∃ blob decoded, medium.backing.blob? index = some blob ∧ Spine.decode size blob = .ok decoded ∧
      ∀ slot, decoded.payload? slot = (spine.payload? slot).filter (· ≠ [])

/-- A blob that describes a spine holds its payloads, less the empty ones. -/
theorem Medium.Reflects.payload?_eq {size index : Nat} {medium : Medium} {spine : Spine}
    (h : medium.Reflects size index spine) (slot : Nat) :
    medium.payload? size { index, slot } = (spine.payload? slot).filter (· ≠ []) := by
  obtain ⟨hblob, hempty⟩ | ⟨blob, decoded, hblob, hdecode, hslots⟩ := h
  · rw [Medium.payload?_of_none hblob, hempty]
    rfl
  · rw [Medium.payload?_of_ok hblob hdecode, hslots]

/-- A spine is described by every medium with the same blob. -/
theorem Medium.Reflects.congr {size index : Nat} {medium next : Medium} {spine : Spine}
    (h : medium.Reflects size index spine)
    (hblob : next.backing.blob? index = medium.backing.blob? index) :
    next.Reflects size index spine := by
  rwa [Reflects, hblob]

namespace SpineStore

variable {s s' : SpineStore} {event : Event} {index : Nat}

/-- Signed words hold the length of every payload in memory. -/
def Short (s : SpineStore) : Prop :=
  ∀ (index : Nat) (spine : Spine), s.loaded[index]? = some spine → spine.Short

/-- Every spine in memory without changes that could be loaded is what its blob describes. -/
def Faithful (s : SpineStore) : Prop :=
  ∀ (index : Nat) (spine : Spine), s.loaded[index]? = some spine → spine.changed = false →
    spine.degraded = false → s.medium.Reflects s.spineSize index spine

/-- The spine of a nid is in memory, but its blob could not be loaded. -/
def DegradedAt (s : SpineStore) (nid : Nid) : Prop :=
  ∃ (place : Place) (spine : Spine), s.place? nid = some place ∧
    s.loaded[place.index]? = some spine ∧ spine.degraded = true

/-- A nid has its payload in a spine. -/
def Filled (s : SpineStore) (index : Nat) (spine : Spine) : Prop :=
  ∃ (nid : Nid) (place : Place), s.place? nid = some place ∧ place.index = index ∧
    (spine.payload? place.slot).isSome

/-- Where a spine in memory without changes has its payloads from: there were none, its blob was
read, or it was written to its blob, for the sake of some payload. -/
inductive Origin (s : SpineStore) (index : Nat) (spine : Spine) : Prop
  | fresh (hblob : s.medium.backing.blob? index = none)
      (hempty : ∀ slot, spine.payload? slot = none)
  | read {blob : Bytes} {decoded : Spine} (hblob : s.medium.backing.blob? index = some blob)
      (hdecode : Spine.decode s.spineSize blob = .ok decoded)
      (hslots : ∀ slot, decoded.payload? slot = spine.payload? slot)
  | written (hblob : s.medium.backing.blob? index = some (spine.encode s.spineSize))
      (hfilled : s.Filled index spine)

/-- What every moment knows of the spines in memory: those without changes have an origin, and those
with changes a payload. -/
structure Traced (s : SpineStore) : Prop where
  origin : ∀ (index : Nat) (spine : Spine), s.loaded[index]? = some spine →
    spine.changed = false → spine.degraded = false → s.Origin index spine
  filled : ∀ (index : Nat) (spine : Spine), s.loaded[index]? = some spine →
    spine.changed = true → s.Filled index spine
  degraded : ∀ (index : Nat) (spine : Spine), s.loaded[index]? = some spine →
    spine.changed = false → spine.degraded = true → ∀ slot, spine.payload? slot = none

/-- A spine is the one that its blob describes, unless its blob is one that the store has written. -/
theorem Origin.reflects_or {spine : Spine} (h : s.Origin index spine) :
    s.medium.Reflects s.spineSize index spine ∨
      s.medium.backing.blob? index = some (spine.encode s.spineSize) ∧ s.Filled index spine := by
  cases h with
  | fresh hblob hempty => exact Or.inl (Or.inl ⟨hblob, hempty⟩)
  | @read blob decoded hblob hdecode hslots =>
    refine Or.inl (Or.inr ⟨blob, decoded, hblob, hdecode, fun slot => ?_⟩)
    rw [← hslots]
    cases hpayload : decoded.payload? slot with
    | none => rfl
    | some payload => simp [Option.filter, Spine.ne_nil_of_decode hdecode hpayload]
  | written hblob hfilled => exact Or.inr ⟨hblob, hfilled⟩

/-- As long as blobs can hold them, the payloads of a spine are the ones that its blob describes. -/
theorem Origin.reflects {spine : Spine} (h : s.Origin index spine)
    (hsize : s.spineSize < Wire.signedLimit) (hshort : spine.Short)
    (hwithin : spine.Within s.spineSize) :
    s.medium.Reflects s.spineSize index spine := by
  obtain hreflects | ⟨hblob, -⟩ := h.reflects_or
  · exact hreflects
  · obtain ⟨decoded, hdecode, hslots⟩ := Spine.exists_decode_encode hsize (Nat.le_refl _) hshort
    exact Or.inr ⟨_, decoded, hblob, hdecode,
      fun slot => (hslots slot).trans (hwithin.payload?_eq slot)⟩

/-- As long as signed words count the slots, a store whose spines have an origin is faithful. -/
theorem Traced.faithful (h : s.Traced) (hcoherent : s.Coherent)
    (hsize : s.spineSize < Wire.signedLimit) (hshort : s.Short) : s.Faithful := by
  intro index spine hloaded hchanged hdegraded
  exact (h.origin index spine hloaded hchanged hdegraded).reflects hsize
    (hshort index spine hloaded) (hcoherent.within index spine hloaded)

/-- Where nids have their payloads depends on the number of slots only. -/
theorem Filled.congr {spine : Spine} (h : s.Filled index spine)
    (hsize : s'.spineSize = s.spineSize) : s'.Filled index spine := by
  obtain ⟨nid, place, hplace, hindex, hpayload⟩ := h
  exact ⟨nid, place, by rw [← hplace, place?, place?, hsize], hindex, hpayload⟩

/-- An origin depends on the blob at the index only. -/
theorem Origin.congr {spine : Spine} (h : s.Origin index spine)
    (hblob : s'.medium.backing.blob? index = s.medium.backing.blob? index)
    (hsize : s'.spineSize = s.spineSize) : s'.Origin index spine := by
  cases h with
  | fresh hnone hempty => exact .fresh (hblob.trans hnone) hempty
  | read hread hdecode hslots => exact .read (hblob.trans hread) (by rwa [hsize]) hslots
  | written hwritten hfilled => exact .written (by rw [hblob, hwritten, hsize]) (hfilled.congr hsize)

/-- A spine that comes into memory, is changed there or is written keeps what is known of the
others, if these have the blobs that they had. -/
theorem Traced.insert {medium : Medium} {permits : Permits} {extent : Nat} {spine : Spine}
    (h : s.Traced)
    (horigin : spine.changed = false → spine.degraded = false →
      Origin { s with medium } index spine)
    (hfilled : spine.changed = true → s.Filled index spine)
    (hdegraded : spine.changed = false → spine.degraded = true → ∀ slot, spine.payload? slot = none)
    (hblob : ∀ other ≠ index, medium.backing.blob? other = s.medium.backing.blob? other) :
    Traced { s with medium, permits, extent, loaded := s.loaded.insert index spine } := by
  constructor
  · intro other found hfound hchanged hclean
    rw [getElem?_insert_index] at hfound
    split at hfound
    · rename_i heq
      cases hfound
      subst heq
      exact (horigin hchanged hclean).congr rfl rfl
    · rename_i hne
      exact (h.origin other found hfound hchanged hclean).congr (hblob other hne) rfl
  · intro other found hfound hchanged
    rw [getElem?_insert_index] at hfound
    split at hfound
    · rename_i heq
      cases hfound
      subst heq
      exact (hfilled hchanged).congr rfl
    · exact (h.filled other found hfound hchanged).congr rfl
  · intro other found hfound hchanged hbad
    rw [getElem?_insert_index] at hfound
    split at hfound
    · cases hfound
      exact hdegraded hchanged hbad
    · exact h.degraded other found hfound hchanged hbad

/-- A spine has an origin from the moment on at which it comes into memory. -/
theorem Loads.origin {spine : Spine} (h : Loads s index spine) (hcoherent : s.Coherent)
    (hloaded : s.loaded[index]? = none) (haddressable : s.Addressable index)
    (hdegraded : spine.degraded = false) : s.Origin index spine := by
  cases h with
  | unlisted hlisted =>
    exact .fresh (hcoherent.unlisted index hlisted hloaded haddressable) Spine.payload?_empty
  | absent _ hread => exact .fresh (by rw [Backing.blob?, hread]; rfl) Spine.payload?_empty
  | decoded _ hread hdecode =>
    exact .read (Backing.blob?_eq_some_iff.mpr hread) hdecode fun _ => rfl
  | refused => cases hdegraded

/-- A spine that could not be loaded comes into memory without a payload. -/
theorem Loads.payload?_of_degraded {spine : Spine} (h : Loads s index spine)
    (hdegraded : spine.degraded = true) (slot : Nat) : spine.payload? slot = none := by
  cases h with
  | unlisted => exact Spine.payload?_empty slot
  | absent => exact Spine.payload?_empty slot
  | decoded _ _ hdecode =>
    rw [Spine.degraded_of_decode hdecode] at hdegraded
    cases hdegraded
  | refused => exact Spine.payload?_unreadable slot

/-- An access that leaves every blob as it is changes no origin. -/
theorem Traced.accessed {medium : Medium} {permits : Permits} (h : s.Traced)
    (hread : ∀ other, medium.backing.readSpine other = s.medium.backing.readSpine other) :
    Traced { s with medium, permits } := by
  refine ⟨fun index spine hloaded hchanged hclean => ?_, h.filled, h.degraded⟩
  exact (h.origin index spine hloaded hchanged hclean).congr
    (by simp only [Backing.blob?, hread]) rfl

/-- Every event keeps the traces. -/
theorem Traced.transition (h : s.Traced) (hcoherent : s.Coherent)
    (htransition : Transition s event s') : s'.Traced := by
  cases htransition with
  | idle => exact h
  | touched hloaded hindex hloads hbacking hready =>
    have haddressable := hcoherent.addressable_of_reaches hindex
    refine h.insert (fun _ hclean => ?_) (fun hchanged => ?_)
      (fun _ => hloads.payload?_of_degraded) fun _ _ => by rw [hbacking]
    · exact (hloads.origin hcoherent hloaded haddressable hclean).congr (by simp only [hbacking]) rfl
    · rw [hloads.unchanged] at hchanged
      cases hchanged
  | @installed nid payload place spine hplace hloaded =>
    refine h.insert (fun hchanged => by cases hchanged) (fun _ => ?_)
      (fun hchanged => by cases hchanged) fun _ _ => rfl
    exact ⟨nid, place, hplace, rfl, by rw [Spine.payload?_install, if_pos rfl]; rfl⟩
  | @written index spine medium permits hloaded hchanged hdegraded hwrite hready =>
    refine h.insert (fun _ _ => .written ?_ ?_) (fun hchanged => by cases hchanged)
      (fun _ hbad => ?_) fun other hne => ?_
    · simp only
      rw [Backing.blob?_of_writeSpine hwrite, if_pos rfl]
      rfl
    · exact (h.filled index spine hloaded hchanged).congr rfl
    · rw [hdegraded] at hbad
      cases hbad
    · rw [Backing.blob?_of_writeSpine hwrite, if_neg hne]
  | failed hread => exact h.accessed hread

/-- From the opening on, whatever happens, a store obeys the rules and is traced. -/
theorem traced_after {medium : Medium} {indices : List Nat} {size permits attempts : Nat}
    (hsize : 0 < size) (hlisting : (Medium.spineIndices medium).1 = .ok indices)
    (events : List Event) :
    ((ofMedium medium size permits attempts).after events).Coherent ∧
      ((ofMedium medium size permits attempts).after events).Traced := by
  refine run_induction (P := fun _ s => s.Traced) hsize hlisting ?_ ?_ events
  · rw [ofMedium_eq hlisting]
    constructor
    · intro index spine hloaded
      simp at hloaded
    · intro index spine hloaded
      simp at hloaded
    · intro index spine hloaded
      simp at hloaded
  · intro _ s s' event _ hcoherent htraced htransition
    exact htraced.transition hcoherent htransition

/-! ## What a write leaves -/

/-- What writing some spines keeps of a store. -/
structure Kept (s s' : SpineStore) : Prop where
  spineSize_eq : s'.spineSize = s.spineSize
  persisted_eq : s'.persisted = s.persisted
  extent_eq : s'.extent = s.extent
  loaded : ∀ (index : Nat) (spine : Spine), s.loaded[index]? = some spine →
    s'.loaded[index]? = some spine ∨ s'.loaded[index]? = some { spine with changed := false }
  unloaded : ∀ index, s.loaded[index]? = none →
    s'.loaded[index]? = none ∧
      s'.medium.backing.readSpine index = s.medium.backing.readSpine index

private theorem Kept.refl (s : SpineStore) : Kept s s :=
  ⟨rfl, rfl, rfl, fun _ _ h => Or.inl h, fun _ h => ⟨h, rfl⟩⟩

private theorem Kept.trans {middle : SpineStore} (h : Kept s middle) (h' : Kept middle s') :
    Kept s s' := by
  refine ⟨h'.spineSize_eq.trans h.spineSize_eq, h'.persisted_eq.trans h.persisted_eq,
    h'.extent_eq.trans h.extent_eq, fun index spine hloaded => ?_, fun index hloaded => ?_⟩
  · obtain hsame | hclean := h.loaded index spine hloaded
    · exact h'.loaded index spine hsame
    · obtain hkept | hkept := h'.loaded index _ hclean
      · exact Or.inr hkept
      · exact Or.inr hkept
  · obtain ⟨hmiddle, hread⟩ := h.unloaded index hloaded
    obtain ⟨hnext, hread'⟩ := h'.unloaded index hmiddle
    exact ⟨hnext, hread'.trans hread⟩

/-- Writing one spine clears a mark or leaves all of them. Only without a failure it leaves no
change in the spine. -/
theorem Flushes.kept {p p' : Progress} (h : Flushes s index p p' s') :
    Kept s s' ∧ (p'.failure = none → p.failure = none ∧
      ∀ (spine : Spine), s'.loaded[index]? = some spine → spine.changed = false) := by
  cases h with
  | absent hloaded =>
    refine ⟨Kept.refl s, fun h => ⟨h, fun spine hspine => ?_⟩⟩
    rw [hloaded] at hspine
    cases hspine
  | unchanged hloaded hchanged =>
    refine ⟨Kept.refl s, fun h => ⟨h, fun spine hspine => ?_⟩⟩
    rw [hloaded] at hspine
    cases hspine
    exact hchanged
  | degraded => exact ⟨Kept.refl s, fun h => by simp [Progress.fail] at h⟩
  | @written spine medium permits hloaded hchanged hdegraded hwrite hready =>
    refine ⟨⟨rfl, rfl, rfl, fun other found hfound => ?_, fun other hother => ?_⟩,
      fun h => ⟨h, fun found hfound => ?_⟩⟩
    · simp only [getElem?_insert_index]
      split
      · rename_i heq
        rw [heq, hloaded, Option.some.injEq] at hfound
        rw [hfound]
        exact Or.inr rfl
      · exact Or.inl hfound
    · have hne : other ≠ index := by
        rintro rfl
        rw [hloaded] at hother
        cases hother
      simp only [getElem?_insert_index, if_neg hne]
      exact ⟨hother, Backing.readSpine_other hwrite (Or.inl hne)⟩
    · rw [getElem?_insert_index, if_pos rfl] at hfound
      cases hfound
      rfl
  | failed hread hready =>
    exact ⟨⟨rfl, rfl, rfl, fun _ _ h => Or.inl h, fun other h => ⟨h, hread other⟩⟩,
      fun h => by simp [Progress.fail] at h⟩

private theorem Kept.changed_eq_false {spine : Spine} (h : Kept s s')
    (hclean : ∀ (spine : Spine), s.loaded[index]? = some spine → spine.changed = false)
    (hspine : s'.loaded[index]? = some spine) : spine.changed = false := by
  cases hloaded : s.loaded[index]? with
  | none =>
    rw [(h.unloaded index hloaded).1] at hspine
    cases hspine
  | some found =>
    obtain hsame | hsame := h.loaded index found hloaded
    · rw [hsame] at hspine
      cases hspine
      exact hclean _ hloaded
    · rw [hsame] at hspine
      cases hspine
      rfl

/-- Writing spines keeps what `Kept` lists, and without a failure none of them has changes left. -/
theorem writeAll_kept (indices : List Nat) (p : Progress) (s : SpineStore) :
    Kept s (writeAll indices p s).2 ∧ ((writeAll indices p s).1.failure = none → p.failure = none ∧
      ∀ index ∈ indices, ∀ (spine : Spine), (writeAll indices p s).2.loaded[index]? = some spine →
        spine.changed = false) := by
  induction indices generalizing p s with
  | nil => exact ⟨Kept.refl s, fun h => ⟨h, by simp⟩⟩
  | cons index indices ih =>
    obtain ⟨hone, hclean⟩ := (writeOne_flushes s index p).kept
    obtain ⟨hrest, hrestClean⟩ := ih (writeOne index p s).1 (writeOne index p s).2
    refine ⟨hone.trans hrest, fun h => ?_⟩
    obtain ⟨hfirst, hothers⟩ := hrestClean h
    obtain ⟨hfailure, hindex⟩ := hclean hfirst
    refine ⟨hfailure, fun other hother spine hspine => ?_⟩
    obtain rfl | hother := List.mem_cons.mp hother
    · exact hrest.changed_eq_false hindex hspine
    · exact hothers other hother spine hspine

/-- After a write that succeeded, no spine in memory has changes. -/
theorem kept_of_write {n : Nat} (h : write s = .ok n s') :
    Kept s s' ∧ ∀ (index : Nat) (spine : Spine), s'.loaded[index]? = some spine →
      spine.changed = false := by
  obtain ⟨hkept, hclean⟩ := writeAll_kept s.loaded.keys {} s
  rw [write] at h
  split at h
  · rename_i written _ hrun
    cases h
    rw [hrun] at hkept hclean
    refine ⟨hkept, fun index spine hspine => (hclean rfl).2 index ?_ spine hspine⟩
    rw [Std.ExtTreeMap.mem_keys, Std.ExtTreeMap.mem_iff_isSome_getElem?]
    cases hloaded : s.loaded[index]? with
    | none =>
      rw [(hkept.unloaded index hloaded).1] at hspine
      cases hspine
    | some _ => rfl
  · cases h

/-- What is written stays short. -/
theorem Kept.short (h : Kept s s') (hshort : s.Short) : s'.Short := by
  intro index spine hspine
  cases hloaded : s.loaded[index]? with
  | none =>
    rw [(h.unloaded index hloaded).1] at hspine
    cases hspine
  | some found =>
    have hfound := hshort index found hloaded
    obtain hsame | hsame := h.loaded index found hloaded
    · rw [hsame] at hspine
      cases hspine
      exact hfound
    · rw [hsame] at hspine
      cases hspine
      exact hfound

/-- A medium backs a store: it describes the spines in memory, and has the same blobs for the
others. -/
structure Backs (medium : Medium) (s : SpineStore) : Prop where
  loaded : ∀ (index : Nat) (spine : Spine), s.loaded[index]? = some spine →
    spine.degraded = false → medium.Reflects s.spineSize index spine
  degraded : ∀ (index : Nat) (spine : Spine), s.loaded[index]? = some spine →
    spine.degraded = true → ∀ slot, spine.payload? slot = none
  unloaded : ∀ index, s.loaded[index]? = none →
    medium.backing.blob? index = s.medium.backing.blob? index

/-- What a store answers is what a medium that backs it stores, except that no answer may mean that
the spine could not be loaded. -/
theorem Backs.stored_eq {medium : Medium} (h : Backs medium s) (hcoherent : s.Coherent)
    (hsize : s.spineSize < Wire.signedLimit) (nid : Nid) :
    medium.stored s.spineSize nid = (lookup nid s).1.filter (· ≠ []) ∨
      (lookup nid s).1 = none ∧ (lookup nid s).2.DegradedAt nid := by
  cases hplace : s.place? nid with
  | none =>
    left
    simp only [lookup, hplace, stored_of_place?_none hplace]
    rfl
  | some place =>
    rw [stored_of_place? hplace]
    by_cases hreaches : s.reaches place.index = true
    · cases hloaded : s.loaded[place.index]? with
      | some spine =>
        simp only [lookup, hplace, hreaches, if_true, touch_of_loaded hloaded]
        cases hdegraded : spine.degraded with
        | false => exact Or.inl ((h.loaded _ spine hloaded hdegraded).payload?_eq place.slot)
        | true =>
          exact Or.inr ⟨h.degraded _ spine hloaded hdegraded place.slot, place, spine, hplace,
            hloaded, hdegraded⟩
      | none =>
        obtain ⟨spine, after, permits, htouch, hloads, -, -⟩ := touch_of_not_loaded hloaded
        simp only [lookup, hplace, hreaches, if_true, htouch]
        cases hdegraded : spine.degraded with
        | false =>
          have horigin := hloads.origin hcoherent hloaded
            (hcoherent.addressable_of_reaches (Or.inr hreaches)) hdegraded
          have hreflects := horigin.reflects hsize hloads.short hloads.within
          exact Or.inl ((hreflects.congr (h.unloaded _ hloaded)).payload?_eq place.slot)
        | true =>
          refine Or.inr ⟨hloads.payload?_of_degraded hdegraded place.slot, place, spine, hplace,
            ?_, hdegraded⟩
          simp only [getElem?_insert_index, if_true]
    · left
      simp only [lookup, hplace, if_neg hreaches]
      obtain ⟨hloaded, hblob⟩ := hcoherent.of_not_reached hreaches (Or.inl (index_lt hplace))
      rw [Medium.payload?_of_none]
      · rfl
      · rw [h.unloaded _ hloaded, hblob]

/-- After a write that succeeded, the medium backs the store as it is and as it was before. -/
theorem backs_of_write {n : Nat} (h : write s = .ok n s') (htraced : s'.Traced)
    (hfaithful : s'.Faithful) : Backs s'.medium s' ∧ Backs s'.medium s := by
  obtain ⟨hkept, hclean⟩ := kept_of_write h
  constructor
  · refine ⟨fun index spine hloaded hdegraded => ?_, fun index spine hloaded hdegraded => ?_,
      fun _ _ => rfl⟩
    · exact hfaithful index spine hloaded (hclean index spine hloaded) hdegraded
    · exact htraced.degraded index spine hloaded (hclean index spine hloaded) hdegraded
  · refine ⟨fun index spine hloaded hdegraded => ?_, fun index spine hloaded hdegraded => ?_,
      fun index hloaded => ?_⟩
    · rw [← hkept.spineSize_eq]
      obtain hsame | hsame := hkept.loaded index spine hloaded
      · exact hfaithful index _ hsame (hclean index _ hsame) hdegraded
      · exact hfaithful index { spine with changed := false } hsame rfl hdegraded
    · obtain hsame | hsame := hkept.loaded index spine hloaded
      · exact htraced.degraded index _ hsame (hclean index _ hsame) hdegraded
      · exact htraced.degraded index { spine with changed := false } hsame rfl hdegraded
    · rw [Backing.blob?, (hkept.unloaded index hloaded).2, Backing.blob?]

/-- A store was opened, with spines of the same size, over what another one left on its medium.
Nothing was merged into it, and none of its accesses fails. -/
inductive Reopens (s : SpineStore) : SpineStore → Prop
  | session {medium : Medium} {permits : Nat} (attempts : Nat) {α : Type} {x : StateM SpineStore α}
      (hbacking : medium.backing = s.medium.backing) (hhealthy : medium.Healthy)
      (hpermits : 0 < permits) (hx : Activity (fun _ => False) x) :
      Reopens s (x (ofMedium medium s.spineSize permits attempts)).2

/-- A reopened store answers what its medium has stored. -/
theorem Reopens.lookup_eq {reopened : SpineStore} (h : Reopens s reopened) (hsize : 0 < s.spineSize)
    (nid : Nid) : (lookup nid reopened).1 = s.medium.stored s.spineSize nid := by
  obtain @⟨medium, permits, attempts, _, x, hbacking, hhealthy, hpermits, hx⟩ := h
  rw [← Medium.stored_congr hbacking]
  exact (lookup_of_readOnly hsize medium permits attempts hx nid).resolve_right
    fun h => h.1 ⟨hhealthy, hpermits⟩

/-- What a store answers is found again in one that is opened over a medium that backs it, except
that an empty payload is not. Nothing else is found, unless the old one could not load the spine. -/
theorem Backs.reopened {next old reopened : SpineStore} (h : Backs next.medium old)
    (hcoherent : old.Coherent) (hpositive : 0 < next.spineSize)
    (hsize : old.spineSize < Wire.signedLimit) (heq : next.spineSize = old.spineSize)
    (hreopens : Reopens next reopened) (nid : Nid) :
    (∀ payload, payload ≠ [] → (lookup nid old).1 = some payload →
      (lookup nid reopened).1 = some payload) ∧
    ((lookup nid old).1 = none ∨ (lookup nid old).1 = some [] →
      ¬ (lookup nid old).2.DegradedAt nid → (lookup nid reopened).1 = none) := by
  rw [hreopens.lookup_eq hpositive, heq]
  obtain hstored | ⟨hnone, hdegraded⟩ := h.stored_eq hcoherent hsize nid
  · rw [hstored]
    constructor
    · intro payload hpayload hanswer
      rw [hanswer]
      simp [Option.filter, hpayload]
    · rintro (hanswer | hanswer) -
      · rw [hanswer]
        rfl
      · rw [hanswer]
        rfl
  · constructor
    · intro payload _ hanswer
      rw [hanswer] at hnone
      cases hnone
    · exact fun _ hclean => absurd hdegraded hclean

/-- At every moment of every activity, each spine in memory without changes that could be loaded is
the one that its blob describes, as long as signed words hold the lengths. So after a write that
succeeds, a store that is opened over the medium answers each payload that the old store answers
before or after the write, unless it is empty, and nothing where the old one has none in a spine
that it could load. -/
theorem faithful_and_durable {addressed : Nid → Prop} {α : Type} {x : StateM SpineStore α}
    {medium : Medium} {indices : List Nat} {size permits attempts : Nat} (hpositive : 0 < size)
    (hsize : size < Wire.signedLimit) (hlisting : (Medium.spineIndices medium).1 = .ok indices)
    (hx : Activity addressed x) :
    ∃ events, (x (ofMedium medium size permits attempts)).2 =
        (ofMedium medium size permits attempts).after events ∧
      ∀ moment s, moment <+: events → s = (ofMedium medium size permits attempts).after moment →
        s.Short → s.Faithful ∧
          ∀ n next old reopened nid, write s = .ok n next → (old = s ∨ old = next) →
            Reopens next reopened →
            (∀ payload, payload ≠ [] → (lookup nid old).1 = some payload →
              (lookup nid reopened).1 = some payload) ∧
            ((lookup nid old).1 = none ∨ (lookup nid old).1 = some [] →
              ¬ (lookup nid old).2.DegradedAt nid → (lookup nid reopened).1 = none) := by
  obtain ⟨events, -, hevents⟩ := hx.acts (ofMedium medium size permits attempts)
  refine ⟨events, hevents, fun moment s _ hs hshort => ?_⟩
  have hspine (past : List Event) :
      ((ofMedium medium size permits attempts).after past).spineSize = size := by
    rw [spineSize_after, ofMedium_eq hlisting]
  obtain ⟨hcoherent, htraced⟩ : s.Coherent ∧ s.Traced := hs ▸ traced_after hpositive hlisting moment
  have hsizeS : s.spineSize = size := hs ▸ hspine moment
  refine ⟨htraced.faithful hcoherent (by omega) hshort,
    fun n next old reopened nid hwrite hold hreopens => ?_⟩
  -- Writing is itself a run of events, so the rules hold after it as well.
  have hacts : ActsFrom addressed (Store.attempt write) s := acts_write s
  obtain ⟨flushes, -, hflushes⟩ := hacts
  have hnext : next = (ofMedium medium size permits attempts).after (moment ++ flushes) := by
    rw [after_append, ← hs, ← hflushes, Store.attempt, hwrite]
  obtain ⟨hcoherent', htraced'⟩ : next.Coherent ∧ next.Traced :=
    hnext ▸ traced_after hpositive hlisting _
  have hsizeNext : next.spineSize = size := hnext ▸ hspine _
  have hshort' := (kept_of_write hwrite).1.short hshort
  obtain ⟨hbacksNext, hbacksS⟩ := backs_of_write hwrite htraced'
    (htraced'.faithful hcoherent' (by omega) hshort')
  obtain rfl | rfl := hold
  · exact hbacksS.reopened hcoherent (by omega) (by omega) (by omega) hreopens nid
  · exact hbacksNext.reopened hcoherent' (by omega) (by omega) rfl hreopens nid

/-- A medium in memory whose first write of a spine fails. -/
def failingOnce : Medium :=
  { Medium.inMemory with faults := { spineWrites := .first 1 } }

/-- A payload whose first write fails is found again after the second one. -/
theorem durable_failingOnce :
    let s := (replaceAndWrite ⟨-2147483643⟩ [0xaa] (ofMedium failingOnce 4 4 (1 <<< 20))).2
    0 < 4 ∧ 4 < Wire.signedLimit ∧ (Medium.spineIndices failingOnce).1 = .ok [] ∧
      Activity (· = ⟨-2147483643⟩) (replaceAndWrite ⟨-2147483643⟩ [0xaa]) ∧ s.Short ∧
      s.hasChanges = true ∧ ∃ next, write s = .ok 1 next ∧ ∀ reopened, Reopens next reopened →
        (lookup ⟨-2147483643⟩ reopened).1 = some [0xaa] := by
  intro s
  have hx := activity_replaceAndWrite ⟨-2147483643⟩ [0xaa]
  have hloaded : s.loaded = (∅ : Std.ExtTreeMap Nat Spine).insert 1
      (Spine.empty.install 0 [0xaa]) := rfl
  have hshort : s.Short := by
    intro index spine hspine
    rw [hloaded, getElem?_insert_index] at hspine
    split at hspine
    · cases hspine
      exact Spine.short_empty.install (by decide)
    · simp at hspine
  have hwrite : ∃ next, write s = .ok 1 next := ⟨_, rfl⟩
  obtain ⟨next, hwrite⟩ := hwrite
  obtain ⟨events, hevents, hmoments⟩ :=
    @faithful_and_durable _ _ _ failingOnce [] 4 4 (1 <<< 20) (by decide) (by decide) rfl hx
  obtain ⟨-, hdurable⟩ := hmoments events s (List.prefix_refl events) hevents hshort
  exact ⟨by decide, by decide, rfl, hx, hshort, by decide +kernel, next, hwrite,
    fun reopened hreopens =>
      (hdurable 1 next s reopened ⟨-2147483643⟩ hwrite (Or.inl rfl) hreopens).1 [0xaa] (by decide)
        (by decide +kernel)⟩

end SpineStore

end Chronicle
