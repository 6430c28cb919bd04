import Chronicle.Proofs.Spine.Operations
import Chronicle.Proofs.Spine.Shown

/-!
# Payloads in memory

A payload that lies in memory is found there, whatever the medium does: look-ups answer it without
an access, and a merge goes on from it. It stays in memory until a merge for its nid replaces it.
-/

namespace Chronicle.SpineStore

variable {s t u : SpineStore} {nid other : Nid} {payload held next : Bytes}
  {combine : Bytes → Bytes → Bytes}

/-- A payload lies in memory. -/
def Holds (s : SpineStore) (nid : Nid) (payload : Bytes) : Prop :=
  ∃ place spine, s.place? nid = some place ∧ s.loaded[place.index]? = some spine ∧
    spine.payload? place.slot = some payload

/-- No two payloads lie in memory for one nid. -/
theorem Holds.unique {other : Bytes} (h : s.Holds nid payload) (h' : s.Holds nid other) :
    payload = other := by
  obtain ⟨place, spine, hplace, hloaded, hpayload⟩ := h
  obtain ⟨place', spine', hplace', hloaded', hpayload'⟩ := h'
  obtain rfl := Option.some.inj (hplace.symm.trans hplace')
  obtain rfl := Option.some.inj (hloaded.symm.trans hloaded')
  exact Option.some.inj (hpayload.symm.trans hpayload')

/-- A look-up of a nid is not turned away at the directory. -/
def Reaches (s : SpineStore) (nid : Nid) : Prop :=
  ∃ place, s.place? nid = some place ∧ s.reaches place.index = true

/-- Nothing that was in memory or reached is lost. -/
structure Retains (s t : SpineStore) : Prop where
  spineSize_eq : t.spineSize = s.spineSize
  maxAttempts_eq : t.maxAttempts = s.maxAttempts
  extent_le : s.extent ≤ t.extent
  persisted_eq : t.persisted = s.persisted
  loaded : ∀ (index : Nat) (spine : Spine), s.loaded[index]? = some spine →
    t.loaded[index]? = some spine

private theorem retains_refl (s : SpineStore) : Retains s s :=
  ⟨rfl, rfl, Nat.le_refl _, rfl, fun _ _ => id⟩

/-- Nothing is lost when a spine comes into memory. -/
theorem retains_touch (s : SpineStore) (index : Nat) : Retains s (touch index s).2 := by
  cases hloaded : s.loaded[index]? with
  | some spine =>
    rw [touch_of_loaded hloaded]
    exact retains_refl s
  | none =>
    obtain ⟨spine, medium, permits, htouch, -⟩ := touch_of_not_loaded hloaded
    rw [htouch]
    refine ⟨rfl, rfl, Nat.le_max_left _ _, rfl, fun other found hfound => ?_⟩
    have hne : other ≠ index := by
      rintro rfl
      rw [hloaded] at hfound
      cases hfound
    simp only [getElem?_insert_index, if_neg hne, hfound]

/-- Nothing is lost when a nid is looked up. -/
theorem retains_lookup (s : SpineStore) (nid : Nid) : Retains s (lookup nid s).2 := by
  rw [lookup]
  split
  · exact retains_refl s
  · split
    · exact retains_touch s _
    · exact retains_refl s

/-- A payload that is in memory stays there. -/
theorem Retains.holds (h : Retains s t) (hheld : s.Holds nid payload) : t.Holds nid payload := by
  obtain ⟨place, spine, hplace, hloaded, hpayload⟩ := hheld
  exact ⟨place, spine, (place?_congr h.spineSize_eq nid).trans hplace, h.loaded _ _ hloaded,
    hpayload⟩

private theorem reaches_mono (hsize : t.spineSize = s.spineSize) (hextent : s.extent ≤ t.extent)
    (hpersisted : t.persisted = s.persisted) (h : s.Reaches nid) : t.Reaches nid := by
  obtain ⟨place, hplace, hreaches⟩ := h
  refine ⟨place, (place?_congr hsize nid).trans hplace, ?_⟩
  rw [reaches_iff] at hreaches ⊢
  rw [hpersisted]
  exact hreaches.imp_left fun hlt => Nat.lt_of_lt_of_le hlt hextent

/-- A nid that is reached stays so. -/
theorem Retains.reaches (h : Retains s t) (hreaches : s.Reaches nid) : t.Reaches nid :=
  reaches_mono h.spineSize_eq h.extent_le h.persisted_eq hreaches

/-! ## Look-ups -/

/-- A payload in memory is answered without a change of the store. -/
theorem Holds.lookup (h : s.Holds nid payload) (hreaches : s.Reaches nid) :
    SpineStore.lookup nid s = (some payload, s) := by
  obtain ⟨place, spine, hplace, hloaded, hpayload⟩ := h
  obtain ⟨target, htarget, hreached⟩ := hreaches
  obtain rfl : target = place := Option.some.inj (htarget.symm.trans hplace)
  simp only [SpineStore.lookup, hplace, hreached, if_true, touch_of_loaded hloaded, hpayload]

/-- A nid whose payload was found is reached. -/
theorem reaches_of_lookup (h : (SpineStore.lookup nid s).1 = some payload) : s.Reaches nid := by
  obtain ⟨place, -, hplace, -⟩ := loaded_of_lookup h
  refine ⟨place, hplace, ?_⟩
  cases hreached : s.reaches place.index with
  | true => rfl
  | false =>
    simp only [SpineStore.lookup, hplace, hreached, Bool.false_eq_true, if_false] at h
    cases h

/-- A payload that is answered lies in memory from then on. -/
theorem holds_of_lookup (h : SpineStore.lookup nid s = (some payload, t)) :
    t.Holds nid payload ∧ t.Reaches nid := by
  have hanswer : (SpineStore.lookup nid s).1 = some payload := congrArg Prod.fst h
  have hretains := retains_lookup s nid
  have hreaches := reaches_of_lookup hanswer
  obtain ⟨place, spine, hplace, hloaded, hpayload⟩ := loaded_of_lookup hanswer
  rw [h] at hretains hloaded
  exact ⟨⟨place, spine, (place?_congr hretains.spineSize_eq nid).trans hplace, hloaded, hpayload⟩,
    hretains.reaches hreaches⟩

/-! ## Merges -/

/-- A merge that succeeds brings a spine into memory and installs a payload there. -/
theorem merge_eq_ok (h : merge nid payload combine s = .ok next t) :
    ∃ place, s.place? nid = some place ∧ 0 < s.maxAttempts ∧
      next = merged combine payload ((touch place.index s).1.payload? place.slot) ∧
      t = { (touch place.index s).2 with
        loaded := (touch place.index s).2.loaded.insert place.index
          ((touch place.index s).1.install place.slot next) } := by
  cases hplace : s.place? nid with
  | none =>
    simp only [merge, mergeM, hplace] at h
    cases h
  | some place =>
    have hattempts := (retains_touch s place.index).maxAttempts_eq
    rcases Nat.eq_zero_or_pos s.maxAttempts with hzero | hpos
    · have hrun := attempt_merge_of_zero hplace (hattempts.trans hzero) payload combine
      cases h.symm.trans (Store.eq_of_attempt_error hrun)
    · have hrun := attempt_merge hplace (by rwa [hattempts]) rfl payload combine
      cases h.symm.trans (Store.eq_of_attempt_ok hrun)
      exact ⟨place, rfl, hpos, rfl, rfl⟩

/-- What a merge that succeeded did: it went on from the payload that was in memory, if one was, and
every other payload stayed. -/
structure Merges (s : SpineStore) (nid : Nid) (payload : Bytes) (combine : Bytes → Bytes → Bytes)
    (next : Bytes) (t : SpineStore) : Prop where
  attempts_pos : 0 < s.maxAttempts
  maxAttempts_eq : t.maxAttempts = s.maxAttempts
  next_eq : ∃ existing?, next = merged combine payload existing? ∧
    ∀ held, s.Holds nid held → existing? = some held
  holds : t.Holds nid next
  others : ∀ other held, other ≠ nid → s.Holds other held → t.Holds other held
  reaches : ∀ other, s.Reaches other → t.Reaches other

/-- A merge that succeeded did what `Merges` says. -/
theorem merges_of_ok (h : merge nid payload combine s = .ok next t) :
    Merges s nid payload combine next t := by
  obtain ⟨place, hplace, hpos, hnext, rfl⟩ := merge_eq_ok h
  have hretains := retains_touch s place.index
  have hplace' := (place?_congr hretains.spineSize_eq nid).trans hplace
  refine ⟨hpos, hretains.maxAttempts_eq, ⟨_, hnext, fun held hheld => ?_⟩, ?_,
    fun other held hne hheld => ?_, fun other hreaches => ?_⟩
  · obtain ⟨target, spine, htarget, hloaded, hpayload⟩ := hheld
    obtain rfl : target = place := Option.some.inj (htarget.symm.trans hplace)
    rw [touch_of_loaded hloaded]
    exact hpayload
  · refine ⟨place, _, hplace', Std.ExtTreeMap.getElem?_insert_self, ?_⟩
    rw [Spine.payload?_install, if_pos rfl]
  · obtain ⟨target, spine, htarget, hloaded, hpayload⟩ := hretains.holds hheld
    by_cases hindex : target.index = place.index
    · have hslot : place.slot ≠ target.slot := by
        intro hslot
        obtain rfl : target = place := by
          cases target
          cases place
          cases hindex
          cases hslot
          rfl
        exact hne (place?_inj htarget hplace')
      have hspine : (touch place.index s).1 = spine :=
        Option.some.inj ((loaded_touch s place.index).symm.trans (hindex ▸ hloaded))
      refine ⟨target, _, htarget, by rw [getElem?_insert_index, if_pos hindex], ?_⟩
      rw [Spine.payload?_install, if_neg hslot, hspine, hpayload]
    · refine ⟨target, spine, htarget, ?_, hpayload⟩
      rw [getElem?_insert_index, if_neg hindex, hloaded]
  · exact reaches_mono (s := (touch place.index s).2) rfl (Nat.le_refl _) rfl
      (hretains.reaches hreaches)

/-! ## Stores with the same payloads -/

/-- Two stores differ in nothing but the spines in memory, and hold the same payloads there. -/
structure SamePayloads (s t : SpineStore) : Prop where
  frame : t = { s with loaded := t.loaded }
  payloads : ∀ index : Nat,
    t.loaded[index]?.map Spine.payload? = s.loaded[index]?.map Spine.payload?

namespace SamePayloads

/-- Every store holds its own payloads. -/
theorem refl (s : SpineStore) : SamePayloads s s :=
  ⟨rfl, fun _ => rfl⟩

/-- Stores with the payloads of one in between have the same. -/
theorem trans (h : SamePayloads s t) (h' : SamePayloads t u) : SamePayloads s u := by
  refine ⟨?_, fun index => (h'.payloads index).trans (h.payloads index)⟩
  rw [h'.frame, h.frame]

/-- Stores with the same payloads try merges as often. -/
theorem maxAttempts_eq (h : SamePayloads s t) : t.maxAttempts = s.maxAttempts := by
  rw [h.frame]

/-- Stores with the same payloads have spines of one size. -/
theorem spineSize_eq (h : SamePayloads s t) : t.spineSize = s.spineSize := by
  rw [h.frame]

/-- Stores with the same payloads reach the same spines. -/
theorem reaches_eq (h : SamePayloads s t) (index : Nat) : t.reaches index = s.reaches index := by
  rw [h.frame]
  rfl

/-- What one of two stores with the same payloads holds the other does too. -/
theorem holds (h : SamePayloads s t) (hheld : s.Holds nid payload) : t.Holds nid payload := by
  obtain ⟨place, spine, hplace, hloaded, hpayload⟩ := hheld
  have hsame := h.payloads place.index
  rw [hloaded, Option.map_some, Option.map_eq_some_iff] at hsame
  obtain ⟨other, hother, heq⟩ := hsame
  exact ⟨place, other, (place?_congr h.spineSize_eq nid).trans hplace, hother, heq ▸ hpayload⟩

/-- A nid that is reached in one of two stores with the same payloads is so in the other. -/
theorem reaches (h : SamePayloads s t) (hreaches : s.Reaches nid) : t.Reaches nid := by
  obtain ⟨place, hplace, hreached⟩ := hreaches
  exact ⟨place, (place?_congr h.spineSize_eq nid).trans hplace, (h.reaches_eq _).trans hreached⟩

/-- The same payloads come into memory. -/
theorem touch (h : SamePayloads s t) (index : Nat) :
    (SpineStore.touch index t).1.payload? = (SpineStore.touch index s).1.payload? := by
  have hsame := h.payloads index
  cases hloaded : s.loaded[index]? with
  | some spine =>
    rw [hloaded, Option.map_some, Option.map_eq_some_iff] at hsame
    obtain ⟨other, hother, heq⟩ := hsame
    rw [touch_of_loaded hother, touch_of_loaded hloaded, heq]
  | none =>
    rw [hloaded, Option.map_none, Option.map_eq_none_iff] at hsame
    have hload := congrArg Prod.fst (load_congr s index s.extent t.loaded)
    rw [← h.frame] at hload
    simp only [SpineStore.touch, hsame, hloaded]
    exact congrArg Spine.payload? hload

/-- The same payload is answered for every nid. -/
theorem lookup (h : SamePayloads s t) (nid : Nid) :
    (SpineStore.lookup nid t).1 = (SpineStore.lookup nid s).1 := by
  cases hplace : s.place? nid with
  | none =>
    simp only [SpineStore.lookup, hplace, (place?_congr h.spineSize_eq nid).trans hplace]
  | some place =>
    simp only [SpineStore.lookup, hplace, (place?_congr h.spineSize_eq nid).trans hplace,
      h.reaches_eq]
    split
    · exact congrFun (h.touch place.index) place.slot
    · rfl

end SamePayloads

/-- Merging what leaves a payload in memory as it is succeeds and changes no payload. -/
theorem Holds.exists_merge (h : s.Holds nid held) (hattempts : 0 < s.maxAttempts)
    (hcombine : combine held payload = held) :
    ∃ t, merge nid payload combine s = .ok held t ∧ SamePayloads s t := by
  obtain ⟨place, spine, hplace, hloaded, hpayload⟩ := h
  have htouch := touch_of_loaded hloaded
  have hexisting : (touch place.index s).1.payload? place.slot = some held := by
    rw [htouch]
    exact hpayload
  have hrun := Store.eq_of_attempt_ok
    (attempt_merge hplace (by rwa [htouch]) hexisting payload combine)
  have hnext : merged combine payload (some held) = held := hcombine
  rw [hnext, htouch] at hrun
  refine ⟨_, hrun, rfl, fun index => ?_⟩
  rw [getElem?_insert_index]
  split
  · rename_i hindex
    rw [hindex, hloaded, Option.map_some, Option.map_some, Spine.payload?_install_self hpayload]
  · rfl

end Chronicle.SpineStore
