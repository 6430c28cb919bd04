import Chronicle.Proofs.Spine.Service

/-!
# What a store shows

A store shows a content if look-ups answer by it, in whatever order they are made. A spine that could
not be read, or that was never listed, is shown without payloads, so this says less than that the
store serves what its medium holds. A merge changes what is shown for its nid and for no other.
-/

namespace Chronicle.SpineStore

variable {s a b : SpineStore} {content : Nid → Option Bytes} {nid : Nid} {place : Place}
  {index : Nat}

/-- The store after some nids were looked up. -/
def afterLookups (s : SpineStore) (nids : List Nid) : SpineStore :=
  nids.foldl (fun s nid => (lookup nid s).2) s

/-- Whatever was looked up before, every look-up answers by one content. -/
def Shows (s : SpineStore) (content : Nid → Option Bytes) : Prop :=
  ∀ nids nid, (lookup nid (s.afterLookups nids)).1 = content nid

/-- A look-up answers by the content that is shown, which it leaves. -/
theorem Shows.lookup (h : s.Shows content) (nid : Nid) :
    ∃ s', lookup nid s = (content nid, s') ∧ s'.Shows content := by
  have hanswer : (SpineStore.lookup nid s).1 = content nid := h [] nid
  have hlater : (SpineStore.lookup nid s).2.Shows content := fun nids => h (nid :: nids)
  exact ⟨_, Prod.ext hanswer rfl, hlater⟩

/-- A store that shows a content shows what it answers now. -/
theorem Shows.now (h : s.Shows content) : s.Shows fun nid => (SpineStore.lookup nid s).1 :=
  fun nids nid => (h nids nid).trans (h [] nid).symm

/-- What is served is shown. -/
theorem Serves.shows (h : s.Serves content) : s.Shows content := by
  intro nids
  induction nids generalizing s with
  | nil =>
    intro nid
    obtain ⟨s', hlookup, -⟩ := h.lookup nid
    exact congrArg Prod.fst hlookup
  | cons first nids ih =>
    obtain ⟨s', hlookup, hserves⟩ := h.lookup first
    have hafter : s.afterLookups (first :: nids) = s'.afterLookups nids := by
      unfold afterLookups
      rw [List.foldl_cons, hlookup]
    rw [hafter]
    exact ih hserves

/-! ## Spines that are known -/

/-- Every spine in memory lies in the directory. -/
def Enclosed (s : SpineStore) : Prop :=
  ∀ index spine, s.loaded[index]? = some spine → index < s.extent

/-- A spine as far as it is known without a read: it is in memory, or was never listed. -/
def known? (s : SpineStore) (index : Nat) : Option Spine :=
  s.loaded[index]?.or (if s.persisted.contains index then none else some Spine.empty)

/-- A spine in memory is known. -/
theorem known?_of_loaded {spine : Spine} (h : s.loaded[index]? = some spine) :
    s.known? index = some spine := by
  rw [known?, h, Option.some_or]

/-- A spine is not known exactly if it was listed and is not in memory. -/
theorem known?_eq_none_iff :
    s.known? index = none ↔ s.loaded[index]? = none ∧ s.persisted.contains index = true := by
  unfold known?
  rw [Option.or_eq_none_iff]
  split
  · rename_i h
    simp [h]
  · rename_i h
    simp [h]

/-- Bringing a spine into memory reads nothing but the medium. -/
theorem load_congr (s : SpineStore) (index extent : Nat) (loaded : Std.ExtTreeMap Nat Spine) :
    load index { s with extent, loaded } =
      ((load index s).1, { (load index s).2 with extent, loaded }) := by
  obtain ⟨medium, size, attempts, permits, persisted, _, _⟩ := s
  unfold load underPermit
  simp only
  split
  · cases permits.acquire? with
    | none => rfl
    | some permits =>
      simp only
      generalize Medium.readSpine index medium = answer
      obtain ⟨_ | _ | blob, medium⟩ := answer
      · rfl
      · rfl
      · simp only
        cases Spine.decode size blob <;> rfl
  · rfl

/-- Two stores over the same medium, the second of which has some of the known spines changed. -/
structure Alike (change : Nat → Spine → Spine) (a b : SpineStore) : Prop where
  medium_eq : b.medium = a.medium
  permits_eq : b.permits = a.permits
  persisted_eq : b.persisted = a.persisted
  spineSize_eq : b.spineSize = a.spineSize
  attempts_eq : b.maxAttempts = a.maxAttempts
  known : ∀ index, b.known? index = (a.known? index).map (change index)
  unknown : ∀ index, a.known? index = none → change index = id
  enclosed_left : a.Enclosed
  enclosed_right : b.Enclosed

/-- A store is alike to itself with no spine changed. -/
theorem alike_self (h : s.Enclosed) : Alike (fun _ => id) s s where
  medium_eq := rfl
  permits_eq := rfl
  persisted_eq := rfl
  spineSize_eq := rfl
  attempts_eq := rfl
  known _ := by simp
  unknown _ _ := rfl
  enclosed_left := h
  enclosed_right := h

/-- A spine that comes into memory is entered in the directory. -/
theorem enclosed_insert (h : s.Enclosed) (index : Nat) (spine : Spine) :
    Enclosed { s with
      extent := max s.extent (index + 1), loaded := s.loaded.insert index spine } := by
  intro other found hfound
  change other < max s.extent (index + 1)
  rw [getElem?_insert_index] at hfound
  split at hfound
  · omega
  · have := h other found hfound
    omega

/-- A spine that comes into memory although it was known, or that is reached now, changes nothing
that is known. -/
theorem alike_touch_of_known {spine : Spine} (h : s.Enclosed) (hknown : s.known? index = some spine) :
    (touch index s).1 = spine ∧ Alike (fun _ => id) s (touch index s).2 := by
  cases hloaded : s.loaded[index]? with
  | some found =>
    rw [known?_of_loaded hloaded, Option.some.injEq] at hknown
    rw [touch_of_loaded hloaded]
    exact ⟨hknown, alike_self h⟩
  | none =>
    have hunlisted : s.persisted.contains index = false := by
      rw [← Bool.not_eq_true]
      intro hcontains
      rw [known?_eq_none_iff.mpr ⟨hloaded, hcontains⟩] at hknown
      cases hknown
    have hempty : spine = Spine.empty := by
      simpa [known?, hloaded, hunlisted] using hknown.symm
    have hrun : touch index s = (spine, { s with
        extent := max s.extent (index + 1), loaded := s.loaded.insert index spine }) := by
      simp only [touch, hloaded, load, hunlisted, Bool.false_eq_true, if_false, hempty]
    rw [hrun]
    refine ⟨rfl, { alike_self h with
      known := fun other => ?_, enclosed_right := enclosed_insert h index spine }⟩
    rw [Option.map_id]
    by_cases hother : other = index
    · rw [hother, hknown]
      exact known?_of_loaded Std.ExtTreeMap.getElem?_insert_self
    · simp only [known?, getElem?_insert_index, if_neg hother, id]

/-- What comes into memory although it was known makes no difference. -/
theorem Alike.revealed {a' b' : SpineStore} {change : Nat → Spine → Spine} (h : Alike change a b)
    (ha : Alike (fun _ => id) a a') (hb : Alike (fun _ => id) b b') : Alike change a' b' where
  medium_eq := by rw [ha.medium_eq, hb.medium_eq, h.medium_eq]
  permits_eq := by rw [ha.permits_eq, hb.permits_eq, h.permits_eq]
  persisted_eq := by rw [ha.persisted_eq, hb.persisted_eq, h.persisted_eq]
  spineSize_eq := by rw [ha.spineSize_eq, hb.spineSize_eq, h.spineSize_eq]
  attempts_eq := by rw [ha.attempts_eq, hb.attempts_eq, h.attempts_eq]
  known index := by rw [ha.known, hb.known, Option.map_id, h.known]; rfl
  unknown index hnone := h.unknown index (by rwa [ha.known, Option.map_id] at hnone)
  enclosed_left := ha.enclosed_right
  enclosed_right := hb.enclosed_right

/-- Stores that differ in known spines only stay so when a spine comes into memory in both. -/
theorem Alike.touch {change : Nat → Spine → Spine} (h : Alike change a b) (index : Nat) :
    (touch index b).1 = change index (touch index a).1 ∧
      Alike change (touch index a).2 (touch index b).2 := by
  cases hknown : a.known? index with
  | some spine =>
    have hknown' : b.known? index = some (change index spine) := by
      rw [h.known, hknown, Option.map_some]
    obtain ⟨hspine, ha⟩ := alike_touch_of_known h.enclosed_left hknown
    obtain ⟨hspine', hb⟩ := alike_touch_of_known h.enclosed_right hknown'
    exact ⟨by rw [hspine, hspine'], h.revealed ha hb⟩
  | none =>
    have hid := h.unknown index hknown
    have hknown' : b.known? index = none := by rw [h.known, hknown, Option.map_none]
    obtain ⟨hloaded, -⟩ := known?_eq_none_iff.mp hknown
    obtain ⟨hloaded', -⟩ := known?_eq_none_iff.mp hknown'
    obtain ⟨spine, medium, permits, hload, -⟩ := load_eq a index
    have hb : b = { a with extent := b.extent, loaded := b.loaded } := by
      obtain ⟨medium, size, attempts, permits, persisted, extent, loaded⟩ := b
      obtain ⟨rfl, rfl, rfl, rfl, rfl⟩ : medium = a.medium ∧ permits = a.permits ∧
          persisted = a.persisted ∧ size = a.spineSize ∧ attempts = a.maxAttempts :=
        ⟨h.medium_eq, h.permits_eq, h.persisted_eq, h.spineSize_eq, h.attempts_eq⟩
      rfl
    have hload' : load index b = (spine, { b with medium, permits }) := by
      rw [hb, load_congr, hload]
    have hrun : SpineStore.touch index a = (spine, { a with
        medium, permits, extent := max a.extent (index + 1)
        loaded := a.loaded.insert index spine }) := by
      simp only [SpineStore.touch, hloaded, hload]
    have hrun' : SpineStore.touch index b = (spine, { b with
        medium, permits, extent := max b.extent (index + 1)
        loaded := b.loaded.insert index spine }) := by
      simp only [SpineStore.touch, hloaded', hload']
    rw [hrun, hrun', hid]
    refine ⟨rfl, {
      medium_eq := rfl
      permits_eq := rfl
      persisted_eq := h.persisted_eq
      spineSize_eq := h.spineSize_eq
      attempts_eq := h.attempts_eq
      known := fun other => ?_
      unknown := fun other hother => h.unknown other ?_
      enclosed_left := enclosed_insert h.enclosed_left index spine
      enclosed_right := enclosed_insert h.enclosed_right index spine }⟩
    · by_cases hother : other = index
      · rw [hother, known?_of_loaded Std.ExtTreeMap.getElem?_insert_self,
          known?_of_loaded Std.ExtTreeMap.getElem?_insert_self, hid]
        rfl
      · have hkept := h.known other
        simp only [known?] at hkept
        simp only [known?, getElem?_insert_index, if_neg hother]
        exact hkept
    · obtain ⟨hnone, hcontains⟩ := known?_eq_none_iff.mp hother
      rw [getElem?_insert_index] at hnone
      split at hnone
      · cases hnone
      · exact known?_eq_none_iff.mpr ⟨hnone, hcontains⟩

/-! ## Look-ups -/

/-- A look-up in a known spine answers what that holds, and reveals nothing. -/
theorem lookup_of_known {spine : Spine} (h : s.Enclosed) (hplace : s.place? nid = some place)
    (hknown : s.known? place.index = some spine) :
    (lookup nid s).1 = spine.payload? place.slot ∧
      Alike (fun _ => id) s (lookup nid s).2 := by
  simp only [lookup, hplace]
  by_cases hreaches : s.reaches place.index = true
  · rw [if_pos hreaches]
    obtain ⟨hspine, halike⟩ := alike_touch_of_known h hknown
    exact ⟨congrArg (Spine.payload? · place.slot) hspine, halike⟩
  · rw [if_neg hreaches]
    refine ⟨?_, alike_self h⟩
    rw [reaches_iff, not_or] at hreaches
    have hloaded : s.loaded[place.index]? = none := by
      cases hloaded : s.loaded[place.index]? with
      | none => rfl
      | some found => exact absurd (h _ found hloaded) hreaches.1
    have hunlisted : s.persisted.contains place.index = false := by
      rw [← Bool.not_eq_true, ← Std.ExtTreeSet.mem_iff_contains]
      exact hreaches.2
    have hempty : spine = Spine.empty := by
      simpa [known?, hloaded, hunlisted] using hknown.symm
    rw [hempty, Spine.payload?_empty]

/-- A look-up in an unknown spine brings it into memory. -/
theorem lookup_of_unknown (hplace : s.place? nid = some place)
    (hunknown : s.known? place.index = none) :
    lookup nid s = ((touch place.index s).1.payload? place.slot, (touch place.index s).2) := by
  obtain ⟨-, hlisted⟩ := known?_eq_none_iff.mp hunknown
  simp only [lookup, hplace, reaches, hlisted, Bool.or_true, if_true]
  rfl

/-- Look-ups keep stores that differ in known spines so, and answer by these. -/
theorem Alike.lookup {change : Nat → Spine → Spine} (h : Alike change a b)
    (hplace : a.place? nid = some place) :
    (∃ spine, (lookup nid a).1 = spine.payload? place.slot ∧
      (lookup nid b).1 = (change place.index spine).payload? place.slot) ∧
    Alike change (lookup nid a).2 (lookup nid b).2 := by
  have hplace' : b.place? nid = some place := (place?_congr h.spineSize_eq nid).trans hplace
  cases hknown : a.known? place.index with
  | some spine =>
    have hknown' : b.known? place.index = some (change place.index spine) := by
      rw [h.known, hknown, Option.map_some]
    obtain ⟨hanswer, ha⟩ := lookup_of_known h.enclosed_left hplace hknown
    obtain ⟨hanswer', hb⟩ := lookup_of_known h.enclosed_right hplace' hknown'
    exact ⟨⟨spine, hanswer, hanswer'⟩, h.revealed ha hb⟩
  | none =>
    have hknown' : b.known? place.index = none := by rw [h.known, hknown, Option.map_none]
    obtain ⟨hspine, halike⟩ := h.touch place.index
    rw [lookup_of_unknown hplace hknown, lookup_of_unknown hplace' hknown']
    exact ⟨⟨_, rfl, by rw [hspine]⟩, halike⟩

/-- A look-up leaves the size of the spines. -/
theorem spineSize_lookup (s : SpineStore) (nid : Nid) :
    (lookup nid s).2.spineSize = s.spineSize := by
  cases hplace : s.place? nid with
  | none => simp only [lookup, hplace]
  | some place =>
    simp only [lookup, hplace]
    split
    · exact (transition_touch (Or.inl (index_lt hplace))).spineSize_eq
    · rfl

/-- A store that differs in known spines shows what these hold instead. -/
theorem Alike.shows {content' : Nid → Option Bytes} {change : Nat → Spine → Spine}
    (h : Alike change a b) (ha : a.Shows content)
    (hchange : ∀ nid place, a.place? nid = some place → ∀ spine : Spine,
      spine.payload? place.slot = content nid →
        (change place.index spine).payload? place.slot = content' nid)
    (hbelow : ∀ nid, a.place? nid = none → content' nid = content nid) : b.Shows content' := by
  intro nids
  induction nids generalizing a b with
  | nil =>
    intro nid
    have hanswer : (SpineStore.lookup nid a).1 = content nid := ha [] nid
    change (SpineStore.lookup nid b).1 = content' nid
    cases hplace : a.place? nid with
    | none =>
      have hplace' : b.place? nid = none := (place?_congr h.spineSize_eq nid).trans hplace
      simp only [SpineStore.lookup, hplace] at hanswer
      simp only [SpineStore.lookup, hplace', hbelow nid hplace, ← hanswer]
    | some place =>
      obtain ⟨⟨spine, hspine, hspine'⟩, -⟩ := h.lookup hplace
      rw [hspine']
      exact hchange nid place hplace spine (hspine.symm.trans hanswer)
  | cons first nids ih =>
    have hsize := spineSize_lookup a first
    have hplaces (nid : Nid) : (SpineStore.lookup first a).2.place? nid = a.place? nid :=
      place?_congr hsize nid
    obtain ⟨a', hlookup, hshows⟩ := ha.lookup first
    have halike : Alike change (SpineStore.lookup first a).2 (SpineStore.lookup first b).2 := by
      cases hplace : a.place? first with
      | none =>
        have hplace' : b.place? first = none := (place?_congr h.spineSize_eq first).trans hplace
        simpa only [SpineStore.lookup, hplace, hplace'] using h
      | some place => exact (h.lookup hplace).2
    rw [hlookup] at halike hplaces
    exact ih halike hshows (fun nid place hplace => hchange nid place (hplaces nid ▸ hplace))
      fun nid hplace => hbelow nid (hplaces nid ▸ hplace)

/-! ## Merges -/

/-- A store that shows a content and into which payloads can be merged. -/
structure Steady (s : SpineStore) (content : Nid → Option Bytes) : Prop where
  shows : s.Shows content
  enclosed : s.Enclosed
  size_pos : 0 < s.spineSize
  attempts_pos : 0 < s.maxAttempts

/-- A store that serves a content is steady. -/
theorem Serves.steady (h : s.Serves content) : s.Steady content :=
  ⟨h.shows, h.coherent.lt_extent, h.size_pos, h.attempts_pos⟩

/-- A spine that comes into memory changes nothing that is shown. -/
theorem Steady.touch (h : s.Steady content) (hplace : s.place? nid = some place) :
    (touch place.index s).2.Steady content := by
  cases hknown : s.known? place.index with
  | some spine =>
    obtain ⟨-, halike⟩ := alike_touch_of_known h.enclosed hknown
    refine ⟨halike.shows h.shows (fun _ _ _ _ hspine => hspine) fun _ _ => rfl,
      halike.enclosed_right, ?_, ?_⟩
    · rw [halike.spineSize_eq]
      exact h.size_pos
    · rw [halike.attempts_eq]
      exact h.attempts_pos
  | none =>
    have htransition := transition_touch (s := s) (Or.inl (index_lt hplace))
    obtain ⟨t, hlookup, hshows⟩ := h.shows.lookup nid
    rw [lookup_of_unknown hplace hknown] at hlookup
    rw [← show (SpineStore.touch place.index s).2 = t from congrArg Prod.snd hlookup] at hshows
    refine ⟨hshows, ?_, htransition.spineSize_eq ▸ h.size_pos,
      htransition.maxAttempts_eq ▸ h.attempts_pos⟩
    obtain ⟨hloaded, -⟩ := known?_eq_none_iff.mp hknown
    obtain ⟨spine, medium, permits, htouch, -⟩ := touch_of_not_loaded hloaded
    rw [htouch]
    exact enclosed_insert h.enclosed place.index spine

/-- A look-up answers by the content of a steady store, which stays steady. -/
theorem Steady.lookup (h : s.Steady content) (nid : Nid) :
    ∃ s', SpineStore.lookup nid s = (content nid, s') ∧ s'.Steady content := by
  have hanswer : (SpineStore.lookup nid s).1 = content nid := h.shows [] nid
  refine ⟨_, Prod.ext hanswer rfl, ?_⟩
  cases hplace : s.place? nid with
  | none => simpa only [SpineStore.lookup, hplace] using h
  | some place =>
    simp only [SpineStore.lookup, hplace]
    split
    · exact h.touch hplace
    · exact h

/-- A payload that is installed is shown for its nid and for no other. -/
theorem Steady.install {spine : Spine} (h : s.Steady content) (hplace : s.place? nid = some place)
    (hloaded : s.loaded[place.index]? = some spine) (payload : Bytes) :
    Steady { s with loaded := s.loaded.insert place.index (spine.install place.slot payload) }
      fun other => if other = nid then some payload else content other := by
  let change : Nat → Spine → Spine := fun index =>
    if index = place.index then fun spine => spine.install place.slot payload else id
  have henclosed : Enclosed
      { s with loaded := s.loaded.insert place.index (spine.install place.slot payload) } := by
    intro index found hfound
    rw [getElem?_insert_index] at hfound
    split at hfound
    · rename_i heq
      rw [heq]
      exact h.enclosed place.index spine hloaded
    · exact h.enclosed index found hfound
  have halike : Alike change s
      { s with loaded := s.loaded.insert place.index (spine.install place.slot payload) } := by
    refine { alike_self h.enclosed with
      known := fun index => ?_, unknown := fun index hnone => ?_, enclosed_right := henclosed }
    · by_cases hindex : index = place.index
      · subst hindex
        rw [known?_of_loaded hloaded, known?_of_loaded Std.ExtTreeMap.getElem?_insert_self]
        simp [change]
      · simp [known?, change, getElem?_insert_index, hindex]
    · have hindex : index ≠ place.index := by
        rintro rfl
        rw [known?_of_loaded hloaded] at hnone
        cases hnone
      exact if_neg hindex
  refine ⟨halike.shows h.shows (fun other target htarget found hfound => ?_) fun other hother => ?_,
    henclosed, h.size_pos, h.attempts_pos⟩
  · have hsame : other = nid ↔ target = place := by
      constructor
      · rintro rfl
        exact Option.some.inj (htarget.symm.trans hplace)
      · rintro rfl
        exact place?_inj htarget hplace
    by_cases hindex : target.index = place.index
    · have hslot : place.slot = target.slot ↔ other = nid := by
        rw [hsame]
        cases target
        cases place
        simp_all [eq_comm]
      simp only [change, if_pos hindex, Spine.payload?_install, hslot, hfound]
    · have hne : other ≠ nid := fun heq => hindex (congrArg Place.index (hsame.mp heq))
      simp only [change, if_neg hindex, if_neg hne, id, hfound]
  · have hne : other ≠ nid := by
      rintro rfl
      rw [hother] at hplace
      cases hplace
    exact if_neg hne

/-- A merge answers what it installs, and that is shown from then on. -/
theorem Steady.merge (h : s.Steady content) (hplace : s.place? nid = some place) (payload : Bytes)
    (combine : Bytes → Bytes → Bytes) :
    let next := merged combine payload (content nid)
    ∃ s', Store.attempt (SpineStore.merge nid payload combine) s = (.ok next, s') ∧
      s'.Steady fun other => if other = nid then some next else content other := by
  intro next
  have htouched := h.touch hplace
  have hspine := (transition_touch (s := s) (Or.inl (index_lt hplace))).spineSize_eq
  have hloaded := loaded_touch s place.index
  have hplace' : (SpineStore.touch place.index s).2.place? nid = some place :=
    (place?_congr hspine nid).trans hplace
  have hpayload : (SpineStore.touch place.index s).1.payload? place.slot = content nid := by
    obtain ⟨hanswer, -⟩ :=
      lookup_of_known htouched.enclosed hplace' (known?_of_loaded hloaded)
    exact hanswer.symm.trans (htouched.shows [] nid)
  exact ⟨_, attempt_merge hplace htouched.attempts_pos hpayload payload combine,
    htouched.install hplace' hloaded next⟩

/-- A merge leaves a steady store whose content differs at its nid only. -/
theorem Steady.merge_state (h : s.Steady content) (hplace : s.place? nid = some place)
    (payload : Bytes) (combine : Bytes → Bytes → Bytes) :
    (Store.attempt (SpineStore.merge nid payload combine) s).2.Steady fun other =>
      if other = nid then some (merged combine payload (content nid)) else content other := by
  obtain ⟨s', hrun, hafter⟩ := h.merge hplace payload combine
  rw [hrun]
  exact hafter

end Chronicle.SpineStore
