import Chronicle.Proofs.Spine.Memory

/-!
# Stores that look-ups cannot tell apart

Two stores over the same medium in which the same payloads are known answer every look-up alike, and
still do after it. So a store may be disturbed in many ways that nobody sees: spines come into
memory, the directory grows, and a payload is installed in the place of an equal one. What is left
of a store after such things is what would be left of it after some look-ups. These matter only
where reads fail, and never to what was found before.
-/

namespace Chronicle.SpineStore

variable {a b c s t u : SpineStore} {content : Nid → Option Bytes} {nid : Nid} {place : Place}
  {index : Nat} {spine : Spine} {payload next : Bytes} {combine : Bytes → Bytes → Bytes}

/-- Two stores over the same medium, in which the same payloads are known. -/
def Resembles (a b : SpineStore) : Prop :=
  ∃ change : Nat → Spine → Spine, Alike change a b ∧
    ∀ index spine, (change index spine).payload? = spine.payload?

private theorem Alike.resembles (h : Alike (fun _ => id) a b) : Resembles a b :=
  ⟨_, h, fun _ _ => rfl⟩

private theorem resembles_refl (h : s.Enclosed) : Resembles s s :=
  (alike_self h).resembles

private theorem Resembles.trans (h : Resembles a b) (h' : Resembles b c) : Resembles a c := by
  obtain ⟨change, hab, hkept⟩ := h
  obtain ⟨change', hbc, hkept'⟩ := h'
  refine ⟨fun index => change' index ∘ change index, ?_, fun index spine => ?_⟩
  · exact {
      medium_eq := hbc.medium_eq.trans hab.medium_eq
      permits_eq := hbc.permits_eq.trans hab.permits_eq
      persisted_eq := hbc.persisted_eq.trans hab.persisted_eq
      spineSize_eq := hbc.spineSize_eq.trans hab.spineSize_eq
      attempts_eq := hbc.attempts_eq.trans hab.attempts_eq
      known := fun index => by rw [hbc.known, hab.known, Option.map_map]
      unknown := fun index hnone => by
        rw [hab.unknown index hnone, hbc.unknown index (by rw [hab.known, hnone]; rfl)]
        rfl
      enclosed_left := hab.enclosed_left
      enclosed_right := hbc.enclosed_right }
  · exact (hkept' index _).trans (hkept index spine)

private theorem lookup_of_place?_none (hplace : s.place? nid = none) :
    lookup nid s = (none, s) := by
  rw [lookup, hplace]

/-- Stores that resemble one another answer a look-up alike, and still do so afterwards. -/
theorem Resembles.lookup (h : Resembles a b) (nid : Nid) :
    (lookup nid b).1 = (lookup nid a).1 ∧ Resembles (lookup nid a).2 (lookup nid b).2 := by
  obtain ⟨change, halike, hkept⟩ := h
  cases hplace : a.place? nid with
  | none =>
    have hplace' := (place?_congr halike.spineSize_eq nid).trans hplace
    rw [lookup_of_place?_none hplace, lookup_of_place?_none hplace']
    exact ⟨rfl, change, halike, hkept⟩
  | some place =>
    obtain ⟨⟨spine, hanswer, hanswer'⟩, hafter⟩ := halike.lookup hplace
    exact ⟨by rw [hanswer, hanswer', hkept], change, hafter, hkept⟩

/-- Stores that resemble each other do so after the same look-ups. -/
theorem Resembles.afterLookups (h : Resembles a b) (nids : List Nid) :
    Resembles (a.afterLookups nids) (b.afterLookups nids) := by
  induction nids generalizing a b with
  | nil => exact h
  | cons nid nids ih => exact ih (h.lookup nid).2

/-! ## Directories -/

/-- A spine that is touched is entered in the directory. -/
theorem enclosed_touch (h : s.Enclosed) (index : Nat) : (touch index s).2.Enclosed := by
  cases hloaded : s.loaded[index]? with
  | some spine => rwa [touch_of_loaded hloaded]
  | none =>
    obtain ⟨spine, medium, permits, htouch, -⟩ := touch_of_not_loaded hloaded
    rw [htouch]
    exact enclosed_insert h index spine

/-- A look-up that is not turned away brings a spine into memory. -/
theorem lookup_state (nid : Nid) (s : SpineStore) :
    (lookup nid s).2 = s ∨ ∃ index, (lookup nid s).2 = (touch index s).2 := by
  rw [lookup]
  split
  · exact Or.inl rfl
  · split
    · exact Or.inr ⟨_, rfl⟩
    · exact Or.inl rfl

/-- A spine that is looked up is entered in the directory. -/
theorem enclosed_lookup (h : s.Enclosed) (nid : Nid) : (lookup nid s).2.Enclosed := by
  obtain hstate | ⟨index, hstate⟩ := lookup_state nid s
  · rwa [hstate]
  · rw [hstate]
    exact enclosed_touch h index

/-- A spine that takes the place of one in memory lies in the directory as well. -/
theorem enclosed_replace (h : s.Enclosed) (hloaded : s.loaded[index]? = some spine)
    (replacement : Spine) : Enclosed { s with loaded := s.loaded.insert index replacement } := by
  intro other found hfound
  rw [getElem?_insert_index] at hfound
  split at hfound
  · rename_i hother
    exact hother ▸ h index spine hloaded
  · exact h other found hfound

/-- Every event keeps the spines in memory in the directory. -/
theorem Transition.enclosed {event : Event} (htransition : Transition s event t) (h : s.Enclosed) :
    t.Enclosed := by
  cases htransition with
  | idle => exact h
  | touched => exact enclosed_insert h _ _
  | installed _ hloaded => exact enclosed_replace h hloaded _
  | written hloaded => exact enclosed_replace h hloaded _
  | failed => exact h

private theorem afterLookups_append (s : SpineStore) (first second : List Nid) :
    s.afterLookups (first ++ second) = (s.afterLookups first).afterLookups second :=
  List.foldl_append ..

/-! ## Disturbances -/

/-- What is left of a store is what would be left of it after some look-ups, as far as look-ups can
tell. -/
def Undisturbed (s t : SpineStore) : Prop :=
  ∃ nids, Resembles (s.afterLookups nids) t

namespace Undisturbed

private theorem of_resembles (h : Resembles s t) : Undisturbed s t :=
  ⟨[], h⟩

/-- A store is left undisturbed by nothing at all. -/
theorem refl (h : s.Enclosed) : Undisturbed s s :=
  of_resembles (resembles_refl h)

/-- What leaves a store undisturbed twice does so at once. -/
theorem trans (h : Undisturbed s t) (h' : Undisturbed t u) : Undisturbed s u := by
  obtain ⟨first, hfirst⟩ := h
  obtain ⟨second, hsecond⟩ := h'
  refine ⟨first ++ second, ?_⟩
  rw [afterLookups_append]
  exact (hfirst.afterLookups second).trans hsecond

/-- An undisturbed store has its spines in the directory. -/
theorem enclosed (h : Undisturbed s t) : t.Enclosed := by
  obtain ⟨nids, change, halike, -⟩ := h
  exact halike.enclosed_right

/-- Whatever is looked up is what would have been found after some look-ups. -/
theorem exists_lookups (h : Undisturbed s t) : ∃ nids, ∀ later nid,
    (lookup nid (t.afterLookups later)).1 =
      (lookup nid (s.afterLookups (nids ++ later))).1 := by
  obtain ⟨nids, hresembles⟩ := h
  refine ⟨nids, fun later nid => ?_⟩
  rw [afterLookups_append]
  exact ((hresembles.afterLookups later).lookup nid).1

/-- What is shown is shown still. -/
theorem shows (h : Undisturbed s t) (hshows : s.Shows content) : t.Shows content := by
  obtain ⟨nids, hlookups⟩ := h.exists_lookups
  exact fun later nid => (hlookups later nid).trans (hshows (nids ++ later) nid)

/-- A look-up leaves a store undisturbed. -/
theorem lookup (h : s.Enclosed) (nid : Nid) : Undisturbed s (SpineStore.lookup nid s).2 :=
  ⟨[nid], resembles_refl (enclosed_lookup h nid)⟩

/-- A spine that comes into memory is one that a look-up brings there, or was known. -/
theorem touch (h : s.Enclosed) (hplace : s.place? nid = some place) :
    Undisturbed s (SpineStore.touch place.index s).2 := by
  cases hknown : s.known? place.index with
  | some spine => exact of_resembles (alike_touch_of_known h hknown).2.resembles
  | none =>
    have hlookup := lookup h nid
    rwa [lookup_of_unknown hplace hknown] at hlookup

end Undisturbed

/-! ## Spines that are known -/

/-- What is known stays so. -/
theorem known?_touch (h : s.Enclosed) (hknown : s.known? index = some spine) (other : Nat) :
    (touch other s).2.known? index = some spine := by
  by_cases hother : other = index
  · rw [hother, (alike_touch_of_known h hknown).2.known, hknown]
    rfl
  · cases hloaded : s.loaded[other]? with
    | some found => rwa [touch_of_loaded hloaded]
    | none =>
      obtain ⟨found, medium, permits, htouch, -⟩ := touch_of_not_loaded hloaded
      rw [htouch]
      simp only [known?, getElem?_insert_index, if_neg (Ne.symm hother)]
      exact hknown

/-- A spine that is known stays so through a look-up. -/
theorem known?_lookup (h : s.Enclosed) (hknown : s.known? index = some spine) (nid : Nid) :
    (lookup nid s).2.known? index = some spine := by
  obtain hstate | ⟨other, hstate⟩ := lookup_state nid s
  · rwa [hstate]
  · rw [hstate]
    exact known?_touch h hknown other

/-- The spine of a nid is known once the nid was looked up. -/
theorem exists_known_of_lookup (h : s.Enclosed) (hplace : s.place? nid = some place) :
    ∃ spine, (lookup nid s).2.known? place.index = some spine ∧
      (lookup nid s).1 = spine.payload? place.slot := by
  cases hknown : s.known? place.index with
  | some spine =>
    obtain ⟨hanswer, halike⟩ := lookup_of_known h hplace hknown
    refine ⟨spine, ?_, hanswer⟩
    rw [halike.known, hknown]
    rfl
  | none =>
    rw [lookup_of_unknown hplace hknown]
    exact ⟨_, known?_of_loaded (loaded_touch s place.index), rfl⟩

/-- What is found in a known spine is found there after other look-ups, even where reads fail. -/
theorem lookup_afterLookups_of_known (h : s.Enclosed) (hplace : s.place? nid = some place)
    (hknown : s.known? place.index = some spine) (nids : List Nid) :
    (lookup nid (s.afterLookups nids)).1 = spine.payload? place.slot := by
  induction nids generalizing s with
  | nil => exact (lookup_of_known h hplace hknown).1
  | cons other nids ih =>
    have hplace' := (place?_congr (spineSize_lookup s other) nid).trans hplace
    exact ih (enclosed_lookup h other) hplace' (known?_lookup h hknown other)

private theorem lookup_afterLookups_of_place?_none (hplace : s.place? nid = none)
    (nids : List Nid) :
    (lookup nid (s.afterLookups nids)).1 = none := by
  induction nids generalizing s with
  | nil => exact congrArg Prod.fst (lookup_of_place?_none hplace)
  | cons other nids ih => exact ih ((place?_congr (spineSize_lookup s other) nid).trans hplace)

/-- What was found is found again, even where reads fail. -/
theorem lookup_again (h : s.Enclosed) (nid : Nid) (nids : List Nid) :
    (lookup nid ((lookup nid s).2.afterLookups nids)).1 = (lookup nid s).1 := by
  have hsize := spineSize_lookup s nid
  cases hplace : s.place? nid with
  | none =>
    rw [lookup_afterLookups_of_place?_none ((place?_congr hsize nid).trans hplace),
      lookup_of_place?_none hplace]
  | some place =>
    obtain ⟨spine, hknown, hanswer⟩ := exists_known_of_lookup h hplace
    rw [hanswer]
    exact lookup_afterLookups_of_known (enclosed_lookup h nid)
      ((place?_congr hsize nid).trans hplace) hknown nids

/-- What a look-up finds is what the spine of its nid holds once that is in memory. -/
theorem lookup_eq_touch (h : s.Enclosed) (hplace : s.place? nid = some place) :
    (lookup nid s).1 = (touch place.index s).1.payload? place.slot := by
  cases hknown : s.known? place.index with
  | some spine =>
    rw [(lookup_of_known h hplace hknown).1, (alike_touch_of_known h hknown).1]
  | none => rw [lookup_of_unknown hplace hknown]

/-! ## Stores that can be read -/

/-- Where reads do not fail, what a spine is read as is settled by what is stored. -/
theorem Loads.unique {found read : Spine} (h : Loads s index found) (hready : s.Ready)
    (h' : Loads t index read) (hready' : t.Ready) (hsize : t.spineSize = s.spineSize)
    (hpersisted : t.persisted = s.persisted) (hbacking : t.medium.backing = s.medium.backing) :
    read = found := by
  cases h <;> cases h' <;> simp_all

/-- Where reads do not fail, a spine comes into memory as it would without another there. -/
theorem touch_touch (hready : s.Ready) (index other : Nat) :
    (touch other (touch index s).2).1 = (touch other s).1 := by
  cases hindex : s.loaded[index]? with
  | some spine => rw [touch_of_loaded hindex]
  | none =>
    obtain ⟨spine, medium, permits, htouch, -, hbacking, hstill⟩ := touch_of_not_loaded hindex
    have hself := loaded_touch s index
    have hkept := (retains_touch s index).loaded other
    rw [htouch] at hself hkept ⊢
    cases hother : s.loaded[other]? with
    | some found => rw [touch_of_loaded hother, touch_of_loaded (hkept found hother)]
    | none =>
      obtain ⟨found, _, _, hbefore, hloads, -⟩ := touch_of_not_loaded hother
      rw [hbefore]
      by_cases hsame : other = index
      · rw [hsame] at hbefore ⊢
        rw [touch_of_loaded hself, ← congrArg Prod.fst hbefore, htouch]
      · have hunread := getElem?_insert_index s.loaded index other spine
        rw [if_neg hsame, hother] at hunread
        obtain ⟨read, _, _, hafter, hloads', -⟩ := touch_of_not_loaded (s := { s with
          medium, permits, extent := max s.extent (index + 1)
          loaded := s.loaded.insert index spine }) hunread
        rw [hafter]
        exact hloads.unique hready hloads' ⟨(hstill hready).free, (hstill hready).reads⟩ rfl rfl
          hbacking

private theorem ready_lookup (hready : s.Ready) (nid : Nid) : (lookup nid s).2.Ready := by
  obtain ⟨_, htransition⟩ := lookup_transition nid s
  exact htransition.ready hready

/-- Where reads do not fail, a look-up finds what it would have found before a spine came into
memory. -/
theorem lookup_touch (hready : s.Ready) (h : s.Enclosed) (index : Nat) (nid : Nid) :
    (lookup nid (touch index s).2).1 = (lookup nid s).1 := by
  have hsize := (retains_touch s index).spineSize_eq
  cases hplace : s.place? nid with
  | none =>
    have hplace' := (place?_congr hsize nid).trans hplace
    rw [lookup_of_place?_none hplace', lookup_of_place?_none hplace]
  | some place =>
    have hplace' := (place?_congr hsize nid).trans hplace
    rw [lookup_eq_touch (enclosed_touch h index) hplace', lookup_eq_touch h hplace,
      touch_touch hready]

/-- Where reads do not fail, a look-up finds what it would have found before another. -/
theorem lookup_lookup (hready : s.Ready) (h : s.Enclosed) (first nid : Nid) :
    (lookup nid (lookup first s).2).1 = (lookup nid s).1 := by
  obtain hstate | ⟨index, hstate⟩ := lookup_state first s
  · rw [hstate]
  · rw [hstate, lookup_touch hready h]

/-- Where reads do not fail, a store shows what it answers now. -/
theorem Ready.shows (hready : s.Ready) (h : s.Enclosed) : s.Shows fun nid => (lookup nid s).1 := by
  intro nids
  induction nids generalizing s with
  | nil => exact fun _ => rfl
  | cons first nids ih =>
    exact fun nid => (ih (ready_lookup hready first) (enclosed_lookup h first) nid).trans
      (lookup_lookup hready h first nid)

/-! ## Merges -/

/-- Installing a payload in the place of an equal one makes no difference. -/
theorem resembles_install (h : s.Enclosed) (hloaded : s.loaded[place.index]? = some spine)
    (hpayload : spine.payload? place.slot = some payload) :
    Resembles s { s with
      loaded := s.loaded.insert place.index (spine.install place.slot payload) } := by
  let change : Nat → Spine → Spine := fun index found =>
    if index = place.index ∧ found.payload? place.slot = some payload then
      found.install place.slot payload
    else found
  have hkept (index : Nat) (found : Spine) : (change index found).payload? = found.payload? := by
    simp only [change]
    split
    · rename_i hchange
      exact Spine.payload?_install_self hchange.2
    · rfl
  refine ⟨change, { alike_self h with
    known := fun index => ?_, unknown := fun index hnone => ?_
    enclosed_right := enclosed_replace h hloaded _ }, hkept⟩
  · by_cases hindex : index = place.index
    · rw [hindex, known?_of_loaded hloaded, known?_of_loaded Std.ExtTreeMap.getElem?_insert_self,
        Option.map_some]
      simp only [change, hpayload, and_self, if_true]
    · simp [known?, change, getElem?_insert_index, hindex]
  · have hindex : index ≠ place.index := by
      rintro rfl
      rw [known?_of_loaded hloaded] at hnone
      cases hnone
    funext found
    exact if_neg fun hchange => hindex hchange.1

/-- A merge that fails disturbs nothing. -/
theorem undisturbed_of_merge_error {error : StoreError} (h : s.Enclosed)
    (hmerge : merge nid payload combine s = .error error t) : Undisturbed s t := by
  cases hplace : s.place? nid with
  | none =>
    simp only [merge, mergeM, hplace] at hmerge
    cases hmerge
    exact .refl h
  | some place =>
    rcases Nat.eq_zero_or_pos (touch place.index s).2.maxAttempts with hzero | hpos
    · have hrun := Store.eq_of_attempt_error
        (attempt_merge_of_zero hplace hzero payload combine)
      cases hmerge.symm.trans hrun
      exact .touch h hplace
    · have hrun := Store.eq_of_attempt_ok (attempt_merge hplace hpos rfl payload combine)
      cases hmerge.symm.trans hrun

/-- A merge that succeeds installs what it makes of the payload that a look-up finds, and disturbs
nothing if that is the payload itself. -/
theorem undisturbed_of_merge_ok (h : s.Enclosed)
    (hmerge : merge nid payload combine s = .ok next t) :
    next = merged combine payload (lookup nid s).1 ∧ t.Enclosed ∧
      (∃ after, lookup nid t = (some next, after)) ∧
      ((lookup nid s).1 = some next → Undisturbed s t) := by
  obtain ⟨place, hplace, -, hnext, rfl⟩ := merge_eq_ok hmerge
  have htouched := Undisturbed.touch h hplace
  have hloaded := loaded_touch s place.index
  have hplace' := (place?_congr (retains_touch s place.index).spineSize_eq nid).trans hplace
  have hreaches := reaches_iff.mpr (Or.inl (htouched.enclosed place.index _ hloaded))
  rw [lookup_eq_touch h hplace]
  refine ⟨hnext, enclosed_replace htouched.enclosed hloaded _,
    ⟨_, (merges_of_ok hmerge).holds.lookup ⟨place, hplace', hreaches⟩⟩, fun hpayload => ?_⟩
  exact htouched.trans (.of_resembles (resembles_install htouched.enclosed hloaded hpayload))

end Chronicle.SpineStore
