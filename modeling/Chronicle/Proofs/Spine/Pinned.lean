import Chronicle.Proofs.Spine.Reports
import Chronicle.Proofs.Spine.Scans
import Chronicle.Proofs.Spine.Undisturbed

/-!
# Slots of spines in memory

Once a spine is in memory, its slots are looked at there and the medium is not asked again. So what
was found for a nid is pinned, whether the spine was read or could not be: it is found again, by
look-ups and by scans, until a payload is installed for this nid. Whatever else is done with the
store in between, and whatever becomes of the medium, makes no difference.
-/

namespace Chronicle.SpineStore

variable {s t : SpineStore} {nid : Nid} {payload? : Option Bytes} {index : Nat} {place : Place}
  {σ β : Type}

/-- The spine of a nid was touched: it is in memory, and in the directory. -/
def Touched (s : SpineStore) (nid : Nid) : Prop :=
  ∃ place, s.place? nid = some place ∧ s.reaches place.index = true ∧
    s.loaded[place.index]?.isSome

/-- The spine of a nid was touched, and this was found for the nid. -/
def Pins (s : SpineStore) (nid : Nid) (payload? : Option Bytes) : Prop :=
  ∃ place spine, s.place? nid = some place ∧ s.reaches place.index = true ∧
    s.loaded[place.index]? = some spine ∧ spine.payload? place.slot = payload?

/-- A spine is touched for all of its nids, whether or not its blob can be read. -/
theorem Enclosed.touched (h : s.Enclosed) (hplace : s.place? nid = some place) :
    (touch place.index s).2.Touched nid := by
  have hloaded := loaded_touch s place.index
  have hplace' := (place?_congr (retains_touch s place.index).spineSize_eq nid).trans hplace
  have hextent := enclosed_touch h place.index place.index _ hloaded
  exact ⟨place, hplace', reaches_iff.mpr (Or.inl hextent), by rw [hloaded]; rfl⟩

namespace Pins

/-- What is pinned is looked up without an access to the medium. -/
theorem lookup (h : s.Pins nid payload?) : SpineStore.lookup nid s = (payload?, s) := by
  obtain ⟨place, spine, hplace, hreaches, hspine, rfl⟩ := h
  simp only [SpineStore.lookup, hplace, hreaches, if_true, touch_of_loaded hspine]

/-- What is pinned for a nid is in its slot. -/
theorem cell? (h : s.Pins nid payload?) (hplace : s.place? nid = some place) :
    (s.cell? place).map Cell.payload = payload? := by
  obtain ⟨place', spine, hplace', -, hspine, rfl⟩ := h
  obtain rfl := Option.some.inj (hplace.symm.trans hplace')
  rw [SpineStore.cell?, hspine]
  rfl

/-- The spine of a pinned nid is reached. -/
theorem reaches (h : s.Pins nid payload?) (hplace : s.place? nid = some place) :
    s.reaches place.index = true := by
  obtain ⟨place', -, hplace', hreaches, -⟩ := h
  obtain rfl := Option.some.inj (hplace.symm.trans hplace')
  exact hreaches

/-- Only a payload that is installed for the nid makes a difference. -/
theorem transition {event : Event} (h : s.Pins nid payload?) (htransition : Transition s event t)
    (hevent : ∀ payload, event ≠ .installed nid payload) : t.Pins nid payload? := by
  obtain ⟨place, spine, hplace, hreaches, hspine, hpayload⟩ := h
  have hplace' := (place?_congr htransition.spineSize_eq nid).trans hplace
  have hreaches' := htransition.reaches hreaches
  suffices hkept : ∃ kept, t.loaded[place.index]? = some kept ∧
      kept.payload? place.slot = payload? by
    obtain ⟨kept, hkept, hpayload'⟩ := hkept
    exact ⟨place, kept, hplace', hreaches', hkept, hpayload'⟩
  cases htransition with
  | idle => exact ⟨spine, hspine, hpayload⟩
  | failed => exact ⟨spine, hspine, hpayload⟩
  | @touched other _ _ _ hloaded =>
    have hne : place.index ≠ other := by
      rintro rfl
      cases hspine.symm.trans hloaded
    exact ⟨spine, by simp only [getElem?_insert_index, if_neg hne, hspine], hpayload⟩
  | @installed other payload target found htarget hfound =>
    by_cases hindex : place.index = target.index
    · have hsame : found = spine := Option.some.inj (hfound.symm.trans (hindex ▸ hspine))
      have hslot : target.slot ≠ place.slot := by
        intro hslot
        have htarget' : s.place? other = some place := by
          rw [htarget]
          cases place
          cases target
          cases hindex
          cases hslot
          rfl
        exact hevent payload (by rw [place?_inj htarget' hplace])
      refine ⟨found.install target.slot payload, ?_, ?_⟩
      · simp only [getElem?_insert_index, if_pos hindex]
      · rw [Spine.payload?_install, if_neg hslot, hsame, hpayload]
    · exact ⟨spine, by simp only [getElem?_insert_index, if_neg hindex, hspine], hpayload⟩
  | @written other found _ _ hfound =>
    by_cases hindex : place.index = other
    · have hsame : found = spine := Option.some.inj (hfound.symm.trans (hindex ▸ hspine))
      refine ⟨{ found with changed := false }, ?_, ?_⟩
      · simp only [getElem?_insert_index, if_pos hindex]
      · rw [← hpayload, ← hsame]
        rfl
    · exact ⟨spine, by simp only [getElem?_insert_index, if_neg hindex, hspine], hpayload⟩

/-- What is pinned stays so when a spine comes into memory. -/
theorem touch (h : s.Pins nid payload?) (hreaches : s.reaches index = true) :
    (SpineStore.touch index s).2.Pins nid payload? :=
  h.transition (transition_touch (Or.inr hreaches)) (by simp)

/-- What is done with the store for other nids keeps what is pinned. -/
theorem acts {α : Type} {addressed : Nid → Prop} {x : StateM SpineStore α}
    (h : s.Pins nid payload?) (hx : Activity addressed x) (hnid : ¬ addressed nid) :
    (x s).2.Pins nid payload? := by
  obtain ⟨events, haddressed, hevents⟩ := hx.acts s
  rw [hevents]
  revert haddressed
  refine after_induction (P := fun past t => (∀ nid payload, .installed nid payload ∈ past →
    addressed nid) → t.Pins nid payload?) (fun _ => h) ?_
  intro past s' s'' event hpast htransition haddressed
  refine (hpast fun other payload hmem =>
    haddressed other payload (List.mem_append_left _ hmem)).transition htransition ?_
  rintro payload rfl
  exact hnid (haddressed nid payload (by simp))

end Pins

/-- Something is pinned for each of certain nids. -/
def PinsAll (watched : Nid → Prop) (content : Nid → Option Bytes) (s : SpineStore) : Prop :=
  ∀ nid, watched nid → s.Pins nid (content nid)

/-- What is pinned for certain nids outlasts a touch. -/
theorem outlastsTouch_pinsAll {watched : Nid → Prop} {content : Nid → Option Bytes} :
    OutlastsTouch fun (_ : Unit) s => s.PinsAll watched content :=
  fun _ _ _ hreaches h nid hnid => (h nid hnid).touch hreaches

/-- For a nid that was looked up the answer is pinned. -/
theorem Touched.pins (h : s.Touched nid) : s.Pins nid (lookup nid s).1 := by
  obtain ⟨place, hplace, hreaches, hloaded⟩ := h
  obtain ⟨spine, hspine⟩ := Option.isSome_iff_exists.mp hloaded
  have hpins : s.Pins nid (spine.payload? place.slot) :=
    ⟨place, spine, hplace, hreaches, hspine, rfl⟩
  rwa [hpins.lookup]

/-! ## Scans -/

/-- What is done at a payload if it is one nid that was looked up before, and what was found is told
instead. -/
def telling (nid : Nid) (payload? : Option Bytes) (visit : Nid → Bytes → Scan σ Unit) (other : Nid)
    (payload : Bytes) : Scan σ Unit :=
  visit other (if other = nid then payload?.getD payload else payload)

/-- A scan that merges nothing for a nid tells of it what is pinned. -/
theorem tracks_telling {addressed : Nid → Prop} {visit : Nid → Bytes → Scan σ Unit}
    (hvisit : ∀ nid payload state, Activity addressed ((visit nid payload).run state))
    (hnid : ¬ addressed nid) (payload? : Option Bytes) (target : Place) :
    Tracks target (fun _ _ s => s.Pins nid payload?) visit (telling nid payload? visit) where
  mono _ h := h
  touch _ _ _ _ hreaches h := h.touch hreaches
  visit {_ other place cell state s} h hplace _ hcell := by
    refine ⟨?_, h.acts (hvisit other cell.payload state) hnid, ?_⟩
    · rw [telling]
      split
      · rename_i hother
        have hfound := h.cell? (hother ▸ hplace)
        rw [hcell, Option.map_some] at hfound
        rw [← hfound, Option.getD_some]
      · rfl
    · obtain ⟨events, -, hevents⟩ := (hvisit other cell.payload state).acts s
      rw [hevents]
      exact stays_after s events
  empty h _ _ := h
  unreached h _ := h

/-- A scan visits a pinned nid with the payload that was found for it before. -/
theorem Pins.forEachUntil_telling {addressed : Nid → Prop} {visit : Nid → Bytes → Scan σ Unit}
    (h : s.Pins nid payload?)
    (hvisit : ∀ nid payload state, Activity addressed ((visit nid payload).run state))
    (hnid : ¬ addressed nid) (hsize : 0 < s.spineSize) (stop : σ → Bool) (state : σ) :
    (forEachUntil stop (telling nid payload? visit)).run state s =
      (forEachUntil stop visit).run state s := by
  have htracks := tracks_telling hvisit hnid payload? { index := 0, slot := 0 }
  exact (htracks.forEachUntil hsize rfl h).1.symm

/-- Workers visit a pinned nid with the payload that was found for it before. -/
theorem Pins.forEachParallelUntil_telling {addressed : Nid → Prop}
    {visit : Nid → Bytes → Scan σ Unit} (h : s.Pins nid payload?)
    (hvisit : ∀ nid payload state, Activity addressed ((visit nid payload).run state))
    (hnid : ¬ addressed nid) (hsize : 0 < s.spineSize) (stop : σ → Bool) (state : σ) (workers : Nat)
    (schedule : List Nat) :
    (forEachParallelUntil stop (telling nid payload? visit) workers schedule).run state s =
      (forEachParallelUntil stop visit workers schedule).run state s := by
  have htracks := tracks_telling hvisit hnid payload? { index := 0, slot := 0 }
  exact (htracks.forEachParallelUntil hsize rfl h workers schedule).1.symm

/-! ## Reports -/

/-- While a payload is pinned for a nid, what is done at a payload notes what is to be told of it,
if anything is, under its nid. -/
structure Notes (R : σ → SpineStore → Prop) (nid : Nid) (payload? : Option Bytes)
    (tell : Bytes → Option β) (seen : σ → List (Nid × β)) (visit : Nid → Bytes → Scan σ Unit) :
    Prop where
  pins : ∀ {state s}, R state s → s.Pins nid payload?
  touch : OutlastsTouch R
  visit : ∀ {other payload state s}, R state s → (other = nid → payload? = some payload) →
    R ((visit other payload).run state s).1.2 ((visit other payload).run state s).2 ∧
    Stays s ((visit other payload).run state s).2 ∧
    ∃ told : Option β, (other = nid → told = tell payload) ∧
      seen ((visit other payload).run state s).1.2 = (told.map (other, ·)).toList ++ seen state

namespace Notes

variable {R : σ → SpineStore → Prop} {tell : Bytes → Option β} {seen : σ → List (Nid × β)}
  {visit : Nid → Bytes → Scan σ Unit} {state : σ}

/-- All that was noted of the nid is what is to be told of its payload, and it was noted once the
slot was visited. -/
structure Noted (R : σ → SpineStore → Prop) (nid : Nid) (place : Place) (told? : Option β)
    (seen : σ → List (Nid × β)) (left : Prop) (state : σ) (s : SpineStore) : Prop where
  holds : R state s
  place_eq : s.place? nid = some place
  told : ∀ b, (nid, b) ∈ seen state → told? = some b
  noted : ¬ left → ∀ b, told? = some b → (nid, b) ∈ seen state

private theorem tracks (h : Notes R nid payload? tell seen visit) (place : Place) :
    Tracks place (Noted R nid place (payload?.bind tell) seen) visit visit where
  mono hmono hs :=
    ⟨hs.holds, hs.place_eq, hs.told, fun hmore => hs.noted fun hleft => hmore (hmono hleft)⟩
  touch left state s index hreaches hs := by
    refine ⟨h.touch state s index hreaches hs.holds, ?_, hs.told, hs.noted⟩
    exact (place?_congr (transition_touch (Or.inr hreaches)).spineSize_eq nid).trans hs.place_eq
  visit {left other target cell state s} hs htarget hreaches hcell := by
    have hfound (hother : other = nid) : payload? = some cell.payload := by
      rw [← (h.pins hs.holds).cell? (hother ▸ htarget), hcell, Option.map_some]
    obtain ⟨hholds, hstays, told, htold, hseen⟩ := h.visit hs.holds hfound
    have hmine (hother : other = nid) : payload?.bind tell = told := by
      rw [hfound hother, Option.bind_some, htold hother]
    have hplace := (place?_congr hstays.spineSize_eq nid).trans hs.place_eq
    refine ⟨rfl, ⟨hholds, hplace, fun b hb => ?_, fun hdone b hb => ?_⟩, hstays⟩
    · rw [hseen, List.mem_append] at hb
      obtain hb | hb := hb
      · obtain ⟨b', rfl, hpair⟩ : ∃ b', told = some b' ∧ (other, b') = (nid, b) := by
          simpa using hb
        cases hpair
        exact hmine rfl
      · exact hs.told b hb
    · rw [hseen, List.mem_append]
      by_cases hother : other = nid
      · rw [hmine hother] at hb
        left
        rw [hb, hother]
        simp
      · refine Or.inr (hs.noted (fun hleft => hdone ⟨hleft, ?_⟩) b hb)
        rintro rfl
        exact hother (place?_inj htarget hs.place_eq)
  empty {left state s} hs hslot hnone := by
    have hpins := h.pins hs.holds
    refine ⟨hs.holds, hs.place_eq, hs.told, fun _ b hb => ?_⟩
    obtain hcell | hnid := hnone
    · rw [← hpins.cell? hs.place_eq, hcell] at hb
      cases hb
    · cases hnid.symm.trans (nidAt?_of_place? hs.place_eq)
  unreached {left state s} hs hreaches :=
    absurd ((h.pins hs.holds).reaches hs.place_eq) hreaches

variable (h : Notes R nid payload? tell seen visit) (hsize : 0 < s.spineSize)

include h hsize

/-- A scan notes of the nid what is to be told of its payload, and nothing else. -/
theorem mem_forEach (hs : R state s) (hseen : seen state = []) (b : β) :
    (nid, b) ∈ seen ((forEach visit).run state s).1.2 ↔ payload?.bind tell = some b := by
  obtain ⟨place, spine, hplace, hreaches, -⟩ := h.pins hs
  have hnoted : Noted R nid place (payload?.bind tell) seen True state s :=
    ⟨hs, hplace, by simp [hseen], fun hfalse => absurd trivial hfalse⟩
  have hafter := (h.tracks place).forEach (slot_lt hsize hplace) rfl hnoted
    (lt_spineLimit hreaches)
  exact ⟨hafter.told b, hafter.noted id b⟩

/-- Workers note of a pinned nid exactly what is to be told of its payload. -/
theorem mem_forEachParallel (hs : R state s) (hseen : seen state = []) (workers : Nat)
    (schedule : List Nat) (b : β) :
    (nid, b) ∈ seen ((forEachParallel visit workers schedule).run state s).1.2 ↔
      payload?.bind tell = some b := by
  obtain ⟨place, spine, hplace, hreaches, -⟩ := h.pins hs
  have hnoted : Noted R nid place (payload?.bind tell) seen True state s :=
    ⟨hs, hplace, by simp [hseen], fun hfalse => absurd trivial hfalse⟩
  have hafter := (h.tracks place).forEachParallel (slot_lt hsize hplace) rfl hnoted
    (lt_spineLimit hreaches) workers schedule
  exact ⟨hafter.told b, hafter.noted id b⟩

end Notes

private theorem notes_note (nid : Nid) (payload? : Option Bytes) :
    Notes (fun _ s => s.Pins nid payload?) nid payload? some id note where
  pins h := h
  touch _ _ _ hreaches h := h.touch hreaches
  visit {_ payload _ _} h _ := ⟨h, ⟨rfl, fun _ => id⟩, some payload, fun _ => rfl, rfl⟩

/-- What is pinned for a nid is all that scans answer for it. -/
theorem Pins.mem_entries (h : s.Pins nid payload?) (hsize : 0 < s.spineSize) (payload : Bytes) :
    (nid, payload) ∈ (entries s).1 ↔ payload? = some payload := by
  have hmem := (notes_note nid payload?).mem_forEach hsize h rfl payload
  rw [Option.bind_fun_some] at hmem
  exact List.mem_reverse.trans hmem

/-- Workers list a pinned nid exactly with its payload. -/
theorem Pins.mem_entriesParallel (h : s.Pins nid payload?) (hsize : 0 < s.spineSize) (workers : Nat)
    (schedule : List Nat) (payload : Bytes) :
    (nid, payload) ∈ (entriesParallel workers schedule s).1 ↔ payload? = some payload := by
  have hmem := (notes_note nid payload?).mem_forEachParallel hsize h rfl workers schedule payload
  rw [Option.bind_fun_some] at hmem
  exact List.mem_reverse.trans hmem

end Chronicle.SpineStore
