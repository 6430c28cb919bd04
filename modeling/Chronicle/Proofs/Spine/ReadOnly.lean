import Chronicle.Proofs.Spine.Activity
import Chronicle.Proofs.Spine.Coherence

/-!
# Sessions without merges

A store into which nothing is merged answers what its medium stores, however often it looks payloads
up, scans or writes before. An access that fails can only turn an answer into none.
-/

namespace Chronicle.SpineStore

variable {s s' : SpineStore} {event : Event} {healthy : Prop} {medium : Medium}

/-- What a store without merges has in memory is what the medium held at the opening. If the medium
is healthy, no spine in memory lacks anything. -/
structure Mirrors (healthy : Prop) (medium : Medium) (s : SpineStore) : Prop where
  read : ∀ index, s.medium.backing.readSpine index = medium.backing.readSpine index
  ready : healthy → s.Ready
  coherent : healthy → s.Coherent
  unchanged : ∀ (index : Nat) (spine : Spine), s.loaded[index]? = some spine → spine.changed = false
  payload : ∀ (index : Nat) (spine : Spine), s.loaded[index]? = some spine → ∀ slot,
    spine.payload? slot = medium.payload? s.spineSize { index, slot } ∨
      ¬ healthy ∧ spine.payload? slot = none

private theorem Mirrors.blob? (h : Mirrors healthy medium s) (index : Nat) :
    s.medium.backing.blob? index = medium.backing.blob? index := by
  rw [Backing.blob?, Backing.blob?, h.read]

/-- A spine comes into memory with what the medium holds, or empty if that could not be read. -/
theorem Mirrors.payload_of_loads {index : Nat} {spine : Spine} (h : Mirrors healthy medium s)
    (hloaded : s.loaded[index]? = none) (hindex : index < UInt32.size ∨ s.reaches index = true)
    (hloads : Loads s index spine) (slot : Nat) :
    spine.payload? slot = medium.payload? s.spineSize { index, slot } ∨
      ¬ healthy ∧ spine.payload? slot = none := by
  by_cases hhealthy : healthy
  · left
    have hcoherent := h.coherent hhealthy
    rw [hloads.payload?_eq hcoherent hloaded (hcoherent.addressable_of_reaches hindex)
      fun _ => h.ready hhealthy]
    exact Medium.payload?_congr (h.blob? index)
  · cases hloads with
    | unlisted => exact Or.inr ⟨hhealthy, Spine.payload?_empty slot⟩
    | absent => exact Or.inr ⟨hhealthy, Spine.payload?_empty slot⟩
    | decoded hlisted hread hdecode =>
      rw [h.read, ← Backing.blob?_eq_some_iff] at hread
      rw [Medium.payload?_of_ok hread hdecode]
      exact Or.inl rfl
    | refused => exact Or.inr ⟨hhealthy, Spine.payload?_unreadable slot⟩

/-- A spine comes into memory without changes. -/
theorem Loads.unchanged {index : Nat} {spine : Spine} (h : Loads s index spine) :
    spine.changed = false := by
  cases h with
  | unlisted => rfl
  | absent => rfl
  | decoded _ _ hdecode => exact Spine.changed_of_decode hdecode
  | refused => rfl

/-- Every event but an install keeps a mirror. -/
theorem Mirrors.transition (h : Mirrors healthy medium s) (hsize : 0 < s.spineSize)
    (htransition : Transition s event s')
    (hevent : ∀ nid payload, event ≠ .installed nid payload) : Mirrors healthy medium s' := by
  have hcoherent := fun hhealthy => (h.coherent hhealthy).transition hsize htransition
  have hready := fun hhealthy => htransition.ready (h.ready hhealthy)
  cases htransition with
  | idle => exact h
  | @touched index spine _ permits hloaded hindex hloads hbacking =>
    refine ⟨fun other => by simp only [hbacking, h.read], hready, hcoherent,
      fun other found hfound => ?_, fun other found hfound => ?_⟩
    · rw [getElem?_insert_index] at hfound
      split at hfound
      · cases hfound
        exact hloads.unchanged
      · exact h.unchanged other found hfound
    · rw [getElem?_insert_index] at hfound
      split at hfound
      · rename_i heq
        cases hfound
        rw [heq]
        exact h.payload_of_loads hloaded hindex hloads
      · exact h.payload other found hfound
  | installed => exact absurd rfl (hevent _ _)
  | written hloaded hchanged =>
    rw [h.unchanged _ _ hloaded] at hchanged
    cases hchanged
  | failed hread =>
    exact ⟨fun other => (hread other).trans (h.read other), hready, hcoherent, h.unchanged,
      h.payload⟩

/-- A store that was just opened mirrors its medium. -/
theorem mirrors_ofMedium (medium : Medium) (size permits attempts : Nat) :
    Mirrors (medium.Healthy ∧ 0 < permits) medium (ofMedium medium size permits attempts) := by
  have hempty : (ofMedium medium size permits attempts).loaded = ∅ := rfl
  refine ⟨fun _ => rfl, fun ⟨hhealthy, hpermits⟩ => ⟨hpermits, hhealthy.reads⟩,
    fun ⟨hhealthy, _⟩ => ?_, fun index spine hspine => ?_, fun index spine hspine => ?_⟩
  · obtain ⟨indices, hlisting, -⟩ := hhealthy.listing
    exact coherent_ofMedium size permits attempts hlisting
  · rw [hempty, Std.ExtTreeMap.getElem?_empty] at hspine
    cases hspine
  · rw [hempty, Std.ExtTreeMap.getElem?_empty] at hspine
    cases hspine

/-- A store that mirrors a medium answers what that stores. -/
theorem Mirrors.lookup_eq (h : Mirrors healthy medium s) (hsize : 0 < s.spineSize) (nid : Nid) :
    (lookup nid s).1 = medium.stored s.spineSize nid ∨ ¬ healthy ∧ (lookup nid s).1 = none := by
  cases hplace : s.place? nid with
  | none =>
    simp only [lookup, hplace, stored_of_place?_none hplace]
    exact Or.inl trivial
  | some place =>
    rw [stored_of_place? hplace]
    by_cases hreaches : s.reaches place.index = true
    · have htouched := h.transition hsize (transition_touch (Or.inr hreaches)) (by simp)
      have hpayload := htouched.payload place.index _ (loaded_touch s place.index) place.slot
      have hspine : (touch place.index s).2.spineSize = s.spineSize :=
        (transition_touch (Or.inr hreaches)).spineSize_eq
      rw [hspine] at hpayload
      simp only [lookup, hplace, hreaches, if_true]
      exact hpayload
    · simp only [lookup, hplace, if_neg hreaches]
      by_cases hhealthy : healthy
      · left
        obtain ⟨-, hblob⟩ :=
          (h.coherent hhealthy).of_not_reached hreaches (Or.inl (index_lt hplace))
        rw [Medium.payload?_of_none]
        rw [← h.blob?, hblob]
      · exact Or.inr ⟨hhealthy, trivial⟩

/-- After a session without merges, a store answers what the medium stored at the opening, unless an
access failed. -/
theorem lookup_of_readOnly {size : Nat} (hsize : 0 < size) (medium : Medium)
    (permits attempts : Nat) {α : Type} {x : StateM SpineStore α}
    (hx : Activity (fun _ => False) x) (nid : Nid) :
    (lookup nid (x (ofMedium medium size permits attempts)).2).1 = medium.stored size nid ∨
      ¬ (medium.Healthy ∧ 0 < permits) ∧
        (lookup nid (x (ofMedium medium size permits attempts)).2).1 = none := by
  obtain ⟨events, hinstalls, hevents⟩ := hx.acts (ofMedium medium size permits attempts)
  rw [hevents]
  have hspine : ((ofMedium medium size permits attempts).after events).spineSize = size :=
    spineSize_after _ events
  have hmirrors : Mirrors (medium.Healthy ∧ 0 < permits) medium
      ((ofMedium medium size permits attempts).after events) := by
    revert hinstalls
    refine (after_induction (P := fun past s => s.spineSize = size ∧
      ((∀ nid payload, .installed nid payload ∈ past → False) →
        Mirrors (medium.Healthy ∧ 0 < permits) medium s))
      ⟨rfl, fun _ => mirrors_ofMedium medium size permits attempts⟩ ?_).2
    intro past s s' event ⟨hs, hpast⟩ htransition
    refine ⟨htransition.spineSize_eq.trans hs, fun hinstalls => ?_⟩
    refine (hpast fun nid payload hmem =>
      hinstalls nid payload (List.mem_append_left _ hmem)).transition (by omega) htransition ?_
    rintro nid payload rfl
    exact hinstalls nid payload (by simp)
  have hlookup := hmirrors.lookup_eq (by omega) nid
  rwa [hspine] at hlookup

end Chronicle.SpineStore
