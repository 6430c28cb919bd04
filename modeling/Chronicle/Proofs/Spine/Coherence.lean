import Chronicle.Proofs.Spine.Events

/-!
# Coherence of a spined store

Every moment of a store that was opened by a listing obeys the same rules: the directory reaches
every spine in memory, no spine uses more slots than it has, and a spine that was not listed has no
blob before it is in memory.
-/

namespace Chronicle.SpineStore

variable {s s' : SpineStore} {event : Event} {index : Nat}

/-- A spine can be in use: a nid lies in it, or the listing reaches as far. -/
def Addressable (s : SpineStore) (index : Nat) : Prop :=
  index < UInt32.size ∨ ∃ listed ∈ s.persisted, index ≤ listed

/-- Rules that every moment obeys. -/
structure Coherent (s : SpineStore) : Prop where
  within : ∀ (index : Nat) (spine : Spine), s.loaded[index]? = some spine → spine.Within s.spineSize
  lt_extent : ∀ (index : Nat) (spine : Spine), s.loaded[index]? = some spine → index < s.extent
  addressable : ∀ index, index < s.extent → s.Addressable index
  unlisted : ∀ index, index ∉ s.persisted → s.loaded[index]? = none → s.Addressable index →
    s.medium.backing.blob? index = none

private theorem Addressable.of_le {other : Nat} (h : s.Addressable other) (hle : index ≤ other) :
    s.Addressable index := by
  obtain h | ⟨listed, hlisted, h⟩ := h
  · exact Or.inl (by omega)
  · exact Or.inr ⟨listed, hlisted, by omega⟩

/-- A spine is reached exactly if the directory extends to it or it was listed. -/
theorem reaches_iff : s.reaches index = true ↔ index < s.extent ∨ index ∈ s.persisted := by
  rw [reaches, Bool.or_eq_true, decide_eq_true_eq, Std.ExtTreeSet.mem_iff_contains]

/-- A spine where there may be data stays one. -/
theorem Transition.reaches (h : Transition s event s') (hreaches : s.reaches index = true) :
    s'.reaches index = true := by
  rw [reaches_iff] at hreaches ⊢
  rw [h.persisted_eq]
  cases h with
  | touched => exact hreaches.imp_left fun hlt => Nat.lt_of_lt_of_le hlt (Nat.le_max_left _ _)
  | idle => exact hreaches
  | installed => exact hreaches
  | written => exact hreaches
  | failed => exact hreaches

/-- A spine where there may be data can be in use. -/
theorem Coherent.addressable_of_reaches (h : s.Coherent)
    (hindex : index < UInt32.size ∨ s.reaches index = true) : s.Addressable index := by
  obtain hindex | hreaches := hindex
  · exact Or.inl hindex
  · obtain hextent | hlisted := reaches_iff.mp hreaches
    · exact h.addressable index hextent
    · exact Or.inr ⟨index, hlisted, Nat.le_refl _⟩

/-- A spine where there cannot be data is not in memory, and has no blob if it can be in use. -/
theorem Coherent.of_not_reached (h : s.Coherent) (hreaches : ¬ s.reaches index = true)
    (hindex : s.Addressable index) :
    s.loaded[index]? = none ∧ s.medium.backing.blob? index = none := by
  rw [reaches_iff, not_or] at hreaches
  have hloaded : s.loaded[index]? = none := by
    cases hloaded : s.loaded[index]? with
    | none => rfl
    | some spine => exact absurd (h.lt_extent index spine hloaded) hreaches.1
  exact ⟨hloaded, h.unlisted index hreaches.2 hloaded hindex⟩

/-- Every way to come into memory respects the number of slots. -/
theorem Loads.within {spine : Spine} (h : Loads s index spine) : spine.Within s.spineSize := by
  cases h with
  | unlisted => exact Spine.within_empty _
  | absent => exact Spine.within_empty _
  | decoded _ _ hdecode => exact Spine.within_of_decode hdecode
  | refused =>
    intro slot payload hpayload
    rw [Spine.payload?_unreadable] at hpayload
    cases hpayload

/-- No spine comes into memory with a payload that is too long for a blob. -/
theorem Loads.short {spine : Spine} (h : Loads s index spine) : spine.Short := by
  cases h with
  | unlisted => exact Spine.short_empty
  | absent => exact Spine.short_empty
  | decoded _ _ hdecode => exact Spine.short_of_decode hdecode
  | refused =>
    intro slot payload hpayload
    rw [Spine.payload?_unreadable] at hpayload
    cases hpayload

/-- A store that was just opened obeys the rules. -/
theorem coherent_ofMedium {medium : Medium} {indices : List Nat} (size permits attempts : Nat)
    (hlisting : (Medium.spineIndices medium).1 = .ok indices) :
    (ofMedium medium size permits attempts).Coherent := by
  rw [ofMedium_eq hlisting]
  constructor
  · intro index spine h
    simp at h
  · intro index spine h
    simp at h
  · intro index h
    simp at h
  · intro index hlisted _ haddressable
    rw [Std.ExtTreeSet.mem_ofList, List.contains_iff_mem] at hlisted
    cases hblob : medium.backing.blob? index with
    | none => exact hblob
    | some blob =>
      obtain hmem | ⟨hlarge, hsmall⟩ := Backing.mem_spineIndices
        (Medium.spineIndices_of_ok hlisting) (Backing.blob?_eq_some_iff.mp hblob)
      · exact absurd hmem hlisted
      · obtain h | ⟨listed, hmem, hle⟩ := haddressable
        · omega
        · rw [Std.ExtTreeSet.mem_ofList, List.contains_iff_mem] at hmem
          have := hsmall listed hmem
          omega

/-- A spine whose blob can be read comes into memory with what the medium holds for it, which is
nothing if the blob cannot be decoded. -/
theorem Loads.payload?_eq {spine : Spine} (h : Loads s index spine) (hcoherent : s.Coherent)
    (hloaded : s.loaded[index]? = none) (haddressable : s.Addressable index)
    (hready : (s.medium.backing.blob? index).isSome → s.Ready) (slot : Nat) :
    spine.payload? slot = s.medium.payload? s.spineSize { index, slot } := by
  cases h with
  | unlisted hlisted =>
    rw [Spine.payload?_empty, Medium.payload?_of_none]
    exact hcoherent.unlisted index hlisted hloaded haddressable
  | absent hlisted hnone =>
    rw [Spine.payload?_empty, Medium.payload?_of_none]
    rw [Backing.blob?, hnone]
    rfl
  | decoded hlisted hblob hdecode =>
    rw [Medium.payload?_of_ok (Backing.blob?_eq_some_iff.mpr hblob) hdecode]
  | refused hlisted hreason =>
    rw [Spine.payload?_unreadable]
    cases hblob : s.medium.backing.blob? index with
    | none => exact (Medium.payload?_of_none hblob).symm
    | some blob =>
      have hread := Backing.blob?_eq_some_iff.mp hblob
      obtain ⟨error, herror⟩ | ⟨other, error, hother, hdecode⟩ :=
        hreason (hready (by rw [hblob]; rfl))
      · rw [hread] at herror
        cases herror
      · exact (Medium.payload?_of_error (Backing.blob?_eq_some_iff.mpr hother) hdecode).symm

/-- A spine that comes into memory or is replaced there keeps the rules, if the others have the
blobs that they had. -/
theorem Coherent.insert {medium : Medium} {permits : Permits} {extent : Nat} {spine : Spine}
    (h : s.Coherent) (hwithin : spine.Within s.spineSize) (hextent : s.extent ≤ extent)
    (hindex : index < extent) (haddressable : ∀ other < extent, s.Addressable other)
    (hblob : ∀ other ≠ index, medium.backing.blob? other = s.medium.backing.blob? other) :
    Coherent { s with medium, permits, extent, loaded := s.loaded.insert index spine } := by
  constructor
  · intro other found hfound
    rw [getElem?_insert_index] at hfound
    split at hfound
    · cases hfound
      exact hwithin
    · exact h.within other found hfound
  · intro other found hfound
    rw [getElem?_insert_index] at hfound
    split at hfound
    · rename_i heq
      rwa [heq]
    · exact Nat.lt_of_lt_of_le (h.lt_extent other found hfound) hextent
  · exact haddressable
  · intro other hlisted hother haddressable
    rw [getElem?_insert_index] at hother
    split at hother
    · cases hother
    · rename_i hne
      exact (hblob other hne).trans (h.unlisted other hlisted hother haddressable)

/-- An access that leaves every blob as it is keeps the rules. -/
theorem Coherent.accessed {medium : Medium} {permits : Permits} (h : s.Coherent)
    (hread : ∀ other, medium.backing.readSpine other = s.medium.backing.readSpine other) :
    Coherent { s with medium, permits } := by
  refine ⟨h.within, h.lt_extent, h.addressable, fun other hlisted hother haddressable => ?_⟩
  simp only [Backing.blob?, hread]
  exact h.unlisted other hlisted hother haddressable

/-- Every event keeps the rules. -/
theorem Coherent.transition (h : s.Coherent) (hsize : 0 < s.spineSize)
    (htransition : Transition s event s') : s'.Coherent := by
  cases htransition with
  | idle => exact h
  | @touched index spine medium permits hloaded hindex hloads hbacking hready =>
    refine h.insert hloads.within (by omega) (by omega) (fun other hother => ?_) fun _ _ => by
      rw [hbacking]
    by_cases hle : other ≤ index
    · exact (h.addressable_of_reaches hindex).of_le hle
    · exact h.addressable other (by omega)
  | installed hplace hloaded =>
    exact h.insert ((h.within _ _ hloaded).install (slot_lt hsize hplace) _) (Nat.le_refl _)
      (h.lt_extent _ _ hloaded) h.addressable fun _ _ => rfl
  | @written index spine medium permits hloaded hchanged hdegraded hwrite hready =>
    have hwithin : spine.Within s.spineSize := h.within _ _ hloaded
    refine h.insert hwithin (Nat.le_refl _) (h.lt_extent _ _ hloaded) h.addressable
      fun other hne => ?_
    rw [Backing.blob?_of_writeSpine hwrite, if_neg hne]
  | failed hread => exact h.accessed hread

/-- What the opening establishes and every event keeps, as far as the rules are obeyed, holds after
every run. -/
theorem run_induction {medium : Medium} {indices : List Nat} {size permits attempts : Nat}
    {P : List Event → SpineStore → Prop} (hsize : 0 < size)
    (hlisting : (Medium.spineIndices medium).1 = .ok indices)
    (hopen : P [] (ofMedium medium size permits attempts))
    (hstep : ∀ past s s' event, s.spineSize = size → s.Coherent → P past s → Transition s event s' →
      P (past ++ [event]) s') (events : List Event) :
    ((ofMedium medium size permits attempts).after events).Coherent ∧
      P events ((ofMedium medium size permits attempts).after events) := by
  have hspine : (ofMedium medium size permits attempts).spineSize = size := by
    rw [ofMedium_eq hlisting]
  refine (after_induction (P := fun past s => s.spineSize = size ∧ s.Coherent ∧ P past s)
    ⟨hspine, coherent_ofMedium size permits attempts hlisting, hopen⟩ ?_).2
  intro past s s' event ⟨hs, hcoherent, hpast⟩ htransition
  exact ⟨htransition.spineSize_eq.trans hs, hcoherent.transition (by omega) htransition,
    hstep past s s' event hs hcoherent hpast htransition⟩

end Chronicle.SpineStore
