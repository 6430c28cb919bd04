import Chronicle.Proofs.Spine.Activity
import Chronicle.Proofs.Spine.Coherence

/-!
# Data that was not read

A blob is only replaced by what was read from it and what was merged since. This holds of every
store whose opening listed the spines, whatever access fails later, because a spine that cannot be
loaded is never written back. An opening that could not list them takes every spine for a new one:
what it writes has lost all that was there.
-/

namespace Chronicle.SpineStore

variable {s s' : SpineStore} {event : Event} {index : Nat} {blob : Bytes} {addressed : Nid → Prop}

/-- No addressed nid lies at a place. -/
def Untouched (s : SpineStore) (addressed : Nid → Prop) (place : Place) : Prop :=
  ∀ nid, addressed nid → s.place? nid ≠ some place

/-- A slot into which an addressed nid is merged is none that no merge addresses. -/
theorem Untouched.ne {opened : SpineStore} {nid : Nid} {slot other : Nat}
    (h : opened.Untouched addressed { index, slot := other }) (hnid : addressed nid)
    (hsize : s.spineSize = opened.spineSize) (hplace : s.place? nid = some { index, slot }) :
    slot ≠ other := by
  rintro rfl
  rw [place?_congr hsize] at hplace
  exact h nid hnid hplace

/-- The blob at an index is still the one it was, unless the spine is in memory, is not degraded and
has a property that merges keep. Then the spine that was last written had the property as well. -/
inductive Guarded (kept : (Nat → Option Bytes) → Prop) (s : SpineStore) (index : Nat)
    (blob : Bytes) : Prop
  | unloaded (hloaded : s.loaded[index]? = none) (hblob : s.medium.backing.blob? index = some blob)
  | degraded {spine : Spine} (hloaded : s.loaded[index]? = some spine)
      (hdegraded : spine.degraded = true) (hblob : s.medium.backing.blob? index = some blob)
  | loaded {spine : Spine} (hloaded : s.loaded[index]? = some spine)
      (hkept : kept spine.payload?) (hwithin : spine.Within s.spineSize)
      (hblob : s.medium.backing.blob? index = some blob ∨
        ∃ written : Spine, s.medium.backing.blob? index = some (written.encode s.spineSize) ∧
          kept written.payload? ∧ written.Within s.spineSize)

variable {kept : (Nat → Option Bytes) → Prop}

private theorem Guarded.congr (h : Guarded kept s index blob)
    (hloaded : s'.loaded[index]? = s.loaded[index]?)
    (hblob : s'.medium.backing.blob? index = s.medium.backing.blob? index)
    (hsize : s'.spineSize = s.spineSize) : Guarded kept s' index blob := by
  cases h with
  | unloaded hnone hsame => exact .unloaded (hloaded.trans hnone) (hblob.trans hsame)
  | degraded hspine hdegraded hsame =>
    exact .degraded (hloaded.trans hspine) hdegraded (hblob.trans hsame)
  | loaded hspine hkept hwithin hsame =>
    refine .loaded (hloaded.trans hspine) hkept (hsize ▸ hwithin) ?_
    rwa [hblob, hsize]

/-- An event keeps the guard, if loading the spine establishes the property and installing a payload
for the nid of the event keeps it. -/
theorem Guarded.transition (h : Guarded kept s index blob) (hsize : 0 < s.spineSize)
    (htransition : Transition s event s')
    (hload : ∀ spine, Loads s index spine → s.loaded[index]? = none →
      index < UInt32.size ∨ s.reaches index = true → s.medium.backing.blob? index = some blob →
      spine.degraded = true ∨ kept spine.payload?)
    (hinstall : ∀ nid payload slot (spine : Spine), event = .installed nid payload →
      s.place? nid = some { index, slot } → kept spine.payload? →
      kept (spine.install slot payload).payload?) :
    Guarded kept s' index blob := by
  cases htransition with
  | idle => exact h
  | @touched other spine medium permits hloaded hindex hloads hbacking hready =>
    by_cases heq : index = other
    · subst heq
      cases h with
      | unloaded hnone hblob =>
        have hself : (s.loaded.insert index spine)[index]? = some spine :=
          Std.ExtTreeMap.getElem?_insert_self
        obtain hdegraded | hkept := hload spine hloads hloaded hindex hblob
        · exact .degraded hself hdegraded (by simpa only [hbacking])
        · exact .loaded hself hkept hloads.within (Or.inl (by simpa only [hbacking]))
      | degraded hspine => rw [hloaded] at hspine; cases hspine
      | loaded hspine => rw [hloaded] at hspine; cases hspine
    · exact h.congr (by simp only [getElem?_insert_index, if_neg heq]) (by simp only [hbacking]) rfl
  | @installed nid payload place spine hplace hloaded =>
    by_cases heq : index = place.index
    · subst heq
      have hself : (s.loaded.insert place.index (spine.install place.slot payload))[place.index]? =
          some (spine.install place.slot payload) := Std.ExtTreeMap.getElem?_insert_self
      cases h with
      | unloaded hnone => rw [hloaded] at hnone; cases hnone
      | degraded hspine hdegraded hblob =>
        rw [hloaded] at hspine
        cases hspine
        exact .degraded hself hdegraded hblob
      | loaded hspine hkept hwithin hblob =>
        rw [hloaded] at hspine
        cases hspine
        exact .loaded hself (hinstall nid payload place.slot spine rfl hplace hkept)
          (hwithin.install (slot_lt hsize hplace) payload) hblob
    · exact h.congr (by simp only [getElem?_insert_index, if_neg heq]) rfl rfl
  | @written other spine medium permits hloaded hchanged hdegraded hwrite hready =>
    by_cases heq : index = other
    · subst heq
      cases h with
      | unloaded hnone => rw [hloaded] at hnone; cases hnone
      | degraded hspine hbad =>
        rw [hloaded] at hspine
        cases hspine
        rw [hdegraded] at hbad
        cases hbad
      | loaded hspine hkept hwithin hblob =>
        rw [hloaded] at hspine
        cases hspine
        refine .loaded Std.ExtTreeMap.getElem?_insert_self hkept hwithin
          (Or.inr ⟨spine, ?_, hkept, hwithin⟩)
        simp only
        rw [Backing.blob?_of_writeSpine hwrite, if_pos rfl]
    · refine h.congr (by simp only [getElem?_insert_index, if_neg heq]) ?_ rfl
      simp only
      rw [Backing.blob?_of_writeSpine hwrite, if_neg heq]
  | failed hread hready => exact h.congr rfl (by simp only [Backing.blob?, hread]) rfl

/-- The blob is still the one it was, or that of some spine with the property. -/
theorem Guarded.exists_written (h : Guarded kept s index blob) :
    s.medium.backing.blob? index = some blob ∨
      ∃ written : Spine, s.medium.backing.blob? index = some (written.encode s.spineSize) ∧
        kept written.payload? ∧ written.Within s.spineSize := by
  cases h with
  | unloaded _ hblob => exact Or.inl hblob
  | degraded _ _ hblob => exact Or.inl hblob
  | loaded _ _ _ hblob => exact hblob

/-- A run whose merges address the nids of all installed payloads keeps the guard. -/
theorem guarded_after (s : SpineStore) {P : SpineStore → Prop} (hopen : P s)
    (hblob : s.medium.backing.blob? index = some blob) (hloaded : s.loaded[index]? = none)
    (hstep : ∀ s s' event, P s → Transition s event s' → P s')
    (hsize : ∀ s, P s → 0 < s.spineSize)
    (hload : ∀ s spine, P s → Loads s index spine → s.loaded[index]? = none →
      index < UInt32.size ∨ s.reaches index = true → s.medium.backing.blob? index = some blob →
      spine.degraded = true ∨ kept spine.payload?)
    (hinstall : ∀ s nid payload slot (spine : Spine), P s → addressed nid →
      s.place? nid = some { index, slot } → kept spine.payload? →
      kept (spine.install slot payload).payload?)
    {events : List Event}
    (hevents : ∀ nid payload, .installed nid payload ∈ events → addressed nid) :
    Guarded kept (s.after events) index blob := by
  revert hevents
  refine (after_induction (P := fun past s => P s ∧
    ((∀ nid payload, .installed nid payload ∈ past → addressed nid) →
      Guarded kept s index blob)) ⟨hopen, fun _ => .unloaded hloaded hblob⟩ ?_).2
  intro past s s' event ⟨hs, hpast⟩ htransition
  refine ⟨hstep s s' event hs htransition, fun hevents => ?_⟩
  have hguarded := hpast fun nid payload hmem => hevents nid payload (List.mem_append_left _ hmem)
  refine hguarded.transition (hsize s hs) htransition (fun spine => hload s spine hs) ?_
  rintro nid payload slot spine rfl hplace
  exact hinstall s nid payload slot spine hs (hevents nid payload (by simp)) hplace

/-- After an opening that lists the spines, the spine that was last written holds all that was there
in slots that no merge addresses. -/
theorem guarded_of_listing {medium : Medium} {indices : List Nat} {size permits attempts : Nat}
    (hpositive : 0 < size) (hlisting : (Medium.spineIndices medium).1 = .ok indices)
    (hblob : medium.backing.blob? index = some blob) {events : List Event}
    (hevents : ∀ nid payload, .installed nid payload ∈ events → addressed nid) :
    Guarded (fun held => ∀ slot payload, Spine.payloadIn? blob slot = some payload →
        (ofMedium medium size permits attempts).Untouched addressed { index, slot } →
        held slot = some payload)
      ((ofMedium medium size permits attempts).after events) index blob := by
  have hspine : (ofMedium medium size permits attempts).spineSize = size := by
    rw [ofMedium_eq hlisting]
  refine guarded_after _ (P := fun s => s.spineSize = size ∧ s.Coherent)
    ⟨hspine, coherent_ofMedium size permits attempts hlisting⟩ ?_ ?_ ?_ ?_ ?_ ?_ hevents
  · rw [ofMedium_eq hlisting]
    exact hblob
  · rw [ofMedium_eq hlisting]
    exact Std.ExtTreeMap.getElem?_empty
  · intro s s' event ⟨hs, hcoherent⟩ htransition
    exact ⟨htransition.spineSize_eq.trans hs, hcoherent.transition (by omega) htransition⟩
  · intro s ⟨hs, _⟩
    omega
  · intro s spine ⟨hs, hcoherent⟩ hloads hloaded hindex hblob
    cases hloads with
    | unlisted hlisted =>
      have hnone := hcoherent.unlisted index hlisted hloaded
        (hcoherent.addressable_of_reaches hindex)
      rw [hblob] at hnone
      cases hnone
    | absent _ hread =>
      rw [Backing.blob?_eq_some_iff, hread] at hblob
      cases hblob
    | decoded _ hread hdecode =>
      rw [Backing.blob?_eq_some_iff, hread] at hblob
      cases hblob
      refine Or.inr fun slot payload hpayload _ => ?_
      rw [Spine.payloadIn?_of_decode hdecode] at hpayload
      exact hpayload
    | refused => exact Or.inl rfl
  · intro s nid payload slot spine ⟨hs, _⟩ hnid hplace hkept other found hfound huntouched
    have hne := huntouched.ne hnid (hs.trans hspine.symm) hplace
    rw [Spine.payload?_install, if_neg hne]
    exact hkept other found hfound huntouched

/-- After an opening that could not list the spines, the spine that was last written holds nothing
in slots that no merge addresses. -/
theorem guarded_of_failed_listing {medium : Medium} {error : IoError} {size permits attempts : Nat}
    (hpositive : 0 < size) (hlisting : (Medium.spineIndices medium).1 = .error error)
    (hblob : medium.backing.blob? index = some blob) {events : List Event}
    (hevents : ∀ nid payload, .installed nid payload ∈ events → addressed nid) :
    Guarded (fun held => ∀ slot,
        (ofMedium medium size permits attempts).Untouched addressed { index, slot } →
          held slot = none)
      ((ofMedium medium size permits attempts).after events) index blob := by
  have hspine : (ofMedium medium size permits attempts).spineSize = size := by
    rw [ofMedium_of_error hlisting]
  refine guarded_after _ (P := fun s => s.spineSize = size ∧ s.persisted = ∅) ⟨hspine, ?_⟩ ?_ ?_ ?_
    ?_ ?_ ?_ hevents
  · rw [ofMedium_of_error hlisting]
  · rw [ofMedium_of_error hlisting]
    exact hblob
  · rw [ofMedium_of_error hlisting]
    exact Std.ExtTreeMap.getElem?_empty
  · intro s s' event ⟨hs, hpersisted⟩ htransition
    exact ⟨htransition.spineSize_eq.trans hs, htransition.persisted_eq.trans hpersisted⟩
  · intro s ⟨hs, _⟩
    omega
  · intro s spine ⟨_, hpersisted⟩ hloads _ _ _
    have hlisted : index ∉ s.persisted := by simp [hpersisted]
    cases hloads with
    | unlisted => exact Or.inr fun slot _ => Spine.payload?_empty slot
    | absent hmem => exact absurd hmem hlisted
    | decoded hmem => exact absurd hmem hlisted
    | refused hmem => exact absurd hmem hlisted
  · intro s nid payload slot spine ⟨hs, _⟩ hnid hplace hkept other huntouched
    have hne := huntouched.ne hnid (hs.trans hspine.symm) hplace
    rw [Spine.payload?_install, if_neg hne]
    exact hkept other huntouched

/-- Data that was not read survives exactly those runs whose opening could list the spines. At every
moment each blob is the one of the opening, or that of a spine that was written since. After an
opening that lists the spines, such a spine holds every payload of the first blob in every slot that
no merge addresses; after one that could not list them, it holds nothing in such a slot. Its blob
says the same, as long as signed words hold the lengths. -/
theorem unread_data_kept {α : Type} {x : StateM SpineStore α} {medium : Medium}
    {size permits attempts : Nat} (hpositive : 0 < size) (hsize : size < Wire.signedLimit)
    (hx : Activity addressed x) :
    ∃ events, (x (ofMedium medium size permits attempts)).2 =
        (ofMedium medium size permits attempts).after events ∧
      ∀ moment s, moment <+: events → s = (ofMedium medium size permits attempts).after moment →
        ∀ index blob, medium.backing.blob? index = some blob →
          s.medium.backing.blob? index = some blob ∨
          ∃ written : Spine, s.medium.backing.blob? index = some (written.encode size) ∧
            written.Within size ∧ ∀ slot, s.Untouched addressed { index, slot } →
              match (Medium.spineIndices medium).1 with
              | .ok _ => ∀ payload, Spine.payloadIn? blob slot = some payload →
                  written.payload? slot = some payload ∧
                    (written.Short → Spine.payloadIn? (written.encode size) slot = some payload)
              | .error _ => written.payload? slot = none ∧
                  (written.Short → Spine.payloadIn? (written.encode size) slot = none) := by
  obtain ⟨events, haddressed, hevents⟩ := hx.acts (ofMedium medium size permits attempts)
  refine ⟨events, hevents, fun moment s hpast hs index blob hblob => ?_⟩
  have hinstalls : ∀ nid payload, Event.installed nid payload ∈ moment → addressed nid :=
    fun nid payload hmem => haddressed nid payload (hpast.subset hmem)
  have hsizeS : s.spineSize = size := by
    rw [hs, spineSize_after]
    rfl
  have huntouched (place : Place) (h : s.Untouched addressed place) :
      (ofMedium medium size permits attempts).Untouched addressed place := fun nid hnid => by
    rw [← place?_after _ moment, ← hs]
    exact h nid hnid
  cases hlisting : (Medium.spineIndices medium).1 with
  | ok indices =>
    have hguarded := hs ▸ guarded_of_listing hpositive hlisting hblob hinstalls
    refine hguarded.exists_written.imp_right ?_
    rintro ⟨written, hwritten, hkept, hwithin⟩
    rw [hsizeS] at hwritten hwithin
    refine ⟨written, hwritten, hwithin, fun slot hslot payload hpayload => ?_⟩
    have hheld := hkept slot payload hpayload (huntouched _ hslot)
    refine ⟨hheld, fun hshort => ?_⟩
    rw [Spine.payloadIn?_encode hsize hshort, if_pos (hwithin slot payload hheld), hheld]
    simp [Option.filter, Spine.ne_nil_of_payloadIn? hpayload]
  | error error =>
    have hguarded := hs ▸ guarded_of_failed_listing hpositive hlisting hblob hinstalls
    refine hguarded.exists_written.imp_right ?_
    rintro ⟨written, hwritten, hkept, hwithin⟩
    rw [hsizeS] at hwritten hwithin
    refine ⟨written, hwritten, hwithin, fun slot hslot => ?_⟩
    have hheld := hkept slot (huntouched _ hslot)
    refine ⟨hheld, fun hshort => ?_⟩
    rw [Spine.payloadIn?_encode hsize hshort, hheld]
    split
    · rfl
    · rfl

/-- A merge into the second slot and a write leave the payload in the first slot where it was. -/
theorem unread_data_kept_single :
    0 < 4 ∧ 4 < Wire.signedLimit ∧
      Activity (· = ⟨-2147483646⟩) (replaceAndWrite ⟨-2147483646⟩ [0xbb]) ∧
      ∃ found, (replaceAndWrite ⟨-2147483646⟩ [0xbb] (ofMedium .single 4 4
          (1 <<< 20))).2.medium.backing.blob? 0 = some found ∧
        Spine.payloadIn? found 0 = some [0xaa] := by
  have hx := activity_replaceAndWrite ⟨-2147483646⟩ [0xbb]
  refine ⟨by decide, by decide, hx, ?_⟩
  obtain ⟨events, hevents, hkept⟩ :=
    @unread_data_kept _ _ _ .single 4 4 (1 <<< 20) (by decide) (by decide) hx
  have hpayload : Spine.payloadIn? [0, 0, 0, 1, 0, 0, 0, 1, 0xaa] 0 = some [0xaa] := by
    decide +kernel
  obtain hsame | ⟨written, hwritten, hwithin, hslots⟩ :=
    hkept events _ (List.prefix_refl events) hevents 0 _ rfl
  · exact ⟨_, hsame, hpayload⟩
  · obtain ⟨-, hencoded⟩ := hslots 0 (by rintro _ rfl; decide +kernel) _ hpayload
    refine ⟨_, hwritten, hencoded (Spine.short_of_length_encode hwithin ?_)⟩
    rw [← Option.some.inj hwritten]
    decide +kernel

/-- A payload that was never read is lost where the listing fails: a merge into another slot of its
spine and a write replace the blob. -/
theorem unread_data_lost :
    ¬ ∀ (medium : Medium) (size permits attempts : Nat) (addressed : Nid → Prop)
      (x : StateM SpineStore Unit), 0 < size → size < Wire.signedLimit → Activity addressed x →
        let s := (x (ofMedium medium size permits attempts)).2
        ∀ index blob, medium.backing.blob? index = some blob →
          s.medium.backing.blob? index = some blob ∨
          ∃ found, s.medium.backing.blob? index = some found ∧
            ∀ slot, s.Untouched addressed { index, slot } → ∀ payload,
              Spine.payloadIn? blob slot = some payload →
                Spine.payloadIn? found slot = some payload := by
  intro h
  have hwritten : (replaceAndWrite ⟨-2147483646⟩ [0xbb] (ofMedium
      { Medium.single with faults := { spineListings := .always } } 4 4
      (1 <<< 20))).2.medium.backing.blob? 0 =
        some [0, 0, 0, 4, 0, 0, 0, 0, 0, 0, 0, 1, 0xbb, 0, 0, 0, 0, 0, 0, 0, 0] := by
    rfl
  obtain hsame | ⟨found, hfound, hslots⟩ :=
    h { Medium.single with faults := { spineListings := .always } } 4 4 (1 <<< 20) _ _ (by decide)
      (by decide) (activity_replaceAndWrite ⟨-2147483646⟩ [0xbb]) 0 _ rfl
  · rw [hwritten] at hsame
    revert hsame
    decide
  · rw [hwritten, Option.some.injEq] at hfound
    subst hfound
    have hlost := hslots 0 (by rintro _ rfl; decide +kernel) [0xaa] (by decide +kernel)
    revert hlost
    decide +kernel

end Chronicle.SpineStore
