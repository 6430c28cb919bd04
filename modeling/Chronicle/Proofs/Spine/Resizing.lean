import Chronicle.Proofs.Config
import Chronicle.Proofs.Spine.ReadOnly

/-!
# Spines of another size

A blob tells how many slots were written, but not where the spine begins, so a store with spines of
another size looks for a nid in another slot. Blobs with more slots than a spine has are refused.
Blobs with fewer slots are read, and what they hold is then found for other nids than it was stored
for. This file says for which.
-/

namespace Chronicle

/-- A blob is read as a spine only if it was written with at most as many slots, and is then read in
the same way as a spine with that many. -/
theorem Spine.le_of_decode_encode {size larger : Nat} {spine decoded : Spine}
    (hpower : Config.isPowerOfTwo size = true)
    (h : decode larger (encode size spine) = .ok decoded) :
    size ≤ larger ∧ decode size (encode size spine) = .ok decoded := by
  rw [Config.isPowerOfTwo, Bool.and_eq_true, bne_iff_ne, beq_iff_eq] at hpower
  obtain ⟨payloads, hwritable, hlength, hblob, hdecoded⟩ := decode_eq_ok_iff.mp h
  have hshort := hwritable.slots_lt
  have hlimit := Wire.signedLimit_lt
  have hrows := hblob
  rw [encode_eq_row, Wire.row, Wire.row] at hrows
  obtain ⟨hcount, hblocks⟩ := Wire.count_append_inj hrows
  rw [row, List.length_map, List.length_range] at hcount
  by_cases hsize : size < UInt32.size
  · have hslots : size = payloads.length := Wire.count_inj hsize (by omega) hcount
    refine ⟨by omega, decode_eq_ok_iff.mpr ⟨payloads, hwritable, by omega, hblob, hdecoded⟩⟩
  · -- A larger power of two is written as zero, but its slots are written nevertheless.
    have hlog : 32 ≤ size.log2 := (Nat.le_log2 hpower.1).mpr (Nat.not_lt.mp hsize)
    have hword : size % UInt32.size = 0 := by
      rw [← hpower.2, ← Nat.sub_add_cancel hlog, Nat.shiftLeft_add, Nat.shiftLeft_eq _ 32]
      exact Nat.mul_mod_left ..
    rw [← Wire.count_mod, hword] at hcount
    have hempty : 0 = payloads.length := Wire.count_inj (by omega) (by omega) hcount
    obtain rfl := List.length_eq_zero_iff.mp hempty.symm
    have hrow : spine.row size = [] := Wire.blocks_eq_nil_iff.mp (hblocks.trans (by rfl))
    have hzero := congrArg List.length hrow
    rw [row, List.length_map, List.length_range] at hzero
    exact absurd hzero hpower.1

/-- The nid whose payload a store with spines of `new` slots finds for a nid, in spines that were
written with `old` slots. -/
def Nid.moved? (old new : Nat) (nid : Nid) : Option Nid := do
  let offset ← nid.offset?
  if old ≤ new ∧ offset % new < old then ofOffset? (offset / new * old + offset % new) else none

/-- With smaller spines there is no such nid. With spines of the same size, and in the first spine
with larger ones, a nid keeps its place or loses it. -/
theorem Nid.moved?_own {old new offset : Nat} {nid : Nid} (hnew : 0 < new)
    (hoffset : nid.offset? = some offset) (h : new ≤ old ∨ offset < new) :
    nid.moved? old new = none ∨ nid.moved? old new = some nid := by
  simp only [moved?, hoffset, Option.bind_eq_bind, Option.bind_some]
  split
  · rename_i hslot
    right
    rw [ofOffset?_eq_some_iff, hoffset, Option.some.injEq]
    obtain hle | hlt := h
    · obtain rfl : old = new := by omega
      exact (Nat.div_add_mod' offset old).symm
    · rw [Nat.div_eq_of_lt hlt, Nat.mod_eq_of_lt hlt, Nat.zero_mul, Nat.zero_add]
  · exact Or.inl rfl

namespace SpineStore

/-- A medium was blank, and every store since was opened with spines of one size. What fails may
change between two sessions. -/
inductive WrittenWith (size : Nat) : Medium → Prop
  | blank {medium : Medium} (h : ∀ index, medium.backing.blob? index = none) :
      WrittenWith size medium
  | faults {medium next : Medium} (h : WrittenWith size medium)
      (hbacking : next.backing = medium.backing) : WrittenWith size next
  | session {medium : Medium} (permits attempts : Nat) {addressed : Nid → Prop} {α : Type}
      {x : StateM SpineStore α} (h : WrittenWith size medium) (hx : Activity addressed x) :
      WrittenWith size (x (ofMedium medium size permits attempts)).2.medium

/-- Every blob was written with one number of slots. -/
theorem WrittenWith.exists_encode {size : Nat} {medium : Medium} (h : WrittenWith size medium)
    {index : Nat} {blob : Bytes} (hblob : medium.backing.blob? index = some blob) :
    ∃ spine, blob = Spine.encode size spine := by
  induction h generalizing index blob with
  | blank h =>
    rw [h] at hblob
    cases hblob
  | faults _ hbacking ih =>
    rw [hbacking] at hblob
    exact ih hblob
  | @session medium permits attempts addressed α x _ hx ih =>
    obtain ⟨events, -, hevents⟩ := hx.acts (ofMedium medium size permits attempts)
    rw [hevents] at hblob
    have hrun : ((ofMedium medium size permits attempts).after events).spineSize = size ∧
        ∀ index blob, ((ofMedium medium size permits attempts).after events).medium.backing.blob?
          index = some blob → ∃ spine, blob = Spine.encode size spine := by
      refine after_induction (P := fun _ s => s.spineSize = size ∧ ∀ index blob,
        s.medium.backing.blob? index = some blob → ∃ spine, blob = Spine.encode size spine)
        ⟨rfl, fun index blob => ih⟩ ?_
      intro _ s s' event ⟨hs, hwritten⟩ htransition
      refine ⟨htransition.spineSize_eq.trans hs, fun index blob hblob => ?_⟩
      cases htransition with
      | idle => exact hwritten index blob hblob
      | touched _ _ _ hbacking =>
        simp only [hbacking] at hblob
        exact hwritten index blob hblob
      | installed => exact hwritten index blob hblob
      | @written other spine _ _ _ _ _ hwrite =>
        simp only at hblob
        rw [Backing.blob?_of_writeSpine hwrite] at hblob
        split at hblob
        · cases hblob
          exact ⟨spine, by rw [hs]⟩
        · exact hwritten index blob hblob
      | failed hread =>
        simp only [Backing.blob?, hread] at hblob
        exact hwritten index blob hblob
    exact hrun.2 index blob hblob

/-- Blobs that were written with one number of slots are read with another one only if that is not
smaller, and then hold at a place what they held there. -/
theorem WrittenWith.payload?_eq {old : Nat} {medium : Medium} (h : WrittenWith old medium)
    (hold : Config.isPowerOfTwo old = true) (new : Nat) (place : Place) :
    medium.payload? new place =
      if old ≤ new ∧ place.slot < old then medium.payload? old place else none := by
  cases hblob : medium.backing.blob? place.index with
  | none => simp [Medium.payload?_of_none hblob]
  | some blob =>
    obtain ⟨spine, rfl⟩ := h.exists_encode hblob
    cases hdecode : Spine.decode new (spine.encode old) with
    | ok decoded =>
      obtain ⟨hle, hdecodeOld⟩ := Spine.le_of_decode_encode hold hdecode
      rw [Medium.payload?_of_ok hblob hdecode, Medium.payload?_of_ok hblob hdecodeOld]
      split
      · rfl
      · rename_i hslot
        cases hpayload : decoded.payload? place.slot with
        | none => rfl
        | some payload =>
          exact absurd ⟨hle, Spine.within_of_decode hdecodeOld _ _ hpayload⟩ hslot
    | error error =>
      rw [Medium.payload?_of_error hblob hdecode]
      split
      · rename_i hslot
        cases hdecodeOld : Spine.decode old (spine.encode old) with
        | ok decoded =>
          rw [Spine.decode_mono hdecodeOld hslot.1] at hdecode
          cases hdecode
        | error error => rw [Medium.payload?_of_error hblob hdecodeOld]
      · rfl

/-- Blobs that were written with one number of slots and are read with another one hold for a nid
what they held for the one whose place it has taken. -/
theorem WrittenWith.stored_eq {old : Nat} {medium : Medium} (h : WrittenWith old medium)
    (hold : Config.isPowerOfTwo old = true) (new : Nat) (nid : Nid) :
    medium.stored new nid = (nid.moved? old new).bind (medium.stored old) := by
  cases hoffset : nid.offset? with
  | none => simp [Medium.stored, Nid.moved?, hoffset]
  | some offset =>
    simp only [Medium.stored, Nid.moved?, hoffset, Option.bind_eq_bind, Option.bind_some,
      h.payload?_eq hold new]
    split
    · rename_i hslot
      have hle : offset / new * old + offset % new ≤ offset := by
        calc offset / new * old + offset % new
            ≤ offset / new * new + offset % new :=
              Nat.add_le_add_right (Nat.mul_le_mul_left _ hslot.1) _
          _ = offset := Nat.div_add_mod' offset new
      obtain ⟨other, hother⟩ := Nid.exists_offset?_of_le hoffset hle
      rw [Nid.ofOffset?_eq_some_iff.mpr hother, Option.bind_some, Medium.stored, hother,
        Option.bind_eq_bind, Option.bind_some]
      congr 2
      · rw [Nat.mul_comm, Nat.mul_add_div (by omega), Nat.div_eq_of_lt hslot.2, Nat.add_zero]
      · rw [Nat.mul_comm, Nat.mul_add_mod, Nat.mod_eq_of_lt hslot.2]
    · rfl

/-- A store that is opened with spines of another valid size over a medium, and into which nothing
is merged, answers for a nid what the medium stored for the nid whose place it has taken, or
nothing. That is the nid's own payload if the spines are not larger than before, and for all nids of
the first spine. If no access fails, only a place that was not written before has no answer. -/
theorem lookup_resized {old new : Config} (hold : old.validate = .ok ())
    (hnew : new.validate = .ok ()) {medium : Medium}
    (hwritten : WrittenWith old.spineSize medium) {α : Type} {x : StateM SpineStore α}
    (hx : Activity (fun _ => False) x) (nid : Nid) :
    let opened := ofMedium medium new.spineSize new.ioPermits new.maxCasRetries
    let answer := (lookup nid (x opened).2).1
    let moved := (nid.moved? old.spineSize new.spineSize).bind (medium.stored old.spineSize)
    (answer = none ∨ answer = moved) ∧ (medium.Healthy → answer = moved) ∧
      ∀ offset, nid.offset? = some offset → new.spineSize ≤ old.spineSize ∨ offset < new.spineSize →
        answer = none ∨ answer = medium.stored old.spineSize nid := by
  obtain ⟨holdPower, -⟩ := Config.validate_eq_ok_iff.mp hold
  obtain ⟨hnewPower, hpermits, -⟩ := Config.validate_eq_ok_iff.mp hnew
  have hpositive := Config.pos_of_isPowerOfTwo hnewPower
  intro opened answer moved
  have hanswer : answer = moved ∨ ¬ (medium.Healthy ∧ 0 < new.ioPermits) ∧ answer = none := by
    have hlookup := lookup_of_readOnly hpositive medium new.ioPermits new.maxCasRetries hx nid
    rwa [hwritten.stored_eq holdPower] at hlookup
  have hnone : answer = none ∨ answer = moved := hanswer.symm.imp_left And.right
  refine ⟨hnone, fun hhealthy => ?_, fun offset hoffset hown => ?_⟩
  · exact hanswer.resolve_right fun h => h.1 ⟨hhealthy, Nat.pos_of_ne_zero hpermits⟩
  · obtain hmoved | hmoved := Nid.moved?_own hpositive hoffset hown
    · have hempty : moved = none := by simp only [moved, hmoved, Option.bind_none]
      rw [hempty, or_self] at hnone
      exact Or.inl hnone
    · have hsame : moved = medium.stored old.spineSize nid := by
        simp only [moved, hmoved, Option.bind_some]
      rwa [hsame] at hnone

/-- A store with four slots a spine has written a payload for the first nid of the second spine. -/
def fourSlots : Medium :=
  (replaceAndWrite ⟨-2147483643⟩ [0xaa] (ofMedium .inMemory 4 4 (1 <<< 20))).2.medium

private theorem writtenWith_fourSlots : WrittenWith 4 fourSlots :=
  .session 4 (1 <<< 20) (.blank fun _ => rfl) (activity_replaceAndWrite _ _)

/-- Reopened with eight slots a spine, the payload is found for the first nid of the new second
spine. -/
theorem lookup_resized_fourSlots :
    ({ spineSize := 4 } : Config).validate = .ok () ∧
      ({ spineSize := 8 } : Config).validate = .ok () ∧ WrittenWith 4 fourSlots ∧
      fourSlots.Healthy ∧ (lookup ⟨-2147483639⟩ (ofMedium fourSlots 8 4 (1 <<< 20))).1 =
        fourSlots.stored 4 ⟨-2147483643⟩ := by
  have hhealthy : fourSlots.Healthy := ⟨⟨[1], rfl, fun _ _ => ⟨_, rfl⟩⟩, fun _ _ => rfl⟩
  have hold : ({ spineSize := 4 } : Config).validate = .ok () := rfl
  have hnew : ({ spineSize := 8 } : Config).validate = .ok () := rfl
  exact ⟨hold, hnew, writtenWith_fourSlots, hhealthy,
    (lookup_resized hold hnew writtenWith_fourSlots (.observe id) ⟨-2147483639⟩).2.1 hhealthy⟩

/-- A nid may be answered the payload of another one after the size of the spines was changed. -/
theorem lookup_resized_not_own :
    ¬ ∀ (old new : Config) (medium : Medium), old.validate = .ok () → new.validate = .ok () →
      WrittenWith old.spineSize medium → ∀ nid,
        let answer := (lookup nid (ofMedium medium new.spineSize new.ioPermits new.maxCasRetries)).1
        answer = none ∨ answer = medium.stored old.spineSize nid := by
  intro h
  have hown := h { spineSize := 4 } { spineSize := 8 } fourSlots rfl rfl
    writtenWith_fourSlots ⟨-2147483639⟩
  revert hown
  decide +kernel

end SpineStore

end Chronicle
