import Chronicle.Proofs.Blob
import Chronicle.Proofs.Component.Chronology
import Chronicle.Proofs.Identity.Table
import Chronicle.Proofs.Path.Table

/-!
# Damaged data

Whatever is persisted is read field by field and has to be read to its end. So bytes that were cut
off anywhere, within a field or between two of them, leave some field with too little, and bytes
that were added are left over. Neither is ever taken for another value.
-/

namespace Chronicle

variable {α : Type}

/-- Bytes that are decoded, and that are recognised as damaged when the end of them is missing or
anything stands behind them. -/
structure DetectsDamage (decode : Bytes → Except DecodeError α) (bytes : Bytes) : Prop where
  intact : ∃ value, decode bytes = .ok value
  torn : ∀ part, part <+: bytes → part ≠ bytes →
    ∃ needed remaining, remaining < needed ∧ decode part = .error (.truncated needed remaining)
  padded : ∀ extra, extra ≠ [] → decode (bytes ++ extra) = .error (.trailing extra.length)

/-- A reader that takes exactly these bytes refuses them cut short and with bytes added. -/
theorem Reader.Reads.detectsDamage {x : Reader α} {bytes : Bytes} {value : α}
    (h : x.Reads bytes value) : DetectsDamage x.decode bytes where
  intact := by
    have hwhole := h.whole []
    rw [List.append_nil] at hwhole
    exact ⟨value, Reader.decode_eq_ok_iff.mpr hwhole⟩
  torn part hpart hne := by
    obtain ⟨needed, remaining, left, hlt, hrun⟩ := h.torn part hpart hne
    exact ⟨needed, remaining, hlt, Reader.decode_of_error hrun⟩
  padded extra hextra := Reader.decode_of_left (h.whole extra) hextra

/-- Damage is detected in all that is persisted, as long as the counts and lengths that are written
fit their words: in the fields and the history of a stamp, in a chronology, in the blob of a spine,
whether the spine that is loaded has as many slots or more, and in the tables of identities and of
paths. -/
theorem damage_detected :
    (∀ fields : StampFields, DetectsDamage StampFields.decode fields.encode) ∧
    (∀ history : StampHistory, history.Fits →
      DetectsDamage StampHistory.decode history.encode) ∧
    (∀ chronology : Chronology, chronology.Fits →
      DetectsDamage Chronology.decode chronology.encode) ∧
    (∀ (size larger : Nat) (spine : Spine), size < Wire.signedLimit → size ≤ larger →
      spine.Short → DetectsDamage (Spine.decode larger) (spine.encode size)) ∧
    (∀ registry : Registry, registry.ids.size < UInt32.size → registry.Writable →
      DetectsDamage Registry.decodeTable registry.encodeTable) ∧
    ∀ graph : PathGraph, graph.size < UInt32.size →
      DetectsDamage PathGraph.decodeTable graph.encodeTable := by
  refine ⟨fun fields => fields.reads.detectsDamage,
    fun history hfits => (StampHistory.reads hfits).detectsDamage,
    fun chronology hfits => (Chronology.reads hfits).detectsDamage,
    fun size larger spine hsize hlarger hshort =>
      (Spine.reads_encode hsize hlarger hshort).detectsDamage,
    fun registry hsize hwritable => (Registry.reads_readTable hsize hwritable).detectsDamage,
    fun graph hsize => ?_⟩
  have hreads : Reader.Reads PathGraph.readTable graph.encodeTable graph.reread := by
    rw [PathGraph.encodeTable, List.append_assoc]
    exact PathGraph.reads_readTable (by rwa [PathGraph.length_sortedEdges])
  exact hreads.detectsDamage

/-- A history of a draft and its commit, a chronology of two versions, a spine with an empty slot
between two payloads that is loaded with more slots, and tables of two aliases and of an edge. -/
theorem damage_detected_samples :
    let draft := StampFields.draft .active ⟨-7⟩ ⟨-6⟩ ⟨-5⟩
    let history : StampHistory := { earlier := [draft], current := draft.committedAt 1700000000 }
    let chronology := (Chronology.start ⟨-4⟩ .concept ⟨⟨-3⟩, [1, 2]⟩).append ⟨⟨-2⟩, []⟩
    let spine := (Spine.empty.install 0 [8]).install 2 [9, 9]
    let id : PublicId := ⟨[⟨1⟩, ⟨2⟩], by decide, by decide, by decide⟩
    let registry := Registry.empty.adopt Nid.first id
    let graph := PathGraph.empty.restore (⟨-5⟩, ⟨⟨-6⟩, 3⟩)
    DetectsDamage StampFields.decode draft.encode ∧
      DetectsDamage StampHistory.decode history.encode ∧
      DetectsDamage Chronology.decode chronology.encode ∧
      DetectsDamage (Spine.decode 4) (spine.encode 3) ∧
      DetectsDamage Registry.decodeTable registry.encodeTable ∧
      DetectsDamage PathGraph.decodeTable graph.encodeTable := by
  intro draft history chronology spine id registry graph
  obtain ⟨hfields, hhistory, hchronology, hspine, hregistry, hgraph⟩ := damage_detected
  exact ⟨hfields draft, hhistory history (show 2 < UInt32.size by decide),
    hchronology chronology ⟨by decide, by decide⟩, hspine 3 4 spine (by decide) (by decide)
      ((Spine.short_empty.install (by decide)).install (by decide)),
    hregistry registry (by decide +kernel) (Registry.writable_of_toList (by decide +kernel)),
    hgraph graph (by decide +kernel)⟩

end Chronicle
