import Chronicle.Proofs.Calculator.Pool
import Chronicle.Proofs.Identity.Registry
import Chronicle.Proofs.Stamp.History
import Chronicle.Proofs.Store.Outcome

/-!
# Stamps as they are stored

Stamps are created and changed by offering fields to what is stored for a nid. Only an open stamp
takes them. A stamp that is open was created under a UUID that was drawn for it, and as long as
nobody names that UUID, no other stamp is ever offered to it: creating stamps leaves all stamps that
are stored as they are.
-/

namespace Chronicle

open StampHistory (storedIn? offered push_of_closed current_push_of_open)

variable {content content' : Nid → Option Bytes} {nid other : Nid} {payload : Bytes}
  {fields : StampFields} {history : StampHistory}

/-- What is served once a payload is stored for a nid. -/
def replaced (content : Nid → Option Bytes) (nid : Nid) (payload : Bytes) : Nid → Option Bytes :=
  fun other => if other = nid then some payload else content other

/-- What is served once fields were offered to a nid. -/
def offering (content : Nid → Option Bytes) (nid : Nid) (fields : StampFields) :
    Nid → Option Bytes :=
  replaced content nid (offered fields (content nid))

private theorem replaced_self (h : content nid = some payload) :
    replaced content nid payload = content := by
  funext other
  rw [replaced]
  split
  · rename_i hother
    rw [hother, h]
  · rfl

/-- A payload that is replaced is a stamp if it decodes, and no other stamp changes. -/
theorem storedIn?_replaced (content : Nid → Option Bytes) (nid other : Nid) (payload : Bytes) :
    storedIn? (replaced content nid payload) other =
      if other = nid then (StampHistory.decode payload).toOption else storedIn? content other := by
  rw [storedIn?, replaced]
  split <;> rfl

/-- A stored stamp has a payload that decodes to its history. -/
theorem exists_of_storedIn? (h : storedIn? content nid = some history) :
    ∃ payload, content nid = some payload ∧ StampHistory.decode payload = .ok history := by
  rw [storedIn?, Option.bind_eq_some_iff] at h
  obtain ⟨payload, hpayload, hdecode⟩ := h
  refine ⟨payload, hpayload, ?_⟩
  cases hhistory : StampHistory.decode payload with
  | ok found =>
    rw [hhistory] at hdecode
    cases hdecode
    rfl
  | error error =>
    rw [hhistory] at hdecode
    cases hdecode

/-- Where nothing is stored, a stamp starts. -/
theorem storedIn?_offering_of_none (h : content nid = none) :
    storedIn? (offering content nid fields) nid = some (.start fields) := by
  rw [offering, storedIn?_replaced, if_pos rfl, h, StampHistory.decode_offered_none]
  rfl

/-- A stamp that is stored takes the fields if it is open. -/
theorem storedIn?_offering_of_some (h : storedIn? content nid = some history)
    (hopen : history.current.isUncommitted = true → history.earlier = []) :
    storedIn? (offering content nid fields) nid = some (history.push fields) := by
  obtain ⟨payload, hpayload, hdecode⟩ := exists_of_storedIn? h
  rw [offering, storedIn?_replaced, if_pos rfl, hpayload,
    StampHistory.decode_offered_some hdecode hopen]
  rfl

/-- Anything else that is stored stays. -/
theorem offering_of_other (fields : StampFields) (hpayload : content nid = some payload)
    (h : storedIn? content nid = none) : offering content nid fields = content := by
  rw [offering, hpayload]
  refine replaced_self ?_
  rw [storedIn?, hpayload, Option.bind_some] at h
  cases hdecode : StampHistory.decode payload with
  | ok history =>
    rw [hdecode] at h
    cases h
  | error error => rw [StampHistory.offered_of_error hdecode, hpayload]

/-- A stamp that does not take the fields stays, to the last byte. -/
theorem offering_of_refused (h : storedIn? content nid = some history)
    (hrefused : history.push fields = history) : offering content nid fields = content := by
  obtain ⟨payload, hpayload, hdecode⟩ := exists_of_storedIn? h
  rw [offering, hpayload]
  refine replaced_self ?_
  rw [hpayload]
  change some payload = some (StampHistory.mergePayload payload (StampHistory.start fields).encode)
  rw [StampHistory.mergePayload_start hdecode, if_pos hrefused]

/-- A closed stamp stays, to the last byte. -/
theorem offering_of_closed (fields : StampFields) (h : storedIn? content nid = some history)
    (hclosed : history.current.isUncommitted = false) : offering content nid fields = content :=
  offering_of_refused h (push_of_closed hclosed)

/-- Offering fields to one nid leaves the stamps of all others. -/
theorem storedIn?_offering_ne (h : other ≠ nid) :
    storedIn? (offering content nid fields) other = storedIn? content other := by
  rw [offering, storedIn?_replaced, if_neg h]

/-- Recording versions changes no stamp. -/
theorem storedIn?_recording (content : Nid → Option Bytes) (replace : Bool) (c : Chronology)
    (nid other : Nid) :
    storedIn? (replaced content nid
      (SpineStore.merged (Chronology.mergePayload replace) c.encode (content nid))) other =
      storedIn? content other := by
  rw [storedIn?_replaced, Chronology.stamp_merged]
  split
  · rename_i hother
    rw [hother, storedIn?]
  · rfl

/-- What is stored for a nid once fields were offered to it: a new stamp, or the one that was there,
which has taken the fields if it was open. -/
theorem storedIn?_offering (h : storedIn? (offering content nid fields) nid = some history) :
    (content nid = none ∧ history = .start fields) ∨
      ∃ stored, storedIn? content nid = some stored ∧ history = stored.push fields := by
  cases hpayload : content nid with
  | none =>
    rw [storedIn?_offering_of_none hpayload] at h
    cases h
    exact Or.inl ⟨rfl, rfl⟩
  | some payload =>
    cases hstored : storedIn? content nid with
    | none =>
      rw [offering_of_other fields hpayload hstored, hstored] at h
      cases h
    | some stored =>
      obtain ⟨before, hbefore, hdecode⟩ := exists_of_storedIn? hstored
      obtain ⟨after, hafter, hdecode'⟩ := exists_of_storedIn? h
      rw [offering, replaced, if_pos rfl, hbefore, Option.some.injEq] at hafter
      rw [← hafter] at hdecode'
      exact Or.inr ⟨stored, rfl, StampHistory.eq_push_of_decode_offered hdecode hdecode'⟩

/-- Fields that are offered to a closed stamp or to no stamp leave every stamp as it is. -/
theorem extends_offering (hclosed : ∀ history, storedIn? content nid = some history →
      history.current.isUncommitted = false) : Extends content (offering content nid fields) := by
  intro stamp current hcurrent
  simp only [StampFields.storedIn?, Option.map_eq_some_iff] at hcurrent ⊢
  obtain ⟨history, hhistory, rfl⟩ := hcurrent
  by_cases hstamp : stamp = nid
  · subst hstamp
    have hshut := hclosed history hhistory
    refine ⟨history, ?_, rfl⟩
    rw [storedIn?_offering_of_some hhistory (fun hopen => by rw [hshut] at hopen; cases hopen),
      push_of_closed hshut]
  · exact ⟨history, by rw [storedIn?_offering_ne hstamp, hhistory], rfl⟩

/-- Stored stamps stay as they are where all stamps do. -/
theorem extends_of_storedIn?_eq (h : ∀ nid, storedIn? content' nid = storedIn? content nid) :
    Extends content content' := by
  intro stamp fields hfields
  rw [StampFields.storedIn?, h]
  exact hfields

/-! ## Stamps and their UUIDs -/

/-- What every moment knows of the stamps that are stored: a stamp has a nid that was handed out,
and an open one has a single entry and no UUID but one that was drawn. -/
structure Stamped (drawn known : Uuid → Prop) (r : Registry) (content : Nid → Option Bytes) :
    Prop where
  consistent : r.Consistent
  known : ∀ uuid nid, r.nid? uuid = some nid → known uuid
  allocated : ∀ nid history, storedIn? content nid = some history → r.Allocated nid
  single : ∀ nid history, storedIn? content nid = some history →
    history.current.isUncommitted = true → history.earlier = []
  drawn : ∀ nid history, storedIn? content nid = some history →
    history.current.isUncommitted = true → ∀ uuid, r.nid? uuid = some nid → drawn uuid

namespace Stamped

variable {drawn known drawn' known' : Uuid → Prop} {r r' : Registry} {id : PublicId} {uuid : Uuid}

/-- Stamps are as they should be if more UUIDs may have been drawn and named. -/
theorem mono (h : Stamped drawn known r content) (hdrawn : ∀ uuid, drawn uuid → drawn' uuid)
    (hknown : ∀ uuid, known uuid → known' uuid) : Stamped drawn' known' r content :=
  ⟨h.consistent, fun uuid nid huuid => hknown uuid (h.known uuid nid huuid), h.allocated, h.single,
    fun nid history hhistory hopen uuid huuid =>
      hdrawn uuid (h.drawn nid history hhistory hopen uuid huuid)⟩

/-- Only the stamps count of what is stored. -/
theorem congr (h : Stamped drawn known r content)
    (hstored : ∀ nid, storedIn? content' nid = storedIn? content nid) :
    Stamped drawn known r content' := by
  refine ⟨h.consistent, h.known, fun nid history hhistory => ?_, fun nid history hhistory => ?_,
    fun nid history hhistory => ?_⟩ <;> rw [hstored] at hhistory
  · exact h.allocated nid history hhistory
  · exact h.single nid history hhistory
  · exact h.drawn nid history hhistory

/-- The mark for changes does not count. -/
theorem settled (h : Stamped drawn known r content) : Stamped drawn known r.settled content :=
  ⟨⟨h.consistent.first_le, h.consistent.nid?_iff, h.consistent.aliases_iff⟩, h.known, h.allocated,
    h.single, h.drawn⟩

/-- The nid that a public id resolves to has no open stamp, if no open stamp has one of its
UUIDs. -/
theorem closed_of_resolve (h : Stamped drawn known r content)
    (hresolve : r.resolve id = .ok (nid, r'))
    (hid : ∀ uuid ∈ id.uuids, ∀ history, r.nid? uuid = some nid →
      storedIn? content nid = some history → history.current.isUncommitted = false)
    (hhistory : storedIn? content nid = some history) : history.current.isUncommitted = false := by
  obtain ⟨⟨uuid, huuid, hnid⟩, -⟩ | ⟨-, rfl, -⟩ := (Registry.resolves_of_resolve hresolve).origin
  · exact hid uuid huuid history hnid hhistory
  · exact absurd (h.allocated _ history hhistory).2 (Int32.lt_irrefl)

/-- The nid that a new UUID resolves to has no stamp. -/
theorem unstored_of_resolve (h : Stamped drawn known r content)
    (hresolve : r.resolve id = .ok (nid, r')) (huuids : id.uuids = [uuid])
    (hnew : r.nid? uuid = none) : storedIn? content nid = none := by
  obtain ⟨rfl, -⟩ := (Registry.resolves_of_resolve hresolve).eq_next_of_new huuids hnew
  cases hstored : storedIn? content r.next with
  | none => rfl
  | some history => exact absurd (h.allocated _ history hstored) r.not_allocated_next

/-- Resolving a public id keeps stamps as they should be, unless it names an open one. -/
theorem resolve (h : Stamped drawn known r content) (hresolve : r.resolve id = .ok (nid, r'))
    (hknown : ∀ uuid ∈ id.uuids, known uuid)
    (hid : ∀ uuid ∈ id.uuids, ∀ history, r.nid? uuid = some nid →
      storedIn? content nid = some history → history.current.isUncommitted = false) :
    Stamped drawn known r' content := by
  have hresolves := Registry.resolves_of_resolve hresolve
  refine ⟨hresolves.consistent h.consistent, fun uuid other hother => ?_,
    fun other history hhistory =>
      hresolves.allocated_of_allocated (h.allocated other history hhistory),
    h.single, fun other history hhistory hopen uuid huuid => ?_⟩
  · rw [hresolves.nid?_eq] at hother
    split at hother
    · rename_i hmem
      exact hknown uuid (Registry.mem_unmapped_iff.mp hmem).1
    · exact h.known uuid other hother
  · rw [hresolves.nid?_eq] at huuid
    split at huuid
    · cases huuid
      rw [h.closed_of_resolve hresolve hid hhistory] at hopen
      cases hopen
    · exact h.drawn other history hhistory hopen uuid huuid

/-- Fields can be offered to a nid that was handed out. If they start an open stamp, its UUIDs have
to be drawn ones, and no open fields may be offered to an open stamp. -/
theorem offer (h : Stamped drawn known r content) (hnid : r.Allocated nid)
    (hnew : content nid = none → fields.isUncommitted = true →
      ∀ uuid, r.nid? uuid = some nid → drawn uuid)
    (hstored : ∀ history, storedIn? content nid = some history →
      history.current.isUncommitted = true → fields.isUncommitted = false) :
    Stamped drawn known r (offering content nid fields) := by
  have hclosed {stored : StampHistory} (hfound : storedIn? content nid = some stored) :
      (stored.push fields).current.isUncommitted = false :=
    StampHistory.isUncommitted_push (hstored stored hfound)
  refine ⟨h.consistent, h.known, fun other history hhistory => ?_,
    fun other history hhistory hopen => ?_, fun other history hhistory hopen uuid huuid => ?_⟩
  · by_cases hother : other = nid
    · rw [hother]
      exact hnid
    · rw [storedIn?_offering_ne hother] at hhistory
      exact h.allocated other history hhistory
  · by_cases hother : other = nid
    · subst hother
      obtain ⟨-, rfl⟩ | ⟨stored, hfound, rfl⟩ := storedIn?_offering hhistory
      · rfl
      · rw [hclosed hfound] at hopen
        cases hopen
    · rw [storedIn?_offering_ne hother] at hhistory
      exact h.single other history hhistory hopen
  · by_cases hother : other = nid
    · subst hother
      obtain ⟨hnone, rfl⟩ | ⟨stored, hfound, rfl⟩ := storedIn?_offering hhistory
      · exact hnew hnone hopen uuid huuid
      · rw [hclosed hfound] at hopen
        cases hopen
    · rw [storedIn?_offering_ne hother] at hhistory
      exact h.drawn other history hhistory hopen uuid huuid

/-- An open stamp has drawn UUIDs only, so it has none that was not drawn or is not mapped yet. -/
theorem closed_of_nid? (h : Stamped drawn known r content) (hnew : drawn uuid → r.nid? uuid = none)
    (hnid : r.nid? uuid = some nid) (hhistory : storedIn? content nid = some history) :
    history.current.isUncommitted = false := by
  cases hopen : history.current.isUncommitted with
  | false => rfl
  | true =>
    rw [hnew (h.drawn nid history hhistory hopen uuid hnid)] at hnid
    cases hnid

/-- A stamp is created under a UUID: one that was drawn has to be new, and an open stamp has to be
given a drawn one. It is offered to no open stamp, so that all stamps stay as they are. -/
theorem create (h : Stamped drawn known r content) (hresolve : r.resolve id = .ok (nid, r'))
    (huuids : id.uuids = [uuid]) (hknown : known uuid) (hnew : drawn uuid → r.nid? uuid = none)
    (hfields : fields.isUncommitted = true → drawn uuid) :
    Stamped drawn known r' (offering content nid fields) ∧
      ∀ history, storedIn? content nid = some history →
        history.current.isUncommitted = false := by
  have hresolves := Registry.resolves_of_resolve hresolve
  have hid : ∀ other ∈ id.uuids, ∀ history, r.nid? other = some nid →
      storedIn? content nid = some history → history.current.isUncommitted = false := by
    rw [huuids, List.forall_mem_singleton]
    exact fun history => h.closed_of_nid? hnew
  have hclosed : ∀ history, storedIn? content nid = some history →
      history.current.isUncommitted = false :=
    fun history => h.closed_of_resolve hresolve hid
  have hresolved : Stamped drawn known r' content := by
    refine h.resolve hresolve ?_ hid
    rw [huuids, List.forall_mem_singleton]
    exact hknown
  refine ⟨hresolved.offer (hresolves.allocated h.consistent) (fun _ hopen other hother => ?_)
    fun history hhistory hopen => ?_, hclosed⟩
  · -- The nid of an open stamp is a new one, so that it has no UUID but the drawn one.
    have hdrawn := hfields hopen
    rw [hresolves.nid?_eq] at hother
    split at hother
    · rename_i hmem
      have hmem := (Registry.mem_unmapped_iff.mp hmem).1
      rw [huuids, List.mem_singleton] at hmem
      rwa [hmem]
    · obtain ⟨⟨found, hmem, hnid⟩, -⟩ | ⟨-, rfl, -⟩ := hresolves.origin
      · rw [huuids, List.mem_singleton] at hmem
        rw [hmem, hnew hdrawn] at hnid
        cases hnid
      · exact absurd (h.consistent.allocated hother).2 Int32.lt_irrefl
  · rw [hclosed history hhistory] at hopen
    cases hopen

end Stamped

end Chronicle
