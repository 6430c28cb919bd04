import Chronicle.Proofs.Store.Runs

/-!
# Creating stamps

A stamp is created by offering its fields to the nid of a UUID. Where nothing is stored for that nid
the stamp starts, and where the very stamp is stored already nothing changes. A nid can have another
stamp, though: its UUIDs were folded together by a resolution that named several of them. The answer
tells this apart only if the other stamp is canceled. If it is committed, the fields are dropped; if
it is open, it takes them.
-/

namespace Chronicle

open StampHistory (storedIn?)

variable {l m : Ledger} {nid : Nid} {uuid : Uuid} {fields : StampFields}

/-- The stamp that is created is a new one, or the nid has a stamp to which the fields were
offered. -/
theorem Creates.stored_cases (h : Creates uuid fields l nid m) {history : StampHistory}
    (hhistory : storedIn? m.content nid = some history) :
    (l.content nid = none ∧ history = .start fields) ∨
      ∃ before, storedIn? l.content nid = some before ∧ history = before.push fields := by
  rw [h.content_eq] at hhistory
  exact storedIn?_offering hhistory

/-- What is stored for other nids stays. -/
theorem Creates.content_ne (h : Creates uuid fields l nid m) {other : Nid} (hother : other ≠ nid) :
    m.content other = l.content other := by
  rw [h.content_eq, offering, replaced, if_neg hother]

/-- A stamp that is stored is the one that was asked for, and no payload was touched, unless another
stamp was in its place. -/
theorem Creates.recorded_iff (h : Creates uuid fields l nid m)
    (hstored : (storedIn? m.content nid).isSome) :
    (StampFields.storedIn? m.content nid = some fields ∧
        ∀ other payload, l.content other = some payload → m.content other = some payload) ↔
      ∀ found, StampFields.storedIn? l.content nid = some found → found = fields := by
  obtain ⟨after, hafter⟩ := Option.isSome_iff_exists.mp hstored
  have hcurrent : StampFields.storedIn? m.content nid = some after.current :=
    storedIn?_of_history hafter
  constructor
  · rintro ⟨hrecorded, hkept⟩ found hfound
    obtain ⟨before, hbefore, rfl⟩ := Option.map_eq_some_iff.mp hfound
    obtain ⟨payload, hpayload, -⟩ := exists_of_storedIn? hbefore
    have hsame : storedIn? m.content nid = storedIn? l.content nid := by
      rw [storedIn?, storedIn?, hkept nid payload hpayload, hpayload]
    rw [hsame, hbefore, Option.some.injEq] at hafter
    rw [hcurrent, Option.some.injEq] at hrecorded
    rw [hafter, hrecorded]
  · intro hfound
    obtain ⟨hnone, rfl⟩ | ⟨before, hbefore, rfl⟩ := h.stored_cases hafter
    · refine ⟨hcurrent, fun other payload hpayload => ?_⟩
      have hother : other ≠ nid := by
        rintro rfl
        rw [hnone] at hpayload
        cases hpayload
      rw [h.content_ne hother, hpayload]
    · obtain rfl := hfound before.current (storedIn?_of_history hbefore)
      have hrefused := StampHistory.push_current before
      rw [hrefused] at hcurrent
      refine ⟨hcurrent, fun other payload hpayload => ?_⟩
      rw [h.content_eq, offering_of_refused hbefore hrefused, hpayload]

/-- A new UUID gets the next nid. -/
theorem Creates.eq_next (h : Creates uuid fields l nid m) (hnew : l.registry.nid? uuid = none) :
    nid = l.registry.next := by
  obtain ⟨id, huuids, hresolve⟩ := h.resolved
  exact ((Registry.resolves_of_resolve hresolve).eq_next_of_new huuids hnew).1

/-- Under a new UUID no other stamp is in the way. -/
theorem Ledger.Accounted.unstored_of_creates (hl : l.Accounted) (h : Creates uuid fields l nid m)
    (hnew : l.registry.nid? uuid = none) : StampFields.storedIn? l.content nid = none := by
  rw [h.eq_next hnew, StampFields.storedIn?, Option.map_eq_none_iff]
  cases hstored : storedIn? l.content l.registry.next with
  | none => rfl
  | some history => exact absurd (hl.stamps _ history hstored) l.registry.not_allocated_next

namespace Store

variable {s t opened : Store} {config : Config} {medium next : Medium} {rooted : Bool}

/-- A call that records a stamp and succeeds, with the UUID under which it does, the fields that it
is given, its answer and the store that it leaves. -/
inductive RecordsStamp (s : Store) : Uuid → StampFields → Nid → Store → Prop
  | committed {fields : StampFields} {fresh : Uuid} {nid : Nid} {t : Store}
      (h : commitStamp fields fresh s = .ok nid t) :
      RecordsStamp s (s.stampUuid fields fresh) fields nid t
  | drafted {before after : Transaction} {status : Status} {author module path nid : Nid}
      {fresh : Uuid} {t : Store}
      (h : Transaction.stamp status author module path fresh (before, s) = .ok nid (after, t)) :
      RecordsStamp s fresh (.draft status author module path) nid t

/-- The answer names a stamp with the fields that were asked for, and every payload stayed. -/
structure RecordsOnly (s : Store) (fields : StampFields) (nid : Nid) (t : Store) : Prop where
  recorded : (attempt (stamp nid) t).1 = .ok fields
  kept : ∀ other payload, (SpineStore.lookup other s.spines).1 = some payload →
    (SpineStore.lookup other t.spines).1 = some payload

private theorem RecordsStamp.createStamp_eq (h : RecordsStamp s uuid fields nid t) :
    createStamp fields uuid s = .ok nid t := by
  cases h with
  | committed h =>
    rw [commitStamp] at h
    split at h
    · cases h
    · exact h
  | drafted h => exact Transaction.createStamp_of_stamp h

/-- What a call that succeeds has done to the ledger. -/
theorem RecordsStamp.creates (h : RecordsStamp s uuid fields nid t) (hs : s.Bears config l) :
    ∃ m, Creates uuid fields l nid m ∧ (storedIn? m.content nid).isSome ∧ t.Bears config m :=
  (follows_createStamp hs fields uuid).of_ok h.createStamp_eq

/-- In terms of ledgers, recording a stamp adds its fields and keeps every payload. -/
theorem Bears.recordsOnly_iff (hs : s.Bears config l) (ht : t.Bears config m) :
    RecordsOnly s fields nid t ↔ StampFields.storedIn? m.content nid = some fields ∧
      ∀ other payload, l.content other = some payload → m.content other = some payload := by
  simp only [← ht.stamp_iff, ← hs.lookup_eq, ← ht.lookup_eq]
  exact ⟨fun h => ⟨h.recorded, h.kept⟩, fun h => ⟨h.1, h.2⟩⟩

/-- **What a recorded stamp is.** Whatever was done with a store before, payloads merged past it
included: a call that records a stamp and succeeds leaves a stamp with exactly the fields that were
asked for, and no other trace in what was stored, just if any stamp that its nid had before was this
very stamp. Whatever it had, no payload of another nid changes. On a store that was empty, and past
which no payload was merged, a UUID that names nothing yet is enough. -/
theorem stamp_recorded_iff (hmedium : medium.Legible)
    (hopen : overMedium config rooted medium = .ok opened next) {operations : List Operation}
    (h : RecordsStamp (opened.performAll operations) uuid fields nid t) :
    let s := opened.performAll operations
    (RecordsOnly s fields nid t ↔
        ∀ found, (attempt (stamp nid) s).1 = .ok found → found = fields) ∧
      (∀ other, other ≠ nid →
        (SpineStore.lookup other t.spines).1 = (SpineStore.lookup other s.spines).1) ∧
      (medium.backing.Blank → (∀ operation ∈ operations, ¬ operation.MergesPayload) →
        s.registry.nid? uuid = none → RecordsOnly s fields nid t) := by
  intro s
  obtain ⟨l, hs⟩ := bears_performAll hmedium hopen operations
  obtain ⟨m, hcreates, hstored, ht⟩ := h.creates hs
  have hiff : RecordsOnly s fields nid t ↔
      ∀ found, (attempt (stamp nid) s).1 = .ok found → found = fields := by
    rw [hs.recordsOnly_iff ht, hcreates.recorded_iff hstored]
    simp only [s, hs.stamp_iff]
  refine ⟨hiff, fun other hother => ?_, fun hblank hmerges hnew => hiff.mpr fun found hfound => ?_⟩
  · rw [ht.lookup_eq, hs.lookup_eq, hcreates.content_ne hother]
  · have hl := accounted_performAll hblank hopen hmerges hs
    rw [hs.stamp_iff, hl.unstored_of_creates hcreates (hs.registry_eq ▸ hnew)] at hfound
    cases hfound

/-- A committed stamp is recorded again under its nid. -/
theorem stamp_recorded_iff_shared :
    ∃ opened next operations fields nid t,
      overMedium { spineSize := 4 } false Medium.inMemory = .ok opened next ∧
      let s := opened.performAll operations
      (attempt (stamp nid) s).1 = .ok fields ∧
      RecordsStamp s (s.stampUuid fields ⟨3⟩) fields nid t ∧ RecordsOnly s fields nid t := by
  let path : Nid := ⟨-2147483642⟩
  let fields : StampFields := ⟨.active, 5, path, path, path⟩
  let operations : List Operation := [.resolveAliases [⟨1⟩], .commitStamp fields ⟨2⟩]
  obtain ⟨opened, next, nid, hopen, hstamp, hcommit⟩ :
      ∃ opened next nid, overMedium { spineSize := 4 } false Medium.inMemory = .ok opened next ∧
        let s := opened.performAll operations
        (attempt (stamp nid) s).1 = .ok fields ∧ (attempt (commitStamp fields ⟨3⟩) s).1 = .ok nid :=
    ⟨_, _, ⟨-2147483641⟩, rfl, by decide +kernel, by decide +kernel⟩
  have hrecords := RecordsStamp.committed (ok_of_attempt hcommit)
  refine ⟨opened, next, operations, fields, nid, _, hopen, hstamp, hrecords, ?_⟩
  refine (stamp_recorded_iff (.blank Backing.blank_inMemory) hopen hrecords).1.mpr ?_
  intro found hfound
  exact Except.ok.inj (hfound.symm.trans hstamp)

/-- Two committed stamps whose UUIDs were resolved together share a nid. The second one is answered
as if it was recorded, but the first one stays. -/
theorem stamp_dropped :
    ∃ opened next operations fields fresh nid t found,
      overMedium { spineSize := 4 } false Medium.inMemory = .ok opened next ∧
      (∀ operation ∈ operations, ¬ operation.MergesPayload) ∧
      commitStamp fields fresh (opened.performAll operations) = .ok nid t ∧
      (attempt (stamp nid) t).1 = .ok found ∧ found ≠ fields := by
  let path : Nid := ⟨-2147483642⟩
  let first : StampFields := ⟨.active, 5, path, path, path⟩
  let second : StampFields := ⟨.active, 6, path, path, path⟩
  let operations : List Operation :=
    [.resolveAliases [⟨1⟩], .resolveAliases [first.contentUuid, second.contentUuid],
      .commitStamp first ⟨2⟩]
  obtain ⟨opened, next, hopen, hcommit, hstamp⟩ :
      ∃ opened next, overMedium { spineSize := 4 } false Medium.inMemory = .ok opened next ∧
        let run := attempt (commitStamp second ⟨3⟩) (opened.performAll operations)
        run.1 = .ok ⟨-2147483641⟩ ∧ (attempt (stamp ⟨-2147483641⟩) run.2).1 = .ok first :=
    ⟨_, _, rfl, by decide +kernel, by decide +kernel⟩
  refine ⟨opened, next, operations, second, ⟨3⟩, _, _, first, hopen, ?_, ok_of_attempt hcommit,
    hstamp, by decide⟩
  simp [operations, Operation.MergesPayload]

end Store

end Chronicle
