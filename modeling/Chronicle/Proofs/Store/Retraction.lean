import Chronicle.Proofs.Store.Creation

/-!
# Retracting a version

A version is retracted in three steps, each of which writes to a nid of its own: its stamp gets a
canceled entry if it is open, a canceled stamp is created, and a copy of the version is recorded
under that. Two of the three are told apart by what is stored for them, since no stamp is a
chronology. So what a step leaves is what the next one finds, except where the new stamp gets in the
way; and a UUID that names nothing yet leads to a nid at which nothing is stored.
-/

namespace Chronicle

open StampHistory (storedIn?)

variable {content : Nid → Option Bytes} {l m n o : Ledger} {nid stamp copy : Nid} {fresh : Uuid}
  {fields : StampFields} {recorded : Chronology} {version : Version} {history : StampHistory}

/-! ## The stamp of the version -/

/-- What canceling a stamp leaves: an open one has one entry more, and that is all. -/
structure Cancels (stamp : Nid) (history : StampHistory) (l m : Ledger) : Prop where
  registry_eq : m.registry = l.registry
  others : ∀ other, other ≠ stamp → m.content other = l.content other
  closed : history.current.isUncommitted = false → m.content = l.content
  opened : history.current.isUncommitted = true → m.content stamp = some
    (StampHistory.encode { earlier := history.versions, current := history.current.canceled })

/-- Canceling a stamp leaves what `Cancels` says. -/
theorem Deed.Turns.cancels (h : (Deed.canceled stamp).Turns l m)
    (hhistory : storedIn? l.content stamp = some history) : Cancels stamp history l m := by
  cases h with
  | canceled hstored hregistry hcontent =>
    obtain rfl := Option.some.inj (hhistory.symm.trans hstored)
    refine ⟨hregistry, fun other hother => ?_, fun hclosed => ?_, fun hopen => ?_⟩
    · rw [hcontent, offering, replaced, if_neg hother]
    · rw [hcontent, offering_of_closed _ hhistory hclosed]
    · obtain ⟨payload, hpayload, hdecode⟩ := exists_of_storedIn? hhistory
      have htaken := StampHistory.push_of_open hopen
        (StampFields.isUncommitted_canceled history.current)
      have hchanged : history.push history.current.canceled ≠ history := by
        intro hsame
        have hcurrent := congrArg StampHistory.current hsame
        rw [htaken] at hcurrent
        change history.current.canceled = history.current at hcurrent
        rw [← hcurrent, StampFields.isUncommitted_canceled] at hopen
        cases hopen
      rw [hcontent, offering, replaced, if_pos rfl, hpayload]
      change some (StampHistory.mergePayload payload _) = _
      rw [StampHistory.mergePayload_start hdecode, if_neg hchanged, htaken]

/-- The stamp is read with its canceled entry, if it is read at all. Its history can have outgrown
the count of its entries. -/
theorem Cancels.stored (h : Cancels stamp history l m)
    (hhistory : storedIn? l.content stamp = some history) {found : StampHistory}
    (hfound : storedIn? m.content stamp = some found) :
    found = history.push history.current.canceled := by
  cases hopen : history.current.isUncommitted with
  | true =>
    obtain ⟨payload, hpayload, hdecode⟩ := exists_of_storedIn? hfound
    rw [h.opened hopen, Option.some.injEq] at hpayload
    rw [← hpayload] at hdecode
    rw [StampHistory.push_of_open hopen (StampFields.isUncommitted_canceled _)]
    exact StampHistory.eq_of_decode_encode hdecode
  | false =>
    rw [h.closed hopen, hhistory, Option.some.injEq] at hfound
    rw [StampHistory.push_of_closed hopen, hfound]

/-- It is read if four bytes count its entries. -/
theorem Cancels.isSome_stored (h : Cancels stamp history l m)
    (hhistory : storedIn? l.content stamp = some history)
    (hroom : history.versions.length + 1 < UInt32.size) : (storedIn? m.content stamp).isSome := by
  cases hopen : history.current.isUncommitted with
  | true =>
    have hlength : ({ earlier := history.versions, current := history.current.canceled } :
        StampHistory).versions.length < UInt32.size := by
      simpa [StampHistory.versions] using hroom
    rw [storedIn?, h.opened hopen, Option.bind_some, StampHistory.decode_encode hlength]
    rfl
  | false =>
    rw [h.closed hopen, hhistory]
    rfl

/-- Once a stamp was canceled, no fields that are offered change it. -/
theorem Cancels.offering_eq (h : Cancels stamp history l m)
    (hhistory : storedIn? l.content stamp = some history) (target : Nid) (fields : StampFields) :
    offering m.content target fields stamp = m.content stamp := by
  by_cases htarget : stamp = target
  · subst htarget
    cases hstored : storedIn? m.content stamp with
    | some found =>
      refine congrFun (offering_of_closed fields hstored ?_) stamp
      rw [h.stored hhistory hstored]
      exact StampHistory.isUncommitted_push fun _ => StampFields.isUncommitted_canceled _
    | none =>
      -- A history that outgrew its count is no stamp any more, and is not replaced.
      cases hopen : history.current.isUncommitted with
      | true => rw [offering_of_other fields (h.opened hopen) hstored]
      | false =>
        rw [h.closed hopen, hhistory] at hstored
        cases hstored
  · rw [offering, replaced, if_neg htarget]

/-! ## The chronology of the component -/

/-- No stamp is a chronology. -/
theorem storedIn?_of_chronology (h : Chronology.decoded? (content nid) = some recorded) :
    storedIn? content nid = none := by
  obtain ⟨payload, hpayload, hdecode⟩ := Chronology.decoded?_eq_some_iff.mp h
  rw [storedIn?, hpayload]
  exact StampHistory.not_decode_of_head? (Chronology.head?_of_decode hdecode) (by decide)

/-- Fields that are offered leave a chronology as it is. -/
theorem offering_of_chronology (h : Chronology.decoded? (content nid) = some recorded)
    (target : Nid) (fields : StampFields) : offering content target fields nid = content nid := by
  by_cases htarget : nid = target
  · subst htarget
    obtain ⟨payload, hpayload, -⟩ := Chronology.decoded?_eq_some_iff.mp h
    rw [offering_of_other fields hpayload (storedIn?_of_chronology h)]
  · rw [offering, replaced, if_neg htarget]

/-- What recording a copy of a version under a closed stamp leaves: the chronology takes the copy if
it is that of the component, and nothing else changes. -/
structure Copies (nid : Nid) (recorded : Chronology) (copied : Version) (n o : Ledger) :
    Prop where
  registry_eq : o.registry = n.registry
  others : ∀ other, other ≠ nid → o.content other = n.content other
  foreign : recorded.nid ≠ nid → o.content nid = n.content nid
  own : recorded.nid = nid → o.content nid = some (recorded.append copied).encode

/-- Recording a copy of a version leaves what `Copies` says. -/
theorem Deed.Turns.copies
    (h : (Deed.recorded nid recorded.kind ⟨copy, version.fields⟩).Turns n o)
    (hrecorded : Chronology.decoded? (n.content nid) = some recorded)
    (hversion : recorded.version? stamp = some version)
    (hclosed : ∀ found, StampFields.storedIn? n.content copy = some found →
      found.isUncommitted = false) : Copies nid recorded ⟨copy, version.fields⟩ n o := by
  obtain ⟨payload, hpayload, hdecode⟩ := Chronology.decoded?_eq_some_iff.mp hrecorded
  have hlength := Chronology.length_fields_lt hrecorded hversion
  cases h with
  | recorded hstored hregistry hcontent =>
    rw [hclosed _ hstored, hpayload] at hcontent
    refine ⟨hregistry, fun other hother => ?_, fun hforeign => ?_, fun hown => ?_⟩
    · rw [hcontent, replaced, if_neg hother]
    · have hother : ¬ (Chronology.start nid recorded.kind ⟨copy, version.fields⟩).nid =
          recorded.nid := fun hsame => hforeign hsame.symm
      have hread : Chronology.decode (Chronology.start nid recorded.kind
          ⟨copy, version.fields⟩).encode = .ok (.start nid recorded.kind ⟨copy, version.fields⟩) :=
        Chronology.decode_encode (Chronology.fits_start nid recorded.kind hlength)
      rw [hcontent, replaced, if_pos rfl, hpayload]
      simp only [SpineStore.merged, Chronology.mergePayload, hdecode, hread, if_neg hother]
    · rw [hcontent, replaced, if_pos rfl]
      exact congrArg some (Chronology.mergePayload_start hdecode hown hlength)

/-- A chronology that took a copy is read with it, if it is read at all. -/
theorem Copies.eq_append {copied : Version} (h : Copies nid recorded copied n o)
    (hown : recorded.nid = nid) (hrecorded : Chronology.decoded? (n.content nid) = some recorded)
    (hlength : copied.fields.length < UInt32.size) {c : Chronology}
    (hc : Chronology.decoded? (o.content nid) = some c) : c = recorded.append copied := by
  obtain ⟨payload, -, hdecode⟩ := Chronology.decoded?_eq_some_iff.mp hrecorded
  obtain ⟨encoded, hencoded, hread⟩ := Chronology.decoded?_eq_some_iff.mp hc
  rw [h.own hown, Option.some.injEq] at hencoded
  rw [← hencoded] at hread
  refine Chronology.eq_of_decode_encode (fun v hv => ?_) hread
  rcases (Chronology.takes_append recorded copied).mem v hv with rfl | hbefore
  · exact hlength
  · exact (Chronology.fits_of_decode hdecode).fields_lt v hbefore

/-- A chronology in which a copy is found took it. -/
theorem Copies.own_of_records {copied : Version} (h : Copies nid recorded copied n o)
    (hrecorded : Chronology.decoded? (n.content nid) = some recorded) {c : Chronology}
    (hc : Chronology.decoded? (o.content nid) = some c)
    (hrecords : Store.records c nid copied = true) : recorded.nid = nid := by
  by_contra hforeign
  rw [h.foreign hforeign, hrecorded, Option.some.injEq] at hc
  obtain ⟨hnid, -⟩ : c.nid = nid ∧ _ := by simpa [Store.records] using hrecords
  exact hforeign (hc ▸ hnid)

namespace Store

/-- A component is not the stamp of one of its versions. -/
theorem Retractable.ne (h : Retractable content nid stamp recorded version history) :
    nid ≠ stamp := by
  rintro rfl
  have hhistory := h.history_eq
  rw [storedIn?_of_chronology h.recorded_eq] at hhistory
  cases hhistory

/-- The first two steps leave the chronology as it is. -/
theorem Retractable.content_eq (h : Retractable l.content nid stamp recorded version history)
    (hcancels : Cancels stamp history l m) (hcreates : Creates fresh fields m copy n) :
    n.content nid = l.content nid := by
  have hclosed := hcancels.others nid h.ne
  have hrecorded := h.recorded_eq
  rw [← hclosed] at hrecorded
  rw [hcreates.content_eq, offering_of_chronology hrecorded, hclosed]

/-- The chronology is still there once the new stamp was created. -/
theorem Retractable.reread (h : Retractable l.content nid stamp recorded version history)
    (hcancels : Cancels stamp history l m) (hcreates : Creates fresh fields m copy n) :
    Chronology.decoded? (n.content nid) = some recorded := by
  rw [h.content_eq hcancels hcreates, h.recorded_eq]

/-- The copy is recorded under a stamp that is closed. -/
theorem closed_of_creates (h : Creates fresh history.current.canceled m copy n)
    {found : StampFields} (hfound : StampFields.storedIn? n.content copy = some found) :
    found.isUncommitted = false := by
  obtain ⟨after, hafter, rfl⟩ := Option.map_eq_some_iff.mp hfound
  obtain ⟨-, rfl⟩ | ⟨before, -, rfl⟩ := h.stored_cases hafter
  · exact StampFields.isUncommitted_canceled _
  · exact StampHistory.isUncommitted_push fun _ => StampFields.isUncommitted_canceled _

/-- Recording the copy is the last step. -/
theorem Retractable.copies (h : Retractable l.content nid stamp recorded version history)
    (hcancels : Cancels stamp history l m)
    (hcreates : Creates fresh history.current.canceled m copy n)
    (hrecorded : (Deed.recorded nid recorded.kind ⟨copy, version.fields⟩).Turns n o) :
    Copies nid recorded ⟨copy, version.fields⟩ n o :=
  hrecorded.copies (h.reread hcancels hcreates) h.version_eq fun _ => closed_of_creates hcreates

/-- Neither of the last two steps touches the stamp of the version. -/
theorem Retractable.stamp_eq (h : Retractable l.content nid stamp recorded version history)
    (hcancels : Cancels stamp history l m) (hcreates : Creates fresh fields m copy n)
    {copied : Version} (hcopies : Copies nid recorded copied n o) :
    o.content stamp = m.content stamp := by
  rw [hcopies.others stamp h.ne.symm, hcreates.content_eq, hcancels.offering_eq h.history_eq]

/-! ## Retractions that succeed -/

/-- The stamp of a version that was retracted has taken a canceled entry if it was open. -/
theorem Retracts.storedIn?_stamp (h : Retracts nid stamp fresh l copy o) :
    ∃ history, storedIn? l.content stamp = some history ∧
      storedIn? o.content stamp = some (history.push history.current.canceled) := by
  obtain ⟨hfound, hclosed, hremains, hcreates, -, hrecorded, -, -⟩ := h
  rename_i recorded c version history m n
  have hcancels := hclosed.cancels hfound.history_eq
  have hcopies := hfound.copies hcancels hcreates hrecorded
  refine ⟨history, hfound.history_eq, ?_⟩
  obtain ⟨after, hafter⟩ := Option.isSome_iff_exists.mp hremains
  rw [storedIn?, hfound.stamp_eq hcancels hcreates hcopies]
  change storedIn? m.content stamp = _
  rw [hafter, hcancels.stored hfound.history_eq hafter]

/-- What retracting a version leaves where the new stamp was not in the way. -/
structure Retraction (nid stamp copy : Nid) (recorded : Chronology) (version : Version)
    (history : StampHistory) (before after : Nid → Option Bytes) : Prop where
  found : Retractable before nid stamp recorded version history
  unused : before copy = none
  created : storedIn? after copy = some (.start history.current.canceled)
  copied : ∃ c, Chronology.storedIn? after nid = some c ∧ c.nid = recorded.nid ∧
    c.kind = recorded.kind ∧ c.versions = recorded.versions ++ [⟨copy, version.fields⟩]
  closed : history.current.isUncommitted = false → after stamp = before stamp
  opened : history.current.isUncommitted = true → storedIn? after stamp =
    some { earlier := history.versions, current := history.current.canceled }
  others : ∀ other, other ≠ copy → other ≠ nid → other ≠ stamp → after other = before other

/-- On a ledger that accounts for everything, a new UUID leads to a nid without a payload. -/
theorem Retractable.unused (h : Retractable l.content nid stamp recorded version history)
    (hl : l.Accounted) (hnew : l.registry.nid? fresh = none) (hcancels : Cancels stamp history l m)
    (hcreates : Creates fresh fields m copy n) {after : StampHistory}
    (hafter : storedIn? n.content copy = some after) :
    copy = l.registry.next ∧ copy ≠ nid ∧ copy ≠ stamp ∧ l.content copy = none ∧
      after = .start fields := by
  have hnext : copy = l.registry.next := by
    rw [hcreates.eq_next (hcancels.registry_eq ▸ hnew), hcancels.registry_eq]
  have hunallocated : ¬ l.registry.Allocated copy := hnext ▸ l.registry.not_allocated_next
  have hnid : copy ≠ nid := by
    rintro rfl
    rw [storedIn?, h.content_eq hcancels hcreates] at hafter
    change storedIn? l.content copy = _ at hafter
    rw [storedIn?_of_chronology h.recorded_eq] at hafter
    cases hafter
  have hstamp : copy ≠ stamp := by
    rintro rfl
    exact hunallocated (hl.stamps _ _ h.history_eq)
  have hsame := hcancels.others copy hstamp
  obtain ⟨hnone, hstarted⟩ | ⟨before, hbefore, -⟩ := hcreates.stored_cases hafter
  · exact ⟨hnext, hnid, hstamp, hsame ▸ hnone, hstarted⟩
  · rw [storedIn?, hsame] at hbefore
    exact absurd (hl.stamps copy before hbefore) hunallocated

/-- Where the new stamp is not in the way, a retraction does nothing but what it should. -/
theorem Retracts.retraction (h : Retracts nid stamp fresh l copy o) (hl : l.Accounted)
    (hnew : l.registry.nid? fresh = none) :
    copy = l.registry.next ∧ o.registry.Allocated copy ∧ ∃ recorded version history,
      Retraction nid stamp copy recorded version history l.content o.content := by
  obtain ⟨stored, hhistory, htaken⟩ := h.storedIn?_stamp
  obtain ⟨hfound, hclosed, -, hcreates, hstored, hrecorded, hc, hrecords⟩ := h
  rename_i recorded c version history m n
  obtain rfl := Option.some.inj (hfound.history_eq.symm.trans hhistory)
  have hcancels := hclosed.cancels hfound.history_eq
  have hcopies := hfound.copies hcancels hcreates hrecorded
  have hread := hfound.reread hcancels hcreates
  have hlength := Chronology.length_fields_lt hread hfound.version_eq
  obtain ⟨after, hafter⟩ := Option.isSome_iff_exists.mp hstored
  obtain ⟨hnext, hcopy, -, hnone, rfl⟩ := hfound.unused hl hnew hcancels hcreates hafter
  refine ⟨hnext, ?_, recorded, version, history, hfound, hnone, ?_, ?_, fun hopen => ?_,
    fun hopen => ?_, fun other hother hnid hstamp => ?_⟩
  · rw [hcopies.registry_eq]
    obtain ⟨id, -, hresolve⟩ := hcreates.resolved
    exact (Registry.resolves_of_resolve hresolve).allocated m.consistent
  · rw [storedIn?, hcopies.others copy hcopy]
    exact hafter
  · have hown := hcopies.own_of_records hread hc hrecords
    obtain rfl := hcopies.eq_append hown hread hlength hc
    refine ⟨_, hc, Chronology.nid_append .., Chronology.kind_append .., ?_⟩
    refine Chronology.versions_append_of_new (Chronology.version?_eq_none_iff.mpr fun hmem => ?_)
    -- A version under this nid would be accounted for, but the nid is handed out only now.
    obtain ⟨v, hv, hvstamp⟩ := List.mem_map.mp hmem
    have hallocated := hl.versions nid recorded hfound.recorded_eq v hv
    rw [hvstamp, show (⟨copy, version.fields⟩ : Version).stamp = l.registry.next from hnext]
      at hallocated
    exact l.registry.not_allocated_next hallocated
  · rw [hfound.stamp_eq hcancels hcreates hcopies, hcancels.closed hopen]
  · rw [htaken, StampHistory.push_of_open hopen (StampFields.isUncommitted_canceled _)]
  · rw [hcopies.others other hnid, hcreates.content_ne hother, hcancels.others other hstamp]

/-- **What a retraction does.** After any run on a store that was empty, as long as the UUIDs that
are drawn differ from all others, nobody names the UUID of an existing stamp and no payload is
merged past the store: a version that is retracted successfully is copied under a nid that is
allocated for the purpose. A canceled stamp with the author, the module and the path of the original
is all that this nid has; the chronology is the old one and the copy after it; the original stamp
keeps its payload if it is committed or canceled, and takes one canceled entry otherwise; no other
payload changes. -/
theorem retraction_recorded {config : Config} {medium next : Medium} {rooted : Bool}
    {opened t : Store} {before : List Operation} (hblank : medium.backing.Blank)
    (hopen : overMedium config rooted medium = .ok opened next)
    (hproper : Throughout Operation.Proper opened before)
    (hdraws : DrawsApart config (before ++ [.cancelVersion nid stamp fresh]))
    (hrun : cancelVersion nid stamp fresh (opened.performAll before) = .ok copy t) :
    let s := opened.performAll before
    let payload (nid : Nid) (s : Store) := (SpineStore.lookup nid s.spines).1
    copy = s.registry.next ∧ ¬ s.registry.Allocated copy ∧ t.registry.Allocated copy ∧
    payload copy s = none ∧ ∃ recorded version history c,
      (attempt (chronology nid) s).1 = .ok recorded ∧ recorded.version? stamp = some version ∧
      (attempt (stampHistory stamp) s).1 = .ok history ∧
      (attempt (stampHistory copy) t).1 = .ok (.start history.current.canceled) ∧
      (attempt (chronology nid) t).1 = .ok c ∧ c.nid = recorded.nid ∧ c.kind = recorded.kind ∧
      c.versions = recorded.versions ++ [⟨copy, version.fields⟩] ∧
      (history.current.isCommitted = true ∨ history.current.isCanceled = true →
        payload stamp t = payload stamp s) ∧
      (history.current.isUncommitted = true → (attempt (stampHistory stamp) t).1 =
        .ok { earlier := history.versions, current := history.current.canceled }) ∧
      ∀ other, other ≠ copy → other ≠ nid → other ≠ stamp → payload other t = payload other s := by
  intro s payload
  obtain ⟨_, hl, horderly⟩ := (opens_of_overMedium hopen).orderly hblank
  obtain ⟨_, l, -, hs, hmiddle⟩ := hl.performAll_proper horderly hproper
    [.cancelVersion nid stamp fresh] hdraws
  have haccounted := accounted_performAll hblank hopen hproper.not_mergesPayload hs
  have hapart : Apart config ([] ++ before) (.cancelVersion nid stamp fresh) := hdraws.apart []
  have hnew := nid?_of_drawn hmiddle hapart (List.mem_singleton_self fresh)
  obtain ⟨o, hretracts, ht, -⟩ := (retracts_cancelVersion hs nid stamp fresh).of_ok hrun
  obtain ⟨hnext, hallocated, recorded, version, history, hretraction⟩ :=
    hretracts.retraction haccounted hnew
  obtain ⟨c, hc, hcnid, hckind, hversions⟩ := hretraction.copied
  simp only [s, payload, hs.lookup_eq, ht.lookup_eq, hs.registry_eq, ht.registry_eq,
    hs.chronology_iff, hs.stampHistory_iff, ht.chronology_iff, ht.stampHistory_iff]
  refine ⟨hnext, hnext ▸ l.registry.not_allocated_next, hallocated, hretraction.unused, recorded,
    version, history, c, hretraction.found.recorded_eq, hretraction.found.version_eq,
    hretraction.found.history_eq, hretraction.created, hc, hcnid, hckind, hversions,
    fun hshut => hretraction.closed (StampFields.isUncommitted_of_closed hshut),
    hretraction.opened, hretraction.others⟩

/-- A version that was drafted is retracted: its stamp is canceled and the copy comes after it. -/
theorem retraction_recorded_draft :
    ∃ opened next before component member fresh copy t c,
      overMedium { spineSize := 4 } false Medium.inMemory = .ok opened next ∧
      cancelVersion component member fresh (opened.performAll before) = .ok copy t ∧
      (attempt (chronology component) t).1 = .ok c ∧
      c.versions = [⟨member, [1]⟩, ⟨copy, [1]⟩] ∧
      ∃ history, (attempt (stampHistory member) t).1 = .ok history ∧
        history.current.isCanceled = true ∧ history.versions.length = 2 := by
  let path : Nid := ⟨-2147483642⟩
  let component : Nid := ⟨-2147483641⟩
  let member : Nid := ⟨-2147483640⟩
  let draft : StampFields := .draft .active path path path
  let before : List Operation :=
    [.resolveAliases [⟨1⟩], .resolveAliases [⟨2⟩],
      .join { name := "work" } .active path path path ⟨3⟩,
      .appendVersion component .concept ⟨member, [1]⟩]
  obtain ⟨opened, next, hopen, hfirst, hsecond, hrecorded, hhistory, hcanceled⟩ :
      ∃ opened next, overMedium { spineSize := 4 } false Medium.inMemory = .ok opened next ∧
        opened.registry.nid? ⟨1⟩ = none ∧
        (opened.performAll (before.take 1)).registry.nid? ⟨2⟩ = none ∧
        let s := opened.performAll before
        (attempt (chronology component) s).1 =
          .ok ⟨component, .concept, [⟨member, [1]⟩], by decide⟩ ∧
        (attempt (stampHistory member) s).1 = .ok (.start draft) ∧
        (attempt (cancelVersion component member ⟨4⟩) s).1 = .ok ⟨-2147483639⟩ :=
    ⟨_, _, rfl, by decide +kernel, by decide +kernel, by decide +kernel, by decide +kernel,
      by decide +kernel⟩
  have hproper : Throughout Operation.Proper opened before :=
    ⟨proper_of_unknown hfirst, proper_of_unknown hsecond, id, id, trivial⟩
  have hdraws : DrawsApart { spineSize := 4 }
      (before ++ [.cancelVersion component member ⟨4⟩]) := by
    refine ⟨by decide, by decide, fun uuid huuid status => ?_⟩
    rcases List.mem_pair.mp huuid with rfl | rfl <;> cases status <;> decide
  obtain ⟨-, -, -, -, recorded, version, history, c, hrecorded', hversion, hhistory', -, hc, -, -,
      hversions, -, hopened, -⟩ :=
    retraction_recorded Backing.blank_inMemory hopen hproper hdraws (ok_of_attempt hcanceled)
  obtain rfl := Except.ok.inj (hrecorded.symm.trans hrecorded')
  obtain rfl := Except.ok.inj (hhistory.symm.trans hhistory')
  obtain rfl := Option.some.inj (hversion.symm.trans
    (show Chronology.version? _ member = some ⟨member, [1]⟩ by decide))
  exact ⟨opened, next, before, component, member, ⟨4⟩, _, _, c, hopen, ok_of_attempt hcanceled, hc,
    hversions, _, hopened (by decide), by decide, rfl⟩

end Store

end Chronicle
