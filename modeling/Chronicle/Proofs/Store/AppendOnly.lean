import Chronicle.Proofs.Store.Finality

/-!
# Chronologies only grow

Whatever is done with a store, short of merging payloads past it, a chronology takes new stamps at
its end only, and a version is replaced only while its stamp is open. The decision is taken before
the merge, from the stamp that is stored elsewhere. It stays right because a closed stamp never
opens again: no deed changes a byte of it.
-/

namespace Chronicle

open StampHistory (storedIn?)

variable {content : Nid → Option Bytes} {l m : Ledger} {nid : Nid} {deed : Deed}

/-! ## Chronologies -/

namespace Chronology

/-- What may become of a chronology: further stamps come last, and versions under final stamps
stay. -/
structure Grows (final : Nid → Prop) (c c' : Chronology) : Prop where
  nid_eq : c'.nid = c.nid
  kind_eq : c'.kind = c.kind
  stamps : c.versions.map Version.stamp <+: c'.versions.map Version.stamp
  kept : ∀ v ∈ c.versions, final v.stamp → v ∈ c'.versions

variable {final final' : Nid → Prop} {c c' c'' : Chronology}

private theorem Grows.refl (c : Chronology) : Grows final c c :=
  ⟨rfl, rfl, List.prefix_refl _, fun _ hv _ => hv⟩

private theorem Grows.trans (h : Grows final c c') (h' : Grows final' c' c'')
    (hfinal : ∀ stamp, final stamp → final' stamp) : Grows final c c'' :=
  ⟨h'.nid_eq.trans h.nid_eq, h'.kind_eq.trans h.kind_eq, h.stamps.trans h'.stamps,
    fun v hv hstamp => h'.kept v (h.kept v hv hstamp) (hfinal _ hstamp)⟩

private theorem stamps_insertInto (version : Version) (versions : List Version) :
    versions.map Version.stamp <+: (version.insertInto versions).map Version.stamp := by
  induction versions with
  | nil => exact List.nil_prefix
  | cons first rest ih =>
    unfold Version.insertInto
    split
    · rename_i hstamp
      have hsame : (version :: rest).map Version.stamp = (first :: rest).map Version.stamp := by
        rw [List.map_cons, List.map_cons, hstamp]
      exact hsame ▸ List.prefix_refl _
    · rw [List.map_cons, List.map_cons]
      exact (List.prefix_cons_inj _).mpr ih

/-- Recording a version changes at most the one under its stamp, and none if there is to be no
replacement. -/
theorem grows_recorded (replace : Bool) (c : Chronology) (version : Version) :
    Grows (fun stamp => replace = true → stamp ≠ version.stamp) c
      ((if replace then insert else append) c version) := by
  cases replace with
  | true =>
    refine ⟨rfl, rfl, stamps_insertInto version c.versions, fun v hv hne => ?_⟩
    have hother : v ∈ c.versions.filter fun v => v.stamp ≠ version.stamp :=
      List.mem_filter.mpr ⟨hv, by simpa using hne rfl⟩
    rw [← (takes_insertInto version c.versions).others] at hother
    exact (List.mem_filter.mp hother).1
  | false =>
    have hprefix : c.versions <+: (c.append version).versions := by
      cases hrecorded : c.version? version.stamp with
      | some recorded =>
        have hsame : c.append version = c := append_of_recorded (by rw [hrecorded]; rfl)
        exact hsame.symm ▸ List.prefix_refl _
      | none =>
        rw [versions_append_of_new hrecorded]
        exact List.prefix_append _ _
    exact ⟨nid_append c version, kind_append c version, hprefix.map _,
      fun v hv _ => hprefix.subset hv⟩

/-- The chronology that is stored for a nid, if there is one. -/
def storedIn? (content : Nid → Option Bytes) (nid : Nid) : Option Chronology :=
  decoded? (content nid)

/-- A stamp that is offered leaves every chronology. -/
theorem storedIn?_offering (content : Nid → Option Bytes) (target : Nid) (fields : StampFields)
    (nid : Nid) : storedIn? (offering content target fields) nid = storedIn? content nid := by
  rw [storedIn?, offering, replaced]
  split
  · rename_i htarget
    rw [← htarget]
    exact decode_offered fields (content nid)
  · rfl

end Chronology

/-- The versions of a component have distinct stamps, none of which lies below the first nid. -/
structure Filed (content : Nid → Option Bytes) : Prop where
  nodup : ∀ nid c, Chronology.storedIn? content nid = some c → (c.versions.map Version.stamp).Nodup
  placed : ∀ nid c, Chronology.storedIn? content nid = some c → ∀ v ∈ c.versions,
    Nid.first.raw ≤ v.stamp.raw

/-- Where nothing is stored no chronology is out of order. -/
theorem filed_empty : Filed fun _ => none :=
  ⟨fun _ _ h => (by cases h), fun _ _ h => (by cases h)⟩

/-- The one nid below the first one is no stamp, so that four bytes count the versions of every
component. -/
theorem Filed.free (h : Filed content) {c : Chronology}
    (hc : Chronology.storedIn? content nid = some c) :
    (⟨Int32.minValue⟩ : Nid) ∉ c.versions.map Version.stamp := by
  intro hmem
  obtain ⟨v, hv, hstamp⟩ := List.mem_map.mp hmem
  have hplaced := h.placed nid c hc v hv
  rw [hstamp] at hplaced
  exact absurd hplaced (by decide)

/-- What a deed makes of a chronology. -/
theorem Deed.Turns.chronology_cases (h : deed.Turns l m) (hfiled : Filed l.content) (nid : Nid) :
    Chronology.storedIn? m.content nid = Chronology.storedIn? l.content nid ∨
      ∃ version fields, StampFields.storedIn? l.content version.stamp = some fields ∧
        ((∃ c, l.content nid = none ∧ Chronology.storedIn? m.content nid = some c ∧
            c.versions = [version]) ∨
          ∃ c, Chronology.storedIn? l.content nid = some c ∧
            Chronology.storedIn? m.content nid = some
              ((if fields.isUncommitted then Chronology.insert else Chronology.append) c
                version)) := by
  cases h with
  | resolved _ hcontent => exact Or.inl (by rw [hcontent])
  | created _ _ hcontent => exact Or.inl (by rw [hcontent, Chronology.storedIn?_offering])
  | committed _ _ hcontent => exact Or.inl (by rw [hcontent, Chronology.storedIn?_offering])
  | canceled _ _ hcontent => exact Or.inl (by rw [hcontent, Chronology.storedIn?_offering])
  | @recorded _ _ target kind version fields hstored _ hcontent =>
    by_cases htarget : nid = target
    · subst htarget
      have hne : (⟨Int32.minValue⟩ : Nid) ≠ version.stamp := by
        rintro heq
        obtain ⟨history, hhistory, -⟩ := Option.map_eq_some_iff.mp hstored
        have hplaced := Store.le_of_storedIn? hhistory
        rw [← heq] at hplaced
        exact absurd hplaced (by decide)
      rw [Chronology.storedIn?, hcontent, replaced, if_pos rfl]
      rcases Chronology.decoded?_merged nid kind fields.isUncommitted (l.content nid)
        (hfiled.nodup nid) (fun c => hfiled.free) hne with
        hsame | ⟨c, bytes, hnone, hstarted, hsingle⟩ | ⟨c, bytes, hfound, htaken⟩
      · exact Or.inl hsame
      · exact Or.inr ⟨⟨version.stamp, bytes⟩, fields, hstored, Or.inl ⟨c, hnone, hstarted, hsingle⟩⟩
      · exact Or.inr ⟨⟨version.stamp, bytes⟩, fields, hstored, Or.inr ⟨c, hfound, htaken⟩⟩
    · left
      rw [Chronology.storedIn?, hcontent, replaced, if_neg htarget]
      rfl
  | settled _ hcontent => exact Or.inl (by rw [hcontent])

/-- Every deed keeps the stamps of a component distinct. -/
theorem Deed.Turns.filed (h : deed.Turns l m) (hfiled : Filed l.content) : Filed m.content := by
  have hcases (nid : Nid) (c' : Chronology) (hc' : Chronology.storedIn? m.content nid = some c') :
      (c'.versions.map Version.stamp).Nodup ∧ ∀ v ∈ c'.versions, Nid.first.raw ≤ v.stamp.raw := by
    rcases h.chronology_cases hfiled nid with hsame | ⟨version, fields, hstored, hrecorded⟩
    · rw [hsame] at hc'
      exact ⟨hfiled.nodup nid c' hc', hfiled.placed nid c' hc'⟩
    · obtain ⟨history, hhistory, -⟩ := Option.map_eq_some_iff.mp hstored
      have hplaced := Store.le_of_storedIn? hhistory
      rcases hrecorded with ⟨c, -, hstarted, hsingle⟩ | ⟨c, hc, htaken⟩
      · obtain rfl : c = c' := Option.some.inj (hstarted.symm.trans hc')
        rw [hsingle]
        exact ⟨List.nodup_singleton _, by simpa using hplaced⟩
      · obtain rfl := Option.some.inj (htaken.symm.trans hc')
        have htakes := Chronology.takes_recorded fields.isUncommitted c version
        refine ⟨htakes.nodup (hfiled.nodup nid c hc), fun v hv => ?_⟩
        rcases htakes.mem v hv with rfl | hbefore
        · exact hplaced
        · exact hfiled.placed nid c hc v hbefore
  exact ⟨fun nid c hc => (hcases nid c hc).1, fun nid c hc => (hcases nid c hc).2⟩

/-- A chronology grows by every deed. What is closed before the deed is final. -/
theorem Deed.Turns.grows (h : deed.Turns l m) (hfiled : Filed l.content) {c : Chronology}
    (hc : Chronology.storedIn? l.content nid = some c) :
    ∃ c', Chronology.storedIn? m.content nid = some c' ∧
      Chronology.Grows (ClosedIn l.content) c c' := by
  rcases h.chronology_cases hfiled nid with hsame | ⟨version, fields, hstored, hrecorded⟩
  · exact ⟨c, hsame.trans hc, .refl c⟩
  · rcases hrecorded with ⟨_, hnone, -, -⟩ | ⟨found, hfound, htaken⟩
    · rw [Chronology.storedIn?, hnone] at hc
      cases hc
    · obtain rfl : found = c := Option.some.inj (hfound.symm.trans hc)
      refine ⟨_, htaken, ?_⟩
      have hgrows := Chronology.grows_recorded fields.isUncommitted found version
      refine ⟨hgrows.nid_eq, hgrows.kind_eq, hgrows.stamps, fun v hv hclosed => ?_⟩
      refine hgrows.kept v hv fun hopen hstamp => ?_
      -- A version is replaced under an open stamp only.
      obtain ⟨closed, hfields, hshut⟩ := hclosed
      rw [hstamp, hstored, Option.some.injEq] at hfields
      rw [hfields, hshut] at hopen
      cases hopen

/-- Deeds keep the stamps of a component distinct, however many. -/
theorem Deed.TurnAll.filed {deeds : List Deed} (h : Deed.TurnAll deeds l m)
    (hfiled : Filed l.content) : Filed m.content := by
  induction h with
  | nil => exact hfiled
  | cons hfirst _ ih => exact ih (hfirst.filed hfiled)

/-- Through all deeds a chronology only grows, and keeps what closed stamps say. -/
theorem Deed.TurnAll.grows {deeds : List Deed} (h : Deed.TurnAll deeds l m)
    (hfiled : Filed l.content) {c : Chronology}
    (hc : Chronology.storedIn? l.content nid = some c) :
    ∃ c', Chronology.storedIn? m.content nid = some c' ∧
      Chronology.Grows (ClosedIn l.content) c c' := by
  induction h generalizing c with
  | nil => exact ⟨c, hc, .refl c⟩
  | cons hfirst _ ih =>
    obtain ⟨middle, hmiddle, hgrows⟩ := hfirst.grows hfiled hc
    obtain ⟨last, hlast, hgrows'⟩ := ih (hfirst.filed hfiled) hmiddle
    exact ⟨last, hlast,
      hgrows.trans hgrows' fun stamp hclosed => hclosed.congr (hfirst.content_eq hclosed)⟩

namespace Store

/-- **History is appended to.** Let operations be performed on a store that was empty, whether or
not they fail, none of which merges a payload past the store. Where a chronology is stored at some
moment, there is one of the same component at every later moment: its stamps are distinct, the
stamps of the earlier one come first and in their order, and a version whose stamp was committed or
canceled at the earlier moment is still there with the same bytes. -/
theorem chronologies_append_only {config : Config} {medium next : Medium} {rooted : Bool}
    {opened : Store} {before after : List Operation} (hblank : medium.backing.Blank)
    (hopen : overMedium config rooted medium = .ok opened next)
    (hmerges : ∀ operation ∈ before ++ after, ¬ operation.MergesPayload) {nid : Nid}
    {c : Chronology} (hc : (attempt (chronology nid) (opened.performAll before)).1 = .ok c) :
    let s := opened.performAll before
    let closed (stamp : Nid) := ∃ fields, (attempt (Store.stamp stamp) s).1 = .ok fields ∧
      (fields.isCommitted = true ∨ fields.isCanceled = true)
    ∃ c', (attempt (chronology nid) (s.performAll after)).1 = .ok c' ∧ c.Grows closed c' ∧
      (c'.versions.map Version.stamp).Nodup := by
  intro s closed
  obtain ⟨l, -, hempty, hl⟩ := (opens_of_overMedium hopen).bears hblank
  obtain ⟨_, m, hfirst, hm⟩ := hl.performAll fun operation hoperation =>
    hmerges operation (List.mem_append_left _ hoperation)
  obtain ⟨_, n, hsecond, hn⟩ := hm.performAll fun operation hoperation =>
    hmerges operation (List.mem_append_right _ hoperation)
  have hfiled : Filed m.content := hfirst.filed (hempty ▸ filed_empty)
  obtain ⟨c', hc', hgrows⟩ := hsecond.grows hfiled (hm.chronology_iff.mp hc)
  refine ⟨c', hn.chronology_iff.mpr hc', ?_, (hsecond.filed hfiled).nodup nid c' hc'⟩
  refine ⟨hgrows.nid_eq, hgrows.kind_eq, hgrows.stamps, fun v hv hclosed => hgrows.kept v hv ?_⟩
  obtain ⟨fields, hfields, hshut⟩ := hclosed
  exact ⟨fields, hm.stamp_iff.mp hfields, StampFields.isUncommitted_of_closed hshut⟩

/-- Other bytes are refused under a committed stamp, and the version is retracted by a copy. -/
theorem chronologies_append_only_retracted :
    ∃ opened next component c c' version before after,
      overMedium { spineSize := 4 } false Medium.inMemory = .ok opened next ∧
      let s := opened.performAll before
      (attempt (chronology component) s).1 = .ok c ∧ c.versions = [version] ∧
      (attempt (chronology component) (s.performAll after)).1 = .ok c' ∧
      c'.versions.length = 2 ∧ version ∈ c'.versions := by
  let path : Nid := ⟨-2147483642⟩
  let component : Nid := ⟨-2147483641⟩
  let member : Nid := ⟨-2147483640⟩
  let version : Version := ⟨member, [1]⟩
  let before : List Operation :=
    [.resolveAliases [⟨1⟩], .resolveAliases [⟨2⟩],
      .join { name := "work" } .active path path path ⟨3⟩,
      .appendVersion component .concept ⟨member, [0]⟩, .appendVersion component .concept version,
      .commit { name := "work", stamps := [member] } 7]
  let after : List Operation :=
    [.appendVersion component .concept ⟨member, [2]⟩, .cancelVersion component member ⟨4⟩]
  obtain ⟨opened, next, hopen, c, hc, hversions, hcommitted, hlength⟩ :
      ∃ opened next, overMedium { spineSize := 4 } false Medium.inMemory = .ok opened next ∧
        let s := opened.performAll before
        ∃ c, (attempt (chronology component) s).1 = .ok c ∧ c.versions = [version] ∧
          (∃ fields, (attempt (Store.stamp version.stamp) s).1 = .ok fields ∧
            (fields.isCommitted = true ∨ fields.isCanceled = true)) ∧
          (attempt (chronology component) (s.performAll after)).1.map Chronology.size = .ok 2 :=
    ⟨_, _, rfl, ⟨component, .concept, [version], by decide⟩, by decide +kernel, by decide +kernel,
      ⟨⟨.active, 7, path, path, path⟩, by decide +kernel, by decide +kernel⟩, by decide +kernel⟩
  have hmerges : ∀ operation ∈ before ++ after, ¬ operation.MergesPayload := by
    simp [before, after, Operation.MergesPayload]
  obtain ⟨c', hc', hgrows, -⟩ :=
    chronologies_append_only Backing.blank_inMemory hopen hmerges hc
  refine ⟨opened, next, component, c, c', version, before, after, hopen, hc, hversions, hc', ?_,
    hgrows.kept version (hversions ▸ List.mem_singleton_self version) hcommitted⟩
  rw [hc'] at hlength
  exact Except.ok.inj hlength

end Store

end Chronicle
