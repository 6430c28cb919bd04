import Chronicle.Proofs.Identity.History
import Chronicle.Proofs.Store.Change
import Chronicle.Proofs.Store.Opening

/-!
# The identity table of a store

As long as nobody but the store touches its registry, the registry is consistent in every moment of
every session, and the identity table on the medium is that of an earlier state of it: of the
present one if the registry has no changes.
-/

namespace Chronicle

namespace Backing

/-- The identity table was never written, or it is that of a registry. -/
def HasIdentities (backing : Backing) : Prop :=
  backing.readTable Store.identityTable = .ok none ∨
    ∃ r : Registry, r.Consistent ∧ r.Writable ∧
      backing.readTable Store.identityTable = .ok (some r.encodeTable)

/-- The nid that is handed out next by the identity table. -/
def next? (backing : Backing) : Option Nid :=
  match backing.readTable Store.identityTable with
  | .ok (some table) => (Registry.decodeTable table).toOption.map Registry.next
  | _ => none

/-- From the table of a registry the next nid is that of its counter. -/
theorem next?_of_readTable {backing : Backing} {r : Registry} (hr : r.Consistent)
    (hwritable : r.Writable)
    (h : backing.readTable Store.identityTable = .ok (some r.encodeTable)) :
    backing.next? = some r.next := by
  simp only [next?, h, hr.decodeTable_encodeTable hwritable]
  rfl

private theorem next?_of_none {backing : Backing}
    (h : backing.readTable Store.identityTable = .ok none) : backing.next? = none := by
  simp only [next?, h]

/-- Which nid is next depends on the identity table alone. -/
theorem next?_congr {backing next : Backing}
    (h : next.readTable Store.identityTable = backing.readTable Store.identityTable) :
    next.next? = backing.next? := by
  rw [next?, next?, h]

end Backing

namespace Store

variable {rules : Rules} {s t : Store} {nid : Nid}

/-- What every moment knows of the registry and its table. -/
structure Identified (s : Store) : Prop where
  consistent : s.registry.Consistent
  persisted : s.backing.HasIdentities
  next_le : ∀ next, s.backing.next? = some next → next.raw ≤ s.registry.next.raw
  settled : s.registry.changed = false → s.registry.Writable ∧
    s.backing.readTable identityTable = .ok (some s.registry.encodeTable)
  statuses : ∀ status ∈ Status.all, (s.registry.nid? status.uuid).isSome

/-- Without changes, the registry hands out the same nid next as its table. -/
theorem Identified.next?_eq (h : s.Identified) (hchanged : s.registry.changed = false) :
    s.backing.next? = some s.registry.next := by
  obtain ⟨hwritable, htable⟩ := h.settled hchanged
  exact Backing.next?_of_readTable h.consistent hwritable htable

/-- The registry and its table are all that counts. -/
theorem Identified.congr (h : s.Identified) (hregistry : t.registry = s.registry)
    (htable : t.backing.readTable identityTable = s.backing.readTable identityTable) :
    t.Identified := by
  refine ⟨hregistry ▸ h.consistent, ?_, fun next hnext => ?_, ?_, hregistry ▸ h.statuses⟩
  · rw [Backing.HasIdentities, htable]
    exact h.persisted
  · rw [Backing.next?_congr htable] at hnext
    rw [hregistry]
    exact h.next_le next hnext
  · rw [hregistry, htable]
    exact h.settled

/-- What a change does to the registry and its table: it changes neither, it resolves a public id,
or it writes the table. -/
theorem Change.identities (h : Change rules s t) :
    (t.registry = s.registry ∧
      t.backing.readTable identityTable = s.backing.readTable identityTable) ∨
    (∃ id nid, s.registry.resolve id = .ok (nid, t.registry) ∧ t.backing = s.backing) ∨
    (rules.identity s ∧ t.registry = s.registry.settled ∧
      t.backing.readTable identityTable = .ok (some s.registry.encodeTable)) := by
  cases h with
  | pool => exact Or.inl ⟨rfl, rfl⟩
  | resolved h => exact Or.inr (Or.inl ⟨_, _, h, rfl⟩)
  | linked => exact Or.inl ⟨rfl, rfl⟩
  | touched h => exact Or.inl ⟨rfl, by rw [backing, h.backing_eq (by simp)]⟩
  | installed _ h => exact Or.inl ⟨rfl, by rw [backing, h.backing_eq (by simp)]⟩
  | flushed _ _ hidentity => exact Or.inl ⟨rfl, hidentity⟩
  | identity hrule h => exact Or.inr (Or.inr ⟨hrule, rfl, h.written rfl⟩)
  | paths _ h => exact Or.inl ⟨rfl, h.other⟩
  | accessed _ hidentity => exact Or.inl ⟨rfl, hidentity⟩

/-- What was handed out stays so. -/
theorem Change.allocated (h : Change rules s t) (hnid : s.registry.Allocated nid) :
    t.registry.Allocated nid := by
  obtain ⟨hregistry, -⟩ | ⟨id, other, hresolve, -⟩ | ⟨-, hregistry, -⟩ := h.identities
  · rwa [hregistry]
  · exact (Registry.resolves_of_resolve hresolve).allocated_of_allocated hnid
  · rwa [hregistry]

/-- Every change only adds to the registry. -/
theorem Change.grows (h : Change rules s t) : s.registry.Grows t.registry := by
  obtain ⟨hregistry, -⟩ | ⟨id, nid, hresolve, -⟩ | ⟨-, hregistry, -⟩ := h.identities
  · rw [hregistry]
    exact .refl _
  · exact (Registry.resolves_of_resolve hresolve).grows
  · rw [hregistry]
    exact ⟨fun _ _ hnid => hnid, fun _ => List.prefix_rfl⟩

/-- The identity table is that of the registry, unless the registry has changes. Whether the table
can be read again is left open. -/
def Inscribed (s : Store) : Prop :=
  s.registry.changed = false →
    s.backing.readTable identityTable = .ok (some s.registry.encodeTable)

/-- Every change by the rules keeps the identity table that of the registry. -/
theorem Inscribed.change (h : s.Inscribed) (hchange : Change rules s t) : t.Inscribed := by
  intro hchanged
  obtain ⟨hregistry, htable⟩ | ⟨id, nid, hresolve, hbacking⟩ | ⟨-, hregistry, htable⟩ :=
    hchange.identities
  · rw [hregistry] at hchanged ⊢
    exact htable.trans (h hchanged)
  · obtain hsame | hmarked := (Registry.resolves_of_resolve hresolve).changed
    · rw [hsame] at hchanged ⊢
      rw [hbacking]
      exact h hchanged
    · rw [hmarked] at hchanged
      cases hchanged
  · rw [hregistry]
    exact htable

/-- Every change by the rules keeps what is known of the registry and its table. -/
theorem Identified.change (h : s.Identified) (hchange : Change rules s t)
    (hwritable : rules.identity s → s.registry.Writable) : t.Identified := by
  have hinscribed : t.Inscribed := Inscribed.change (fun hchanged => (h.settled hchanged).2) hchange
  obtain ⟨hregistry, htable⟩ | ⟨id, nid, hresolve, hbacking⟩ | ⟨hrule, hregistry, htable⟩ :=
    hchange.identities
  · exact h.congr hregistry htable
  · have hresolves := Registry.resolves_of_resolve hresolve
    refine ⟨hresolves.consistent h.consistent, hbacking ▸ h.persisted, fun next hnext => ?_,
      fun hchanged => ⟨?_, hinscribed hchanged⟩, fun status hstatus => ?_⟩
    · rw [hbacking] at hnext
      exact Int32.le_trans (h.next_le next hnext) hresolves.next_le
    · obtain hsame | hmarked := hresolves.changed
      · rw [hsame] at hchanged ⊢
        exact (h.settled hchanged).1
      · rw [hmarked] at hchanged
        cases hchanged
    · obtain ⟨other, hother⟩ := Option.isSome_iff_exists.mp (h.statuses status hstatus)
      rw [hresolves.nid?_of_some hother]
      rfl
  · have hwritable := hwritable hrule
    refine ⟨hregistry ▸ h.consistent.settled,
      Or.inr ⟨s.registry, h.consistent, hwritable, htable⟩, fun next hnext => ?_,
      fun hchanged => ⟨?_, hinscribed hchanged⟩, ?_⟩
    · rw [Backing.next?_of_readTable h.consistent hwritable htable] at hnext
      cases hnext
      rw [hregistry]
      exact Int32.le_refl _
    · rw [hregistry]
      exact hwritable
    · rw [hregistry]
      exact h.statuses

/-- After every change by the rules, the identity table accounts for as many nids as before. -/
theorem Identified.next?_change (h : s.Identified) (hchange : Change rules s t)
    (hwritable : rules.identity s → s.registry.Writable) (next : Nid)
    (hnext : s.backing.next? = some next) :
    ∃ later, t.backing.next? = some later ∧ next.raw ≤ later.raw := by
  obtain ⟨-, htable⟩ | ⟨id, nid, -, hbacking⟩ | ⟨hrule, -, htable⟩ := hchange.identities
  · exact ⟨next, (Backing.next?_congr htable).trans hnext, Int32.le_refl _⟩
  · exact ⟨next, by rw [hbacking, hnext], Int32.le_refl _⟩
  · exact ⟨s.registry.next, Backing.next?_of_readTable h.consistent (hwritable hrule) htable,
      h.next_le next hnext⟩

/-- Opening a store registers the statuses on top of what the identity table says. -/
theorem Opens.identified {config : Config} {medium : Medium} {opened : Store}
    (h : Opens config medium opened) (hmedium : medium.backing.HasIdentities) :
    opened.Identified := by
  obtain ⟨stored, hstored, hregister⟩ := h.registry
  have hbacking : opened.backing = medium.backing := h.backing_eq
  -- What the table holds is the settled form of the registry that it was written for.
  have hread : medium.backing.readTable identityTable = .ok none ∧ stored = .empty ∨
      ∃ r : Registry, r.Consistent ∧ r.Writable ∧ stored = r.settled ∧
        medium.backing.readTable identityTable = .ok (some r.encodeTable) := by
    cases hstored with
    | missing hnone => exact Or.inl ⟨hnone, rfl⟩
    | @decoded table a hsome hdecode =>
      obtain hnone | ⟨r, hr, hwritable, htable⟩ := hmedium
      · rw [hnone] at hsome
        cases hsome
      · rw [htable] at hsome
        cases hsome
        rw [hr.decodeTable_encodeTable hwritable] at hdecode
        cases hdecode
        exact Or.inr ⟨r, hr, hwritable, rfl, htable⟩
  have hconsistent : stored.Consistent := by
    obtain ⟨-, rfl⟩ | ⟨r, hr, -, rfl, -⟩ := hread
    · exact Registry.consistent_empty
    · exact hr.settled
  obtain ⟨hopened, hnext, hchanged, -, hmapped⟩ := registerStatuses_spec hregister hconsistent
  refine ⟨hopened, by rwa [hbacking], fun next hpersisted => ?_, fun hclean => ?_, hmapped⟩
  · rw [hbacking] at hpersisted
    obtain ⟨hnone, -⟩ | ⟨r, hr, hwritable, rfl, htable⟩ := hread
    · rw [Backing.next?_of_none hnone] at hpersisted
      cases hpersisted
    · rw [Backing.next?_of_readTable hr hwritable htable] at hpersisted
      cases hpersisted
      exact hnext
  · obtain hsame | hmarked := hchanged
    · rw [hsame, hbacking]
      obtain ⟨-, rfl⟩ | ⟨r, hr, hwritable, rfl, htable⟩ := hread
      · -- An empty registry has no status.
        have hmapped := hmapped .active (Status.mem_all _)
        rw [hsame] at hmapped
        simp [Registry.nid?, Registry.empty] at hmapped
      · exact ⟨hwritable, htable⟩
    · rw [hmarked] at hclean
      cases hclean

/-- Resolving a public id of which no alias is known hands out the next nid. -/
theorem eq_next_of_resolve {id : PublicId} (hnew : s.registry.nidFor? id = none)
    (h : resolve id s = .ok nid t) :
    nid = s.registry.next ∧ ∃ registry, t = { s with registry } := by
  simp only [resolve] at h
  split at h
  · rename_i found registry hfound
    cases h
    refine ⟨?_, registry, rfl⟩
    obtain ⟨⟨uuid, huuid, hnid⟩, -⟩ | ⟨-, heq, -⟩ := (Registry.resolves_of_resolve hfound).origin
    · rw [List.findSome?_eq_none_iff.mp hnew uuid huuid] at hnid
      cases hnid
    · exact heq
  · cases h

/-- The next nid was not handed out yet. -/
theorem not_allocated_next (s : Store) : ¬ s.registry.Allocated s.registry.next :=
  fun hnid => Int32.lt_irrefl hnid.2

/-- Whether the store that is opened over a medium hands out a nid for a UUID that it does not know,
and then passes a test. -/
def handsOut (backing : Backing) (uuid : Uuid) (nid : Nid) (test : Store → Bool) : Bool :=
  match overMedium { spineSize := 4 } false { backing } with
  | .ok opened _ =>
    match resolveAliases [uuid] opened with
    | .ok found t => decide (found = nid ∧ opened.registry.nid? uuid = none) && test t
    | .error _ _ => false
  | .error _ _ => false

/-- Where the test says that a nid is handed out, a store is opened that does so. -/
theorem exists_of_handsOut {backing : Backing} {uuid : Uuid} {test : Store → Bool}
    (h : handsOut backing uuid nid test = true) :
    ∃ opened next id t, overMedium { spineSize := 4 } false { backing } = .ok opened next ∧
      opened.registry.nidFor? id = none ∧ resolve id opened = .ok nid t ∧ test t = true := by
  rw [handsOut] at h
  split at h
  · rename_i opened next hopen
    split at h
    · rename_i found t hresolve
      rw [Bool.and_eq_true, decide_eq_true_eq] at h
      obtain ⟨⟨rfl, hunknown⟩, htest⟩ := h
      simp only [resolveAliases, bind, EStateM.bind, outcome] at hresolve
      cases hid : PublicId.ofList [uuid] with
      | error error =>
        rw [hid] at hresolve
        cases hresolve
      | ok id =>
        rw [hid] at hresolve
        refine ⟨opened, next, id, t, hopen, ?_, hresolve, htest⟩
        rw [Registry.nidFor?, Registry.uuids_of_ofUuid hid, List.findSome?_singleton, hunknown]
    · cases h
  · cases h

end Store

end Chronicle
