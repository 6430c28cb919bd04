import Chronicle.Proofs.Identity.Table
import Chronicle.Store.Basic
import Mathlib.Logic.Relation

/-!
# How registries develop

A registry is resolved, marked, encoded and read back from its own table, in any order. It stays
consistent, and it only grows: what is mapped stays mapped, and aliases come behind those that a nid
has. The primary alias of a public id decides what resolving the id answers, from the first time on.
-/

namespace Chronicle.Registry

variable {r r' r'' : Registry} {id : PublicId} {nid other : Nid} {uuid : Uuid}

/-- One thing that is done with a registry. -/
inductive Step (r : Registry) : Registry → Prop
  | resolved (id : PublicId) {nid : Nid} {r' : Registry} (h : r.resolve id = .ok (nid, r')) :
      Step r r'
  | refused {id : PublicId} {error : ConfigurationError} (h : r.resolve id = .error error) :
      Step r r
  | marked : Step r r.markChanged
  | encoded : Step r r.settled
  /-- The registry is replaced by the one that its own table describes. -/
  | reread {r' : Registry} (hwritable : r.Writable) (h : decodeTable r.encodeTable = .ok r') :
      Step r r'

/-- A registry at some later time. -/
def Later : Registry → Registry → Prop :=
  Relation.ReflTransGen Step

/-- A registry that was empty at first. -/
def Reachable (r : Registry) : Prop :=
  Later empty r

/-- One thing done with a registry keeps it consistent. -/
theorem Step.consistent (h : Step r r') (hr : r.Consistent) : r'.Consistent := by
  cases h with
  | resolved _ hresolve => exact (hr.resolve hresolve).1
  | refused => exact hr
  | marked => exact ⟨hr.first_le, hr.nid?_iff, hr.aliases_iff⟩
  | encoded => exact hr.settled
  | reread hwritable hdecode =>
    rw [hr.decodeTable_encodeTable hwritable] at hdecode
    cases hdecode
    exact hr.settled

/-- A consistent registry is so at every later time. -/
theorem Later.consistent (h : Later r r') (hr : r.Consistent) : r'.Consistent := by
  induction h with
  | refl => exact hr
  | tail _ hstep ih => exact hstep.consistent ih

/-- Every registry that can come about is consistent. -/
theorem Reachable.consistent (h : Reachable r) : r.Consistent :=
  Later.consistent h consistent_empty

/-- A nid has exactly the aliases of its public id. -/
theorem mem_aliases_iff :
    uuid ∈ r.aliases nid ↔ ∃ id, r.publicId? nid = some id ∧ uuid ∈ id.uuids := by
  constructor
  · intro h
    cases hid : r.publicId? nid with
    | none =>
      rw [aliases_eq_nil_iff.mpr hid] at h
      cases h
    | some id =>
      rw [aliases_of_some hid] at h
      exact ⟨id, rfl, h⟩
  · rintro ⟨id, hid, huuid⟩
    rwa [aliases_of_some hid]

/-- The two directions of a consistent registry, in terms of its public ids. -/
theorem Consistent.nid?_eq_some_iff (h : r.Consistent) :
    r.nid? uuid = some nid ↔ ∃ id, r.publicId? nid = some id ∧ uuid ∈ id.uuids := by
  rw [h.nid?_iff, mem_aliases_iff]

/-- In a consistent registry the nids with a public id are those that were handed out. -/
theorem Consistent.isSome_publicId?_iff (h : r.Consistent) :
    (r.publicId? nid).isSome ↔ r.Allocated nid := by
  rw [← h.aliases_iff, ne_eq, aliases_eq_nil_iff, Option.isSome_iff_ne_none]

/-- Whatever was resolved, marked, encoded or read back, a UUID is mapped to a nid exactly if it is
an alias of the nid. Public ids are made of aliases that differ from each other and from the nil
UUID, and no two of them share one. Those that have a public id are the nids from the first one up
to the one that is handed out next. -/
theorem names_one_to_one (h : Reachable r) :
    (∀ uuid nid, r.nid? uuid = some nid ↔ ∃ id, r.publicId? nid = some id ∧ uuid ∈ id.uuids) ∧
    (∀ nid id, r.publicId? nid = some id →
      id.uuids ≠ [] ∧ id.uuids.Nodup ∧ Uuid.nil ∉ id.uuids) ∧
    (∀ nid other id id' uuid, r.publicId? nid = some id → r.publicId? other = some id' →
      uuid ∈ id.uuids → uuid ∈ id'.uuids → nid = other) ∧
    ∀ nid, (r.publicId? nid).isSome ↔ Nid.first.raw ≤ nid.raw ∧ nid.raw < r.next.raw := by
  have hr := h.consistent
  refine ⟨fun uuid nid => hr.nid?_eq_some_iff, fun nid id _ => ⟨id.ne_nil, id.nodup, id.nil_notMem⟩,
    fun nid other id id' uuid hid hid' huuid huuid' => ?_, fun nid => hr.isSome_publicId?_iff⟩
  have hnid : r.nid? uuid = some nid := hr.nid?_eq_some_iff.mpr ⟨id, hid, huuid⟩
  have hother : r.nid? uuid = some other := hr.nid?_eq_some_iff.mpr ⟨id', hid', huuid'⟩
  exact Option.some.inj (hnid.symm.trans hother)

/-- Two public ids are resolved, an alias is folded onto the second one by an id that also names the
first one, and the registry is read back from its table. -/
theorem names_one_to_one_reread :
    ∃ r, Reachable r ∧ r.nid? ⟨4⟩ = some ⟨-2147483646⟩ ∧
      (∃ id, r.publicId? ⟨-2147483646⟩ = some id ∧ (⟨4⟩ : Uuid) ∈ id.uuids) ∧
      (r.publicId? ⟨-2147483645⟩).isSome = false := by
  obtain ⟨r, hr, hwritable, hnid, hnext⟩ : ∃ r, Reachable r ∧ r.Writable ∧
      r.nid? ⟨4⟩ = some ⟨-2147483646⟩ ∧ r.next = ⟨-2147483645⟩ := by
    refine ⟨_, .tail (.tail (.tail .refl (.resolved ⟨[⟨1⟩, ⟨2⟩], ?_, ?_, ?_⟩ rfl))
      (.resolved ⟨[⟨3⟩], ?_, ?_, ?_⟩ rfl))
      (.resolved ⟨[⟨3⟩, ⟨4⟩, ⟨1⟩], ?_, ?_, ?_⟩ rfl), writable_of_toList ?_, ?_, ?_⟩ <;>
      decide +kernel
  have hread : Reachable r.settled :=
    .tail hr (.reread hwritable (hr.consistent.decodeTable_encodeTable hwritable))
  obtain ⟨hnames, -, -, hnamed⟩ := names_one_to_one hread
  refine ⟨r.settled, hread, hnid, (hnames ⟨4⟩ ⟨-2147483646⟩).mp hnid, ?_⟩
  rw [← Bool.not_eq_true, hnamed]
  rintro ⟨-, hlt⟩
  change _ < r.next.raw at hlt
  rw [hnext] at hlt
  exact absurd hlt (by decide)

/-! ## What resolving answers -/

private theorem nidFor?_of_primary (h : r.nid? id.primary = some nid) :
    r.nidFor? id = some nid := by
  have huuids : id.uuids = id.primary :: id.uuids.tail := (List.cons_head_tail id.ne_nil).symm
  rw [nidFor?, huuids, List.findSome?_cons, h]

/-- No nid is found for a public id exactly if none of its aliases is mapped. -/
theorem nidFor?_eq_none_iff : r.nidFor? id = none ↔ ∀ uuid ∈ id.uuids, r.nid? uuid = none :=
  List.findSome?_eq_none_iff

/-- Aliases that have a nid in common have that of the first one. -/
theorem nidFor?_of_sharedNid? (h : r.sharedNid? id = some nid) : r.nidFor? id = some nid := by
  rw [sharedNid?, Option.filter_eq_some_iff] at h
  exact nidFor?_of_primary h.1

/-- A public id of which an alias is known is resolved to the nid of the first known one. -/
theorem resolve_of_nidFor? (h : r.nidFor? id = some nid) : ∃ r', r.resolve id = .ok (nid, r') := by
  cases hshared : r.sharedNid? id with
  | some shared =>
    rw [nidFor?_of_sharedNid? hshared, Option.some.injEq] at h
    subst h
    exact ⟨r, by simp only [resolve, hshared]⟩
  | none => exact ⟨r.adopt nid id, by simp only [resolve, hshared, h]⟩

/-- A public id of which no alias is known gets the next nid, unless that is the last one. -/
theorem resolve_of_unknown (h : r.nidFor? id = none) :
    r.resolve id = match r.next.next? with
      | some following => .ok (r.next, { r with next := following }.adopt r.next id)
      | none => .error .nidSpaceExhausted := by
  have hshared : r.sharedNid? id = none := by
    cases hshared : r.sharedNid? id with
    | none => rfl
    | some nid =>
      rw [nidFor?_of_sharedNid? hshared] at h
      cases h
  cases hnext : r.next.next? with
  | some following => simp only [resolve, hshared, h, hnext]
  | none => simp only [resolve, hshared, h, hnext]

/-- Resolving fails for one reason only. -/
theorem resolve_eq_error_iff {error : ConfigurationError} :
    r.resolve id = .error error ↔
      error = .nidSpaceExhausted ∧ (∀ uuid ∈ id.uuids, r.nid? uuid = none) ∧
        r.next.raw = Int32.maxValue := by
  rw [← nidFor?_eq_none_iff, ← Nid.next?_eq_none_iff]
  cases hknown : r.nidFor? id with
  | some nid =>
    obtain ⟨r', hresolve⟩ := resolve_of_nidFor? hknown
    simp [hresolve]
  | none =>
    rw [resolve_of_unknown hknown]
    cases hnext : r.next.next? with
    | none => simp [eq_comm]
    | some following => simp

/-- Afterwards the primary alias is mapped to the nid that was answered. -/
theorem nid?_primary_of_resolve (h : r.resolve id = .ok (nid, r')) :
    r'.nid? id.primary = some nid := by
  have hresolves := resolves_of_resolve h
  rw [hresolves.nid?_eq]
  split
  · rfl
  · rename_i hmem
    have hprimary : id.primary ∈ id.uuids := List.head_mem id.ne_nil
    rw [mem_unmapped_iff, not_and] at hmem
    obtain ⟨first, hfirst⟩ := Option.ne_none_iff_exists'.mp (hmem hprimary)
    obtain ⟨t, hanswer⟩ := resolve_of_nidFor? (nidFor?_of_primary hfirst)
    rw [hanswer] at h
    cases h
    exact hfirst

/-! ## Growth -/

/-- What is mapped stays mapped, and aliases come behind those that a nid has. -/
structure Grows (r r' : Registry) : Prop where
  nid?_of_some : ∀ uuid nid, r.nid? uuid = some nid → r'.nid? uuid = some nid
  aliases_prefix : ∀ nid, r.aliases nid <+: r'.aliases nid

/-- Nothing has to be added. -/
theorem Grows.refl (r : Registry) : Grows r r :=
  ⟨fun _ _ h => h, fun _ => List.prefix_rfl⟩

/-- What was added before is there after more is added. -/
theorem Grows.trans (h : Grows r r') (h' : Grows r' r'') : Grows r r'' :=
  ⟨fun uuid nid hnid => h'.nid?_of_some uuid nid (h.nid?_of_some uuid nid hnid),
    fun nid => (h.aliases_prefix nid).trans (h'.aliases_prefix nid)⟩

/-- If four bytes count the aliases later, they counted them before. -/
theorem Grows.writable (h : Grows r r') (hwritable : r'.Writable) : r.Writable :=
  fun nid => Nat.lt_of_le_of_lt (h.aliases_prefix nid).length_le (hwritable nid)

/-- Resolving only adds to a registry. -/
theorem Resolves.grows (h : Resolves r id nid r') : Grows r r' := by
  refine ⟨fun _ _ => h.nid?_of_some, fun other => ?_⟩
  rw [h.aliases_eq]
  split
  · rename_i hother
    rw [hother]
    exact List.prefix_append ..
  · exact List.prefix_rfl

/-- One thing done with a registry only adds to it. -/
theorem Step.grows (h : Step r r') (hr : r.Consistent) : Grows r r' := by
  cases h with
  | resolved _ hresolve => exact (resolves_of_resolve hresolve).grows
  | refused => exact .refl r
  | marked => exact ⟨fun _ _ h => h, fun _ => List.prefix_rfl⟩
  | encoded => exact ⟨fun _ _ h => h, fun _ => List.prefix_rfl⟩
  | reread hwritable hdecode =>
    rw [hr.decodeTable_encodeTable hwritable] at hdecode
    cases hdecode
    exact ⟨fun _ _ h => h, fun _ => List.prefix_rfl⟩

/-- A registry has what it had at any earlier time. -/
theorem Later.grows (h : Later r r') (hr : r.Consistent) : Grows r r' := by
  induction h with
  | refl => exact .refl r
  | tail hlater hstep ih => exact ih.trans (hstep.grows (Later.consistent hlater hr))

/-- A public id grows at its end, behind its primary alias. -/
theorem Grows.publicId? (h : Grows r r') (hid : r.publicId? nid = some id) :
    ∃ grown, r'.publicId? nid = some grown ∧ id.uuids <+: grown.uuids ∧
      grown.primary = id.primary := by
  have hgrowth := h.aliases_prefix nid
  rw [aliases_of_some hid] at hgrowth
  have hprimary := hgrowth.subset (List.head_mem id.ne_nil)
  obtain ⟨grown, hgrown, -⟩ := mem_aliases_iff.mp hprimary
  rw [aliases_of_some hgrown] at hgrowth
  exact ⟨grown, hgrown, hgrowth, (hgrowth.head id.ne_nil).symm⟩

/-! ## Ids that share an alias -/

/-- Resolves some public ids one after another. -/
def resolveAll : List PublicId → Registry → Except ConfigurationError (List Nid × Registry)
  | [], r => .ok ([], r)
  | id :: ids, r => do
    let (nid, r) ← r.resolve id
    let (nids, r) ← resolveAll ids r
    return (nid :: nids, r)

private theorem resolveAll_cons {ids : List PublicId} {nids : List Nid}
    (hfirst : r.resolve id = .ok (nid, r')) (hlater : resolveAll ids r' = .ok (nids, r'')) :
    resolveAll (id :: ids) r = .ok (nid :: nids, r'') := by
  simp only [resolveAll, hfirst, hlater, bind, Except.bind, pure, Except.pure]

/-- An alias that was free, or had the nid that is answered, does not get another one. -/
theorem Resolves.none_or_some (h : Resolves r id nid r')
    (hown : r.nid? uuid = none ∨ r.nid? uuid = some nid) :
    r'.nid? uuid = none ∨ r'.nid? uuid = some nid := by
  rw [h.nid?_eq]
  split
  · exact Or.inr rfl
  · exact hown

/-- Ids that share an alias with a nid, and have no alias with another one, all have this nid. -/
theorem resolveAll_of_shared {ids : List PublicId} {shared : Uuid}
    (hshared : r.nid? shared = some nid)
    (hids : ∀ id ∈ ids, shared ∈ id.uuids ∧
      ∀ uuid ∈ id.uuids, r.nid? uuid = none ∨ r.nid? uuid = some nid) :
    ∃ r', resolveAll ids r = .ok (List.replicate ids.length nid, r') ∧ r'.next = r.next ∧
      (r.Consistent → r'.Consistent) := by
  induction ids generalizing r with
  | nil => exact ⟨r, rfl, rfl, fun h => h⟩
  | cons id ids ih =>
    rw [List.forall_mem_cons] at hids
    obtain ⟨⟨hmem, hown⟩, hids⟩ := hids
    have hknown : r.nidFor? id = some nid := by
      cases hfound : r.nidFor? id with
      | none =>
        rw [nidFor?_eq_none_iff.mp hfound shared hmem] at hshared
        cases hshared
      | some found =>
        obtain ⟨uuid, huuid, hnid⟩ := List.exists_of_findSome?_eq_some hfound
        rcases hown uuid huuid with hnone | hsome
        · rw [hnone] at hnid
          cases hnid
        · exact hnid.symm.trans hsome
    obtain ⟨first, hresolve⟩ := resolve_of_nidFor? hknown
    have hresolves := resolves_of_resolve hresolve
    have hnext : first.next = r.next := by
      obtain ⟨-, hnext⟩ | ⟨hnone, -, -⟩ := hresolves.origin
      · exact hnext
      · rw [hnone shared hmem] at hshared
        cases hshared
    have hlater : ∀ id ∈ ids, shared ∈ id.uuids ∧
        ∀ uuid ∈ id.uuids, first.nid? uuid = none ∨ first.nid? uuid = some nid :=
      fun other hother => ⟨(hids other hother).1,
        fun uuid huuid => hresolves.none_or_some ((hids other hother).2 uuid huuid)⟩
    obtain ⟨last, hall, hlast, hconsistent⟩ := ih (hresolves.nid?_of_some hshared) hlater
    refine ⟨last, ?_, hlast.trans hnext, fun hr => hconsistent (hresolves.consistent hr)⟩
    rw [resolveAll_cons hresolve hall, List.length_cons, List.replicate_succ]

/-- Ids that share an alias, of which no alias is known, all get the next nid, and no other nid is
handed out for them. -/
theorem resolveAll_of_unknown {ids : List PublicId} {shared : Uuid} (hne : ids ≠ [])
    (hr : r.Consistent) (hnext : r.next.raw < Int32.maxValue)
    (hids : ∀ id ∈ ids, shared ∈ id.uuids ∧ ∀ uuid ∈ id.uuids, r.nid? uuid = none) :
    ∃ r', resolveAll ids r = .ok (List.replicate ids.length r.next, r') ∧
      r.next.next? = some r'.next ∧ r.publicId? r.next = none ∧
      ∀ nid, (r'.publicId? nid).isSome ↔ (r.publicId? nid).isSome ∨ nid = r.next := by
  obtain ⟨id, ids, rfl⟩ := List.exists_cons_of_ne_nil hne
  rw [List.forall_mem_cons] at hids
  obtain ⟨⟨hmem, hnone⟩, hids⟩ := hids
  obtain ⟨following, hfollowing⟩ : ∃ following, r.next.next? = some following := by
    refine Option.ne_none_iff_exists'.mp fun hlast => ?_
    rw [Nid.next?_eq_none_iff.mp hlast] at hnext
    exact absurd hnext (by decide)
  obtain ⟨first, hresolve⟩ : ∃ first, r.resolve id = .ok (r.next, first) := by
    rw [resolve_of_unknown (nidFor?_eq_none_iff.mpr hnone), hfollowing]
    exact ⟨_, rfl⟩
  have hresolves := resolves_of_resolve hresolve
  have hunmapped : shared ∈ r.unmapped id := mem_unmapped_iff.mpr ⟨hmem, hnone shared hmem⟩
  have hshared : first.nid? shared = some r.next := by rw [hresolves.nid?_eq, if_pos hunmapped]
  have hlater : ∀ id ∈ ids, shared ∈ id.uuids ∧
      ∀ uuid ∈ id.uuids, first.nid? uuid = none ∨ first.nid? uuid = some r.next :=
    fun other hother => ⟨(hids other hother).1,
      fun uuid huuid => hresolves.none_or_some (Or.inl ((hids other hother).2 uuid huuid))⟩
  obtain ⟨last, hall, hlast, hconsistent⟩ := resolveAll_of_shared hshared hlater
  have hfirst := hresolves.consistent hr
  refine ⟨last, ?_, ?_, ?_, fun nid => ?_⟩
  · rw [resolveAll_cons hresolve hall, List.length_cons, List.replicate_succ]
  · obtain ⟨⟨uuid, huuid, hnid⟩, -⟩ | ⟨-, -, hnext⟩ := hresolves.origin
    · rw [hnone uuid huuid] at hnid
      cases hnid
    · rw [hlast, hnext]
  · rw [← Option.not_isSome_iff_eq_none, hr.isSome_publicId?_iff]
    exact fun h => absurd h.2 Int32.lt_irrefl
  · have hallocated : last.Allocated nid ↔ first.Allocated nid := by
      rw [Allocated, Allocated, hlast]
    rw [(hconsistent hfirst).isSome_publicId?_iff, hallocated, hresolves.allocated_iff hr,
      hr.isSome_publicId?_iff]

/-- What resolving a public id has answered once, it answers ever after. UUIDs keep their nids and
public ids their primary aliases, behind which they grow. Resolving fails only when a nid has to be
handed out and none follows the next one, and then nothing is changed. Public ids that share an
alias, and have no alias that was known, all get the one nid that is handed out for them, in
whatever order they are resolved. -/
theorem resolution_stable (h : Reachable r) :
    (∀ id nid r', r.resolve id = .ok (nid, r') → ∀ r'', Later r' r'' →
      (∃ t, r''.resolve id = .ok (nid, t)) ∧ r''.nidFor? id = some nid) ∧
    (∀ r', Later r r' →
      (∀ uuid nid, r.nid? uuid = some nid → r'.nid? uuid = some nid) ∧
      ∀ nid id, r.publicId? nid = some id → ∃ grown, r'.publicId? nid = some grown ∧
        id.uuids <+: grown.uuids ∧ grown.primary = id.primary) ∧
    (∀ id error, r.resolve id = .error error ↔ error = .nidSpaceExhausted ∧
      (∀ uuid ∈ id.uuids, r.nid? uuid = none) ∧ r.next.raw = Int32.maxValue) ∧
    (∀ (s t : Store) id error, s.registry = r → Store.resolve id s = .error error t → t = s) ∧
    ∀ ids order shared, ids ≠ [] → order.Perm ids → r.next.raw < Int32.maxValue →
      (∀ id ∈ ids, shared ∈ id.uuids ∧ ∀ uuid ∈ id.uuids, r.nid? uuid = none) →
      ∃ r', resolveAll order r = .ok (List.replicate ids.length r.next, r') ∧
        r.next.next? = some r'.next ∧ r.publicId? r.next = none ∧
        ∀ nid, (r'.publicId? nid).isSome ↔ (r.publicId? nid).isSome ∨ nid = r.next := by
  have hr := h.consistent
  refine ⟨fun id nid r' hresolve r'' hlater => ?_, fun r' hlater => ?_,
    fun id error => resolve_eq_error_iff, fun s t id error _ hresolve => ?_,
    fun ids order shared hne hperm hnext hids => ?_⟩
  · have hgrows := hlater.grows ((resolves_of_resolve hresolve).consistent hr)
    have hknown := nidFor?_of_primary
      (hgrows.nid?_of_some _ _ (nid?_primary_of_resolve hresolve))
    exact ⟨resolve_of_nidFor? hknown, hknown⟩
  · have hgrows := hlater.grows hr
    exact ⟨hgrows.nid?_of_some, fun nid id => hgrows.publicId?⟩
  · simp only [Store.resolve] at hresolve
    split at hresolve
    · cases hresolve
    · cases hresolve
      rfl
  · have hne' : order ≠ [] := fun hnil => hne (hnil ▸ hperm).nil_eq.symm
    rw [← hperm.length_eq]
    exact resolveAll_of_unknown hne' hr hnext fun id hid => hids id (hperm.subset hid)

/-- An alias is folded onto a nid that was handed out, and the id with the alias keeps this nid when
another id claims the alias. Two new ids that overlap get one nid. -/
theorem resolution_stable_folded :
    ∃ (r r' r'' t : Registry) (id a b : PublicId), Reachable r ∧
      id.uuids = [⟨3⟩, ⟨1⟩] ∧ r.resolve id = .ok (Nid.first, r') ∧
      Later r' r'' ∧ r''.nid? ⟨4⟩ = some Nid.first ∧ r''.nidFor? id = some Nid.first ∧
      a.uuids = [⟨6⟩, ⟨7⟩] ∧ b.uuids = [⟨7⟩, ⟨8⟩] ∧
      resolveAll [b, a] r = .ok ([⟨-2147483646⟩, ⟨-2147483646⟩], t) := by
  obtain ⟨r, r', r'', id, claim, a, b, hr, hnext, hfresh, hid, ha, hb, hresolve, hclaim, hnid⟩ :
      ∃ (r r' r'' : Registry) (id claim a b : PublicId), Reachable r ∧ r.next = ⟨-2147483646⟩ ∧
        (∀ uuid ∈ [(⟨6⟩ : Uuid), ⟨7⟩, ⟨8⟩], r.nid? uuid = none) ∧ id.uuids = [⟨3⟩, ⟨1⟩] ∧
        a.uuids = [⟨6⟩, ⟨7⟩] ∧ b.uuids = [⟨7⟩, ⟨8⟩] ∧ r.resolve id = .ok (Nid.first, r') ∧
        r'.resolve claim = .ok (Nid.first, r'') ∧ r''.nid? ⟨4⟩ = some Nid.first := by
    refine ⟨_, _, _, ⟨[⟨3⟩, ⟨1⟩], ?_, ?_, ?_⟩, ⟨[⟨4⟩, ⟨3⟩], ?_, ?_, ?_⟩, ⟨[⟨6⟩, ⟨7⟩], ?_, ?_, ?_⟩,
      ⟨[⟨7⟩, ⟨8⟩], ?_, ?_, ?_⟩, .tail .refl (.resolved ⟨[⟨1⟩, ⟨2⟩], ?_, ?_, ?_⟩ rfl), ?_, ?_,
      rfl, rfl, rfl, rfl, rfl, ?_⟩ <;> decide +kernel
  obtain ⟨hstable, -, -, -, hshared⟩ := resolution_stable hr
  have hlater : Later r' r'' := .tail .refl (.resolved claim hclaim)
  obtain ⟨-, hknown⟩ := hstable id Nid.first r' hresolve r'' hlater
  have hids : ∀ id ∈ [a, b], (⟨7⟩ : Uuid) ∈ id.uuids ∧ ∀ uuid ∈ id.uuids, r.nid? uuid = none := by
    simp only [List.forall_mem_cons] at hfresh
    obtain ⟨hsix, hseven, height, -⟩ := hfresh
    simp only [List.forall_mem_cons, ha, hb]
    exact ⟨⟨by simp, hsix, hseven, by simp⟩, ⟨by simp, hseven, height, by simp⟩, by simp⟩
  obtain ⟨t, hall, -⟩ := hshared [a, b] [b, a] ⟨7⟩ (by simp) (.swap ..) (by rw [hnext]; decide) hids
  rw [hnext] at hall
  exact ⟨r, r', r'', t, id, a, b, hr, hid, hresolve, hlater, hnid, hknown, ha, hb, hall⟩

end Chronicle.Registry
