import Chronicle.Proofs.Identity.Registry
import Chronicle.Proofs.Spine.Stored
import Chronicle.Proofs.Store.Outcome
import Chronicle.Store.Open

/-!
# What opening a store establishes

The tables of a store that was opened are those of the medium, except that every status has a nid.
Its spines are the ones that the medium lists, and none of them was read.
-/

namespace Chronicle

namespace Registry

variable {r r' : Registry} {uuid : Uuid} {nid : Nid}

/-- The public id of a UUID has that UUID and no other. -/
theorem uuids_of_ofUuid {id : PublicId} (h : PublicId.ofUuid uuid = .ok id) : id.uuids = [uuid] :=
  (PublicId.ofList_eq_ok_iff.mp h).2.2

/-- A public id with a single UUID is the one of that UUID. -/
theorem ofUuid_of_uuids {id : PublicId} (h : id.uuids = [uuid]) : PublicId.ofUuid uuid = .ok id := by
  refine PublicId.ofList_eq_ok_iff.mpr ⟨?_, List.cons_ne_nil _ _, h⟩
  rw [← h]
  exact id.nil_notMem

/-- Resolving a single alias that is mapped changes nothing. -/
theorem resolve_of_nid? {id : PublicId} (hid : id.uuids = [uuid]) (h : r.nid? uuid = some nid) :
    r.resolve id = .ok (nid, r) := by
  have hprimary : id.primary = uuid := by simp only [PublicId.primary, hid, List.head_cons]
  have hshared : r.sharedNid? id = some nid := by
    rw [sharedNid?, hprimary, h, hid]
    simp [Option.filter, h]
  simp only [resolve, hshared]

/-- Resolving a single alias changes nothing, or it hands out a nid. -/
theorem eq_or_next_lt {id : PublicId} (hid : id.uuids = [uuid])
    (h : r.resolve id = .ok (nid, r')) : r' = r ∨ r.next.raw < r'.next.raw := by
  obtain ⟨⟨known, hknown, hnid⟩, -⟩ | ⟨-, -, hnext⟩ := (resolves_of_resolve h).origin
  · rw [hid, List.mem_singleton] at hknown
    subst hknown
    rw [resolve_of_nid? hid hnid] at h
    cases h
    exact Or.inl rfl
  · right
    have hstep := Nid.toInt_of_next? hnext
    rw [Int32.lt_iff_toInt_lt]
    omega

end Registry

namespace Store

open Registry (resolves_of_resolve)

variable {r r' : Registry}

private theorem registerStatuses_cons {status : Status} {statuses : List Status}
    (h : registerStatuses (status :: statuses) r = .ok r') :
    ∃ id nid next, id.uuids = [status.uuid] ∧ r.resolve id = .ok (nid, next) ∧
      registerStatuses statuses next = .ok r' := by
  rw [registerStatuses] at h
  cases hid : PublicId.ofUuid status.uuid with
  | error error =>
    rw [hid] at h
    cases h
  | ok id =>
    cases hresolve : r.resolve id with
    | error error =>
      simp only [hid, hresolve, bind, Except.bind] at h
      cases h
    | ok found =>
      simp only [hid, hresolve, bind, Except.bind] at h
      exact ⟨id, found.1, found.2, Registry.uuids_of_ofUuid hid, hresolve, h⟩

/-- Registering statuses keeps a registry consistent, hands out further nids and maps each status.
Unless there was nothing to do, the registry has changes afterwards. -/
theorem registerStatuses_spec {statuses : List Status} (h : registerStatuses statuses r = .ok r')
    (hr : r.Consistent) :
    r'.Consistent ∧ r.next.raw ≤ r'.next.raw ∧ (r' = r ∨ r'.changed = true) ∧
      (∀ uuid, (r.nid? uuid).isSome → r'.nid? uuid = r.nid? uuid) ∧
      ∀ status ∈ statuses, (r'.nid? status.uuid).isSome := by
  induction statuses generalizing r with
  | nil =>
    cases h
    exact ⟨hr, Int32.le_refl _, Or.inl rfl, fun _ _ => rfl, by simp⟩
  | cons status statuses ih =>
    obtain ⟨id, nid, next, hid, hresolve, hlater⟩ := registerStatuses_cons h
    have hresolves := resolves_of_resolve hresolve
    obtain ⟨hconsistent, hnext, hchanged, hkept, hmapped⟩ := ih hlater (hresolves.consistent hr)
    have hstatus : (next.nid? status.uuid).isSome := by
      refine hresolves.isSome_nid? ?_
      rw [hid]
      exact List.mem_singleton_self _
    refine ⟨hconsistent, Int32.le_trans hresolves.next_le hnext, ?_, fun uuid huuid => ?_, ?_⟩
    · obtain rfl | hchanged := hchanged
      · exact hresolves.changed
      · exact Or.inr hchanged
    · obtain ⟨other, hother⟩ := Option.isSome_iff_exists.mp huuid
      have hmiddle := hresolves.nid?_of_some hother
      rw [hkept uuid (by rw [hmiddle]; rfl), hmiddle, hother]
    · rintro other hother
      obtain rfl | hother := List.mem_cons.mp hother
      · rw [hkept _ hstatus]
        exact hstatus
      · exact hmapped other hother

/-- Registering statuses changes nothing, or it hands out nids. -/
theorem eq_or_next_lt_of_registerStatuses {statuses : List Status}
    (h : registerStatuses statuses r = .ok r') : r' = r ∨ r.next.raw < r'.next.raw := by
  induction statuses generalizing r with
  | nil =>
    cases h
    exact Or.inl rfl
  | cons status statuses ih =>
    obtain ⟨id, nid, next, hid, hresolve, hlater⟩ := registerStatuses_cons h
    obtain rfl | hfirst := Registry.eq_or_next_lt hid hresolve
    · exact ih hlater
    · obtain rfl | hrest := ih hlater
      · exact Or.inr hfirst
      · exact Or.inr (Int32.lt_trans hfirst hrest)

/-- Registering statuses maps no UUID but theirs. -/
theorem status_of_registerStatuses {statuses : List Status} {uuid : Uuid} {nid : Nid}
    (h : registerStatuses statuses r = .ok r') (hnid : r'.nid? uuid = some nid) :
    (∃ nid, r.nid? uuid = some nid) ∨ ∃ status ∈ statuses, uuid = status.uuid := by
  induction statuses generalizing r with
  | nil =>
    cases h
    exact Or.inl ⟨nid, hnid⟩
  | cons status statuses ih =>
    obtain ⟨id, first, next, hid, hresolve, hrest⟩ := registerStatuses_cons h
    obtain ⟨other, hother⟩ | ⟨later, hlater, rfl⟩ := ih hrest
    · rw [(resolves_of_resolve hresolve).nid?_eq] at hother
      split at hother
      · rename_i hmem
        have hmem := (Registry.mem_unmapped_iff.mp hmem).1
        rw [hid, List.mem_singleton] at hmem
        exact Or.inr ⟨status, List.mem_cons_self, hmem⟩
      · exact Or.inl ⟨other, hother⟩
    · exact Or.inr ⟨later, List.mem_cons_of_mem status hlater, rfl⟩

/-- Statuses that are registered already are left alone. -/
theorem registerStatuses_of_registered {statuses : List Status}
    (hregistered : ∀ status ∈ statuses, (r.nid? status.uuid).isSome) :
    registerStatuses statuses r = .ok r := by
  induction statuses with
  | nil => rfl
  | cons status statuses ih =>
    rw [List.forall_mem_cons] at hregistered
    obtain ⟨nid, hnid⟩ := Option.isSome_iff_exists.mp hregistered.1
    obtain ⟨id, hid⟩ : ∃ id, PublicId.ofUuid status.uuid = .ok id := by
      cases status <;> exact ⟨_, rfl⟩
    rw [registerStatuses]
    simp only [hid, bind, Except.bind,
      Registry.resolve_of_nid? (Registry.uuids_of_ofUuid hid) hnid]
    exact ih hregistered.2

/-- What a table holds, or something else if it was never written. -/
inductive Holds {α : Type} (decode : Bytes → Except DecodeError α) (missing : α)
    (answer : Except IoError (Option Bytes)) : α → Prop
  | missing (h : answer = .ok none) : Holds decode missing answer missing
  | decoded {table : Bytes} {a : α} (h : answer = .ok (some table))
      (hdecode : decode table = .ok a) : Holds decode missing answer a

/-- Nothing is stored or scheduled differently, reads of tables apart. -/
structure SameMedium (medium next : Medium) : Prop where
  backing : next.backing = medium.backing
  spineReads : next.faults.spineReads = medium.faults.spineReads
  spineListings : next.faults.spineListings = medium.faults.spineListings

private theorem SameMedium.trans {first second third : Medium} (h : SameMedium first second)
    (h' : SameMedium second third) : SameMedium first third :=
  ⟨h'.backing.trans h.backing, h'.spineReads.trans h.spineReads,
    h'.spineListings.trans h.spineListings⟩

/-- The same spines are listed after tables were read. -/
theorem SameMedium.spineIndices {medium next : Medium} (h : SameMedium medium next) :
    (Medium.spineIndices next).1 = (Medium.spineIndices medium).1 := by
  obtain ⟨hbacking, -, hlistings⟩ := h
  simp only [Medium.spineIndices, hbacking, hlistings]

/-- A healthy medium is so after tables were read. -/
theorem SameMedium.healthy {medium next : Medium} (h : SameMedium medium next)
    (hhealthy : medium.Healthy) : next.Healthy := by
  obtain ⟨indices, hlisting, hread⟩ := hhealthy.listing
  refine ⟨⟨indices, h.spineIndices.trans hlisting, ?_⟩, ?_⟩
  · rwa [h.backing]
  · rw [h.spineReads]
    exact hhealthy.reads

/-- A table that is read holds what it is decoded to, and the medium stays as it is. -/
theorem ends_readTable {α : Type} (name : String) (decode : Bytes → Except DecodeError α)
    (missing : α) (medium : Medium) :
    Ends (readTable name decode missing) medium
      (fun a next => Holds decode missing (medium.backing.readTable name) a ∧
        SameMedium medium next) fun _ _ => True := by
  have hread : (Medium.readTable name medium).1 = .error .unavailable ∨
      (Medium.readTable name medium).1 = medium.backing.readTable name := by
    simp only [Medium.readTable]
    split
    · exact Or.inl rfl
    · exact Or.inr rfl
  have hsame : SameMedium medium (Medium.readTable name medium).2 := ⟨rfl, rfl, rfl⟩
  obtain ⟨answer, next, hrun⟩ : ∃ answer next, Medium.readTable name medium = (answer, next) :=
    ⟨_, _, rfl⟩
  rw [hrun] at hread hsame
  simp only [Ends, readTable, hrun]
  cases answer with
  | error error => trivial
  | ok table? =>
    have hbacking : medium.backing.readTable name = .ok table? :=
      (hread.resolve_left (by simp)).symm
    cases table? with
    | none => exact ⟨.missing hbacking, hsame⟩
    | some table =>
      simp only [outcome]
      cases hdecode : decode table with
      | ok a => exact ⟨.decoded hbacking hdecode, hsame⟩
      | error error => trivial

/-- No read of a table fails from now on. -/
def ReadsTables (medium : Medium) : Prop :=
  ∀ call, medium.faults.tableReads.made ≤ call → medium.faults.tableReads.fails call = false

/-- Where reads do not fail, a table is read as what it holds. -/
theorem readTable_of_holds {α : Type} {name : String} {decode : Bytes → Except DecodeError α}
    {missing a : α} {medium : Medium} (hreads : ReadsTables medium)
    (h : Holds decode missing (medium.backing.readTable name) a) :
    ∃ next, readTable name decode missing medium = .ok a next ∧ SameMedium medium next ∧
      ReadsTables next := by
  have hanswer : (Medium.readTable name medium).1 = medium.backing.readTable name := by
    simp only [Medium.readTable, Schedule.next, hreads _ (Nat.le_refl _)]
    rfl
  have hsame : SameMedium medium (Medium.readTable name medium).2 := ⟨rfl, rfl, rfl⟩
  have hnext : ReadsTables (Medium.readTable name medium).2 :=
    fun call hcall => hreads call (Nat.le_of_succ_le hcall)
  obtain ⟨answer, next, hrun⟩ : ∃ answer next, Medium.readTable name medium = (answer, next) :=
    ⟨_, _, rfl⟩
  rw [hrun] at hanswer hsame hnext
  refine ⟨next, ?_, hsame, hnext⟩
  simp only [readTable, hrun]
  rw [← show answer = medium.backing.readTable name from hanswer] at h
  cases h with
  | missing h =>
    subst h
    rfl
  | decoded h hdecode =>
    subst h
    simp only [outcome, hdecode]

/-- A medium whose tables can be read and make sense can be opened. -/
theorem overMedium_of_holds {config : Config} {medium : Medium} {stored registry : Registry}
    {paths : PathGraph} (rooted : Bool) (hvalid : config.validate = .ok ())
    (hreads : ReadsTables medium)
    (hidentity : Holds Registry.decodeTable .empty (medium.backing.readTable identityTable) stored)
    (hpaths : Holds PathGraph.decodeTable .empty (medium.backing.readTable pathTable) paths)
    (hregister : registerStatuses Status.all stored = .ok registry) :
    ∃ read, SameMedium medium read ∧
      let spines := SpineStore.ofMedium read config.spineSize config.ioPermits config.maxCasRetries
      overMedium config rooted medium =
        .ok { rooted, config, registry, paths, spines, pool := {} } spines.medium := by
  obtain ⟨middle, hfirst, hmiddle, hreads'⟩ := readTable_of_holds hreads hidentity
  rw [← hmiddle.backing] at hpaths
  obtain ⟨read, hsecond, hread, -⟩ := readTable_of_holds hreads' hpaths
  refine ⟨read, hmiddle.trans hread, ?_⟩
  have hchecked : (outcome config.validate : Opening Medium Unit) medium = .ok () medium := by
    rw [hvalid]
    rfl
  have hregistered : (outcome (registerStatuses Status.all stored) : Opening Medium Registry) read =
      .ok registry read := by
    rw [hregister]
    rfl
  simp only [overMedium, bind, EStateM.bind, hchecked, hfirst, hsecond, hregistered]
  rfl

/-- What is known of a store that was opened. -/
structure Opens (config : Config) (medium : Medium) (opened : Store) : Prop where
  valid : config.validate = .ok ()
  registry : ∃ stored,
    Holds Registry.decodeTable .empty (medium.backing.readTable identityTable) stored ∧
      registerStatuses Status.all stored = .ok opened.registry
  paths : Holds PathGraph.decodeTable .empty (medium.backing.readTable pathTable) opened.paths
  spines : ∃ read, SameMedium medium read ∧ opened.spines =
    SpineStore.ofMedium read config.spineSize config.ioPermits config.maxCasRetries
  config_eq : opened.config = config
  pool_eq : opened.pool = {}

/-- What `Opens` lists is known of every store that was opened. -/
theorem opens_of_overMedium {config : Config} {rooted : Bool} {medium next : Medium}
    {opened : Store} (h : overMedium config rooted medium = .ok opened next) :
    Opens config medium opened := by
  have hends : Ends (overMedium config rooted) medium (fun opened _ => Opens config medium opened)
      fun _ _ => True := by
    have hvalidate : Ends (outcome config.validate) medium
        (fun _ m => config.validate = .ok () ∧ m = medium) fun _ _ => True :=
      ends_outcome (fun _ hvalid => ⟨hvalid, rfl⟩) fun _ _ => trivial
    refine hvalidate.bind ?_
    rintro _ _ ⟨hvalid, rfl⟩
    refine (ends_readTable identityTable _ _ _).bind fun stored m ⟨hstored, hm⟩ => ?_
    refine (ends_readTable pathTable _ _ m).bind fun paths m' ⟨hpaths, hm'⟩ => ?_
    rw [hm.backing] at hpaths
    have hregister : Ends (outcome (registerStatuses Status.all stored)) m'
        (fun registry m => registerStatuses Status.all stored = .ok registry ∧ m = m')
        fun _ _ => True :=
      ends_outcome (fun _ hregistry => ⟨hregistry, rfl⟩) fun _ _ => trivial
    refine hregister.bind ?_
    rintro registry _ ⟨hregistry, rfl⟩
    exact ⟨hvalid, ⟨stored, hstored, hregistry⟩, hpaths, ⟨_, hm.trans hm', rfl⟩, rfl, rfl⟩
  exact hends.of_ok h

/-- Opening a store changes no blob. -/
theorem Opens.backing_eq {config : Config} {medium : Medium} {opened : Store}
    (h : Opens config medium opened) : opened.spines.medium.backing = medium.backing := by
  obtain ⟨read, hsame, hspines⟩ := h.spines
  rw [hspines]
  exact hsame.backing

/-- A store opens with no spine in memory and spines of the configured size. -/
theorem Opens.loaded_eq {config : Config} {medium : Medium} {opened : Store}
    (h : Opens config medium opened) :
    opened.spines.loaded = ∅ ∧ opened.spines.spineSize = config.spineSize := by
  obtain ⟨read, -, hspines⟩ := h.spines
  rw [hspines]
  exact ⟨rfl, rfl⟩

end Store

end Chronicle
