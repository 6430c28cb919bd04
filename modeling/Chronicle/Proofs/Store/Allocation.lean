import Chronicle.Proofs.Blob
import Chronicle.Proofs.Store.Identified
import Chronicle.Proofs.Store.Perform

/-!
# Payloads of nids that were handed out

A flush writes the spines after the identity table, and not at all if that fails. So no spine on the
medium ever holds a payload of a nid that the identity table does not account for, whatever fails
and wherever a session ends, and a nid that is handed out after the next opening is a new one.
Writing the spines on their own breaks this.
-/

namespace Chronicle

/-- Four bytes count every payload in memory. -/
def SpineStore.Writable (s : SpineStore) : Prop :=
  ∀ (index : Nat) (spine : Spine), s.loaded[index]? = some spine → ∀ slot payload,
    spine.payload? slot = some payload → payload.length < UInt32.size

/-- A store is writable if four bytes count every payload that it lists. -/
theorem SpineStore.writable_of_toList {s : SpineStore}
    (h : ∀ entry ∈ s.loaded.toList, ∀ cell ∈ entry.2.slots.toList,
      cell.2.payload.length < UInt32.size) : s.Writable := by
  intro index spine hspine slot payload hpayload
  rw [Spine.payload?, Option.map_eq_some_iff] at hpayload
  obtain ⟨cell, hcell, rfl⟩ := hpayload
  exact h (index, spine) (Std.ExtTreeMap.mem_toList_iff_getElem?_eq_some.mpr hspine) (slot, cell)
    (Std.ExtTreeMap.mem_toList_iff_getElem?_eq_some.mpr hcell)

/-- A flush leaves payloads as they are. -/
theorem SpineStore.Writable.flushed {s t : SpineStore} {index : Nat} (h : s.Writable)
    (htransition : Transition s (.flushed index) t) : t.Writable := by
  cases htransition with
  | idle => exact h
  | failed => exact h
  | written hloaded =>
    intro other spine hspine
    rw [getElem?_insert_index] at hspine
    split at hspine
    · cases hspine
      exact fun slot payload => h _ _ hloaded slot payload
    · exact h other spine hspine

namespace Store

/-- Spines have one size, payloads are merged for nids that were handed out, and spines are written
by flushes only. Whenever the store is flushed, the format can count the aliases of every nid and
the bytes of every payload. -/
def allocating (size : Nat) : Usage where
  admits config := config.spineSize = size
  allows s
    | .payloads .write => False
    | .flush => s.registry.Writable ∧ s.spines.Writable
    | operation => ∀ nid ∈ operation.targets, s.registry.Allocated nid

/-- Spines are written when the registry has no changes. -/
def allocatingRules : Rules where
  stored s nid := s.registry.Allocated nid
  linked _ _ := True
  identity s := s.registry.Writable
  paths _ := True
  spines s := s.registry.changed = false ∧ s.spines.Writable

/-- Each payload on the medium is one of a nid that the identity table accounts for, and each one in
memory that of a nid that the registry has handed out. -/
structure Allocates (size : Nat) (s : Store) : Prop where
  identified : s.Identified
  size_pos : 0 < size
  spineSize_eq : s.spines.spineSize = size
  held : ∀ nid place (spine : Spine) payload, s.spines.place? nid = some place →
    s.spines.loaded[place.index]? = some spine → spine.payload? place.slot = some payload →
    s.registry.Allocated nid
  stored : ∀ nid payload, s.spines.medium.stored size nid = some payload →
    ∃ next, s.backing.next? = some next ∧ nid.raw < next.raw

variable {size : Nat} {s t : Store} {nid : Nid}

private theorem allocates_permits {operation : Operation}
    (h : (allocating size).allows s operation) :
    allocatingRules.Permits s operation := by
  cases operation with
  | payloads request =>
    cases request with
    | merge other payload combine => exact h other List.mem_cons_self
    | write => exact h.elim
    | _ => trivial
  | appendVersion other kind version => exact h other List.mem_cons_self
  | flush =>
    refine ⟨fun _ => h.1, fun _ _ => trivial, fun hregistry _ => ⟨hregistry, ?_⟩⟩
    rw [SpineStore.Writable, loaded_flushPaths]
    exact h.2
  | addPathOrigin => exact ⟨trivial, trivial⟩
  | _ => trivial

/-- Nothing but the payloads in memory, the registry and the medium counts. -/
theorem Allocates.congr (h : Allocates size s) (hidentified : t.Identified)
    (hsize : t.spines.spineSize = s.spines.spineSize)
    (hloaded : t.spines.loaded = s.spines.loaded)
    (hallocated : ∀ nid, s.registry.Allocated nid → t.registry.Allocated nid)
    (hread : ∀ index, t.backing.readSpine index = s.backing.readSpine index)
    (hnext : ∀ next, s.backing.next? = some next →
      ∃ later, t.backing.next? = some later ∧ next.raw ≤ later.raw) : Allocates size t := by
  refine ⟨hidentified, h.size_pos, hsize.trans h.spineSize_eq,
    fun nid place spine payload hplace hspine hpayload => ?_, fun nid payload hpayload => ?_⟩
  · rw [SpineStore.place?_congr hsize] at hplace
    rw [hloaded] at hspine
    exact hallocated nid (h.held nid place spine payload hplace hspine hpayload)
  · have hstored : t.spines.medium.stored size nid = s.spines.medium.stored size nid := by
      simp only [Medium.stored, Medium.payload?, Backing.blob?, hread]
    rw [hstored] at hpayload
    obtain ⟨next, hpersisted, hlt⟩ := h.stored nid payload hpayload
    obtain ⟨later, hlater, hle⟩ := hnext next hpersisted
    exact ⟨later, hlater, Int32.lt_of_lt_of_le hlt hle⟩

/-- A nid whose payload is on the medium was handed out. -/
theorem Allocates.allocated_of_stored {payload : Bytes} (h : Allocates size s)
    (hpayload : s.spines.medium.stored size nid = some payload) : s.registry.Allocated nid := by
  obtain ⟨next, hnext, hlt⟩ := h.stored nid payload hpayload
  refine ⟨?_, Int32.lt_of_lt_of_le hlt (h.identified.next_le next hnext)⟩
  rw [← Int32.not_lt, ← Nid.offset?_eq_none_iff]
  intro hnone
  simp only [Medium.stored, hnone] at hpayload
  cases hpayload

/-- A spine comes into memory with what the medium stores. -/
theorem Allocates.touched {index : Nat} {spine : Spine} {place : Place} {payload : Bytes}
    (h : Allocates size s) (hloads : SpineStore.Loads s.spines index spine)
    (hplace : s.spines.place? nid = some place) (hindex : place.index = index)
    (hpayload : spine.payload? place.slot = some payload) : s.registry.Allocated nid := by
  cases hloads with
  | unlisted =>
    rw [Spine.payload?_empty] at hpayload
    cases hpayload
  | absent =>
    rw [Spine.payload?_empty] at hpayload
    cases hpayload
  | refused =>
    rw [Spine.payload?_unreadable] at hpayload
    cases hpayload
  | decoded _ hblob hdecode =>
    rw [← hindex, ← Backing.blob?_eq_some_iff] at hblob
    have hstored : s.spines.medium.stored size nid = some payload := by
      rw [← h.spineSize_eq, SpineStore.stored_of_place? hplace, Medium.payload?_of_ok hblob hdecode,
        hpayload]
    exact h.allocated_of_stored hstored

/-- A spine that is written holds payloads of nids that the registry has handed out. -/
theorem Allocates.written {index : Nat} {spine : Spine} {medium : Medium} {payload : Bytes}
    (h : Allocates size s) (hclean : s.registry.changed = false) (hwritable : s.spines.Writable)
    (hloaded : s.spines.loaded[index]? = some spine)
    (hblob : ∀ other, medium.backing.blob? other =
      if other = index then some (spine.encode s.spines.spineSize) else s.backing.blob? other)
    (hpayload : medium.stored size nid = some payload) :
    ∃ next, s.backing.next? = some next ∧ nid.raw < next.raw := by
  cases hplace : s.spines.place? nid with
  | none =>
    rw [← h.spineSize_eq, SpineStore.stored_of_place?_none hplace] at hpayload
    cases hpayload
  | some place =>
    rw [← h.spineSize_eq, SpineStore.stored_of_place? hplace] at hpayload
    by_cases hindex : place.index = index
    · refine ⟨_, h.identified.next?_eq hclean, ?_⟩
      have hwritten := hblob place.index
      rw [if_pos hindex] at hwritten
      cases hdecode : Spine.decode s.spines.spineSize (spine.encode s.spines.spineSize) with
      | error error =>
        rw [Medium.payload?_of_error hwritten hdecode] at hpayload
        cases hpayload
      | ok decoded =>
        rw [Medium.payload?_of_ok hwritten hdecode,
          Spine.payload?_of_decode_encode (hwritable index spine hloaded) hdecode] at hpayload
        split at hpayload
        · rw [Option.filter_eq_some_iff] at hpayload
          subst hindex
          exact (h.held nid place spine payload hplace hloaded hpayload.1).2
        · cases hpayload
    · refine h.stored nid payload ?_
      rw [← h.spineSize_eq, SpineStore.stored_of_place? hplace, ← hpayload]
      refine (Medium.payload?_congr ?_).symm
      rw [hblob, if_neg hindex]

/-- A payload comes into memory from the medium, or because it is installed. -/
theorem Allocates.held_of_transition {spines : SpineStore} {event : SpineStore.Event}
    {place : Place} {spine : Spine} {payload : Bytes} (h : Allocates size s)
    (htransition : SpineStore.Transition s.spines event spines)
    (hinstalled : ∀ nid payload, event = .installed nid payload → s.registry.Allocated nid)
    (hplace : s.spines.place? nid = some place)
    (hloaded : spines.loaded[place.index]? = some spine)
    (hpayload : spine.payload? place.slot = some payload) : s.registry.Allocated nid := by
  cases htransition with
  | idle => exact h.held nid place spine payload hplace hloaded hpayload
  | failed => exact h.held nid place spine payload hplace hloaded hpayload
  | touched _ _ hloads =>
    rw [SpineStore.getElem?_insert_index] at hloaded
    split at hloaded
    · rename_i hindex
      cases hloaded
      exact h.touched hloads hplace hindex hpayload
    · exact h.held nid place spine payload hplace hloaded hpayload
  | @installed other update target found htarget hfound =>
    rw [SpineStore.getElem?_insert_index] at hloaded
    split at hloaded
    · rename_i hindex
      cases hloaded
      rw [Spine.payload?_install] at hpayload
      split at hpayload
      · rename_i hslot
        have hsame : place = target := by
          cases place
          cases target
          simp_all
        subst hsame
        rw [SpineStore.place?_inj hplace htarget]
        exact hinstalled other update rfl
      · exact h.held nid place found payload hplace (by rw [hindex, hfound]) hpayload
    · exact h.held nid place spine payload hplace hloaded hpayload
  | @written index found _ _ hfound =>
    rw [SpineStore.getElem?_insert_index] at hloaded
    split at hloaded
    · rename_i hindex
      cases hloaded
      exact h.held nid place found payload hplace (by rw [hindex, hfound]) hpayload
    · exact h.held nid place spine payload hplace hloaded hpayload

/-- A payload gets to the medium with the spine that it is in. -/
theorem Allocates.stored_of_transition {spines : SpineStore} {event : SpineStore.Event}
    {payload : Bytes} (h : Allocates size s)
    (htransition : SpineStore.Transition s.spines event spines)
    (hflushed : ∀ index, event = .flushed index →
      s.registry.changed = false ∧ s.spines.Writable)
    (hpayload : spines.medium.stored size nid = some payload) :
    ∃ next, s.backing.next? = some next ∧ nid.raw < next.raw := by
  cases htransition with
  | idle => exact h.stored nid payload hpayload
  | installed => exact h.stored nid payload hpayload
  | touched _ _ _ hbacking =>
    rw [Medium.stored_congr hbacking] at hpayload
    exact h.stored nid payload hpayload
  | failed hread =>
    refine h.stored nid payload ?_
    rw [← hpayload]
    simp only [Medium.stored, Medium.payload?, Backing.blob?, hread]
  | written hspine _ _ hwrite =>
    obtain ⟨hclean, hwritable⟩ := hflushed _ rfl
    exact h.written hclean hwritable hspine (Backing.blob?_of_writeSpine hwrite) hpayload

/-- What happens to the spines keeps the rules, if it is done by them. -/
theorem Allocates.transition {spines : SpineStore} {event : SpineStore.Event}
    (h : Allocates size s) (htransition : SpineStore.Transition s.spines event spines)
    (hidentified : Identified { s with spines })
    (hidentity : spines.medium.backing.readTable identityTable = s.backing.readTable identityTable)
    (hinstalled : ∀ nid payload, event = .installed nid payload → s.registry.Allocated nid)
    (hflushed : ∀ index, event = .flushed index →
      s.registry.changed = false ∧ s.spines.Writable) :
    Allocates size { s with spines } := by
  have hplace (nid : Nid) : spines.place? nid = s.spines.place? nid :=
    SpineStore.place?_congr htransition.spineSize_eq nid
  refine ⟨hidentified, h.size_pos, htransition.spineSize_eq.trans h.spineSize_eq,
    fun nid place spine payload hfound hloaded hpayload => ?_, fun nid payload hpayload => ?_⟩
  · exact h.held_of_transition htransition hinstalled ((hplace nid).symm.trans hfound) hloaded
      hpayload
  · obtain ⟨next, hnext, hlt⟩ := h.stored_of_transition htransition hflushed hpayload
    exact ⟨next, (Backing.next?_congr hidentity).trans hnext, hlt⟩

/-- Every change by the rules keeps the payloads of nids apart that were not handed out. -/
theorem Allocates.change (h : Allocates size s) (hchange : Change allocatingRules s t) :
    Allocates size t := by
  have hidentified : t.Identified := h.identified.change hchange id
  have hkept (hsize : t.spines.spineSize = s.spines.spineSize)
      (hloaded : t.spines.loaded = s.spines.loaded)
      (hread : ∀ index, t.backing.readSpine index = s.backing.readSpine index) :
      Allocates size t :=
    h.congr hidentified hsize hloaded (fun _ => hchange.allocated) hread
      (h.identified.next?_change hchange id)
  cases hchange with
  | pool => exact hkept rfl rfl fun _ => rfl
  | linked => exact hkept rfl rfl fun _ => rfl
  | resolved => exact hkept rfl rfl fun _ => rfl
  | touched htransition =>
    exact h.transition htransition hidentified (by rw [htransition.backing_eq (by simp)]) (by simp)
      (by simp)
  | @installed nid payload _ hnid htransition =>
    refine h.transition htransition hidentified (by rw [htransition.backing_eq (by simp)]) ?_
      (by simp)
    rintro other update heq
    cases heq
    exact hnid
  | flushed hrule htransition hidentity =>
    exact h.transition htransition hidentified hidentity (by simp) fun _ _ => hrule
  | identity _ hwrites => exact hkept rfl rfl hwrites.readSpine
  | paths _ hwrites => exact hkept rfl rfl hwrites.readSpine
  | accessed hspines => exact hkept rfl rfl hspines

/-- A payload that a store answers is one of a nid that the registry has handed out. -/
theorem Allocates.allocated_of_lookup {payload : Bytes} (h : Allocates size s)
    (hpayload : (SpineStore.lookup nid s.spines).1 = some payload) : s.registry.Allocated nid := by
  obtain ⟨index, htransition⟩ := SpineStore.lookup_transition nid s.spines
  obtain ⟨place, spine, hplace, hloaded, hspine⟩ := SpineStore.loaded_of_lookup hpayload
  have hafter := h.change (.touched htransition)
  rw [← SpineStore.place?_congr htransition.spineSize_eq] at hplace
  exact hafter.held nid place spine payload hplace hloaded hspine

/-- Every change by the rules keeps payloads to nids that are accounted for. -/
theorem invariant_allocates (size : Nat) : Invariant allocatingRules (Allocates size) where
  change := Allocates.change
  stored _ hchange hnid := hchange.allocated hnid
  resolved h hresolve := (h.identified.consistent.resolve hresolve).2
  held h hpayload := h.allocated_of_lookup hpayload
  spines _ hrule htransition := ⟨hrule.1, hrule.2.flushed htransition⟩

end Store

/-- Only nids that the identity table accounts for have payloads on a medium. -/
structure Backing.Allocates (size : Nat) (backing : Backing) : Prop where
  identities : backing.HasIdentities
  stored : ∀ nid payload, ({ backing } : Medium).stored size nid = some payload →
    ∃ next, backing.next? = some next ∧ nid.raw < next.raw

namespace Store

/-- A store that is opened over such a medium accounts for its payloads. -/
theorem Opens.allocates {config : Config} {medium : Medium} {opened : Store} {size : Nat}
    (h : Opens config medium opened) (hsize : config.spineSize = size)
    (hmedium : medium.backing.Allocates size) : Allocates size opened := by
  obtain ⟨hempty, hspineSize⟩ := h.loaded_eq
  have hpower := (Config.validate_eq_ok_iff.mp h.valid).1
  refine ⟨h.identified hmedium.identities, hsize ▸ Config.pos_of_isPowerOfTwo hpower,
    hspineSize.trans hsize, fun nid place spine payload _ hloaded => ?_,
    fun nid payload hpayload => ?_⟩
  · simp [hempty] at hloaded
  · rw [backing, h.backing_eq]
    refine hmedium.stored nid payload ?_
    rw [← hpayload]
    exact Medium.stored_congr h.backing_eq.symm

/-- Every session that is opened on such a medium keeps it so. -/
theorem Session.allocates {config : Config} {rooted : Bool} {medium next : Medium}
    {opened s : Store} {size : Nat} (hs : Session (allocating size) opened s)
    (hmedium : medium.backing.Allocates size) (hsize : config.spineSize = size)
    (hopen : overMedium config rooted medium = .ok opened next) : Allocates size s :=
  (invariant_allocates size).session ((opens_of_overMedium hopen).allocates hsize hmedium)
    (fun _ _ _ hallowed => allocates_permits hallowed) hs

private theorem Leaves.allocates {size : Nat} {backing : Backing}
    (h : Leaves (allocating size) backing) :
    backing.Allocates size := by
  induction h with
  | @blank backing h =>
    refine ⟨Or.inl h.identity, fun nid payload hpayload => ?_⟩
    simp [Medium.stored, Medium.payload?, h.blob?] at hpayload
  | session _ hadmitted hopen hs ih =>
    have hallocates := hs.allocates ih hadmitted hopen
    exact ⟨hallocates.identified.persisted, fun nid payload hpayload =>
      hallocates.stored nid payload ((Medium.stored_congr rfl).trans hpayload)⟩

/-- However sessions follow one another on a medium that was blank at first, and wherever each of
them ends, every nid with a payload on the medium is smaller than the one that the identity table
hands out next. So in each later session, a nid that is handed out newly has no payload, neither on
the medium nor in memory. -/
theorem payloads_allocated {size : Nat} {backing : Backing}
    (h : Leaves (allocating size) backing) :
    (∀ nid payload, ({ backing } : Medium).stored size nid = some payload →
      ∃ next, backing.next? = some next ∧ nid.raw < next.raw) ∧
    ∀ (config : Config) rooted faults opened next s, config.spineSize = size →
      overMedium config rooted { backing, faults } = .ok opened next →
      Session (allocating size) opened s → ∀ id nid t, s.registry.nidFor? id = none →
        resolve id s = .ok nid t →
        t.spines.medium.stored size nid = none ∧ (SpineStore.lookup nid t.spines).1 = none := by
  have hmedium := h.allocates
  refine ⟨hmedium.stored, fun config rooted faults opened next s hsize hopen hs id nid t hnew
    hresolve => ?_⟩
  have hbacking : ({ backing, faults } : Medium).backing.Allocates size := hmedium
  have hallocates := hs.allocates hbacking hsize hopen
  obtain ⟨rfl, registry, rfl⟩ := eq_next_of_resolve hnew hresolve
  have hunallocated := not_allocated_next s
  constructor
  · cases hpayload : s.spines.medium.stored size s.registry.next with
    | none => rfl
    | some payload => exact absurd (hallocates.allocated_of_stored hpayload) hunallocated
  · cases hpayload : (SpineStore.lookup s.registry.next s.spines).1 with
    | none => rfl
    | some payload => exact absurd (hallocates.allocated_of_lookup hpayload) hunallocated

/-- A session hands out a nid, stores a payload for it and is flushed. The next session hands out
another nid. -/
theorem payloads_allocated_flushed :
    ∃ backing, Leaves (allocating 4) backing ∧
      ({ backing } : Medium).stored 4 ⟨-2147483642⟩ = some [0xaa] ∧
      (∃ next, backing.next? = some next ∧ -2147483642 < next.raw) ∧
      ∃ opened next id t, overMedium { spineSize := 4 } false { backing } = .ok opened next ∧
        resolve id opened = .ok ⟨-2147483641⟩ t ∧
        t.spines.medium.stored 4 ⟨-2147483641⟩ = none := by
  obtain ⟨opened, next, s, hopen, hs, hstored, hhands⟩ :
      ∃ opened next s, overMedium { spineSize := 4 } false Medium.inMemory = .ok opened next ∧
        Session (allocating 4) opened s ∧
        ({ backing := s.backing } : Medium).stored 4 ⟨-2147483642⟩ = some [0xaa] ∧
        handsOut s.backing ⟨2⟩ ⟨-2147483641⟩ (fun _ => true) = true := by
    refine ⟨_, _, _, rfl, ((Session.opened.andThen (.resolveAliases [⟨1⟩]) ?_).andThen
      (.payloads (.merge ⟨-2147483642⟩ [0xaa] fun _ update => update)) ?_).andThen .flush ?_,
      by decide +kernel, by decide +kernel⟩
    · exact fun nid hnid => by cases hnid
    · intro nid hnid
      obtain rfl := List.mem_singleton.mp hnid
      constructor <;> decide +kernel
    · exact ⟨Registry.writable_of_toList (by decide +kernel),
        SpineStore.writable_of_toList (by decide +kernel)⟩
  have hleaves : Leaves (allocating 4) s.backing :=
    .session (.blank Backing.blank_inMemory) (by exact rfl) hopen hs
  obtain ⟨hallocated, hfresh⟩ := payloads_allocated hleaves
  obtain ⟨reopened, next', id, t, hreopen, hunknown, hresolve, -⟩ := exists_of_handsOut hhands
  exact ⟨s.backing, hleaves, hstored, hallocated _ _ hstored, reopened, next', id, t, hreopen,
    hresolve, (hfresh _ _ {} _ _ _ rfl hreopen .opened _ _ _ hunknown hresolve).1⟩

/-- Spines have one size, and payloads are merged for nids that were handed out. -/
def merging (size : Nat) : Usage where
  admits config := config.spineSize = size
  allows s operation := ∀ nid ∈ operation.targets, s.registry.Allocated nid

/-- When the spines are written on their own, the identity table does not account for a payload that
is on the medium, and the next session hands its nid out again. -/
theorem payload_unaccounted :
    ∃ backing, Leaves (merging 4) backing ∧
      ({ backing } : Medium).stored 4 ⟨-2147483642⟩ = some [0xaa] ∧ backing.next? = none ∧
      ∃ opened next id t, overMedium { spineSize := 4 } false { backing } = .ok opened next ∧
        opened.registry.nidFor? id = none ∧ resolve id opened = .ok ⟨-2147483642⟩ t ∧
        (SpineStore.lookup ⟨-2147483642⟩ t.spines).1 = some [0xaa] := by
  obtain ⟨opened, next, s, hopen, hs, hstored, hnext, hhands⟩ :
      ∃ opened next s, overMedium { spineSize := 4 } false Medium.inMemory = .ok opened next ∧
        Session (merging 4) opened s ∧
        ({ backing := s.backing } : Medium).stored 4 ⟨-2147483642⟩ = some [0xaa] ∧
        s.backing.next? = none ∧
        handsOut s.backing ⟨2⟩ ⟨-2147483642⟩
          (fun t => (SpineStore.lookup ⟨-2147483642⟩ t.spines).1 = some [0xaa]) = true := by
    refine ⟨_, _, _, rfl, ((Session.opened.andThen (.resolveAliases [⟨1⟩]) ?_).andThen
      (.payloads (.merge ⟨-2147483642⟩ [0xaa] fun _ update => update)) ?_).andThen
      (.payloads .write) ?_, by decide +kernel, by decide +kernel, by decide +kernel⟩
    · exact fun nid hnid => by cases hnid
    · intro nid hnid
      obtain rfl := List.mem_singleton.mp hnid
      constructor <;> decide +kernel
    · exact fun nid hnid => by cases hnid
  obtain ⟨reopened, next', id, t, hreopen, hunknown, hresolve, htest⟩ := exists_of_handsOut hhands
  exact ⟨s.backing, .session (.blank Backing.blank_inMemory) (by exact rfl) hopen hs, hstored,
    hnext, reopened, next', id, t, hreopen, hunknown, hresolve, of_decide_eq_true htest⟩

end Store

end Chronicle
