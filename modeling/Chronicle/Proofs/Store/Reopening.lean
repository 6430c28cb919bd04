import Chronicle.Proofs.Identity.Entries
import Chronicle.Proofs.Path.Route
import Chronicle.Proofs.Spine.Storable
import Chronicle.Proofs.Store.Asking
import Chronicle.Proofs.Store.Persistence

/-!
# Opening a store again

After a flush that succeeded, no part of a store has changes, so the medium has all of them. A store
that is opened over it then knows the same identities, edges and payloads and answers like the old
one. Only the order of the origins of a path may differ, which no route depends on.

The words of the format have to hold what they count. A configuration may ask for more slots than
signed words count, and then a flush succeeds, but what it wrote to the blobs is not found again.
-/

namespace Chronicle

/-- Tables and spines are read without a failure. -/
structure Medium.Readable (medium : Medium) : Prop extends medium.Healthy where
  tables : Store.ReadsTables medium

/-- Whether the blobs of a medium are on a shelf. -/
def Backing.isShelf : Backing → Bool
  | shelf _ => true
  | folder _ => false

private theorem Medium.readable_of_isShelf {backing : Backing} (h : backing.isShelf = true) :
    Medium.Readable { backing } := by
  cases backing with
  | shelf shelf => exact ⟨⟨⟨_, rfl, fun index _ => ⟨_, rfl⟩⟩, fun _ _ => rfl⟩, fun _ _ => rfl⟩
  | folder folder => cases h

namespace Store

variable {s t : Store} {content : Nid → Option Bytes} {nid : Nid}

/-! ## A flush that succeeds -/

/-- A flush that succeeds leaves a store without changes, whose spines were written after the
tables. -/
theorem store_of_flush {stats : FlushStats} (h : flush s = .ok stats t) :
    ∃ (medium : Medium) (spines : SpineStore),
      (∀ index, medium.backing.readSpine index = s.spines.medium.backing.readSpine index) ∧
      SpineStore.write { s.spines with medium } = .ok stats.spines spines ∧
      t = { s with registry := s.registry.settled, paths := s.paths.settled, spines } := by
  have hends : Ends flush s (fun stats t => ∃ (medium : Medium) (spines : SpineStore),
      (∀ index, medium.backing.readSpine index = s.spines.medium.backing.readSpine index) ∧
      SpineStore.write { s.spines with medium } = .ok stats.spines spines ∧
      t = { s with registry := s.registry.settled, paths := s.paths.settled, spines })
      fun _ _ => True := by
    refine ends_flush (fun _ _ => trivial) fun m n hm hn => ?_
    obtain ⟨medium, hreads, hafter⟩ := store_of_flushes hm hn
    rw [hafter]
    refine ends_tryOnSpines ?_
    dsimp only
    cases hwrite : SpineStore.write { s.spines with medium } with
    | ok n spines => exact ends_of_ok hwrite ⟨medium, spines, hreads, hwrite, rfl⟩
    | error error spines => exact ends_of_error hwrite trivial
  exact hends.of_ok h

/-- After a flush that succeeded, no table has changes, and every edge is left. -/
theorem Tabled.of_flush {stats : FlushStats} (hs : s.Tabled) (haliases : s.registry.Writable)
    (h : flush s = .ok stats t) : t.Tabled ∧ t.registry.changed = false ∧
      t.paths.changed = false ∧ t.paths.size = s.paths.size := by
  have hpermits : persistingRules.Permits s .flush := persisting_permits haliases
  refine ⟨((invariant_tabled.keeps_flush hs hpermits).of_ok h).1.holds, ?_⟩
  obtain ⟨-, spines, -, -, rfl⟩ := store_of_flush h
  exact ⟨rfl, rfl, rfl⟩

/-- What is known of the spines is known after a flush. -/
theorem Spined.of_flush {config : Config} {stats : FlushStats} (hs : Spined config s)
    (haliases : s.registry.Writable) (h : flush s = .ok stats t) : Spined config t := by
  have hpermits : persistingRules.Permits s .flush := persisting_permits haliases
  exact (((invariant_spined config).keeps_flush hs hpermits).of_ok h).1.holds

/-- Once it can be read, a store serves what it holds. -/
theorem Spined.serves_held {config : Config} {faults : Faults} (h : Spined config t)
    (hready : (t.withFaults faults).spines.Ready) :
    (t.withFaults faults).spines.Serves fun nid => (t.spines.place? nid).bind t.spines.held? := by
  have hcoherent :
      ({ t.spines with medium := { t.spines.medium with faults } } : SpineStore).Coherent :=
    h.coherent.accessed fun _ => rfl
  exact hcoherent.serves hready (h.spineSize_eq.symm ▸ h.size_pos)
    (h.attempts_eq.symm ▸ h.attempts_pos)

/-- After a flush that succeeded, the medium stores what the store holds exactly if signed words
count the slots of a spine or there was nothing to write. -/
theorem Spined.stored_eq_held_iff {config : Config} {stats : FlushStats} (hs : Spined config s)
    (ht : Spined config t) (hstorable : s.spines.Storable) (h : flush s = .ok stats t) :
    (∀ nid, t.spines.medium.stored config.spineSize nid =
        (t.spines.place? nid).bind t.spines.held?) ↔
      config.spineSize < Wire.signedLimit ∨ s.spines.Described := by
  obtain ⟨medium, spines, hreads, hwrite, rfl⟩ := store_of_flush h
  rw [← ht.spineSize_eq, ← SpineStore.described_accessed hreads]
  exact SpineStore.stored_eq_held_iff hwrite ⟨hstorable.clean, hstorable.nonempty, hstorable.short⟩
    (hs.traced.accessed hreads) ht.traced ht.coherent

/-- With more slots than signed words count, a flush that succeeds leaves nothing on the medium for
the nids of a spine that had changes. -/
theorem Spined.stored_eq_none {config : Config} {stats : FlushStats} {nid : Nid} {place : Place}
    {spine : Spine} (ht : Spined config t) (hshort : s.spines.Short)
    (h : flush s = .ok stats t) (hlarge : Wire.signedLimit ≤ config.spineSize)
    (hspine : s.spines.loaded[place.index]? = some spine) (hchanged : spine.changed = true)
    (hplace : t.spines.place? nid = some place) :
    t.spines.medium.stored config.spineSize nid = none := by
  obtain ⟨medium, spines, -, hwrite, rfl⟩ := store_of_flush h
  rw [← ht.spineSize_eq] at hlarge ⊢
  exact SpineStore.stored_of_authored hwrite hshort hlarge ⟨spine, hspine, Or.inl hchanged⟩ hplace

/-! ## What a store answers -/

/-- A store answers like another one whose caches were reset: it knows the same identities and
edges, has the same payloads, and every view of it shows the same. -/
structure Reproduces (s t : Store) : Prop where
  nid : ∀ uuid, t.nid uuid = s.nid uuid
  publicId : ∀ nid, t.publicId nid = s.publicId nid
  next : t.registry.next = s.registry.next
  lookup : ∀ nid, (SpineStore.lookup nid t.spines).1 = (SpineStore.lookup nid s.spines).1
  stamp : ∀ nid, (attempt (stamp nid) t).1 = (attempt (stamp nid) s).1
  stampHistory : ∀ nid, (attempt (stampHistory nid) t).1 = (attempt (stampHistory nid) s).1
  chronology : ∀ nid, (attempt (chronology nid) t).1 = (attempt (chronology nid) s).1
  origins : ∀ path edge, edge ∈ t.pathOrigins path ↔ edge ∈ s.pathOrigins path
  latest : ∀ coordinate nid,
    (latest coordinate nid t).1 = (Store.latest coordinate nid (resetCaches s).2).1

/-- A store that answers like another one knows the same public ids. -/
theorem Reproduces.publicId? (h : Reproduces s t) (nid : Nid) :
    t.registry.publicId? nid = s.registry.publicId? nid := by
  have hids := h.publicId nid
  rw [Store.publicId, Store.publicId] at hids
  cases hold : s.registry.publicId? nid <;> cases hnew : t.registry.publicId? nid <;> simp_all

/-- What is answered after a payload was looked up is the same if the payload is and nothing else is
asked of the store. -/
theorem attempt_lookup_bind {α : Type} {f : Option Bytes → Action α}
    (hf : ∀ payload? s t, (attempt (f payload?) t).1 = (attempt (f payload?) s).1)
    (h : (SpineStore.lookup nid t.spines).1 = (SpineStore.lookup nid s.spines).1) :
    (attempt (infallible (onSpines (SpineStore.lookup nid)) >>= f) t).1 =
      (attempt (infallible (onSpines (SpineStore.lookup nid)) >>= f) s).1 := by
  have hrun (s : Store) :
      (attempt (infallible (onSpines (SpineStore.lookup nid)) >>= f) s).1 =
        (attempt (f (SpineStore.lookup nid s.spines).1)
          { s with spines := (SpineStore.lookup nid s.spines).2 }).1 := rfl
  rw [hrun, hrun, h]
  exact hf _ _ _

private theorem attempt_outcome {σ α ε : Type} [Coe ε StoreError] (x : Except ε α) (s t : σ) :
    (attempt (outcome x) t).1 = (attempt (outcome x) s).1 := by
  cases x <;> rfl

private theorem stampHistory_congr
    (h : (SpineStore.lookup nid t.spines).1 = (SpineStore.lookup nid s.spines).1) :
    (attempt (stampHistory nid) t).1 = (attempt (stampHistory nid) s).1 :=
  attempt_lookup_bind (fun payload? s t => by
    cases payload? with
    | some payload => exact attempt_outcome _ s t
    | none => rfl) h

private theorem chronology_congr
    (h : (SpineStore.lookup nid t.spines).1 = (SpineStore.lookup nid s.spines).1) :
    (attempt (chronology nid) t).1 = (attempt (chronology nid) s).1 :=
  attempt_lookup_bind (fun payload? s t => by
    cases payload? with
    | some payload => exact attempt_outcome _ s t
    | none => rfl) h

/-- Stores that look a nid up alike answer the same stamp for it. -/
theorem stamp_congr
    (h : (SpineStore.lookup nid t.spines).1 = (SpineStore.lookup nid s.spines).1) :
    (attempt (stamp nid) t).1 = (attempt (stamp nid) s).1 := by
  have hstamp (s : Store) : (attempt (stamp nid) s).1 =
      (attempt (stampHistory nid) s).1.map StampHistory.current :=
    attempt_bind_pure _ _ s
  rw [hstamp, hstamp, stampHistory_congr h]

/-- Two stores that know the same identities and edges and serve the same payloads answer alike, if
the second one remembers no calculators. -/
theorem reproduces_of_serves (hregistry : t.registry = s.registry)
    (hedges : ∀ path edge, edge ∈ t.paths.origins path ↔ edge ∈ s.paths.origins path)
    (hs : s.spines.Serves content) (ht : t.spines.Serves content) (hpool : t.pool.remembered = {}) :
    s.Reproduces t := by
  have hlookup (nid : Nid) :
      (SpineStore.lookup nid t.spines).1 = (SpineStore.lookup nid s.spines).1 := by
    obtain ⟨_, hold, -⟩ := hs.lookup nid
    obtain ⟨_, hnew, -⟩ := ht.lookup nid
    rw [hold, hnew]
  refine ⟨fun uuid => ?_, fun nid => ?_, by rw [hregistry], hlookup,
    fun nid => stamp_congr (hlookup nid), fun nid => stampHistory_congr (hlookup nid),
    fun nid => chronology_congr (hlookup nid), hedges, fun coordinate nid => ?_⟩
  · rw [Store.nid, Store.nid, hregistry]
  · rw [Store.publicId, Store.publicId, hregistry]
  · have hreset : (resetCaches s).2.spines.Serves content := hs
    rw [latest_new (by rw [hpool]; rfl) ht, latest_new rfl hreset]
    have hroute : Calculator.presentRoute t.scene coordinate =
        Calculator.presentRoute (resetCaches s).2.scene coordinate :=
      PathGraph.route_congr hedges
    rw [hroute]

/-! ## Opening again -/

/-- What is known of the tables is known at every moment of a session. -/
theorem Session.tabled {medium next : Medium} {config : Config} {rooted : Bool} {opened : Store}
    (hs : Session persisting opened s) (hmedium : Leaves persisting medium.backing)
    (hopen : overMedium config rooted medium = .ok opened next) : s.Tabled :=
  invariant_tabled.session
    ((opens_of_overMedium hopen).tabled hmedium.tabled.1 hmedium.tabled.2)
    (fun _ _ _ => persisting_permits) hs

/-- What is known of the spines is known at every moment of a session. -/
theorem Session.spined {medium next : Medium} {config : Config} {rooted : Bool} {opened : Store}
    {indices : List Nat} (hs : Session persisting opened s)
    (hlisting : (Medium.spineIndices medium).1 = .ok indices)
    (hopen : overMedium config rooted medium = .ok opened next) : Spined config s :=
  (invariant_spined config).session ((opens_of_overMedium hopen).spined hlisting)
    (fun _ _ _ => persisting_permits) hs

/-- Tables without changes are read back. -/
theorem Tabled.holds (h : t.Tabled) (hregistry : t.registry.changed = false)
    (hpaths : t.paths.changed = false) (hsize : t.paths.size < UInt32.size) :
    Holds Registry.decodeTable .empty (t.backing.readTable identityTable) t.registry ∧
      ∃ g, Holds PathGraph.decodeTable .empty (t.backing.readTable pathTable) g ∧
        ∀ path edge, edge ∈ g.origins path ↔ edge ∈ t.paths.origins path := by
  constructor
  · obtain ⟨hwritable, htable⟩ := h.identified.settled hregistry
    have hdecode := h.identified.consistent.decodeTable_encodeTable hwritable
    rw [Registry.settled, ← hregistry] at hdecode
    exact .decoded htable hdecode
  · cases h.settled hpaths with
    | missing hnone hempty =>
      refine ⟨.empty, .missing hnone, fun path edge => ?_⟩
      rw [hempty]
      simp [PathGraph.origins, PathGraph.empty]
    | @written written htable hedges hsame =>
      refine ⟨written.reread,
        .decoded htable (PathGraph.decodeTable_encodeTable_iff.mpr ⟨hsame ▸ hsize, rfl⟩),
        fun path edge => ?_⟩
      exact PathGraph.mem_origins_reread.trans (hedges path edge).symm

/-- If a path table without changes is read back, four bytes count the edges. -/
theorem Tabled.size_lt {g : PathGraph} (h : t.Tabled) (hpaths : t.paths.changed = false)
    (hg : Holds PathGraph.decodeTable .empty (t.backing.readTable pathTable) g) :
    t.paths.size < UInt32.size := by
  cases h.settled hpaths with
  | missing hnone hempty =>
    rw [PathGraph.size_eq_zero hempty]
    decide
  | @written written htable hedges hsame =>
    cases hg with
    | missing hnone =>
      rw [htable] at hnone
      cases hnone
    | decoded hsome hdecode =>
      rw [htable, Except.ok.injEq, Option.some.injEq] at hsome
      rw [← hsome] at hdecode
      exact hsame ▸ (PathGraph.decodeTable_encodeTable_iff.mp hdecode).1

/-- A store over the same medium as one without changes in its tables knows the same identities and
edges and serves what the medium stores. -/
theorem Tabled.reopened {again : Medium} {config : Config} (rooted : Bool) (h : t.Tabled)
    (hregistry : t.registry.changed = false) (hpaths : t.paths.changed = false)
    (hsize : t.paths.size < UInt32.size) (hagain : again.backing = t.backing)
    (hreads : again.Readable) (hvalid : config.validate = .ok ()) :
    ∃ reopened last, overMedium config rooted again = .ok reopened last ∧
      reopened.registry = t.registry ∧
      (∀ path edge, edge ∈ reopened.paths.origins path ↔ edge ∈ t.paths.origins path) ∧
      reopened.spines.Serves (t.spines.medium.stored config.spineSize) ∧
      reopened.pool.remembered = {} := by
  obtain ⟨hidentity, g, hgraph, horigins⟩ := h.holds hregistry hpaths hsize
  rw [← hagain] at hidentity hgraph
  obtain ⟨read, hread, hreopen⟩ := overMedium_of_holds rooted hvalid hreads.tables hidentity hgraph
    (registerStatuses_of_registered h.identified.statuses)
  refine ⟨_, _, hreopen, rfl, horigins, ?_, rfl⟩
  obtain ⟨hpower, hpermits, -, -, -, -, hattempts⟩ := Config.validate_eq_ok_iff.mp hvalid
  have hopened := SpineStore.serves_ofMedium (hread.healthy hreads.toHealthy)
    (Config.pos_of_isPowerOfTwo hpower) (Nat.pos_of_ne_zero hpermits) (Nat.pos_of_ne_zero hattempts)
  have hcontent : read.stored config.spineSize = t.spines.medium.stored config.spineSize :=
    funext fun nid => Medium.stored_congr (hread.backing.trans hagain)
  rwa [hcontent] at hopened

/-- After a flush that succeeded, the identity table is that of the registry, whether or not it can
be read again. -/
theorem Session.inscribed_flush {usage : Usage} {medium next : Medium} {config : Config}
    {rooted : Bool} {opened : Store} {stats : FlushStats} (hs : Session usage opened s)
    (hmedium : Leaves persisting medium.backing)
    (hopen : overMedium config rooted medium = .ok opened next) (h : flush s = .ok stats t) :
    t.backing.readTable identityTable = .ok (some t.registry.encodeTable) := by
  have hopened : opened.Inscribed := fun hchanged =>
    (((opens_of_overMedium hopen).identified hmedium.tabled.1).settled hchanged).2
  have hinscribed : s.Inscribed :=
    invariant_inscribed.session hopened (fun s operation _ _ => unrestricted_permits s operation) hs
  have hkept := (invariant_inscribed.keeps_flush hinscribed (unrestricted_permits s .flush)).of_ok h
  obtain ⟨_, _, -, -, rfl⟩ := store_of_flush h
  exact hkept.1.holds rfl

/-- A registry can be written if a store that is opened over its table has its counter and its
public ids. -/
theorem Opens.writable {config : Config} {medium : Medium} {reopened : Store} {r : Registry}
    (h : Opens config medium reopened)
    (htable : medium.backing.readTable identityTable = .ok (some r.encodeTable))
    (hnext : reopened.registry.next = r.next)
    (hids : ∀ nid, reopened.registry.publicId? nid = r.publicId? nid) : r.Writable := by
  obtain ⟨stored, hstored, hregister⟩ := h.registry
  cases hstored with
  | missing hnone =>
    rw [htable] at hnone
    cases hnone
  | decoded hsome hdecode =>
    rw [htable, Except.ok.injEq, Option.some.injEq] at hsome
    rw [← hsome] at hdecode
    have hcounter := Registry.next_of_decodeTable hdecode
    -- A status that was missing in the table would have got the next nid.
    have hsame : reopened.registry = stored := by
      refine (eq_or_next_lt_of_registerStatuses hregister).resolve_right ?_
      rw [hnext, hcounter]
      exact Int32.lt_irrefl
    have hwritable := Registry.writable_of_decodeTable hdecode
    rw [Registry.writable_iff] at hwritable ⊢
    intro nid id hid
    exact hwritable nid id (by rw [← hsame, hids, hid])

/-- Where the aliases are counted, it depends on the edges and on the slots whether a flushed store
is reproduced. -/
private theorem reproduced_iff {medium next again : Medium} {config config' : Config}
    {rooted rooted' : Bool} {opened s t : Store} {stats : FlushStats} {faults : Faults}
    {indices : List Nat} (hmedium : Leaves persisting medium.backing)
    (hlisting : (Medium.spineIndices medium).1 = .ok indices)
    (hopen : overMedium config rooted medium = .ok opened next)
    (hs : Session persisting opened s) (haliases : s.registry.Writable)
    (hstorable : s.spines.Storable) (hflush : flush s = .ok stats t)
    (hready : (t.withFaults faults).spines.Ready) (hagain : again.backing = t.backing)
    (hreads : again.Readable) (hvalid : config'.validate = .ok ())
    (hsame : config'.spineSize = config.spineSize) :
    (∃ reopened last, overMedium config' rooted' again = .ok reopened last ∧
        (t.withFaults faults).Reproduces reopened) ↔
      s.paths.size < UInt32.size ∧
        (config.spineSize < Wire.signedLimit ∨ s.spines.Described) := by
  obtain ⟨htabled, hregistry, hpaths, hsize⟩ :=
    (hs.tabled hmedium hopen).of_flush haliases hflush
  have hspined := hs.spined hlisting hopen
  have hspined' := hspined.of_flush haliases hflush
  have hserves := hspined'.serves_held hready
  have hstores := hspined.stored_eq_held_iff hspined' hstorable hflush
  rw [← hsize]
  -- What can be opened again serves what the medium stores.
  have hreopened (hcount : t.paths.size < UInt32.size) :=
    htabled.reopened rooted' hregistry hpaths hcount hagain hreads hvalid
  rw [hsame] at hreopened
  constructor
  · rintro ⟨reopened, last, hreopen, hreproduces⟩
    have hgraph := (opens_of_overMedium hreopen).paths
    rw [hagain] at hgraph
    have hcount := htabled.size_lt hpaths hgraph
    refine ⟨hcount, hstores.mp fun nid => ?_⟩
    obtain ⟨reopened', last', hreopen', -, -, hstored, -⟩ := hreopened hcount
    obtain ⟨rfl, -⟩ := EStateM.Result.ok.inj (hreopen.symm.trans hreopen')
    rw [← hstored.lookup_eq, hreproduces.lookup, hserves.lookup_eq]
  · rintro ⟨hcount, hcases⟩
    obtain ⟨reopened, last, hreopen, hsameRegistry, horigins, hstored, hpool⟩ := hreopened hcount
    rw [← funext (hstores.mpr hcases)] at hserves
    exact ⟨reopened, last, hreopen,
      reproduces_of_serves hsameRegistry horigins hserves hstored hpool⟩

/-- **Flushed stores are reproduced.** Take sessions of any kind on one medium, after earlier ones
in which four bytes counted the aliases of every nid at every flush, and a flush that succeeds at
their end. A store that is opened over the medium, with spines of the same size, answers like the
one that was flushed, in whatever order origins were added, exactly if the words of the format hold
what they count: four bytes the aliases of every nid and the edges, and signed words the slots of a
spine, unless there was nothing to write to blobs. Reads of both stores have to succeed from then
on, whatever failed before. -/
theorem flush_reproduced {usage : Usage} {medium next again : Medium} {config config' : Config}
    {rooted rooted' : Bool} {opened s t : Store} {stats : FlushStats} {faults : Faults}
    {indices : List Nat} (hmedium : Leaves persisting medium.backing)
    (hlisting : (Medium.spineIndices medium).1 = .ok indices)
    (hopen : overMedium config rooted medium = .ok opened next) (hs : Session usage opened s)
    (hstorable : s.spines.Storable) (hflush : flush s = .ok stats t)
    (hready : (t.withFaults faults).spines.Ready) (hagain : again.backing = t.backing)
    (hreads : again.Readable) (hvalid : config'.validate = .ok ())
    (hsame : config'.spineSize = config.spineSize) :
    (∃ reopened last, overMedium config' rooted' again = .ok reopened last ∧
        (t.withFaults faults).Reproduces reopened) ↔
      s.registry.Writable ∧ s.paths.size < UInt32.size ∧
        (config.spineSize < Wire.signedLimit ∨ s.spines.Described) := by
  constructor
  · rintro ⟨reopened, last, hreopen, hreproduces⟩
    have htable := hs.inscribed_flush hmedium hopen hflush
    rw [← hagain] at htable
    have hwritable : t.registry.Writable :=
      (opens_of_overMedium hreopen).writable htable hreproduces.next hreproduces.publicId?
    have haliases : s.registry.Writable := by
      obtain ⟨_, _, -, -, rfl⟩ := store_of_flush hflush
      exact hwritable
    refine ⟨haliases, ?_⟩
    exact (reproduced_iff hmedium hlisting hopen (hs.persisting_of_writable haliases) haliases
      hstorable hflush hready hagain hreads hvalid hsame).mp ⟨reopened, last, hreopen, hreproduces⟩
  · rintro ⟨haliases, hcounts⟩
    exact (reproduced_iff hmedium hlisting hopen (hs.persisting_of_writable haliases) haliases
      hstorable hflush hready hagain hreads hvalid hsame).mpr hcounts

/-- A store with a payload and an origin is flushed. The store that is opened over its medium has
them as well. -/
theorem flush_reproduced_linked :
    let edge : PathOrigin := { origin := ⟨-2147483641⟩, time := 7 }
    ∃ s stats t reopened last, flush s = .ok stats t ∧
      overMedium { spineSize := 4 } true { backing := t.backing } = .ok reopened last ∧
      edge ∈ reopened.pathOrigins ⟨-2147483642⟩ ∧
      (SpineStore.lookup ⟨-2147483642⟩ reopened.spines).1 = some [0xaa] ∧
      (t.withFaults {}).Reproduces reopened := by
  intro edge
  obtain ⟨opened, next, s, hopen, hs, haliases, hedges, hstorable, hflush, htest⟩ :
      ∃ opened next s, overMedium { spineSize := 4 } false Medium.inMemory = .ok opened next ∧
        Session persisting opened s ∧ s.registry.Writable ∧ s.paths.size < UInt32.size ∧
        s.spines.Storable ∧ (attempt flush s).1 = .ok { spines := 1, tables := 2 } ∧
        let t := (attempt flush s).2
        edge ∈ t.pathOrigins ⟨-2147483642⟩ ∧
          (SpineStore.lookup ⟨-2147483642⟩ (t.withFaults {}).spines).1 = some [0xaa] ∧
          t.spines.permits.held < t.spines.permits.total ∧ t.backing.isShelf = true := by
    refine ⟨_, _, _, rfl, (((Session.opened.andThen (.resolveAliases [⟨1⟩]) trivial).andThen
      (.resolveAliases [⟨2⟩]) trivial).andThen (.addPathOrigin ⟨-2147483642⟩ edge) trivial).andThen
      (.payloads (.merge ⟨-2147483642⟩ [0xaa] fun _ update => update)) trivial,
      Registry.writable_of_toList (by decide +kernel), by decide +kernel,
      SpineStore.storable_of_toList (by decide +kernel), by decide +kernel, by decide +kernel⟩
  obtain ⟨horigins, hlookup, hfree, hshelf⟩ := htest
  have hready : ((attempt flush s).2.withFaults {}).spines.Ready := ⟨hfree, fun _ _ => rfl⟩
  have hagain : ({ backing := (attempt flush s).2.backing } : Medium).backing =
    (attempt flush s).2.backing := rfl
  obtain ⟨reopened, last, hreopen, hreproduces⟩ : ∃ reopened last,
      overMedium { spineSize := 4 } true { backing := (attempt flush s).2.backing } =
        .ok reopened last ∧ ((attempt flush s).2.withFaults {}).Reproduces reopened :=
    (flush_reproduced (.blank Backing.blank_inMemory) rfl hopen hs hstorable
      (ok_of_attempt hflush) hready hagain (Medium.readable_of_isShelf hshelf) rfl rfl).mpr
      ⟨haliases, hedges, Or.inl (by decide)⟩
  exact ⟨s, _, _, reopened, last, ok_of_attempt hflush, hreopen,
    (hreproduces.origins _ _).mpr horigins, (hreproduces.lookup _).trans hlookup, hreproduces⟩

/-- A valid configuration asks for one slot more than signed words count. A payload is merged and
the flush succeeds, but the store that is opened again does not find it. -/
theorem flush_not_reproduced :
    ∃ (config : Config) (opened : Store) (next : Medium) (s : Store) (stats : FlushStats)
      (t reopened : Store) (last : Medium), config.spineSize = Wire.signedLimit ∧
      overMedium config false Medium.inMemory = .ok opened next ∧ Session persisting opened s ∧
      s.registry.Writable ∧ s.paths.size < UInt32.size ∧ s.spines.Storable ∧
      flush s = .ok stats t ∧
      overMedium config true { backing := t.backing } = .ok reopened last ∧
      (SpineStore.lookup ⟨-2147483642⟩ t.spines).1 = some [0xaa] ∧
      (SpineStore.lookup ⟨-2147483642⟩ reopened.spines).1 = none := by
  obtain ⟨opened, next, s, hopen, hs, haliases, hedges, hstorable, hchanged, hflush, htest⟩ :
      ∃ opened next s,
        overMedium { spineSize := Wire.signedLimit } false Medium.inMemory = .ok opened next ∧
        Session persisting opened s ∧ s.registry.Writable ∧ s.paths.size < UInt32.size ∧
        s.spines.Storable ∧ (s.spines.loaded[0]?.map Spine.changed) = some true ∧
        (attempt flush s).1 = .ok { spines := 1, tables := 1 } ∧
        let t := (attempt flush s).2
        (SpineStore.lookup ⟨-2147483642⟩ t.spines).1 = some [0xaa] ∧
          t.spines.place? ⟨-2147483642⟩ = some { index := 0, slot := 5 } ∧
          t.backing.isShelf = true := by
    refine ⟨_, _, _, rfl, (Session.opened.andThen (.resolveAliases [⟨1⟩]) trivial).andThen
      (.payloads (.merge ⟨-2147483642⟩ [0xaa] fun _ update => update)) trivial,
      Registry.writable_of_toList (by decide +kernel), by decide +kernel,
      SpineStore.storable_of_toList (by decide +kernel), by decide +kernel, by decide +kernel,
      by decide +kernel⟩
  obtain ⟨hlookup, hplace, hshelf⟩ := htest
  have hflush := ok_of_attempt hflush
  have hvalid := (opens_of_overMedium hopen).valid
  have hspined := (hs.spined rfl hopen).of_flush haliases hflush
  obtain ⟨htabled, hregistry, hpaths, hsize⟩ :=
    (hs.tabled (.blank Backing.blank_inMemory) hopen).of_flush haliases hflush
  have hagain : ({ backing := (attempt flush s).2.backing } : Medium).backing =
    (attempt flush s).2.backing := rfl
  obtain ⟨reopened, last, hreopen, -, -, hserves, -⟩ := htabled.reopened true hregistry hpaths
    (hsize ▸ hedges) hagain (Medium.readable_of_isShelf hshelf) hvalid
  obtain ⟨spine, hspine, hchanged⟩ := Option.map_eq_some_iff.mp hchanged
  have hnone := hspined.stored_eq_none hstorable.short hflush (Nat.le_refl _) hspine hchanged hplace
  exact ⟨_, opened, next, s, _, _, reopened, last, rfl, hopen, hs, haliases, hedges, hstorable,
    hflush, hreopen, hlookup, (hserves.lookup_eq _).trans hnone⟩

end Store

end Chronicle
