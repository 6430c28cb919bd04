import Chronicle.Proofs.Path.Route
import Chronicle.Proofs.Store.Asking
import Chronicle.Proofs.Store.Identified
import Chronicle.Proofs.Store.Perform
import Chronicle.Proofs.Store.StampActions

/-!
# Caches

A calculator keeps its route and the fields of stamps until the caches are reset. So whatever
changes a path or a stamp has to reset them, and whatever does not reset them may only add stamps.
Then every calculator, new or held since long ago, answers what one without any memory would.

Every operation is followed once, and with it to which paths it keeps: those of the stamps that it
touches, and those that it gives an origin.
-/

namespace Chronicle

open StampHistory (storedIn?)
open Calculator (InOrder Question)

namespace Store

variable {s t u : Store} {config : Config} {past : List Operation} {operation : Operation}
  {content content' : Nid → Option Bytes} {region : Nid → Prop} {coordinate : Coordinate}

/-! ## Runs -/

/-- The UUIDs that the store draws for an operation. -/
def Operation.drawn (config : Config) : Operation → List Uuid
  | commitStamp fields fresh =>
    if config.stampDedup = .committed ∧ fields.isCommitted then [] else [fresh]
  | join _ _ _ _ _ fresh => [fresh]
  | cancelVersion _ _ fresh => [fresh]
  | _ => []

/-- The other UUIDs of an operation: those that it names, and the one that follows from the fields
of a committed stamp. -/
def Operation.named (config : Config) : Operation → List Uuid
  | resolve id => id.uuids
  | resolveAliases uuids => uuids
  | commitStamp fields _ =>
    if config.stampDedup = .committed ∧ fields.isCommitted then [fields.contentUuid] else []
  | _ => []

/-- A UUID is one of an existing stamp. -/
def NamesStamp (s : Store) (uuid : Uuid) : Prop :=
  ∃ nid history, s.registry.nid? uuid = some nid ∧ (attempt (stampHistory nid) s).1 = .ok history

/-- Payloads are not merged past the store, nobody names the UUID of an existing stamp, and if a
version cannot be retracted, its stamp has not been canceled by then. -/
def Operation.Admissible (s : Store) : Operation → Prop
  | resolve id => ∀ uuid ∈ id.uuids, ¬ s.NamesStamp uuid
  | resolveAliases uuids => ∀ uuid ∈ uuids, ¬ s.NamesStamp uuid
  | payloads (.merge _ _ _) => False
  | cancelVersion nid stamp fresh => ∀ error t,
    Store.cancelVersion nid stamp fresh s = .error error t →
      (SpineStore.lookup stamp t.spines).1 = (SpineStore.lookup stamp s.spines).1
  | _ => True

/-- The path of a stamp lies in a region, if a stamp is found. -/
def FindsIn (region : Nid → Prop) (s : Store) (nid : Nid) : Prop :=
  ∀ fields, (attempt (stamp nid) s).1 = .ok fields → region fields.path

/-- An operation keeps to a region of paths: stamps that it creates or closes and those of versions
that it records or retracts are on paths of the region, and so is every path that it gives an
origin. -/
def Operation.KeepsTo (region : Nid → Prop) (s : Store) : Operation → Prop
  | commitStamp fields _ => region fields.path
  | cancelStamp nid => s.FindsIn region nid
  | join _ _ _ _ path _ => region path
  | commit t _ => ∀ nid ∈ t.stamps, s.FindsIn region nid
  | cancel t => ∀ nid ∈ t.stamps, s.FindsIn region nid
  | appendVersion _ _ version => s.FindsIn region version.stamp
  | cancelVersion _ stamp _ => s.FindsIn region stamp
  | addPathOrigin path _ => region path
  | _ => True

/-- The store after some operations. -/
def performAll (s : Store) (operations : List Operation) : Store :=
  operations.foldl Operation.perform s

/-- Every UUID that is drawn differs from every other one. -/
structure DrawsApart (config : Config) (operations : List Operation) : Prop where
  nodup : (operations.flatMap (Operation.drawn config)).Nodup
  named : ∀ uuid ∈ operations.flatMap (Operation.drawn config),
    uuid ∉ operations.flatMap (Operation.named config)
  statuses : ∀ uuid ∈ operations.flatMap (Operation.drawn config), ∀ status : Status,
    uuid ≠ status.uuid

/-- A UUID was drawn in a run. -/
def Drawn (config : Config) (past : List Operation) (uuid : Uuid) : Prop :=
  uuid ∈ past.flatMap (Operation.drawn config)

/-- A UUID occurs in a run. -/
def Known (config : Config) (past : List Operation) (uuid : Uuid) : Prop :=
  Drawn config past uuid ∨ uuid ∈ past.flatMap (Operation.named config) ∨
    ∃ status : Status, uuid = status.uuid

/-- What every moment of a run knows: the store serves some content, in which stamps are as they
should be, and every calculator that was handed out agrees with it. -/
structure Coheres (config : Config) (past : List Operation) (content : Nid → Option Bytes)
    (s : Store) : Prop where
  config_eq : s.config = config
  serves : s.spines.Serves content
  stamped : Stamped (Drawn config past) (Known config past) s.registry content
  pool : s.pool.Sound s.paths content

/-- A later moment of a run, at which every calculator has the number that it had. -/
def Continues (config : Config) (past : List Operation) (s t : Store) : Prop :=
  (∃ content, Coheres config past content t) ∧ s.pool.views <+: t.pool.views

/-- The same, where neither what is stored nor the paths have changed outside of a region. -/
def Develops (config : Config) (past : List Operation) (region : Nid → Prop) (s : Store)
    (content : Nid → Option Bytes) (t : Store) : Prop :=
  ∃ content', Coheres config past content' t ∧ Revisions region content content' ∧
    s.paths.AgreesOutside region t.paths ∧ s.pool.views <+: t.pool.views

/-- A moment that keeps to a region is a later one. -/
theorem Develops.continues (h : Develops config past region s content t) :
    Continues config past s t := by
  obtain ⟨content', ht, -, -, hviews⟩ := h
  exact ⟨⟨content', ht⟩, hviews⟩

/-! ## Steps of a run -/

section

variable (h : Coheres config past content s)

include h

private theorem Coheres.self : Develops config past region s content s :=
  ⟨content, h, .refl, fun _ _ => rfl, List.prefix_refl _⟩

/-- Adding stamps needs no reset. -/
theorem Coheres.alters
    (halters : Alters (Drawn config past) (Known config past) region s content t content')
    (hextends : Extends content content') : Develops config past region s content t := by
  obtain ⟨registry, spines, rfl⟩ := halters.store_eq
  exact ⟨content', ⟨h.config_eq, halters.serves, halters.stamped, h.pool.extend hextends⟩,
    halters.revisions, fun _ _ => rfl, List.prefix_refl _⟩

private theorem Coheres.serving (hserving : s.Serving content t) :
    Develops config past region s content t :=
  h.alters (hserving.alters h.stamped .refl) fun _ _ hfound => hfound

/-- Any other change of stamps needs one. -/
theorem Coheres.reset
    (halters : Alters (Drawn config past) (Known config past) region s content t content') :
    Develops config past region s content (resetCaches t).2 := by
  obtain ⟨registry, spines, rfl⟩ := halters.store_eq
  exact ⟨content', ⟨h.config_eq, halters.serves, halters.stamped, h.pool.reset _ _⟩,
    halters.revisions, fun _ _ => rfl, List.prefix_refl _⟩

/-- So does a change of the paths. -/
theorem Coheres.relinked {paths : PathGraph} (hagrees : s.paths.AgreesOutside region paths) :
    Develops config past region s content (resetCaches { s with paths }).2 :=
  ⟨content, ⟨h.config_eq, h.serves, h.stamped, h.pool.reset _ _⟩, .refl, hagrees,
    List.prefix_refl _⟩

/-- What is added to a pool has to be sound. -/
theorem Coheres.repooled {pool : CalculatorPool} (hpool : pool.Sound s.paths content)
    (hviews : s.pool.views <+: pool.views) :
    Develops config past region s content { s with pool } :=
  ⟨content, ⟨h.config_eq, h.serves, h.stamped, hpool⟩, .refl, fun _ _ => rfl, hviews⟩

/-! ### Stamps -/

/-- An action that adds stamps, however it ends. -/
theorem Coheres.attempt {α : Type} {x : Action α}
    (hx : Ends x s
      (fun _ t => ∃ content',
        Alters (Drawn config past) (Known config past) region s content t content' ∧
          Extends content content')
      fun _ t => ∃ content',
        Alters (Drawn config past) (Known config past) region s content t content' ∧
          Extends content content') :
    Develops config past region s content (Store.attempt x s).2 := by
  obtain ⟨content', halters, hextends⟩ := hx.attempt
  exact h.alters halters hextends

/-- Stamps are found where they are stored. -/
theorem Coheres.stampHistory_of_storedIn? {nid : Nid} {history : StampHistory}
    (hhistory : storedIn? content nid = some history) :
    ∃ t, stampHistory nid s = .ok history t := by
  obtain ⟨payload, hpayload, hdecode⟩ := exists_of_storedIn? hhistory
  obtain ⟨spines, hlookup, -⟩ := h.serves.lookup nid
  refine ⟨{ s with spines }, ?_⟩
  change (infallible (onSpines (SpineStore.lookup nid)) >>= _) s = _
  simp only [bind, EStateM.bind, infallible, onSpines, hlookup, hpayload, outcome, hdecode]

/-- A stamp that is found on a path of the region is stored there. -/
theorem Coheres.liesIn {nid : Nid} (hfinds : s.FindsIn region nid) :
    LiesIn region content nid := by
  intro fields hfields
  obtain ⟨history, hhistory, rfl⟩ := Option.map_eq_some_iff.mp hfields
  obtain ⟨t, hrun⟩ := h.stampHistory_of_storedIn? hhistory
  have hstamp : Store.stamp nid s = .ok history.current t := by
    change (stampHistory nid >>= fun history => pure history.current) s = _
    simp only [bind, EStateM.bind, hrun]
    rfl
  apply hfinds
  rw [Store.attempt, hstamp]

/-- Resolving a public id changes nothing that is stored. -/
theorem Coheres.resolve {id : PublicId} (hid : ∀ uuid ∈ id.uuids, ¬ s.NamesStamp uuid)
    (hknown : ∀ uuid ∈ id.uuids, Known config past uuid) :
    Develops config past region s content (Store.attempt (resolve id) s).2 := by
  have hclosed (uuid : Uuid) (huuid : uuid ∈ id.uuids) (nid : Nid) (history : StampHistory)
      (hnid : s.registry.nid? uuid = some nid) (hhistory : storedIn? content nid = some history) :
      history.current.isUncommitted = false := by
    obtain ⟨t, hrun⟩ := h.stampHistory_of_storedIn? hhistory
    exact absurd ⟨nid, history, hnid, by rw [Store.attempt, hrun]⟩ (hid uuid huuid)
  refine h.attempt ((ends_resolve region h.serves h.stamped hknown hclosed).mono
    (fun _ _ hpost => ?_) fun _ _ hpost => ?_)
  · obtain ⟨registry, -, -, halters⟩ := hpost
    exact ⟨content, halters, fun _ _ hfound => hfound⟩
  · rw [← hpost]
    exact ⟨content, alters_self h.serves h.stamped, fun _ _ hfound => hfound⟩

/-- Resolving aliases changes nothing that is stored. -/
theorem Coheres.resolveAliases {uuids : List Uuid}
    (hnames : ∀ uuid ∈ uuids, ¬ s.NamesStamp uuid)
    (hknown : ∀ uuid ∈ uuids, Known config past uuid) :
    Develops config past region s content (Store.attempt (resolveAliases uuids) s).2 := by
  simp only [Store.resolveAliases, Store.attempt, bind, EStateM.bind, outcome]
  cases hid : PublicId.ofList uuids with
  | error error => exact h.self
  | ok id =>
    have huuids (uuid : Uuid) (huuid : uuid ∈ id.uuids) : uuid ∈ uuids := by
      rw [(PublicId.ofList_eq_ok_iff.mp hid).2.2] at huuid
      exact List.mem_eraseDups.mp huuid
    exact h.resolve (fun uuid huuid => hnames uuid (huuids uuid huuid)) fun uuid huuid =>
      hknown uuid (huuids uuid huuid)

/-- Canceling a stamp changes nothing outside of the region of its path. -/
theorem Coheres.cancelStamp {nid : Nid} (hfinds : s.FindsIn region nid) :
    Develops config past region s content (Store.attempt (cancelStamp nid) s).2 := by
  have hcanceled : Ends (Store.cancelStamp nid) s
      (fun _ t => Develops config past region s content t)
      fun _ t => Develops config past region s content t := by
    refine ((ends_cancelMember h.serves h.stamped nid (h.liesIn hfinds)).weaken
      fun _ _ ht => h.serving ht).bind ?_
    rintro _ t ⟨content', ht, hstamped, hrevisions, -⟩
    exact ends_infallible (h.reset (ht.alters hstamped hrevisions))
  exact hcanceled.attempt

/-- Whatever a transaction does with its members, it resets the caches. -/
theorem Coheres.close (t : Transaction) (state : TransactionState) {act : Nid → Action Unit}
    (hfinds : ∀ nid ∈ t.stamps, s.FindsIn region nid)
    (hact : ∀ nid {s : Store} {content : Nid → Option Bytes}, s.spines.Serves content →
      Stamped (Drawn config past) (Known config past) s.registry content →
      LiesIn region content nid →
      ∃ content', s.Serving content' (Store.attempt (act nid) s).2 ∧
        Stamped (Drawn config past) (Known config past) s.registry content' ∧
        Revisions region content content') :
    Develops config past region s content
      (Store.attempt (Transaction.close state act) (t, s)).2.2 := by
  rw [Transaction.store_close]
  split
  · have hmembers : ∃ content', Alters (Drawn config past) (Known config past) region s content
        (Transaction.forMembers act t.stamps s).2 content' := by
      refine Transaction.forMembers_induction (P := fun u => ∃ content',
        Alters (Drawn config past) (Known config past) region s content u content') t.stamps ?_
        ⟨content, alters_self h.serves h.stamped⟩
      rintro nid hnid u ⟨content', hu⟩
      have hlies := (h.liesIn (hfinds nid hnid)).revisions hu.revisions
      obtain ⟨content'', hserving, hstamped, hrevisions⟩ := hact nid hu.serves hu.stamped hlies
      exact ⟨content'', hu.trans (hserving.alters hstamped hrevisions)⟩
    obtain ⟨content', halters⟩ := hmembers
    exact h.reset halters
  · exact h.self

/-! ### Payloads -/

private theorem Coheres.respined {spines : SpineStore} (hserves : spines.Serves content) :
    Develops config past region s content { s with spines } :=
  h.serving ⟨spines, rfl, hserves⟩

/-- What is asked of the spines without a merge changes nothing that is stored. -/
theorem Coheres.payloads {request : SpineStore.Request}
    (hrequest : (Operation.payloads request).Admissible s) :
    Develops config past region s content (onSpines request.perform s).2 := by
  have htouch : SpineStore.OutlastsTouch fun (_ : Unit) spines => spines.Serves content :=
    fun _ _ _ hreaches hserves => hserves.touch (Or.inr hreaches)
  cases request with
  | lookup nid =>
    obtain ⟨spines, hlookup, hserves⟩ := h.serves.lookup nid
    have hrun : (onSpines (SpineStore.Request.lookup nid).perform s).2 =
        { s with spines := (SpineStore.lookup nid s.spines).2 } := rfl
    rw [hrun, hlookup]
    exact h.respined hserves
  | merge => exact hrequest.elim
  | scan => exact h.respined (htouch.entries h.serves)
  | parallelScan workers schedule =>
    exact h.respined (htouch.entriesParallel h.serves workers schedule)
  | write => exact h.respined h.serves.write

/-! ### Views -/

/-- A new origin changes nothing outside of the region of its path. -/
theorem Coheres.addPathOrigin {path : Nid} (hpath : region path) (edge : PathOrigin) :
    Develops config past region s content (Store.attempt (addPathOrigin path edge) s).2 := by
  rw [Store.attempt, addPathOrigin_eq]
  cases hadd : s.paths.addOrigin path edge with
  | error error => exact h.self
  | ok paths? =>
    cases paths? with
    | none => exact h.self
    | some paths => exact h.relinked (PathGraph.agreesOutside_of_addOrigin hadd hpath)

/-- A calculator that is handed out has the coordinate it was asked for, and the others keep their
numbers. -/
theorem Coheres.calculator (coordinate : Coordinate) :
    Coheres config past content (calculator coordinate s).2 ∧
      s.pool.views <+: (calculator coordinate s).2.pool.views ∧
      (calculator coordinate s).2.pool.views[(calculator coordinate s).1.number]? =
        some coordinate := by
  obtain ⟨hsound, -, hviews, hview⟩ := h.pool.provide coordinate
  exact ⟨⟨h.config_eq, h.serves, h.stamped, hsound⟩, hviews, hview⟩

/-- The calculator behind a handle is in order for its coordinate. -/
theorem Coheres.inOrder (handle : CalculatorHandle) :
    InOrder s.scene content (s.pool.get handle s.scene).coordinate (s.pool.get handle s.scene)
      s.spines :=
  ⟨h.pool.get handle, rfl, h.serves⟩

/-- Asking a calculator changes it and brings spines into memory. -/
theorem Coheres.asked {α : Type} (handle : CalculatorHandle)
    (question : Scene → SpineStore.Scan Calculator α)
    (hquestion : ∀ scene {P : Calculator → SpineStore → Prop}, Calculator.OutlastsAnswers scene P →
      ∀ c s, P c s → P (question scene c s).1.2 (question scene c s).2) :
    Develops config past region s content (ask handle question s).2 := by
  have horder := hquestion s.scene (Calculator.outlastsAnswers_inOrder s.scene content _) _ _
    (h.inOrder handle)
  obtain ⟨hsound, hviews⟩ := h.pool.set horder.sound horder.coordinate_eq
  refine ⟨content, ⟨h.config_eq, horder.serves, h.stamped, hsound⟩, .refl, fun _ _ => rfl, ?_⟩
  exact hviews ▸ List.prefix_refl _

/-! ### Flushing -/

/-- Writing the identity table changes neither calculators nor paths. -/
theorem Coheres.flushRegistry : Coheres config past content (flushRegistry s).2 ∧
    (Store.flushRegistry s).2.pool = s.pool ∧ (Store.flushRegistry s).2.paths = s.paths := by
  have hflushes := flushesRegistry s
  generalize Store.flushRegistry s = run at hflushes ⊢
  obtain ⟨answer, t⟩ := run
  cases hflushes with
  | unchanged => exact ⟨h, rfl, rfl⟩
  | written _ hwrites =>
    exact ⟨⟨h.config_eq, h.serves.accessed hwrites.readSpine hwrites.reads, h.stamped.settled,
      h.pool⟩, rfl, rfl⟩
  | failed _ hwrites =>
    exact ⟨⟨h.config_eq, h.serves.accessed hwrites.readSpine hwrites.reads, h.stamped, h.pool⟩,
      rfl, rfl⟩

/-- Writing the path table changes neither calculators nor the origins of a path. -/
theorem Coheres.flushPaths : Coheres config past content (flushPaths s).2 ∧
    (Store.flushPaths s).2.pool = s.pool ∧
    ∀ path, (Store.flushPaths s).2.paths.origins path = s.paths.origins path := by
  have hflushes := flushesPaths s
  generalize Store.flushPaths s = run at hflushes ⊢
  obtain ⟨answer, t⟩ := run
  cases hflushes with
  | unchanged => exact ⟨h, rfl, fun _ => rfl⟩
  | written _ hwrites =>
    have hpool : s.pool.Sound s.paths.settled content :=
      h.pool.congr fun _ _ => PathGraph.route_congr fun _ _ => Iff.rfl
    exact ⟨⟨h.config_eq, h.serves.accessed hwrites.readSpine hwrites.reads, h.stamped, hpool⟩, rfl,
      fun _ => rfl⟩
  | failed _ hwrites =>
    exact ⟨⟨h.config_eq, h.serves.accessed hwrites.readSpine hwrites.reads, h.stamped, h.pool⟩, rfl,
      fun _ => rfl⟩

/-- A flush changes nothing that calculators look at. -/
theorem Coheres.flush : Develops config past region s content (Store.attempt flush s).2 := by
  obtain ⟨hfirst, hpool, hpaths⟩ := h.flushRegistry
  obtain ⟨hsecond, hpool', hpaths'⟩ := hfirst.flushPaths
  have hbefore {t : Store}
      (ht : Develops config past region (Store.flushPaths (Store.flushRegistry s).2).2 content t) :
      Develops config past region s content t := by
    obtain ⟨content', hcoheres, hrevisions, hagrees, hviews⟩ := ht
    refine ⟨content', hcoheres, hrevisions, ?_, ?_⟩
    · rw [hpaths] at hpaths'
      exact PathGraph.AgreesOutside.trans (fun path _ => hpaths' path) hagrees
    · rw [← hpool, ← hpool']
      exact hviews
  have hflush : Ends Store.flush s (fun _ t => Develops config past region s content t)
      fun _ t => Develops config past region s content t := by
    refine ends_flush (fun _ _ => hbefore hsecond.self) fun m n _ _ => ?_
    refine ends_of_attempt (P := Develops config past region s content) ?_
    rw [attempt_tryOnSpines]
    exact hbefore (hsecond.respined hsecond.serves.write)
  exact hflush.attempt

end

/-- What keeps the UUIDs of an operation apart from those of the run so far. -/
structure Apart (config : Config) (past : List Operation) (operation : Operation) : Prop where
  drawn : ∀ uuid ∈ operation.drawn config, ¬ Known config past uuid
  named : ∀ uuid ∈ operation.named config, ¬ Drawn config past uuid

/-- What is drawn in a longer run is drawn in the run so far or by its last operation. -/
theorem drawn_append {uuid : Uuid} : Drawn config (past ++ [operation]) uuid ↔
    Drawn config past uuid ∨ uuid ∈ operation.drawn config := by
  simp [Drawn, or_comm]

/-- What occurs in the run so far or in its last operation occurs in the longer run. -/
theorem known_append {uuid : Uuid} (h : Known config past uuid ∨ uuid ∈ operation.drawn config ∨
    uuid ∈ operation.named config) : Known config (past ++ [operation]) uuid := by
  simp only [Known, Drawn, List.flatMap_append, List.mem_append, List.flatMap_singleton] at h ⊢
  tauto

/-- What is known of a moment is known when one more operation may draw UUIDs. -/
theorem Coheres.weaken (h : Coheres config past content s) (operation : Operation) :
    Coheres config (past ++ [operation]) content s :=
  ⟨h.config_eq, h.serves, h.stamped.mono (fun _ hdrawn => drawn_append.mpr (Or.inl hdrawn))
    fun _ hknown => known_append (Or.inl hknown), h.pool⟩

/-- A UUID that is drawn is new to the registry. -/
theorem Coheres.nid?_of_drawn (h : Coheres config past content s)
    (hapart : Apart config past operation) {uuid : Uuid} (huuid : uuid ∈ operation.drawn config) :
    s.registry.nid? uuid = none := by
  cases hnid : s.registry.nid? uuid with
  | none => rfl
  | some nid => exact absurd (h.stamped.known uuid nid hnid) (hapart.drawn uuid huuid)

/-- Committing a stamp changes nothing outside of the region of its path. -/
theorem Coheres.commitStamp (h : Coheres config past content s) (fields : StampFields)
    (fresh : Uuid) (hapart : Apart config past (.commitStamp fields fresh))
    (hpath : region fields.path) :
    Develops config (past ++ [.commitStamp fields fresh]) region s content
      ((Operation.commitStamp fields fresh).perform s) := by
  have h' := h.weaken (.commitStamp fields fresh)
  have huuid : s.stampUuid fields fresh ∈ (Operation.commitStamp fields fresh).drawn config ∨
      s.stampUuid fields fresh ∈ (Operation.commitStamp fields fresh).named config ∧
        (Operation.commitStamp fields fresh).drawn config = [] := by
    rw [stampUuid, h.config_eq]
    simp only [Operation.drawn, Operation.named]
    split <;> simp
  refine h'.attempt
    (ends_commitStamp h'.serves h'.stamped (known_append ?_) (fun hdrawn => ?_) hpath)
  · exact Or.inr (huuid.imp_right And.left)
  · obtain hnew | ⟨hnamed, hnone⟩ := huuid
    · exact h.nid?_of_drawn hapart hnew
    · rw [drawn_append, hnone] at hdrawn
      exact absurd (hdrawn.resolve_right (by simp)) (hapart.named _ hnamed)

/-- Every operation leads to a moment of which the same is known, and changes nothing outside of the
region that it keeps to. -/
theorem Coheres.develops (h : Coheres config past content s) (hop : operation.Admissible s)
    (hapart : Apart config past operation) (hkeeps : operation.KeepsTo region s) :
    Develops config (past ++ [operation]) region s content (operation.perform s) := by
  have h' := h.weaken operation
  have hfresh {uuid : Uuid} (huuid : uuid ∈ operation.drawn config) :
      Known config (past ++ [operation]) uuid ∧ s.registry.nid? uuid = none :=
    ⟨known_append (Or.inr (Or.inl huuid)), h.nid?_of_drawn hapart huuid⟩
  cases operation with
  | resolve id =>
    exact h'.resolve hop fun uuid huuid => known_append (Or.inr (Or.inr huuid))
  | resolveAliases uuids =>
    exact h'.resolveAliases hop fun uuid huuid => known_append (Or.inr (Or.inr huuid))
  | payloads request => exact h'.payloads hop
  | commitStamp fields fresh => exact h.commitStamp fields fresh hapart hkeeps
  | cancelStamp nid => exact h'.cancelStamp hkeeps
  | join t status author module path fresh =>
    obtain ⟨hknown, hnew⟩ := hfresh (List.mem_singleton_self fresh)
    rw [Operation.perform, Transaction.store_stamp]
    split
    · refine h'.attempt ((ends_createStamp h'.serves h'.stamped hknown (fun _ => hnew) (fun _ => ?_)
        hkeeps).mono ?_ fun _ _ hpost => hpost)
      · exact drawn_append.mpr (Or.inr (List.mem_singleton_self fresh))
      · rintro nid t ⟨content', halters, hextends, -⟩
        exact ⟨content', halters, hextends⟩
    · exact h'.self
  | commit t time =>
    rw [Operation.perform, Transaction.store_commitAt]
    split
    · exact h'.self
    · rename_i htime
      refine h'.close t _ hkeeps fun nid {s content} hserves hstamped hlies => ?_
      exact (ends_commitMember hserves hstamped (by simpa using htime) nid hlies).attempt
  | cancel t =>
    refine h'.close t _ hkeeps fun nid {s content} hserves hstamped hlies => ?_
    refine Ends.attempt (P := fun t => ∃ content', s.Serving content' t ∧
      Stamped _ _ s.registry content' ∧ Revisions region content content')
      ((ends_cancelMember hserves hstamped nid hlies).mono ?_ fun _ t ht => ?_)
    · rintro _ t ⟨content', ht, hafter, hrevisions, -⟩
      exact ⟨content', ht, hafter, hrevisions⟩
    · exact ⟨content, ht, hstamped, .refl⟩
  | appendVersion nid kind version =>
    have hlies := h'.liesIn hkeeps
    refine h'.attempt ((ends_appendVersion h'.serves nid kind version hlies).mono ?_ ?_)
    · rintro _ t ⟨content', ht, hsame, hrevisions⟩
      exact ⟨content', ht.alters (h'.stamped.congr hsame) hrevisions,
        extends_of_storedIn?_eq hsame⟩
    · rintro _ t ⟨content', ht, hsame, hrevisions⟩
      exact ⟨content', ht.alters (h'.stamped.congr hsame) hrevisions,
        extends_of_storedIn?_eq hsame⟩
  | cancelVersion nid stamp fresh =>
    obtain ⟨hknown, hnew⟩ := hfresh (List.mem_singleton_self fresh)
    have hends := ends_cancelVersion h'.serves h'.stamped hknown hnew nid stamp (h'.liesIn hkeeps)
    rw [Operation.perform, Store.attempt]
    cases hrun : Store.cancelVersion nid stamp fresh s with
    | ok canceled t =>
      obtain ⟨u, content', halters, rfl⟩ := hends.of_ok hrun
      exact h'.reset halters
    | error error t =>
      -- Without a reset, it is enough that only stamps were added.
      obtain ⟨content', halters, hextends⟩ := hends.of_error hrun
      have hkept := hop error t hrun
      rw [halters.serves.lookup_eq, h.serves.lookup_eq] at hkept
      exact h'.alters halters (hextends hkept)
  | addPathOrigin path edge => exact h'.addPathOrigin hkeeps edge
  | intern coordinate =>
    exact h'.repooled ⟨h'.pool.calculators, h'.pool.remembered⟩ (List.prefix_refl _)
  | calculator coordinate =>
    obtain ⟨hprovided, hviews, -⟩ := h'.calculator coordinate
    exact ⟨content, hprovided, .refl, fun _ _ => rfl, hviews⟩
  | ask handle question =>
    exact h'.asked handle (fun scene => question.ask scene) fun scene _ hanswers =>
      hanswers.maintains_ask question
  | latestAll coordinate =>
    obtain ⟨hprovided, hviews, -⟩ := h'.calculator coordinate
    obtain ⟨content', hasked, hrevisions, hagrees, hviews'⟩ :=
      hprovided.asked (Store.calculator coordinate s).1 Calculator.latestAll
        fun scene _ hanswers c s hs => hanswers.latestAll hs
    exact ⟨content', hasked, hrevisions, hagrees, hviews.trans hviews'⟩
  | resetCaches => exact h'.reset (alters_self h'.serves h'.stamped)
  | evict eviction =>
    obtain ⟨hsound, hviews⟩ := h'.pool.evict eviction
    exact h'.repooled hsound (hviews ▸ List.prefix_refl _)
  | flush => exact h'.flush

/-! ## Whole runs -/

/-- Where all UUIDs of a run differ, those of an operation differ from those before it. -/
theorem DrawsApart.apart (rest : List Operation)
    (h : DrawsApart config (past ++ operation :: rest)) : Apart config past operation := by
  have hdrawn {uuid : Uuid} (huuid : uuid ∈ operation.drawn config) :
      uuid ∈ (past ++ operation :: rest).flatMap (Operation.drawn config) :=
    List.mem_flatMap.mpr ⟨operation, by simp, huuid⟩
  have hnamed {uuid : Uuid} (huuid : uuid ∈ operation.named config) :
      uuid ∈ (past ++ operation :: rest).flatMap (Operation.named config) :=
    List.mem_flatMap.mpr ⟨operation, by simp, huuid⟩
  constructor
  · rintro uuid huuid (hpast | hpast | ⟨status, hstatus⟩)
    · have hnodup := h.nodup
      rw [List.flatMap_append, List.flatMap_cons, List.nodup_append] at hnodup
      exact hnodup.2.2 uuid hpast uuid (List.mem_append_left _ huuid) rfl
    · refine h.named uuid (hdrawn huuid) ?_
      rw [List.flatMap_append]
      exact List.mem_append_left _ hpast
    · exact h.statuses uuid (hdrawn huuid) status hstatus
  · intro uuid huuid hpast
    refine h.named uuid ?_ (hnamed huuid)
    rw [List.flatMap_append]
    exact List.mem_append_left _ hpast

/-- Providing a calculator draws no UUID and names none. -/
theorem DrawsApart.calculator {operations : List Operation} (h : DrawsApart config operations) :
    DrawsApart config (operations ++ [.calculator coordinate]) := by
  have hdrawn : (operations ++ [Operation.calculator coordinate]).flatMap (Operation.drawn config) =
      operations.flatMap (Operation.drawn config) := by
    simp [Operation.drawn]
  have hnamed : (operations ++ [Operation.calculator coordinate]).flatMap (Operation.named config) =
      operations.flatMap (Operation.named config) := by
    simp [Operation.named]
  constructor
  · rw [hdrawn]
    exact h.nodup
  · rw [hdrawn, hnamed]
    exact h.named
  · rw [hdrawn]
    exact h.statuses

/-- Every operation of a run is admissible where it is performed. -/
def Admits (s : Store) : List Operation → Prop
  | [] => True
  | operation :: later => operation.Admissible s ∧ (operation.perform s).Admits later

/-- A run is admissible exactly as far as its parts are where they are performed. -/
theorem Admits.of_append (first : List Operation) {second : List Operation}
    (h : s.Admits (first ++ second)) :
    s.Admits first ∧ (s.performAll first).Admits second := by
  induction first generalizing s with
  | nil => exact ⟨trivial, h⟩
  | cons operation later ih =>
    obtain ⟨hadmissible, hlater⟩ := h
    obtain ⟨hfirst, hsecond⟩ := ih hlater
    exact ⟨⟨hadmissible, hfirst⟩, hsecond⟩

/-- Every operation of a run keeps to a region where it is performed. -/
def RunKeepsTo (region : Nid → Prop) (s : Store) : List Operation → Prop
  | [] => True
  | operation :: later => operation.KeepsTo region s ∧ RunKeepsTo region (operation.perform s) later

/-- Every run keeps to the region of all paths. -/
theorem runKeepsTo_anywhere (s : Store) (operations : List Operation) :
    RunKeepsTo (fun _ => True) s operations := by
  induction operations generalizing s with
  | nil => trivial
  | cons operation later ih =>
    refine ⟨?_, ih _⟩
    cases operation <;> simp [Operation.KeepsTo, FindsIn]

/-- What is known at the beginning of a run is known at its end, whatever follows. Outside of the
region that the run keeps to, nothing has changed. -/
theorem Coheres.developsAll {operations : List Operation} (h : Coheres config past content s)
    (hadmits : s.Admits operations) (rest : List Operation)
    (hdraws : DrawsApart config (past ++ operations ++ rest))
    (hkeeps : RunKeepsTo region s operations) :
    Develops config (past ++ operations) region s content (s.performAll operations) := by
  induction operations generalizing past content s with
  | nil =>
    rw [List.append_nil]
    exact h.self
  | cons operation later ih =>
    have hapart : Apart config past operation :=
      DrawsApart.apart (later ++ rest) (by simpa using hdraws)
    obtain ⟨hadmissible, hlater⟩ := hadmits
    obtain ⟨hfirst, hrest⟩ := hkeeps
    obtain ⟨content', hnext, hrevisions, hagrees, hviews⟩ := h.develops hadmissible hapart hfirst
    rw [List.append_cons] at hdraws ⊢
    obtain ⟨content'', hlast, hrevisions', hagrees', hviews'⟩ := ih hnext hlater hdraws hrest
    exact ⟨content'', hlast, hrevisions.trans hrevisions', hagrees.trans hagrees',
      hviews.trans hviews'⟩

/-- An admissible run leads to a later moment of which the same is known. -/
theorem Coheres.run {operations : List Operation} (h : Coheres config past content s)
    (hadmits : s.Admits operations) (rest : List Operation)
    (hdraws : DrawsApart config (past ++ operations ++ rest)) :
    Continues config (past ++ operations) s (s.performAll operations) :=
  (h.developsAll hadmits rest hdraws (runKeepsTo_anywhere s operations)).continues

/-- Nothing is wrong with a store that was opened over an empty medium. -/
theorem Opens.coheres {medium : Medium} {opened : Store} (h : Opens config medium opened)
    (hblank : medium.backing.Blank) : Coheres config [] (fun _ => none) opened := by
  obtain ⟨read, hread, hspines⟩ := h.spines
  obtain ⟨hpower, -, -, -, -, -, hattempts⟩ := Config.validate_eq_ok_iff.mp h.valid
  have hblob (index : Nat) : read.backing.blob? index = none := by
    rw [hread.backing, hblank.blob?]
  have hidentified := h.identified (Or.inl hblank.identity)
  obtain ⟨stored, hstored, hregister⟩ := h.registry
  have hempty : stored = .empty := by
    cases hstored with
    | missing => rfl
    | decoded hsome =>
      rw [hblank.identity] at hsome
      cases hsome
  have hstamped : Stamped (Drawn config []) (Known config []) opened.registry fun _ => none := by
    refine ⟨hidentified.consistent, fun uuid nid hnid => ?_, fun _ _ hhistory => ?_,
      fun _ _ hhistory => ?_, fun _ _ hhistory => ?_⟩
    · obtain ⟨other, hother⟩ | ⟨status, -, hstatus⟩ := status_of_registerStatuses hregister hnid
      · simp [hempty, Registry.nid?, Registry.empty] at hother
      · exact Or.inr (Or.inr ⟨status, hstatus⟩)
    all_goals cases hhistory
  refine ⟨h.config_eq, ?_, hstamped, ?_⟩
  · rw [hspines]
    exact SpineStore.serves_of_blank hblob (Config.pos_of_isPowerOfTwo hpower)
      (Nat.pos_of_ne_zero hattempts)
  · rw [h.pool_eq]
    exact CalculatorPool.sound_empty _ _

/-- The calculator behind a handle answers what one without any memory does. -/
theorem Coheres.answer_eq (h : Coheres config past content s) {handle : CalculatorHandle}
    (hview : s.pool.views[handle.number]? = some coordinate) (question : Question) :
    (answer handle question s).1 =
      (question.ask s.scene (Calculator.make coordinate s.scene) s.spines).1.1 := by
  have horder := h.inOrder handle
  rw [CalculatorPool.coordinate_get hview] at horder
  have hnew : InOrder s.scene content coordinate (Calculator.make coordinate s.scene) s.spines :=
    ⟨Calculator.sound_make coordinate s.scene content, rfl, h.serves⟩
  have hanswers := Calculator.answers_ask s.scene content coordinate question
  obtain ⟨c, spines, hask, -⟩ :=
    ask_of_inOrder (fun scene => question.ask scene) horder hanswers
  obtain ⟨c', spines', hrun, -⟩ := hanswers _ _ hnew
  rw [answer, hask]
  exact (congrArg (fun result => result.1.1) hrun).symm

/-- A calculator that was provided answers what one without any memory does, at every later
moment. -/
theorem Coheres.answer_later (h : Coheres config past content s) (coordinate : Coordinate)
    (later : List Operation) (hadmits : (Store.calculator coordinate s).2.Admits later)
    (hdraws : DrawsApart config (past ++ .calculator coordinate :: later)) (question : Question) :
    let t := (Store.calculator coordinate s).2.performAll later
    (answer (Store.calculator coordinate s).1 question t).1 =
      (question.ask t.scene (Calculator.make coordinate t.scene) t.spines).1.1 := by
  intro t
  -- The calculator keeps its number from the moment on at which it is provided.
  obtain ⟨hprovided, -, hview⟩ := (h.weaken (.calculator coordinate)).calculator coordinate
  obtain ⟨⟨_, hlast⟩, views, hviews⟩ := hprovided.run hadmits [] (by simpa using hdraws)
  refine hlast.answer_eq ?_ question
  obtain ⟨hlt, -⟩ := List.getElem?_eq_some_iff.mp hview
  rw [← hviews, List.getElem?_append_left hlt]
  exact hview

/-- After any run of operations on a store that was empty, as long as the UUIDs that are drawn
differ from all others, nobody names the UUID of an existing stamp, no payload is merged past the
store and no stamp was canceled for a version that could not be retracted: each coordinate is
answered what a calculator without any memory would answer it, through the calculator that the store
provides and through every calculator that it ever provided. -/
theorem calculators_coherent {medium next : Medium} {rooted : Bool} {opened : Store}
    {operations : List Operation} (hblank : medium.backing.Blank)
    (hopen : overMedium config rooted medium = .ok opened next)
    (hadmits : opened.Admits operations) (hdraws : DrawsApart config operations) :
    let s := opened.performAll operations
    let reply (coordinate : Coordinate) (question : Question) :=
      (question.ask s.scene (Calculator.make coordinate s.scene) s.spines).1.1
    (∀ coordinate question,
      (answer (calculator coordinate s).1 question (calculator coordinate s).2).1 =
        reply coordinate question) ∧
    ∀ before after coordinate question, operations = before ++ .calculator coordinate :: after →
      (answer (calculator coordinate (opened.performAll before)).1 question s).1 =
        reply coordinate question := by
  intro s reply
  have hopened := (opens_of_overMedium hopen).coheres hblank
  obtain ⟨⟨content', hs⟩, -⟩ := hopened.run hadmits [] (by simpa using hdraws)
  constructor
  · intro coordinate question
    have hanswer := hs.answer_later coordinate [] trivial hdraws.calculator question
    have hscene : (calculator coordinate s).2.scene = s.scene := by
      obtain ⟨-, hgeneration, -⟩ := hs.pool.provide coordinate
      exact congrArg (Scene.mk s.paths) hgeneration
    change _ = (question.ask (calculator coordinate s).2.scene
      (Calculator.make coordinate (calculator coordinate s).2.scene) s.spines).1.1 at hanswer
    rwa [hscene] at hanswer
  · rintro before after coordinate question rfl
    obtain ⟨hbefore, -, hafter⟩ := hadmits.of_append before
    obtain ⟨⟨_, hfirst⟩, -⟩ := hopened.run hbefore (.calculator coordinate :: after)
      (by simpa using hdraws)
    have hperformed :
        s = (calculator coordinate (opened.performAll before)).2.performAll after := by
      simp only [s, performAll, List.foldl_append, List.foldl_cons]
      rfl
    simp only [reply, hperformed]
    exact hfirst.answer_later coordinate after hafter hdraws question

/-- A calculator sees a stamp, which is canceled afterwards. From then on it answers like one
without any memory, which does not see the stamp. -/
theorem calculators_coherent_canceled :
    ∃ opened next coordinate before after, ∃ question : Question,
      overMedium { spineSize := 4 } false Medium.inMemory = .ok opened next ∧
      let early := opened.performAll before
      let s := opened.performAll (before ++ .calculator coordinate :: after)
      (answer (calculator coordinate early).1 question (calculator coordinate early).2).1 =
        .visible true ∧
      (question.ask s.scene (Calculator.make coordinate s.scene) s.spines).1.1 = .visible false ∧
      (answer (calculator coordinate s).1 question (calculator coordinate s).2).1 =
        .visible false ∧
      (answer (calculator coordinate early).1 question s).1 = .visible false := by
  let path : Nid := ⟨-2147483642⟩
  let member : Nid := ⟨-2147483641⟩
  let coordinate : Coordinate :=
    { allowed := StatusSet.activeOnly, path, time := Time.latest, priority := [], excluded := ∅,
      allowed_nonempty := by decide, canceled_notMem := by decide, priority_nodup := by decide }
  let before : List Operation :=
    [.resolveAliases [⟨1⟩], .join { name := "drafts" } .active path path path ⟨2⟩]
  let after : List Operation :=
    [.ask { coordinate, number := 0 } (.isVisible member), .cancelStamp member]
  let question : Question := .isVisible member
  obtain ⟨opened, next, hopen, hunknown, hsees, hmisses⟩ :
      ∃ opened next, overMedium { spineSize := 4 } false Medium.inMemory = .ok opened next ∧
        opened.registry.nid? ⟨1⟩ = none ∧
        let early := opened.performAll before
        let s := opened.performAll (before ++ .calculator coordinate :: after)
        (answer (calculator coordinate early).1 question (calculator coordinate early).2).1 =
          .visible true ∧
        (question.ask s.scene (Calculator.make coordinate s.scene) s.spines).1.1 =
          .visible false :=
    ⟨_, _, rfl, by decide +kernel, by decide +kernel, by decide +kernel⟩
  have hadmits : opened.Admits (before ++ .calculator coordinate :: after) := by
    refine ⟨?_, trivial, trivial, trivial, trivial, trivial⟩
    rintro uuid huuid ⟨nid, history, hnid, -⟩
    obtain rfl := List.mem_singleton.mp huuid
    rw [hunknown] at hnid
    cases hnid
  have hdraws : DrawsApart { spineSize := 4 } (before ++ .calculator coordinate :: after) := by
    refine ⟨by decide, by decide, fun uuid huuid status => ?_⟩
    obtain rfl := List.mem_singleton.mp huuid
    cases status <;> decide
  obtain ⟨hprovided, hheld⟩ :=
    calculators_coherent Backing.blank_inMemory hopen hadmits hdraws
  exact ⟨opened, next, coordinate, before, after, question, hopen, hsees, hmisses,
    (hprovided _ _).trans hmisses, (hheld before after coordinate _ rfl).trans hmisses⟩

end Store

end Chronicle
