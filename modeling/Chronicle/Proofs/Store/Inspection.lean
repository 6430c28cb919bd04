import Chronicle.Proofs.Calculator.Recall
import Chronicle.Proofs.Spine.Inspection
import Chronicle.Proofs.Store.Operation

/-!
# Observations of a store

Payloads, stamps and chronologies are looked up, scans visit them, and calculators are asked. All of
this brings spines into memory and changes calculators, which are caches. Nothing else of the store
changes, whichever reads fail. And what was found in a spine once is found there again, until a
payload is merged for the nid.
-/

namespace Chronicle.Store

open SpineStore (Inspected PinsAll)

variable {s t : Store} {α β σ : Type}

/-! ## Looking stamps and chronologies up -/

/-- An action looks a nid up, and its answer follows from what is found. -/
def AnswersBy (x : Action α) (nid : Nid) : Prop :=
  ∃ answer : Option Bytes → Except StoreError α, ∀ s : Store,
    attempt x s = (answer (SpineStore.lookup nid s.spines).1,
      { s with spines := (SpineStore.lookup nid s.spines).2 })

/-- An action that looks a nid up and decodes what it finds answers by what is found. -/
theorem answersBy_of_decode {x : Action α} {nid : Nid} (decode : Bytes → Except DecodeError α)
    (error : StoreError) (hx : ∀ s, x s = (match (SpineStore.lookup nid s.spines).1 with
      | some payload => outcome (decode payload)
      | none => throw error : Action α) { s with spines := (SpineStore.lookup nid s.spines).2 }) :
    AnswersBy x nid := by
  refine ⟨fun found => match found with
    | some payload => (decode payload).mapError StoreError.decode
    | none => .error error, fun s => ?_⟩
  rw [attempt, hx]
  cases (SpineStore.lookup nid s.spines).1 with
  | none => rfl
  | some payload =>
    simp only [outcome]
    cases decode payload <;> rfl

private theorem AnswersBy.map {x : Action α} {nid : Nid} (h : AnswersBy x nid) (f : α → β) :
    AnswersBy (do return f (← x)) nid := by
  obtain ⟨answer, hanswer⟩ := h
  refine ⟨fun found => (answer found).map f, fun s => ?_⟩
  have hrun : attempt (do return f (← x)) s = ((attempt x s).1.map f, (attempt x s).2) := by
    change attempt (EStateM.bind x fun a => pure (f a)) s = _
    rw [attempt, attempt, EStateM.bind]
    cases x s <;> rfl
  rw [hrun, hanswer]

/-- A chronology is answered by what is found for its nid. -/
theorem answersBy_chronology (nid : Nid) : AnswersBy (chronology nid) nid :=
  answersBy_of_decode Chronology.decode (.notFound (.nid nid)) fun _ => rfl

/-- A stamp is answered by what is found for its nid. -/
theorem answersBy_stamp (nid : Nid) : AnswersBy (stamp nid) nid :=
  (answersBy_of_decode (x := stampHistory nid) StampHistory.decode (.notFound (.stamp nid))
    fun _ => rfl).map StampHistory.current

/-- Where the same is pinned for a nid, an action that answers by it answers the same. -/
theorem AnswersBy.attempt_of_pins {x : Action α} {nid : Nid} {found : Option Bytes}
    (h : AnswersBy x nid) (hs : s.spines.Pins nid found) (ht : t.spines.Pins nid found) :
    attempt x t = ((attempt x s).1, t) := by
  obtain ⟨answer, hanswer⟩ := h
  rw [hanswer, hanswer, hs.lookup, ht.lookup]

/-! ## Scans whose actions use the store -/

/-- What is done at a payload with the whole store, as an action on the payloads that carries the
rest along. -/
def carrying (visit : Nid → Bytes → StateT σ (StateM Store) Unit) (nid : Nid) (payload : Bytes) :
    SpineStore.Scan (σ × Store) Unit := fun (state, rest) spines =>
  let ((_, state), s) := (visit nid payload).run state { rest with spines }
  (((), state, s), s.spines)

/-- Visits every payload. What is done there may use the store. -/
def visitAll (stop : σ → Bool) (visit : Nid → Bytes → StateT σ (StateM Store) Unit) (state : σ) :
    StateM Store σ := fun s =>
  let ((_, state, rest), spines) := (SpineStore.forEachUntil (fun carried => stop carried.1)
    (carrying visit)).run (state, s) s.spines
  (state, { rest with spines })

/-- Visits every payload with workers that are chosen by a schedule. -/
def visitAllParallel (stop : σ → Bool) (visit : Nid → Bytes → StateT σ (StateM Store) Unit)
    (workers : Nat) (schedule : List Nat) (state : σ) : StateM Store σ := fun s =>
  let ((_, state, rest), spines) := (SpineStore.forEachParallelUntil (fun carried => stop carried.1)
    (carrying visit) workers schedule).run (state, s) s.spines
  (state, { rest with spines })

/-! ## Observations -/

/-- What is observed of a store, in a sequence that is decided on the way, and with scans whose
actions observe it as well. Caches may forget, and other reads of spines may begin to fail, at any
moment. -/
inductive Observation : {α : Type} → StateM Store α → Prop
  | view {α : Type} (view : Store → α) : Observation fun s => (view s, s)
  | bind {α β : Type} {x : StateM Store α} {f : α → StateM Store β} (hx : Observation x)
      (hf : ∀ a, Observation (f a)) : Observation (x >>= f)
  | lookup (nid : Nid) : Observation (onSpines (SpineStore.lookup nid))
  | scan {σ : Type} (stop : σ → Bool) {visit : Nid → Bytes → StateT σ (StateM Store) Unit}
      (state : σ) (hvisit : ∀ nid payload state, Observation ((visit nid payload).run state)) :
      Observation (visitAll stop visit state)
  | scanParallel {σ : Type} (stop : σ → Bool) {visit : Nid → Bytes → StateT σ (StateM Store) Unit}
      (workers : Nat) (schedule : List Nat) (state : σ)
      (hvisit : ∀ nid payload state, Observation ((visit nid payload).run state)) :
      Observation (visitAllParallel stop visit workers schedule state)
  | chronology (nid : Nid) : Observation (attempt (chronology nid))
  | stamp (nid : Nid) : Observation (attempt (stamp nid))
  | calculator (coordinate : Coordinate) : Observation (calculator coordinate)
  | answer (handle : CalculatorHandle) (question : Calculator.Question) :
      Observation (answer handle question)
  | latest (coordinate : Coordinate) (nid : Nid) : Observation (latest coordinate nid)
  | latestAll (coordinate : Coordinate) : Observation (latestAll coordinate)
  | latestAllParallel (coordinate : Coordinate) (workers : Nat) (schedule : List Nat) :
      Observation (latestAllParallel coordinate workers schedule)
  | resetCaches : Observation resetCaches
  | evict (eviction : Eviction) :
      Observation fun s => ((), { s with pool := s.pool.evict eviction })
  | reads (reads : Schedule) : Observation fun s =>
      ((), { s with spines := { s.spines with medium := s.spines.medium.withReads reads } })

/-- What holds of a store outlasts that a spine comes into memory where there may be data, that
calculators change, and that other reads fail. -/
structure OutlastsObservation (P : Store → Prop) : Prop where
  touch : ∀ s index, s.spines.reaches index = true → P s →
    P { s with spines := (SpineStore.touch index s.spines).2 }
  pool : ∀ s pool, P s → P { s with pool }
  reads : ∀ s reads, P s →
    P { s with spines := { s.spines with medium := s.spines.medium.withReads reads } }

namespace OutlastsObservation

variable {P : Store → Prop} (h : OutlastsObservation P)

include h

private theorem outlastsTouch (s : Store) :
    SpineStore.OutlastsTouch fun (_ : Unit) spines => P { s with spines } :=
  fun _ spines index hreaches hs => h.touch { s with spines } index hreaches hs

/-- What outlasts an observation outlasts a look-up. -/
theorem lookup (hs : P s) (nid : Nid) :
    P { s with spines := (SpineStore.lookup nid s.spines).2 } :=
  SpineStore.Scan.maintains_lookup (h.outlastsTouch s) nid () s.spines hs

private theorem answersBy {x : Action α} {nid : Nid} (hx : AnswersBy x nid) (hs : P s) :
    P (attempt x s).2 := by
  obtain ⟨answer, hanswer⟩ := hx
  rw [hanswer]
  exact h.lookup hs nid

/-- Asking a calculator brings spines into memory and changes the calculator. -/
theorem ask (hs : P s) (handle : CalculatorHandle)
    {question : Scene → SpineStore.Scan Calculator α}
    (hquestion : ∀ scene {Q : SpineStore → Prop},
      Calculator.OutlastsAnswers scene (fun _ s => Q s) →
      ∀ c spines, Q spines → Q (question scene c spines).2) :
    P (Store.ask handle question s).2 := by
  have hspines := hquestion s.scene
    (Calculator.outlastsAnswers_of_touch s.scene (h.outlastsTouch s))
    (s.pool.get handle s.scene) s.spines hs
  exact h.pool _ _ hspines

private theorem calculator (hs : P s) (coordinate : Coordinate) :
    P (Store.calculator coordinate s).2 :=
  h.pool _ _ hs

omit h in
/-- The rest of the store is carried along by a scan whose actions keep the property. -/
theorem maintains_carrying {visit : Nid → Bytes → StateT σ (StateM Store) Unit}
    (hvisit : ∀ nid payload state {s}, P s → P ((visit nid payload).run state s).2)
    (nid : Nid) (payload : Bytes) :
    SpineStore.Scan.Maintains (fun (carried : σ × Store) spines => P { carried.2 with spines })
      (carrying visit nid payload) :=
  fun carried _ hs => hvisit nid payload carried.1 hs

private theorem outlastsTouch_carried :
    SpineStore.OutlastsTouch fun (carried : σ × Store) spines => P { carried.2 with spines } :=
  fun carried spines index hreaches hs => h.touch { carried.2 with spines } index hreaches hs

end OutlastsObservation

/-- Such properties are kept by every observation. -/
theorem Observation.maintains {x : StateM Store α} (hx : Observation x) {P : Store → Prop}
    (h : OutlastsObservation P) (hs : P s) : P (x s).2 := by
  induction hx generalizing s with
  | view view => exact hs
  | bind _ _ ihx ihf => exact ihf _ (ihx hs)
  | lookup nid => exact h.lookup hs nid
  | scan stop state _ ih =>
    exact SpineStore.maintains_forEachUntil h.outlastsTouch_carried
      (OutlastsObservation.maintains_carrying ih) (state, s) s.spines hs
  | scanParallel stop workers schedule state _ ih =>
    exact SpineStore.maintains_forEachParallelUntil h.outlastsTouch_carried
      (OutlastsObservation.maintains_carrying ih) workers schedule (state, s) s.spines hs
  | chronology nid => exact h.answersBy (answersBy_chronology nid) hs
  | stamp nid => exact h.answersBy (answersBy_stamp nid) hs
  | calculator coordinate => exact h.calculator hs coordinate
  | answer handle question =>
    exact h.ask hs handle fun scene _ hanswers c spines hs =>
      hanswers.maintains_ask question c spines hs
  | latest coordinate nid =>
    exact h.ask (h.calculator hs coordinate) _ fun scene _ hanswers c spines hs =>
      hanswers.maintains_latest nid c spines hs
  | latestAll coordinate =>
    exact h.ask (h.calculator hs coordinate) _ fun scene _ hanswers c spines hs =>
      hanswers.latestAll hs
  | latestAllParallel coordinate workers schedule =>
    exact h.ask (h.calculator hs coordinate) _ fun scene _ hanswers c spines hs =>
      hanswers.latestAllParallel workers schedule hs
  | resetCaches => exact h.pool _ _ hs
  | evict eviction => exact h.pool _ _ hs
  | reads reads => exact h.reads _ _ hs

/-- Nothing but spines in memory and calculators is changed by an observation. -/
theorem outlastsObservation_inspected (s : Store) : OutlastsObservation fun t =>
    ∃ spines pool, t = { s with spines, pool } ∧ Inspected s.spines spines where
  touch := by
    rintro _ index hreaches ⟨spines, pool, rfl, hspines⟩
    exact ⟨_, pool, rfl, hspines.trans (SpineStore.inspected_touch hreaches)⟩
  pool := by
    rintro _ pool ⟨spines, _, rfl, hspines⟩
    exact ⟨spines, pool, rfl, hspines⟩
  reads := by
    rintro _ reads ⟨spines, pool, rfl, hspines⟩
    exact ⟨_, pool, rfl, hspines.trans (SpineStore.inspected_withReads spines reads)⟩

/-- What is pinned outlasts every observation. -/
theorem outlastsObservation_pinsAll (watched : Nid → Prop) (content : Nid → Option Bytes)
    (n : Nat) : OutlastsObservation fun t =>
      t.spines.PinsAll watched content ∧ t.spines.spineSize = n where
  touch s index hreaches h :=
    ⟨SpineStore.outlastsTouch_pinsAll () s.spines index hreaches h.1,
      (SpineStore.transition_touch (Or.inr hreaches)).spineSize_eq.trans h.2⟩
  pool _ _ h := h
  reads _ _ h := h

/-! ## Later observations -/

/-- What can become of a store while nothing is merged for certain nids. It is observed, payloads
are merged for others, looked up, scanned and written, and whatever happens to the medium and to all
that is not payloads. -/
inductive Later (watched : Nid → Prop) (s : Store) : Store → Prop
  | now : Later watched s s
  | observed {t : Store} {α : Type} {x : StateM Store α} (h : Later watched s t)
      (hx : Observation x) : Later watched s (x t).2
  | used {t : Store} {α : Type} {x : StateM SpineStore α} (h : Later watched s t)
      (hx : SpineStore.Activity (fun nid => ¬ watched nid) x) : Later watched s (onSpines x t).2
  | elsewhere {t u : Store} (h : Later watched s t)
      (hspines : u.spines = { t.spines with medium := u.spines.medium }) : Later watched s u

/-- What is pinned stays so. -/
theorem Later.pinsAll {watched : Nid → Prop} {content : Nid → Option Bytes}
    (h : Later watched s t) (hs : s.spines.PinsAll watched content) :
    t.spines.PinsAll watched content ∧ t.spines.spineSize = s.spines.spineSize := by
  induction h with
  | now => exact ⟨hs, rfl⟩
  | observed _ hx ih =>
    exact hx.maintains (outlastsObservation_pinsAll watched content s.spines.spineSize) ih
  | @used t _ x _ hx ih =>
    obtain ⟨events, -, hevents⟩ := hx.acts t.spines
    refine ⟨fun nid hnid => (ih.1 nid hnid).acts hx (not_not.mpr hnid), ?_⟩
    change (x t.spines).2.spineSize = _
    rw [hevents, SpineStore.spineSize_after, ih.2]
  | elsewhere _ hspines ih =>
    rw [hspines]
    exact ih

/-- A store answers for a nid what was found in another one: the payload itself, alone and in scans,
what is decoded from it, and what calculators make of it. Calculators go by what they remember of
stamps, and else by what was found as well. -/
structure Repeats (watched : Nid → Prop) (s t : Store) (nid : Nid) : Prop where
  lookup : SpineStore.lookup nid t.spines = ((SpineStore.lookup nid s.spines).1, t.spines)
  chronology : attempt (chronology nid) t = ((attempt (Store.chronology nid) s).1, t)
  stamp : attempt (stamp nid) t = ((attempt (Store.stamp nid) s).1, t)
  entries : ∀ payload, (nid, payload) ∈ (SpineStore.entries t.spines).1 ↔
    (SpineStore.lookup nid s.spines).1 = some payload
  entriesParallel : ∀ workers schedule payload,
    (nid, payload) ∈ (SpineStore.entriesParallel workers schedule t.spines).1 ↔
      (SpineStore.lookup nid s.spines).1 = some payload
  scan : ∀ {σ : Type} (stop : σ → Bool) {visit : Nid → Bytes → SpineStore.Scan σ Unit} (state : σ),
    (∀ other payload state,
      SpineStore.Activity (fun other => other ≠ nid) ((visit other payload).run state)) →
    (SpineStore.forEachUntil stop visit).run state t.spines = (SpineStore.forEachUntil stop
      (SpineStore.telling nid (SpineStore.lookup nid s.spines).1 visit)).run state t.spines
  scanParallel : ∀ {σ : Type} (stop : σ → Bool) {visit : Nid → Bytes → SpineStore.Scan σ Unit}
    (state : σ) (workers : Nat) (schedule : List Nat),
    (∀ other payload state,
      SpineStore.Activity (fun other => other ≠ nid) ((visit other payload).run state)) →
    (SpineStore.forEachParallelUntil stop visit workers schedule).run state t.spines =
      (SpineStore.forEachParallelUntil stop
        (SpineStore.telling nid (SpineStore.lookup nid s.spines).1 visit) workers schedule).run
        state t.spines
  latest : ∀ (scene : Scene) (c : Calculator),
    let content := fun nid => (SpineStore.lookup nid s.spines).1
    let view := (c.refreshed scene).view content
    (∀ v ∈ Chronology.versionsOf (content nid), watched v.stamp) →
      (∃ c', Calculator.latest scene nid c t.spines =
        (((content nid).elim .absent view.latestIn, c'), t.spines)) ∧
      (∀ answer, (nid, answer) ∈ (Calculator.latestAll scene c t.spines).1.1 ↔
        ∃ payload, content nid = some payload ∧ payload.head? = some Chronology.tag ∧
          answer = view.latestIn payload) ∧
      ∀ workers schedule answer,
        (nid, answer) ∈ (Calculator.latestAllParallel workers schedule scene c t.spines).1.1 ↔
          ∃ payload, content nid = some payload ∧ payload.head? = some Chronology.tag ∧
            answer = view.latestIn payload

/-- A later store repeats its answers for every nid that was looked up and is watched. -/
theorem Later.repeats {watched : Nid → Prop} {nid : Nid} (h : Later watched s t)
    (hsize : 0 < s.spines.spineSize) (htouched : ∀ nid, watched nid → s.spines.Touched nid)
    (hnid : watched nid) : Repeats watched s t nid := by
  have hbefore : s.spines.PinsAll watched fun nid => (SpineStore.lookup nid s.spines).1 :=
    fun nid hnid => (htouched nid hnid).pins
  obtain ⟨hafter, hsame⟩ := h.pinsAll hbefore
  have hpins := hafter nid hnid
  rw [← hsame] at hsize
  exact {
    lookup := hpins.lookup
    chronology := (answersBy_chronology nid).attempt_of_pins (hbefore nid hnid) hpins
    stamp := (answersBy_stamp nid).attempt_of_pins (hbefore nid hnid) hpins
    entries := hpins.mem_entries hsize
    entriesParallel := hpins.mem_entriesParallel hsize
    scan := fun stop _ state hvisit =>
      (hpins.forEachUntil_telling hvisit (by simp) hsize stop state).symm
    scanParallel := fun stop _ state workers schedule hvisit =>
      (hpins.forEachParallelUntil_telling hvisit (by simp) hsize stop state workers schedule).symm
    latest := by
      intro scene c content view hversions
      exact ⟨Calculator.latest_of_pins hafter hnid hversions scene c,
        Calculator.mem_latestAll_of_pins hafter hsize hnid hversions scene c,
        fun workers schedule answer => Calculator.mem_latestAllParallel_of_pins hafter hsize hnid
          hversions scene c answer workers schedule⟩ }

/-- **Observations have no effects.** Whatever is observed of a store in any order, with reads of
spines failing in any pattern, its registry, its paths, what its medium stores and the limit of its
scans stay as they are. So do the spines that are in memory, and those that come there have no
changes. A spine that came into memory was touched for all of its nids, whether it could be read or
not. As long as nothing is merged for some of these, every later observation repeats for them what
was found then, whatever else is done with the store and becomes of its medium. -/
theorem observations_change_nothing (s : Store) :
    (∀ {α : Type} {x : StateM Store α}, Observation x →
      ∃ spines pool, (x s).2 = { s with spines, pool } ∧
        (∃ reads, spines.medium = s.spines.medium.withReads reads) ∧
        spines.spineLimit = s.spines.spineLimit ∧ spines.hasChanges = s.spines.hasChanges ∧
        (∀ (index : Nat) (spine : Spine), s.spines.loaded[index]? = some spine →
          spines.loaded[index]? = some spine) ∧
        ∀ (index : Nat) (spine : Spine), spines.loaded[index]? = some spine →
          s.spines.loaded[index]? = some spine ∨ spine.changed = false) ∧
    (s.spines.Enclosed → ∀ nid place, s.spines.place? nid = some place →
      (SpineStore.touch place.index s.spines).2.Touched nid) ∧
    ∀ watched : Nid → Prop, 0 < s.spines.spineSize →
      (∀ nid, watched nid → s.spines.Touched nid) →
        ∀ t, Later watched s t → ∀ nid, watched nid → Repeats watched s t nid := by
  refine ⟨fun hx => ?_, fun h nid place hplace => h.touched hplace,
    fun watched hsize htouched t ht nid hnid => ht.repeats hsize htouched hnid⟩
  obtain ⟨spines, pool, hafter, hspines⟩ := hx.maintains (outlastsObservation_inspected s)
    ⟨s.spines, s.pool, rfl, .refl s.spines⟩
  obtain ⟨reads, permits, hframe⟩ := hspines.frame
  exact ⟨spines, pool, hafter, ⟨reads, by rw [hframe]⟩, hspines.spineLimit_eq,
    hspines.hasChanges_eq, hspines.loaded, hspines.arrived⟩

/-- The first read of a spine fails, and a payload is merged for another nid. What is stored for the
first nid is still not found afterwards, although no more reads fail. -/
theorem observations_change_nothing_unreadable :
    let nid : Nid := ⟨-2147483646⟩
    let other : Nid := ⟨-2147483647⟩
    let medium : Medium :=
      { backing := .shelf (Shelf.empty.writeSpine 0 ((Spine.empty.install 1 [0xaa]).encode 2))
        faults := { spineReads := .first 1 } }
    ∃ opened next, overMedium { spineSize := 2 } false medium = .ok opened next ∧
      let s := (onSpines (SpineStore.lookup nid) opened).2
      let t := (onSpines (attempt (SpineStore.merge other [0xbb] fun _ update => update)) s).2
      s.spines.spineLimit = opened.spines.spineLimit ∧ s.spines.hasChanges = false ∧
      medium.stored 2 nid = some [0xaa] ∧ SpineStore.lookup nid t.spines = (none, t.spines) ∧
      (SpineStore.lookup other t.spines).1 = some [0xbb] ∧ t.spines.hasChanges = true := by
  intro nid other medium
  obtain ⟨opened, next, hopen, hbefore, hsize, hplace, hreaches, hloaded, hnone, hmerged,
      hchanges⟩ : ∃ opened next, overMedium { spineSize := 2 } false medium = .ok opened next ∧
        opened.spines.hasChanges = false ∧
        let s := (onSpines (SpineStore.lookup nid) opened).2
        let t := (onSpines (attempt (SpineStore.merge other [0xbb] fun _ update => update)) s).2
        0 < s.spines.spineSize ∧ s.spines.place? nid = some ⟨0, 1⟩ ∧
        s.spines.reaches 0 = true ∧ s.spines.loaded[0]?.isSome = true ∧
        (SpineStore.lookup nid s.spines).1 = none ∧
        (SpineStore.lookup other t.spines).1 = some [0xbb] ∧ t.spines.hasChanges = true :=
    ⟨_, _, rfl, by decide +kernel, by decide +kernel, by decide +kernel, by decide +kernel,
      by decide +kernel, by decide +kernel, by decide +kernel, by decide +kernel⟩
  have htouched (found : Nid) (hfound : found = nid) :
      (onSpines (SpineStore.lookup nid) opened).2.spines.Touched found := by
    rw [hfound]
    exact ⟨⟨0, 1⟩, hplace, hreaches, hloaded⟩
  have hmerge : SpineStore.Activity (fun found => ¬ found = nid)
      (attempt (SpineStore.merge other [0xbb] fun _ update => update)) :=
    .merge [0xbb] (by decide) fun _ update => .observe fun _ => update
  obtain ⟨spines, pool, hafter, -, hlimit, hsame, -⟩ :=
    (observations_change_nothing opened).1 (.lookup nid)
  have hrepeats := (observations_change_nothing (onSpines (SpineStore.lookup nid) opened).2).2.2
    (· = nid) hsize htouched _ (Later.now.used hmerge) nid rfl
  have hlookup := hrepeats.lookup
  rw [hnone] at hlookup
  refine ⟨opened, next, hopen, ?_, ?_, by decide +kernel, hlookup, hmerged, hchanges⟩
  · rw [hafter, hlimit]
  · rw [hafter, hsame, hbefore]

end Chronicle.Store
