import Chronicle.Proofs.Calculator.Bulk
import Chronicle.Proofs.Store.Refusals

/-!
# All latest versions at once or one by one

A store that is asked for all latest versions tells chronologies from other payloads by their first
byte. Asked for one component it answers from whatever decodes. After a reset of the caches both see
the same route and the same fields of stamps, and so they agree, whoever was asked in between.
-/

namespace Chronicle

namespace Store

open Calculator (Attends Lists present)

variable {s t u opened : Store} {scene : Scene} {coordinate : Coordinate}
  {content : Nid → Option Bytes} {config : Config} {medium next : Medium} {rooted : Bool}
  {usage : Usage} {nid : Nid} {α : Type}

/-! ## Stores whose calculators are up to date -/

/-- A store that can be read, and whose calculators are up to date as far as they are handed out
again. -/
structure Attentive (scene : Scene) (content : Nid → Option Bytes) (s : Store) : Prop where
  scene_eq : s.scene = scene
  presents : s.spines.Presents content
  remembered : ∀ coordinate number, s.pool.remembered.find? coordinate = some number →
    ∃ c, s.pool.calculators[number]? = some c ∧ Attends scene coordinate content c s.spines

namespace Attentive

/-- Nothing is remembered right after a reset. -/
theorem reset (h : s.spines.Presents content) :
    Attentive (resetCaches s).2.scene content (resetCaches s).2 :=
  ⟨rfl, h, fun _ _ hnumber => by cases hnumber⟩

/-- A calculator that is handed out is remembered. -/
theorem calculator (h : Attentive scene content s) (coordinate : Coordinate) :
    ∃ handle pool, Store.calculator coordinate s = (handle, { s with pool }) ∧
      pool.remembered.find? coordinate = some handle.number ∧
      Attentive scene content { s with pool } := by
  obtain ⟨rfl, hpresents, hremembered⟩ := h
  cases hnumber : s.pool.remembered.find? coordinate with
  | some number =>
    obtain ⟨c, hc, hattends⟩ := hremembered coordinate number hnumber
    have hfind : s.pool.find? coordinate s.scene = some ⟨coordinate, number⟩ := by
      simp [CalculatorPool.find?, hnumber, CalculatorPool.get, hc, Calculator.isStale,
        hattends.current]
    refine ⟨⟨coordinate, number⟩, s.pool, ?_, hnumber, rfl, hpresents, hremembered⟩
    simp only [Store.calculator, CalculatorPool.provide, hfind]
  | none =>
    have hfind : s.pool.find? coordinate s.scene = none := by
      simp [CalculatorPool.find?, hnumber]
    refine ⟨(s.pool.add coordinate s.scene).1, (s.pool.add coordinate s.scene).2, ?_, ?_, rfl,
      hpresents, fun other number hother => ?_⟩
    · simp only [Store.calculator, CalculatorPool.provide, hfind]
    · simp [CalculatorPool.add, Cache.find?_insert]
    · rw [CalculatorPool.add]
      obtain ⟨rfl, rfl⟩ | hnumber := CalculatorPool.remembered_add hother
      · exact ⟨_, List.getElem?_concat_length, Calculator.attends_make hpresents⟩
      · obtain ⟨c, hc, hattends⟩ := hremembered other number hnumber
        obtain ⟨hlt, -⟩ := List.getElem?_eq_some_iff.mp hc
        exact ⟨c, (List.getElem?_append_left hlt).trans hc, hattends⟩

/-- Whoever is asked stays up to date, and so do the others. -/
theorem ask (h : Attentive scene content s) (question : Scene → SpineStore.Scan Calculator α)
    {P : α → Prop}
    (hquestion : ∀ c, Attends scene coordinate content c s.spines → ∃ a c' spines,
      question scene c s.spines = ((a, c'), spines) ∧ Attends scene coordinate content c' spines ∧
        P a) :
    ∃ a t, (do Store.ask (← Store.calculator coordinate) question : StateM Store α) s = (a, t) ∧
      Attentive scene content t ∧ P a := by
  obtain ⟨handle, pool, hrun, hnumber, hscene, -, hremembered⟩ := h.calculator coordinate
  obtain ⟨c, hc, hattends⟩ := hremembered coordinate handle.number hnumber
  obtain ⟨a, c', spines, hanswer, hattends', ha⟩ := hquestion c hattends
  have hget : pool.get handle scene = c := by
    rw [CalculatorPool.get, hc, Option.getD_some]
  refine ⟨a, { s with spines, pool := pool.set handle c' }, ?_, ⟨hscene, hattends'.presents, ?_⟩, ha⟩
  · change Store.ask (Store.calculator coordinate s).1 question (Store.calculator coordinate s).2 = _
    rw [hrun, Store.ask, hscene]
    simp only [hget, hanswer]
  · intro other number hother
    obtain ⟨d, hd, hother'⟩ := hremembered other number hother
    obtain ⟨hlt, -⟩ := List.getElem?_eq_some_iff.mp hd
    simp only [CalculatorPool.set, List.getElem?_set]
    split
    · -- A calculator knows its coordinate, so no two coordinates share one.
      rename_i heq
      subst heq
      rw [if_pos hlt]
      obtain rfl : d = c := Option.some.inj (hd.symm.trans hc)
      obtain rfl : coordinate = other :=
        hattends.finds.coordinate_eq.symm.trans hother'.finds.coordinate_eq
      exact ⟨c', rfl, hattends'⟩
    · exact ⟨d, hd, hother'.over hattends'.presents⟩

/-- What a cache forgets is found again. -/
theorem evict (h : Attentive scene content s) (eviction : Eviction) :
    Attentive scene content { s with pool := s.pool.evict eviction } := by
  obtain ⟨rfl, hpresents, hremembered⟩ := h
  cases eviction with
  | fields number stamp =>
    refine ⟨rfl, hpresents, fun coordinate other hother => ?_⟩
    obtain ⟨c, hc, hattends⟩ := hremembered coordinate other hother
    simp only [CalculatorPool.evict, List.getElem?_modify, hc]
    split
    · exact ⟨_, rfl, hattends.evict stamp⟩
    · exact ⟨c, rfl, hattends⟩
  | calculator forgotten =>
    refine ⟨rfl, hpresents, fun coordinate number hnumber => ?_⟩
    simp only [CalculatorPool.evict, Cache.find?_evict] at hnumber
    split at hnumber
    · cases hnumber
    · exact hremembered coordinate number hnumber
  | coordinate => exact ⟨rfl, hpresents, hremembered⟩

section

variable (h : Attentive scene content s)

include h

/-- An attentive store answers what the coordinate sees, and stays attentive. -/
theorem latest (coordinate : Coordinate) (nid : Nid) :
    ∃ t, Store.latest coordinate nid s =
        ((content nid).elim .absent (present scene coordinate content).latestIn, t) ∧
      Attentive scene content t := by
  obtain ⟨a, t, hrun, ht, rfl⟩ := h.ask (fun scene => Calculator.latest scene nid) fun c hc => by
    obtain ⟨c', spines, hlatest, hc'⟩ := hc.latest nid
    exact ⟨_, c', spines, hlatest, hc', rfl⟩
  exact ⟨t, hrun, ht⟩

/-- An attentive store lists what the coordinate sees in order, and stays attentive. -/
theorem latestAll (coordinate : Coordinate) :
    ∃ answers t, Store.latestAll coordinate s = (answers, t) ∧ Attentive scene content t ∧
      Lists (present scene coordinate content) content answers ∧
      answers.Pairwise fun a b => compare a.1 b.1 = .lt :=
  h.ask Calculator.latestAll fun c hc => by
    obtain ⟨c', spines, hlatest, hc'⟩ := hc.latestAll
    exact ⟨_, c', spines, hlatest, hc', Calculator.lists_answersOf _ h.presents.displays,
      Calculator.pairwise_answersOf _ content s.spines⟩

/-- With workers an attentive store lists what the coordinate sees, and stays attentive. -/
theorem latestAllParallel (coordinate : Coordinate) (workers : Nat) (schedule : List Nat) :
    ∃ answers t, Store.latestAllParallel coordinate workers schedule s = (answers, t) ∧
      Attentive scene content t ∧ Lists (present scene coordinate content) content answers :=
  h.ask (Calculator.latestAllParallel workers schedule) fun c hc => by
    obtain ⟨answers, c', spines, hlatest, hc', hperm⟩ := hc.latestAllParallel workers schedule
    exact ⟨answers, c', spines, hlatest, hc',
      (Calculator.lists_answersOf _ h.presents.displays).perm hperm⟩

end

end Attentive

/-- A store is asked for latest versions again and again, and its caches forget what they like. -/
inductive Asked (s : Store) : Store → Prop
  | self : Asked s s
  | latest {t : Store} (h : Asked s t) (coordinate : Coordinate) (nid : Nid) :
      Asked s (Store.latest coordinate nid t).2
  | latestAll {t : Store} (h : Asked s t) (coordinate : Coordinate) :
      Asked s (Store.latestAll coordinate t).2
  | latestAllParallel {t : Store} (h : Asked s t) (coordinate : Coordinate) (workers : Nat)
      (schedule : List Nat) : Asked s (Store.latestAllParallel coordinate workers schedule t).2
  | evict {t : Store} (h : Asked s t) (eviction : Eviction) :
      Asked s { t with pool := t.pool.evict eviction }

/-- However often it is asked, a store stays attentive. -/
theorem Attentive.asked (h : Attentive scene content s) (ht : Asked s t) :
    Attentive scene content t := by
  induction ht with
  | self => exact h
  | latest _ coordinate nid ih =>
    obtain ⟨_, hrun, hnext⟩ := ih.latest coordinate nid
    rwa [hrun]
  | latestAll _ coordinate ih =>
    obtain ⟨_, _, hrun, hnext, -⟩ := ih.latestAll coordinate
    rwa [hrun]
  | latestAllParallel _ coordinate workers schedule ih =>
    obtain ⟨_, _, hrun, hnext, -⟩ := ih.latestAllParallel coordinate workers schedule
    rwa [hrun]
  | evict _ eviction ih => exact ih.evict eviction

/-! ## Sessions -/

/-- The size of the spines stays as it was configured. -/
theorem spineSize_session (hopen : overMedium config rooted medium = .ok opened next)
    (hs : Session usage opened s) : s.spines.spineSize = config.spineSize := by
  refine (invariant_spines (I := fun spines => spines.spineSize = config.spineSize)
    (fun htransition h => htransition.spineSize_eq.trans h) fun _ h => h).session
    (opens_of_overMedium hopen).loaded_eq.2 (fun s operation _ _ => unrestricted_permits s operation)
    hs

/-- A store that can be read presents what its look-ups answer. -/
theorem presents_session (hopen : overMedium config rooted medium = .ok opened next)
    (hs : Session usage opened s) (hready : s.spines.Ready) :
    s.spines.Presents fun nid => (SpineStore.lookup nid s.spines).1 := by
  obtain ⟨hpower, -⟩ := Config.validate_eq_ok_iff.mp (opens_of_overMedium hopen).valid
  refine ⟨hready, enclosed_session hopen hs, ?_, fun _ => rfl⟩
  rw [spineSize_session hopen hs]
  exact Config.pos_of_isPowerOfTwo hpower

/-! ## Agreement -/

/-- The payload of a nid starts as a chronology does. -/
def Marked (s : Store) (nid : Nid) : Prop :=
  (SpineStore.lookup nid s.spines).1.bind List.head? = some Chronology.tag

instance (s : Store) (nid : Nid) : Decidable (s.Marked nid) :=
  inferInstanceAs (Decidable (_ = _))

/-- All nids whose payloads start as chronologies do are listed once, each with what it is answered
alone, and no other nids are. -/
structure Gathers (coordinate : Coordinate) (s : Store) (answers : List (Nid × Latest Version)) :
    Prop where
  nodup : (answers.map Prod.fst).Nodup
  mem_iff : ∀ nid answer, (nid, answer) ∈ answers ↔
    s.Marked nid ∧ answer = (latest coordinate nid s).1

section

variable (h : Attentive scene content s)

include h

private theorem Attentive.marked_iff : s.Marked nid ↔
    ∃ payload, content nid = some payload ∧ payload.head? = some Chronology.tag := by
  rw [Marked, h.presents.lookup_eq, Option.bind_eq_some_iff]

private theorem Attentive.latest_eq : (Store.latest coordinate nid s).1 =
    (content nid).elim .absent (present scene coordinate content).latestIn := by
  obtain ⟨_, hrun, -⟩ := h.latest coordinate nid
  rw [hrun]

/-- Answers that list what the coordinate sees gather what is answered alone. -/
theorem Attentive.gathers {answers : List (Nid × Latest Version)}
    (hlists : Lists (present scene coordinate content) content answers) :
    Gathers coordinate s answers := by
  refine ⟨hlists.nodup, fun nid answer => ?_⟩
  rw [hlists.mem_iff, h.marked_iff, h.latest_eq]
  constructor
  · rintro ⟨payload, hpayload, htag, rfl⟩
    exact ⟨⟨payload, hpayload, htag⟩, by rw [hpayload, Option.elim_some]⟩
  · rintro ⟨⟨payload, hpayload, htag⟩, rfl⟩
    exact ⟨payload, hpayload, htag, by rw [hpayload, Option.elim_some]⟩

private theorem Attentive.latest_eq_absent (hmarked : ¬ s.Marked nid) :
    (Store.latest coordinate nid s).1 = .absent := by
  rw [h.latest_eq]
  cases hpayload : content nid with
  | none => rfl
  | some payload =>
    exact View.latestIn_eq_absent fun htag => hmarked (h.marked_iff.mpr ⟨payload, hpayload, htag⟩)

end

/-- **All at once or one by one.** Whatever was done with a store, and whatever bytes are stored in
it, once the caches were reset: as long as reads succeed, asking for all latest versions answers
for each nid whose payload starts as a chronology does, for no other nid and for none twice, with
what asking for that nid answers, and asking for any other nid answers that nothing is there. Which
was asked first makes no difference, nor does what a cache forgets in between, and workers differ
only in the order of their answers. -/
theorem latest_gathered (hopen : overMedium config rooted medium = .ok opened next)
    (hs : Session usage opened s) (hready : s.spines.Ready) (ht : Asked (resetCaches s).2 t)
    (hu : Asked (resetCaches s).2 u) (coordinate : Coordinate) :
    (∀ workers schedule,
      Gathers coordinate u (latestAllParallel coordinate workers schedule t).1) ∧
    Gathers coordinate u (latestAll coordinate t).1 ∧
    ((latestAll coordinate t).1.Pairwise fun a b => compare a.1 b.1 = .lt) ∧
    ∀ nid, ¬ u.Marked nid → (latest coordinate nid u).1 = .absent := by
  have hattentive := Attentive.reset (presents_session hopen hs hready)
  have hasked := hattentive.asked ht
  have hlater := hattentive.asked hu
  obtain ⟨answers, _, hrun, -, hlists, hsorted⟩ := hasked.latestAll coordinate
  refine ⟨fun workers schedule => ?_, ?_, ?_, fun nid => hlater.latest_eq_absent⟩
  · obtain ⟨answers, _, hrun, -, hlists⟩ := hasked.latestAllParallel coordinate workers schedule
    rw [hrun]
    exact hlater.gathers hlists
  · rw [hrun]
    exact hlater.gathers hlists
  · rw [hrun]
    exact hsorted

/-- Two spines hold a stamp, a chronology and two payloads that are neither. Two workers read the
spines and list the chronology and what only starts like one. -/
theorem latest_gathered_mixed :
    ∃ medium opened next coordinate stamp garbled other foreign version,
      overMedium { spineSize := 4 } false medium = .ok opened next ∧
      opened.spines.loaded.isEmpty = true ∧
      let t := (resetCaches opened).2
      let answers := (latestAllParallel coordinate 2 [1, 0, 1] t).1
      (other, .single version) ∈ answers ∧ (garbled, .absent) ∈ answers ∧
        (answers.map Prod.fst).Nodup ∧ (∀ answer, (stamp, answer) ∉ answers) ∧
        (latest coordinate stamp t).1 = .absent ∧ (latest coordinate foreign t).1 = .absent := by
  let stamp : Nid := ⟨-2147483642⟩
  let garbled : Nid := ⟨-2147483641⟩
  let other : Nid := ⟨-2147483640⟩
  let foreign : Nid := ⟨-2147483639⟩
  let fields : StampFields := ⟨.active, 5, stamp, stamp, stamp⟩
  let coordinate : Coordinate :=
    { allowed := StatusSet.activeOnly, path := stamp, time := Time.latest, priority := [],
      excluded := ∅, allowed_nonempty := by decide, canceled_notMem := by decide,
      priority_nodup := by decide }
  let first : Spine := Spine.empty
    |>.install 1 (StampHistory.start fields).encode
    |>.install 2 [Chronology.tag, 0xff]
    |>.install 3 (Chronology.start other .concept ⟨stamp, [1]⟩).encode
  let second : Spine := Spine.empty.install 0 [0xff]
  let medium : Medium :=
    { backing := .shelf
        { spines := (∅ : Std.ExtTreeMap Nat Bytes).insertMany
            [(1, first.encode 4), (2, second.encode 4)]
          tables := ∅ } }
  obtain ⟨opened, next, hopen, hempty, hfree, hreads, hfacts⟩ :
      ∃ opened next, overMedium { spineSize := 4 } false medium = .ok opened next ∧
        opened.spines.loaded.isEmpty = true ∧
        opened.spines.permits.held < opened.spines.permits.total ∧
        (∀ call, opened.spines.medium.faults.spineReads.fails call = false) ∧
        let t := (resetCaches opened).2
        t.Marked other ∧ t.Marked garbled ∧ ¬ t.Marked stamp ∧ ¬ t.Marked foreign ∧
          (latest coordinate other t).1 = .single ⟨stamp, [1]⟩ ∧
          (latest coordinate garbled t).1 = .absent :=
    ⟨_, _, rfl, by decide +kernel, by decide +kernel, fun _ => rfl, by decide +kernel⟩
  obtain ⟨hother, hgarbled, hstamp, hforeign, hsingle, habsent⟩ := hfacts
  have hs : Session ⟨fun _ => True, fun _ _ => True⟩ opened opened := .opened
  obtain ⟨hparallel, -, -, hrest⟩ :=
    latest_gathered hopen hs ⟨hfree, fun call _ => hreads call⟩ .self .self coordinate
  have hgathers := hparallel 2 [1, 0, 1]
  exact ⟨medium, opened, next, coordinate, stamp, garbled, other, foreign, ⟨stamp, [1]⟩, hopen,
    hempty, (hgathers.mem_iff _ _).mpr ⟨hother, hsingle.symm⟩,
    (hgathers.mem_iff _ _).mpr ⟨hgarbled, habsent.symm⟩, hgathers.nodup,
    fun _ hanswer => hstamp ((hgathers.mem_iff _ _).mp hanswer).1, hrest stamp hstamp,
    hrest foreign hforeign⟩

end Store

end Chronicle
