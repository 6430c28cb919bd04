import Chronicle.Proofs.Spine.Contest
import Mathlib.Data.List.Basic
import Mathlib.Data.List.Induction
import Mathlib.Data.List.Nodup

/-!
# Linearizability of merges

A merge that installs a payload has made it of what the slot held at that moment: the revisions of a
slot only grow, so that a slot with the revision that was read holds what was read. Therefore the
slot holds what the merges that succeeded make of it, one after another, in whatever order the steps
of all merges come.
-/

namespace Chronicle.SpineStore

namespace Contest

variable {s : SpineStore} {place : Place} {c c' : Contest} {i j : Nat}

/-! ## Where a merge stands -/

/-- What a stage says about a merge that may attempt so often: the attempts that it lost, what it
read of the slot, and what it made of that. -/
def Stands (place : Place) (attempts : Nat) (c : Contest) (i : Nat) : Stage → Prop
  | .waiting => c.swapsOf i = []
  | .arrived => c.swapsOf i = []
  | .informed left current => ∃ lost, lost + left = attempts ∧
      c.swapsOf i = List.replicate lost none ∧ Precedes current (c.store.cell? place)
  | .prepared left current next => ∃ lost, lost + 1 + left = attempts ∧
      c.swapsOf i = List.replicate lost none ∧ Precedes current (c.store.cell? place) ∧
      ∃ offer, c.offers[i]? = some offer ∧ next = offer.apply (current.map Cell.payload)
  | .installed payload => ∃ lost, lost < attempts ∧
      c.swapsOf i = List.replicate lost none ++ [some payload]
  | .exhausted => c.swapsOf i = List.replicate attempts none

variable {attempts : Nat} {stage : Stage}

/-- A merge stands where it stood as long as it makes no attempt, whatever others do. -/
theorem Stands.carry (h : c.Stands place attempts i stage) (hswaps : c'.swapsOf i = c.swapsOf i)
    (hoffers : ∀ offer, c.offers[i]? = some offer → c'.offers[i]? = some offer)
    (hcell : ∀ current, Precedes current (c.store.cell? place) →
      Precedes current (c'.store.cell? place)) : c'.Stands place attempts i stage := by
  cases stage with
  | waiting => exact hswaps.trans h
  | arrived => exact hswaps.trans h
  | informed left current =>
    obtain ⟨lost, hlost, hlog, hcurrent⟩ := h
    exact ⟨lost, hlost, hswaps.trans hlog, hcell current hcurrent⟩
  | prepared left current next =>
    obtain ⟨lost, hlost, hlog, hcurrent, offer, hoffer, hnext⟩ := h
    exact ⟨lost, hlost, hswaps.trans hlog, hcell current hcurrent, offer, hoffers offer hoffer,
      hnext⟩
  | installed payload =>
    obtain ⟨lost, hlost, hlog⟩ := h
    exact ⟨lost, hlost, hswaps.trans hlog⟩
  | exhausted => exact hswaps.trans h

/-- A merge that has not succeeded has installed nothing. -/
theorem Stands.some_notMem (h : c.Stands place attempts i stage)
    (hstage : ∀ v, stage ≠ .installed v) (v : Bytes) : some v ∉ c.swapsOf i := by
  have hlost (lost : Nat) (hlog : c.swapsOf i = List.replicate lost none) :
      some v ∉ c.swapsOf i := by
    rw [hlog, List.mem_replicate]
    simp
  cases stage with
  | waiting => exact hlost 0 h
  | arrived => exact hlost 0 h
  | informed left current =>
    obtain ⟨lost, -, hlog, -⟩ := h
    exact hlost lost hlog
  | prepared left current next =>
    obtain ⟨lost, -, hlog, -⟩ := h
    exact hlost lost hlog
  | installed payload => exact absurd rfl (hstage payload)
  | exhausted => exact hlost attempts h

/-- The merge that takes a step stands where the step leads. -/
theorem Steps.stands_self (h : Steps place c i c') (hattempts : c.store.maxAttempts = attempts)
    (hstands : c.Stands place attempts i (c.stage i)) :
    c'.Stands place attempts i (c'.stage i) := by
  cases h with
  | idle => exact hstands
  | arrives hstage =>
    rw [hstage] at hstands
    simp only [advance, Function.update_self]
    exact hstands
  | reads hstage =>
    rw [hstage] at hstands
    simp only [advance, Function.update_self, hattempts]
    exact ⟨0, Nat.zero_add _, hstands, .refl _⟩
  | givesUp hstage =>
    rw [hstage] at hstands
    obtain ⟨lost, rfl, hlog, -⟩ := hstands
    simp only [advance, Function.update_self]
    exact hlog
  | computes hoffer hstage =>
    rw [hstage] at hstands
    obtain ⟨lost, hlost, hlog, hcurrent⟩ := hstands
    simp only [advance, Function.update_self]
    exact ⟨lost, by omega, hlog, hcurrent, _, hoffer, rfl⟩
  | wins hstage hsame =>
    rw [hstage] at hstands
    obtain ⟨lost, hlost, hlog, -⟩ := hstands
    simp only [advance, Function.update_self]
    exact ⟨lost, by omega, by rw [swapsOf_of_append (c := c) rfl, hlog, if_pos rfl]⟩
  | loses hstage hchanged =>
    rw [hstage] at hstands
    obtain ⟨lost, hlost, hlog, -⟩ := hstands
    simp only [advance, Function.update_self]
    refine ⟨lost + 1, hlost, ?_, .refl _⟩
    rw [swapsOf_of_append (c := c) rfl, hlog, if_pos rfl, ← List.replicate_succ']

/-! ## Wins -/

private theorem installs_of_append {swap : Swap} (h : c'.swaps = c.swaps ++ [swap]) :
    c'.installs = c.installs ++ swap.installed.toList := by
  obtain ⟨merge, installed⟩ := swap
  rw [installs, h, List.filterMap_append, installs]
  cases installed <;> rfl

private theorem successes_of_append {swap : Swap} (h : c'.swaps = c.swaps ++ [swap]) :
    c'.successes = c.successes ++ (swap.installed.map fun _ => swap.merge).toList := by
  obtain ⟨merge, installed⟩ := swap
  rw [successes, h, List.filterMap_append, successes]
  cases installed <;> rfl

private theorem content_of_loaded (h : c.store.loaded[place.index]?.isSome) :
    c.content place = (c.store.cell? place).map Cell.payload := by
  rw [content, touch_of_isSome h]

/-- A step by which a merge installs a payload: the slot still holds what the merge has read. -/
structure Wins (place : Place) (c : Contest) (i : Nat) (next : Bytes) (c' : Contest) : Prop where
  prepared : ∃ left current, c.stage i = .prepared left current next ∧
    (c.store.cell? place).map Cell.revision = current.map Cell.revision
  stage_self : c'.stage i = .installed next
  installs_eq : c'.installs = c.installs ++ [next]
  successes_eq : c'.successes = c.successes ++ [i]
  content_eq : c'.content place = some next

/-- A step that installs nothing. -/
structure Passes (place : Place) (c : Contest) (i : Nat) (c' : Contest) : Prop where
  installed_iff : ∀ v, c'.stage i = .installed v ↔ c.stage i = .installed v
  installs_eq : c'.installs = c.installs
  successes_eq : c'.successes = c.successes
  content_eq : c'.content place = c.content place

/-- A step installs a payload or leaves what is installed. -/
theorem Steps.wins_or_passes (h : Steps place c i c') :
    (∃ next, Wins place c i next c') ∨ Passes place c i c' := by
  have hpasses {stage stage' : Stage} (hstage : c.stage i = stage)
      (hfrom : ∀ v, stage ≠ .installed v) (hto : ∀ v, stage' ≠ .installed v) (v : Bytes) :
      Function.update c.stage i stage' i = .installed v ↔ c.stage i = .installed v := by
    rw [Function.update_self, hstage]
    exact ⟨fun h => absurd h (hto v), fun h => absurd h (hfrom v)⟩
  cases h with
  | idle => exact Or.inr ⟨fun _ => Iff.rfl, rfl, rfl, rfl⟩
  | arrives hstage =>
    refine Or.inr ⟨hpasses hstage (by simp) (by simp), rfl, rfl, ?_⟩
    rw [content, touch_of_isSome (isSome_touch ..)]
    rfl
  | reads hstage => exact Or.inr ⟨hpasses hstage (by simp) (by simp), rfl, rfl, rfl⟩
  | givesUp hstage => exact Or.inr ⟨hpasses hstage (by simp) (by simp), rfl, rfl, rfl⟩
  | computes hoffer hstage => exact Or.inr ⟨hpasses hstage (by simp) (by simp), rfl, rfl, rfl⟩
  | wins hstage hsame =>
    refine Or.inl ⟨_, ⟨_, _, hstage, hsame⟩, Function.update_self .., ?_, ?_, ?_⟩
    · rw [installs_of_append (c := c) rfl]
      rfl
    · rw [successes_of_append (c := c) rfl]
      rfl
    · rw [content_of_loaded loaded_installAt]
      exact cell?_installAt_self
  | loses hstage hchanged =>
    refine Or.inr ⟨hpasses hstage (by simp) (by simp), ?_, ?_, rfl⟩
    · rw [installs_of_append (c := c) rfl]
      exact List.append_nil _
    · rw [successes_of_append (c := c) rfl]
      exact List.append_nil _

/-! ## What every contest keeps -/

/-- The store of a contest is as it was as long as nobody has arrived. Afterwards the spine is in
memory, with the payloads that were installed. -/
def Hosts (place : Place) (s : SpineStore) (c : Contest) : Prop :=
  (c.store = s ∧ c.installs = [] ∧ ∀ i, c.stage i = .waiting) ∨
    c.store = c.installs.foldl (installAt place) (touch place.index s).2

/-- Once a merge has joined, the store is the opening one with the spine in memory and what was
installed since. -/
theorem Hosts.brought (h : c.Hosts place s) (hstage : c.stage i ≠ .waiting) :
    c.store = c.installs.foldl (installAt place) (touch place.index s).2 := by
  obtain ⟨-, -, hwaiting⟩ | hstore := h
  · exact absurd (hwaiting i) hstage
  · exact hstore

/-- Once a merge has joined, the spine is in memory. -/
theorem Hosts.loaded (h : c.Hosts place s) (hstage : c.stage i ≠ .waiting) :
    c.store.loaded[place.index]?.isSome := by
  rw [h.brought hstage]
  exact (foldl_installAt ..).2.2.2.2 (isSome_touch ..)

private theorem Hosts.touch_eq (h : c.Hosts place s) :
    (touch place.index c.store).2 = c.installs.foldl (installAt place) (touch place.index s).2 := by
  obtain ⟨hstore, hinstalls, -⟩ | hstore := h
  · rw [hstore, hinstalls]
    rfl
  · rw [hstore]
    exact touch_of_isSome ((foldl_installAt ..).2.2.2.2 (isSome_touch ..))

/-- A contest leaves the settings of its store. -/
theorem Hosts.settings (h : c.Hosts place s) :
    c.store.maxAttempts = s.maxAttempts ∧ c.store.spineSize = s.spineSize := by
  obtain ⟨hstore, -, -⟩ | hstore := h
  · rw [hstore]
    exact ⟨rfl, rfl⟩
  · obtain ⟨-, -, hattempts, hsize, -⟩ :=
      foldl_installAt place c.installs (touch place.index s).2
    obtain ⟨htouched, htouched'⟩ := settings_touch s place.index
    rw [hstore]
    exact ⟨hattempts.trans htouched, hsize.trans htouched'⟩

/-- A step keeps the contest in its store. -/
theorem Steps.hosts (h : Steps place c i c') (hc : c.Hosts place s) : c'.Hosts place s := by
  cases h with
  | idle => exact hc
  | arrives => exact Or.inr hc.touch_eq
  | reads hstage => exact Or.inr (hc.brought (by rw [hstage]; simp))
  | givesUp hstage => exact Or.inr (hc.brought (by rw [hstage]; simp))
  | computes _ hstage => exact Or.inr (hc.brought (by rw [hstage]; simp))
  | wins hstage =>
    refine Or.inr ?_
    rw [installs_of_append (c := c) rfl, List.foldl_append,
      ← hc.brought (by rw [hstage]; simp)]
    rfl
  | loses hstage =>
    refine Or.inr ?_
    rw [installs_of_append (c := c) rfl, List.foldl_append,
      ← hc.brought (by rw [hstage]; simp)]
    rfl

/-- What the offers of some merges, one after another, make of the content of a slot. -/
def foldOffers (content : Option Bytes) (offers : List Offer) : Option Bytes :=
  offers.foldl (fun content offer => some (offer.apply content)) content

private theorem foldOffers_append (content : Option Bytes) (offers more : List Offer) :
    foldOffers content (offers ++ more) = foldOffers (foldOffers content offers) more :=
  List.foldl_append ..

/-- The rules that every contest obeys that was opened with a store. -/
structure Lawful (place : Place) (s : SpineStore) (c : Contest) : Prop where
  waiting : ∀ i, c.offers.length ≤ i → c.stage i = .waiting
  hosts : c.Hosts place s
  stands : ∀ i, c.Stands place s.maxAttempts i (c.stage i)
  nodup_successes : c.successes.Nodup
  mem_successes_iff : ∀ i, i ∈ c.successes ↔ ∃ v, c.stage i = .installed v
  content_eq : c.content place = foldOffers ((opening s).content place) c.winners

/-- A contest that nobody has joined is lawful. -/
theorem lawful_opening (place : Place) (s : SpineStore) : (opening s).Lawful place s where
  waiting := fun _ _ => rfl
  hosts := Or.inl ⟨rfl, rfl, fun _ => rfl⟩
  stands := fun _ => rfl
  nodup_successes := List.nodup_nil
  mem_successes_iff := by simp [successes, opening]
  content_eq := rfl

/-- A payload that is installed was made of what the slot held just before. -/
theorem Lawful.of_wins (h : c.Lawful place s) {next : Bytes} (hwins : Wins place c i next c') :
    ∃ offer, c.offers[i]? = some offer ∧ next = offer.apply (c.content place) := by
  obtain ⟨left, current, hstage, hsame⟩ := hwins.prepared
  have hstands := h.stands i
  rw [hstage] at hstands
  obtain ⟨lost, -, -, hcurrent, offer, hoffer, hnext⟩ := hstands
  have hloaded := h.hosts.loaded (i := i) (by rw [hstage]; simp)
  rw [content_of_loaded hloaded, hcurrent.eq hsame]
  exact ⟨offer, hoffer, hnext⟩

/-- A merge that is under way has joined. -/
theorem Lawful.joined (h : c.Lawful place s) (hstage : c.stage i ≠ .waiting) :
    i < c.offers.length := by
  by_contra hlt
  exact hstage (h.waiting i (Nat.le_of_not_lt hlt))

/-- A contest stays lawful when a merge joins. -/
theorem Lawful.join (h : c.Lawful place s) (offer : Offer) :
    (c.move place (.join offer)).Lawful place s := by
  have hoffers {i : Nat} (hi : i < c.offers.length) : (c.offers ++ [offer])[i]? = c.offers[i]? :=
    List.getElem?_append_left hi
  refine ⟨fun i hi => h.waiting i ?_, h.hosts, fun i => ?_, h.nodup_successes,
    h.mem_successes_iff, ?_⟩
  · rw [move, List.length_append] at hi
    exact Nat.le_of_add_right_le hi
  · refine (h.stands i).carry rfl (fun found hfound => ?_) fun _ => id
    have hi : i < c.offers.length := (List.getElem?_eq_some_iff.mp hfound).1
    exact (hoffers hi).trans hfound
  · refine h.content_eq.trans (congrArg _ (List.filterMap_congr fun i hi => ?_))
    obtain ⟨v, hv⟩ := (h.mem_successes_iff i).mp hi
    exact (hoffers (h.joined (by rw [hv]; simp))).symm

/-- A contest stays lawful when a merge takes its next step. -/
theorem Lawful.step (h : c.Lawful place s) (i : Nat) : (c.step place i).Lawful place s := by
  have hsteps := steps_step place c i
  have hwaiting (j : Nat) (hj : (c.step place i).offers.length ≤ j) :
      (c.step place i).stage j = .waiting := by
    rw [hsteps.offers_eq] at hj
    by_cases hji : j = i
    · subst hji
      rw [step_of_not_joined hj]
      exact h.waiting j hj
    · rw [hsteps.stage_of_ne hji]
      exact h.waiting j hj
  have hstands (j : Nat) :
      (c.step place i).Stands place s.maxAttempts j ((c.step place i).stage j) := by
    by_cases hj : j = i
    · subst hj
      exact hsteps.stands_self h.hosts.settings.1 (h.stands j)
    · rw [hsteps.stage_of_ne hj]
      exact (h.stands j).carry (hsteps.swapsOf_of_ne hj) (fun _ hoffer => hsteps.offers_eq ▸ hoffer)
        fun _ => hsteps.precedes
  obtain ⟨next, hwins⟩ | hpasses := hsteps.wins_or_passes
  · obtain ⟨offer, hoffer, rfl⟩ := h.of_wins hwins
    have hnew : i ∉ c.successes := by
      obtain ⟨left, current, hstage, -⟩ := hwins.prepared
      rw [h.mem_successes_iff, hstage]
      simp
    have hwinners : (c.step place i).winners = c.winners ++ [offer] := by
      rw [winners, hwins.successes_eq, hsteps.offers_eq, List.filterMap_append, ← winners]
      simp [hoffer]
    refine ⟨hwaiting, hsteps.hosts h.hosts, hstands, ?_, fun j => ?_, ?_⟩
    · rw [hwins.successes_eq, ← List.concat_eq_append]
      exact h.nodup_successes.concat hnew
    · rw [hwins.successes_eq, List.mem_append, List.mem_singleton]
      by_cases hj : j = i
      · subst hj
        simp [hwins.stage_self]
      · simp [hj, hsteps.stage_of_ne hj, h.mem_successes_iff]
    · rw [hwins.content_eq, hwinners, foldOffers_append, ← h.content_eq]
      rfl
  · refine ⟨hwaiting, hsteps.hosts h.hosts, hstands, ?_, fun j => ?_, ?_⟩
    · rw [hpasses.successes_eq]
      exact h.nodup_successes
    · rw [hpasses.successes_eq, h.mem_successes_iff]
      by_cases hj : j = i
      · subst hj
        simp only [hpasses.installed_iff]
      · rw [hsteps.stage_of_ne hj]
    · rw [hpasses.content_eq, h.content_eq, winners, winners, hpasses.successes_eq,
        hsteps.offers_eq]

/-- Moves are made one part after the other. -/
theorem after_append (place : Place) (c : Contest) (past later : List Move) :
    c.after place (past ++ later) = (c.after place past).after place later :=
  List.foldl_append ..

/-- A contest stays lawful, whatever moves are made. -/
theorem Lawful.after (h : c.Lawful place s) (moves : List Move) :
    (c.after place moves).Lawful place s := by
  induction moves generalizing c with
  | nil => exact h
  | cons move moves ih =>
    refine ih ?_
    cases move with
    | join offer => exact h.join offer
    | step i => exact h.step i

/-- A merge keeps its offer. -/
theorem offers_after {offer : Offer} (h : c.offers[i]? = some offer) (moves : List Move) :
    (c.after place moves).offers[i]? = some offer := by
  induction moves generalizing c with
  | nil => exact h
  | cons move moves ih =>
    refine ih ?_
    cases move with
    | join other => exact (List.getElem?_append_left (List.getElem?_eq_some_iff.mp h).1).trans h
    | step j => exact (steps_step place c j).offers_eq ▸ h

/-! ## Linearizability -/

/-- How merges into a slot behave that race for it in a contest after some moves. -/
structure Linearized (place : Place) (s : SpineStore) (moves : List Move) (c : Contest) :
    Prop where
  /-- A merge that succeeded did so by one of its steps, which replaced what the slot held just
  before by what the merge makes of that. -/
  landed : ∀ i v, c.stage i = .installed v → ∃ past later offer, moves = past ++ .step i :: later ∧
    c.offers[i]? = some offer ∧
    let before := (opening s).after place past
    v = offer.apply (before.content place) ∧ Wins place before i v (before.step place i)
  /-- A merge that succeeded lost all attempts before the one that installed its payload. -/
  once : ∀ i v, c.stage i = .installed v → ∃ lost < s.maxAttempts,
    c.swapsOf i = List.replicate lost none ++ [some v]
  /-- A merge that gave up lost as many attempts as it may make, and installed nothing. -/
  exhausted : ∀ i, c.stage i = .exhausted → c.swapsOf i = List.replicate s.maxAttempts none
  /-- A merge that has not ended has installed nothing. -/
  pending : ∀ i, (∀ v, c.stage i ≠ .installed v) → ∀ v, some v ∉ c.swapsOf i
  /-- No merge succeeds twice. -/
  nodup_successes : c.successes.Nodup
  mem_successes_iff : ∀ i, i ∈ c.successes ↔ ∃ v, c.stage i = .installed v
  /-- The slot holds what the merges that succeeded make of it, in the order of their installs. -/
  content_eq : c.content place = foldOffers ((opening s).content place) c.winners
  /-- Nothing happens to the store but that the spine comes into memory and payloads are installed
  in the slot. -/
  store_eq : c.store = s ∨
    c.store = c.installs.foldl (installAt place) (touch place.index s).2
  others_eq : ∀ other, other ≠ place →
    (touch place.index c.store).2.cell? other = (touch place.index s).2.cell? other
  medium_eq : (touch place.index c.store).2.medium = (touch place.index s).2.medium

/-- The step by which a merge succeeded. -/
theorem exists_landing {moves : List Move} {v : Bytes}
    (h : ((opening s).after place moves).stage i = .installed v) :
    ∃ past later offer, moves = past ++ .step i :: later ∧
      ((opening s).after place moves).offers[i]? = some offer ∧
      let before := (opening s).after place past
      v = offer.apply (before.content place) ∧ Wins place before i v (before.step place i) := by
  induction moves using List.reverseRecOn with
  | nil => cases h
  | append_singleton moves move ih =>
    obtain ⟨c, hc⟩ : ∃ c, c = (opening s).after place moves := ⟨_, rfl⟩
    have hlawful : c.Lawful place s := hc ▸ (lawful_opening place s).after moves
    have hcarry (hbefore : c.stage i = .installed v) :
        ∃ past later offer, moves ++ [move] = past ++ .step i :: later ∧
          (c.after place [move]).offers[i]? = some offer ∧
          let before := (opening s).after place past
          v = offer.apply (before.content place) ∧
            Wins place before i v (before.step place i) := by
      rw [← hc] at ih
      obtain ⟨past, later, offer, rfl, hoffer, hlands⟩ := ih hbefore
      exact ⟨past, later ++ [move], offer, by simp, offers_after hoffer [move], hlands⟩
    rw [after_append, ← hc] at h ⊢
    cases move with
    | join offer => exact hcarry h
    | step j =>
      have hsteps := steps_step place c j
      by_cases hj : i = j
      · subst hj
        obtain ⟨next, hwins⟩ | hpasses := hsteps.wins_or_passes
        · obtain ⟨offer, hoffer, hnext⟩ := hlawful.of_wins hwins
          obtain rfl : next = v := Stage.installed.inj (hwins.stage_self.symm.trans h)
          exact ⟨moves, [], offer, rfl, offers_after hoffer [.step i], hc ▸ ⟨hnext, hwins⟩⟩
        · exact hcarry ((hpasses.installed_iff v).mp h)
      · exact hcarry ((hsteps.stage_of_ne hj).symm.trans h)

/-- In whatever order the steps of the merges come, the merges into a slot are linearizable. -/
theorem linearized (place : Place) (s : SpineStore) (moves : List Move) :
    Linearized place s moves ((opening s).after place moves) := by
  have h := (lawful_opening place s).after moves
  refine ⟨fun i v => exists_landing, fun i v hstage => ?_, fun i hstage => ?_,
    fun i hpending v hv => ?_, h.nodup_successes, h.mem_successes_iff, h.content_eq,
    h.hosts.imp And.left id, fun other hother => ?_, ?_⟩
  · have hstands := h.stands i
    rw [hstage] at hstands
    exact hstands
  · have hstands := h.stands i
    rw [hstage] at hstands
    exact hstands
  · exact (h.stands i).some_notMem hpending v hv
  · rw [h.hosts.touch_eq]
    exact (foldl_installAt ..).1 other hother
  · rw [h.hosts.touch_eq]
    exact (foldl_installAt ..).2.1

end Contest

end Chronicle.SpineStore
