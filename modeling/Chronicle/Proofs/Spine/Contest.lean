import Chronicle.Proofs.Spine.Service
import Mathlib.Logic.Function.Basic

/-!
# Merges that race for a slot

Several merges go for one slot at a time. Each brings the spine into memory, reads the slot,
computes what to install, and swaps it in if the slot still holds what was read. Otherwise it goes
on from what the slot holds now, until no attempt is left. The steps of different merges alternate
in any order. This file takes the operation apart into these steps, on the store that it runs on,
and says once what a step can do.
-/

namespace Chronicle.SpineStore

/-- What a merge brings along: a payload, and how to combine it with the one that is there. -/
structure Offer where
  payload : Bytes
  combine : Bytes → Bytes → Bytes

/-- What an offer makes of the content of a slot. -/
def Offer.apply (offer : Offer) (content : Option Bytes) : Bytes :=
  merged offer.combine offer.payload content

/-- How far a merge got. -/
inductive Stage where
  | waiting
  /-- The spine is in memory. -/
  | arrived
  /-- The slot was read, and this many attempts are left. -/
  | informed (left : Nat) (current : Option Cell)
  /-- The payload to install is known, and this many attempts are left if it is refused. -/
  | prepared (left : Nat) (current : Option Cell) (next : Bytes)
  | installed (payload : Bytes)
  | exhausted
  deriving DecidableEq

/-- An attempt to swap: whose it was, and what it installed if it succeeded. -/
structure Swap where
  merge : Nat
  installed : Option Bytes
  deriving DecidableEq

/-- Merges that race for one slot, in the order in which they joined. The attempts so far are
remembered. A merge that has not joined is waiting. -/
structure Contest where
  store : SpineStore
  offers : List Offer
  stage : Nat → Stage
  swaps : List Swap

/-- What can happen next: a merge joins, or one takes its next step. -/
inductive Move where
  | join (offer : Offer)
  | step (i : Nat)

namespace Contest

/-- A contest that nobody has joined. -/
def opening (store : SpineStore) : Contest where
  store := store
  offers := []
  stage := fun _ => .waiting
  swaps := []

/-- The contest with one merge in another stage. -/
def advance (c : Contest) (i : Nat) (stage : Stage) : Contest :=
  { c with stage := Function.update c.stage i stage }

/-- The next step of a merge, if it has one. -/
def step (place : Place) (c : Contest) (i : Nat) : Contest :=
  match c.offers[i]? with
  | none => c
  | some offer =>
    match c.stage i with
    | .waiting => { c.advance i .arrived with store := (touch place.index c.store).2 }
    | .arrived => c.advance i (.informed c.store.maxAttempts (c.store.cell? place))
    | .informed 0 _ => c.advance i .exhausted
    | .informed (left + 1) current =>
      c.advance i (.prepared left current (offer.apply (current.map Cell.payload)))
    | .prepared left current next =>
      match swap place current next c.store with
      | (true, store) =>
        { c.advance i (.installed next) with store, swaps := c.swaps ++ [⟨i, some next⟩] }
      | (false, store) =>
        { c.advance i (.informed left (store.cell? place)) with
          store, swaps := c.swaps ++ [⟨i, none⟩] }
    | .installed _ => c
    | .exhausted => c

/-- The contest after what happens next. -/
def move (place : Place) (c : Contest) : Move → Contest
  | .join offer => { c with offers := c.offers ++ [offer] }
  | .step i => c.step place i

/-- A contest after some moves. -/
def after (place : Place) (c : Contest) (moves : List Move) : Contest :=
  moves.foldl (move place) c

/-- What the slot holds, or would hold if its spine came into memory now. -/
def content (place : Place) (c : Contest) : Option Bytes :=
  ((touch place.index c.store).2.cell? place).map Cell.payload

/-- What was installed, in order. -/
def installs (c : Contest) : List Bytes :=
  c.swaps.filterMap Swap.installed

/-- The merges that succeeded, in the order of their installs. -/
def successes (c : Contest) : List Nat :=
  c.swaps.filterMap fun swap => swap.installed.map fun _ => swap.merge

/-- The offers of the merges that succeeded. -/
def winners (c : Contest) : List Offer :=
  c.successes.filterMap fun i => c.offers[i]?

/-- How the attempts of one merge ended. -/
def swapsOf (c : Contest) (i : Nat) : List (Option Bytes) :=
  (c.swaps.filter (·.merge = i)).map Swap.installed

end Contest

/-! ## Slots in memory -/

variable {s : SpineStore} {place other : Place} {payload : Bytes}

/-- A store with a payload at a place, in place of what was there. -/
def installAt (place : Place) (s : SpineStore) (payload : Bytes) : SpineStore :=
  let spine := (s.loaded[place.index]?.getD Spine.empty).install place.slot payload
  { s with loaded := s.loaded.insert place.index spine }

/-- A swap succeeds if its cell is still the one that was read. -/
theorem swap_of_same {expected : Option Cell}
    (h : (s.cell? place).map Cell.revision = expected.map Cell.revision) (payload : Bytes) :
    swap place expected payload s = (true, s.installAt place payload) := by
  rw [swap, if_pos h]
  rfl

/-- A swap that finds another cell than was read changes nothing. -/
theorem swap_of_changed {expected : Option Cell}
    (h : (s.cell? place).map Cell.revision ≠ expected.map Cell.revision) (payload : Bytes) :
    swap place expected payload s = (false, s) := by
  rw [swap, if_neg h]

/-- An install gives its slot a new revision, and changes no other slot. -/
theorem cell?_installAt :
    (s.installAt place payload).cell? other =
      if other = place then
        some { payload, revision := ((s.cell? place).map fun cell => cell.revision + 1).getD 0 }
      else s.cell? other := by
  by_cases hindex : other.index = place.index
  · have hplace : other = place ↔ other.slot = place.slot := by
      cases other
      cases place
      simp_all
    simp only [cell?, installAt, getElem?_insert_index, hindex, if_true, hplace]
    cases s.loaded[place.index]? with
    | none => simp [Spine.install, Spine.empty, getElem?_insert_index]
    | some spine => simp [Spine.install, getElem?_insert_index]
  · have hplace : other ≠ place := fun h => hindex (congrArg Place.index h)
    simp only [cell?, installAt, getElem?_insert_index, if_neg hindex, if_neg hplace]

/-- What was installed at a place is there. -/
theorem cell?_installAt_self :
    ((s.installAt place payload).cell? place).map Cell.payload = some payload := by
  rw [cell?_installAt, if_pos rfl, Option.map_some]

/-- The spine into which a payload was installed is in memory. -/
theorem loaded_installAt : (s.installAt place payload).loaded[place.index]?.isSome := by
  rw [installAt, Std.ExtTreeMap.getElem?_insert_self]
  rfl

/-- Touching a spine in memory changes nothing. -/
theorem touch_of_isSome {index : Nat} (h : s.loaded[index]?.isSome) : (touch index s).2 = s := by
  obtain ⟨spine, hspine⟩ := Option.isSome_iff_exists.mp h
  rw [touch_of_loaded hspine]

/-- A spine that was touched is in memory. -/
theorem isSome_touch (s : SpineStore) (index : Nat) :
    (touch index s).2.loaded[index]?.isSome := by
  rw [loaded_touch]
  rfl

/-- A touch leaves the settings of a store. -/
theorem settings_touch (s : SpineStore) (index : Nat) :
    (touch index s).2.maxAttempts = s.maxAttempts ∧
      (touch index s).2.spineSize = s.spineSize := by
  cases hloaded : s.loaded[index]? with
  | none =>
    obtain ⟨spine, medium, permits, htouch, -⟩ := touch_of_not_loaded hloaded
    rw [htouch]
    exact ⟨rfl, rfl⟩
  | some spine =>
    rw [touch_of_loaded hloaded]
    exact ⟨rfl, rfl⟩

/-- Whatever is installed, the other slots, the medium and the settings stay as they are. -/
theorem foldl_installAt (place : Place) (payloads : List Bytes) (s : SpineStore) :
    let t := payloads.foldl (installAt place) s
    (∀ other, other ≠ place → t.cell? other = s.cell? other) ∧ t.medium = s.medium ∧
      t.maxAttempts = s.maxAttempts ∧ t.spineSize = s.spineSize ∧
      (s.loaded[place.index]?.isSome → t.loaded[place.index]?.isSome) := by
  induction payloads generalizing s with
  | nil => exact ⟨fun _ _ => rfl, rfl, rfl, rfl, id⟩
  | cons payload payloads ih =>
    obtain ⟨hcell, hmedium, hattempts, hsize, hloaded⟩ := ih (s.installAt place payload)
    refine ⟨fun other hother => ?_, hmedium, hattempts, hsize, fun _ => hloaded loaded_installAt⟩
    rw [List.foldl_cons, hcell other hother, cell?_installAt, if_neg hother]

/-- What was read of a slot is what it holds, or has a smaller revision. -/
def Precedes (current now : Option Cell) : Prop :=
  ∀ cell ∈ current, ∃ latest ∈ now, cell = latest ∨ cell.revision < latest.revision

/-- What was read just now is what the slot holds. -/
theorem Precedes.refl (current : Option Cell) : Precedes current current :=
  fun cell hcell => ⟨cell, hcell, Or.inl rfl⟩

/-- If the revision is the same, nothing has changed. -/
theorem Precedes.eq {current now : Option Cell} (h : Precedes current now)
    (hsame : now.map Cell.revision = current.map Cell.revision) : now = current := by
  cases current with
  | none => exact Option.map_eq_none_iff.mp hsame
  | some cell =>
    obtain ⟨latest, hlatest, rfl | hlt⟩ := h cell rfl
    · exact hlatest
    · rw [Option.mem_def.mp hlatest, Option.map_some, Option.map_some, Option.some.injEq] at hsame
      omega

/-- What was read still precedes the cell when a spine comes into memory. -/
theorem Precedes.touch {current : Option Cell} (h : Precedes current (s.cell? place)) :
    Precedes current ((touch place.index s).2.cell? place) := by
  cases hloaded : s.loaded[place.index]? with
  | some spine => rwa [touch_of_loaded hloaded]
  | none =>
    have hcell : s.cell? place = none := by
      rw [cell?, hloaded]
      rfl
    intro cell hmem
    obtain ⟨latest, hlatest, -⟩ := h cell hmem
    rw [hcell] at hlatest
    cases hlatest

/-- What was read still precedes the cell when a payload is installed, since revisions grow. -/
theorem Precedes.installAt {current : Option Cell} (h : Precedes current (s.cell? place))
    (payload : Bytes) : Precedes current ((s.installAt place payload).cell? place) := by
  intro cell hmem
  obtain ⟨latest, hlatest, hle⟩ := h cell hmem
  rw [cell?_installAt, if_pos rfl, Option.mem_def.mp hlatest]
  refine ⟨_, rfl, Or.inr ?_⟩
  change cell.revision < latest.revision + 1
  obtain rfl | hlt := hle
  · exact Nat.lt_succ_self _
  · exact Nat.lt_succ_of_lt hlt

/-! ## What a step can do -/

namespace Contest

/-- The outcomes of a step. -/
inductive Steps (place : Place) (c : Contest) (i : Nat) : Contest → Prop
  /-- The merge has not joined, or has ended. -/
  | idle : Steps place c i c
  | arrives (hstage : c.stage i = .waiting) :
      Steps place c i { c.advance i .arrived with store := (touch place.index c.store).2 }
  | reads (hstage : c.stage i = .arrived) :
      Steps place c i (c.advance i (.informed c.store.maxAttempts (c.store.cell? place)))
  | givesUp {current : Option Cell} (hstage : c.stage i = .informed 0 current) :
      Steps place c i (c.advance i .exhausted)
  | computes {offer : Offer} {left : Nat} {current : Option Cell}
      (hoffer : c.offers[i]? = some offer) (hstage : c.stage i = .informed (left + 1) current) :
      Steps place c i
        (c.advance i (.prepared left current (offer.apply (current.map Cell.payload))))
  | wins {left : Nat} {current : Option Cell} {next : Bytes}
      (hstage : c.stage i = .prepared left current next)
      (hsame : (c.store.cell? place).map Cell.revision = current.map Cell.revision) :
      Steps place c i { c.advance i (.installed next) with
        store := c.store.installAt place next
        swaps := c.swaps ++ [⟨i, some next⟩] }
  | loses {left : Nat} {current : Option Cell} {next : Bytes}
      (hstage : c.stage i = .prepared left current next)
      (hchanged : (c.store.cell? place).map Cell.revision ≠ current.map Cell.revision) :
      Steps place c i { c.advance i (.informed left (c.store.cell? place)) with
        swaps := c.swaps ++ [⟨i, none⟩] }

/-- A merge that has not joined takes no step. -/
theorem step_of_not_joined {place : Place} {c : Contest} {i : Nat} (h : c.offers.length ≤ i) :
    c.step place i = c := by
  rw [step, List.getElem?_eq_none h]

/-- The next step of a merge has one of the outcomes of `Steps`. -/
theorem steps_step (place : Place) (c : Contest) (i : Nat) : Steps place c i (c.step place i) := by
  rw [step]
  cases hoffer : c.offers[i]? with
  | none => exact .idle
  | some offer =>
    cases hstage : c.stage i with
    | waiting => exact .arrives hstage
    | arrived => exact .reads hstage
    | informed left current =>
      cases left with
      | zero => exact .givesUp hstage
      | succ left => exact .computes hoffer hstage
    | prepared left current next =>
      by_cases hsame : (c.store.cell? place).map Cell.revision = current.map Cell.revision
      · simp only [swap_of_same hsame]
        exact .wins hstage hsame
      · simp only [swap_of_changed hsame]
        exact .loses hstage hsame
    | installed payload => exact .idle
    | exhausted => exact .idle

variable {c c' : Contest} {i j : Nat}

/-- A step leaves the offers. -/
theorem Steps.offers_eq (h : Steps place c i c') : c'.offers = c.offers := by
  cases h <;> rfl

/-- A step of one merge leaves the stage of every other. -/
theorem Steps.stage_of_ne (h : Steps place c i c') (hne : j ≠ i) : c'.stage j = c.stage j := by
  cases h with
  | idle => rfl
  | _ => exact Function.update_of_ne hne _ _

/-- What was read of the slot still precedes its cell after a step. -/
theorem Steps.precedes {current : Option Cell} (h : Steps place c i c')
    (hcurrent : Precedes current (c.store.cell? place)) :
    Precedes current (c'.store.cell? place) := by
  cases h with
  | arrives => exact hcurrent.touch
  | wins => exact hcurrent.installAt _
  | _ => exact hcurrent

/-- One more attempt adds what it installed to the attempts of its own merge. -/
theorem swapsOf_of_append {swap : Swap} (h : c'.swaps = c.swaps ++ [swap]) (j : Nat) :
    c'.swapsOf j = c.swapsOf j ++ if swap.merge = j then [swap.installed] else [] := by
  rw [swapsOf, h, List.filter_append, List.map_append, swapsOf]
  congr 1
  by_cases hmerge : swap.merge = j
  · simp [hmerge]
  · simp [hmerge]

/-- A step of one merge adds no attempt of another. -/
theorem Steps.swapsOf_of_ne (h : Steps place c i c') (hne : j ≠ i) :
    c'.swapsOf j = c.swapsOf j := by
  cases h with
  | wins => rw [swapsOf_of_append (c := c) rfl, if_neg (Ne.symm hne), List.append_nil]
  | loses => rw [swapsOf_of_append (c := c) rfl, if_neg (Ne.symm hne), List.append_nil]
  | _ => rfl

end Contest

end Chronicle.SpineStore
