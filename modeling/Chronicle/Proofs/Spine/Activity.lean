import Chronicle.Proofs.Spine.Events
import Chronicle.Proofs.Spine.Observation
import Chronicle.Store.Basic

/-!
# Activities over a spined store

An activity looks payloads up, merges them, scans and writes, as often and in whatever order it
decides. What it does while a merge combines two payloads, or while a scan visits one, is again an
activity. This file proves that an activity changes the store by events only, and installs payloads
for no nids but those it addresses.
-/

namespace Chronicle.SpineStore

/-- What can be done with a store by its operations, if the nids of all merges are addressed. -/
inductive Activity (addressed : Nid → Prop) : {α : Type} → StateM SpineStore α → Prop
  | observe {α : Type} (view : SpineStore → α) : Activity addressed fun s => (view s, s)
  | bind {α β : Type} {x : StateM SpineStore α} {f : α → StateM SpineStore β}
      (hx : Activity addressed x) (hf : ∀ a, Activity addressed (f a)) :
      Activity addressed (x >>= f)
  | lookup (nid : Nid) : Activity addressed (lookup nid)
  | merge {nid : Nid} (payload : Bytes) {combine : Bytes → Bytes → StateM SpineStore Bytes}
      (hnid : addressed nid) (hcombine : ∀ old new, Activity addressed (combine old new)) :
      Activity addressed (Store.attempt (mergeM nid payload combine))
  | scan {σ : Type} (stop : σ → Bool) {visit : Nid → Bytes → Scan σ Unit} (state : σ)
      (hvisit : ∀ nid payload state, Activity addressed ((visit nid payload).run state)) :
      Activity addressed ((forEachUntil stop visit).run state)
  | scanParallel {σ : Type} (stop : σ → Bool) {visit : Nid → Bytes → Scan σ Unit} (state : σ)
      (workers : Nat) (schedule : List Nat)
      (hvisit : ∀ nid payload state, Activity addressed ((visit nid payload).run state)) :
      Activity addressed ((forEachParallelUntil stop visit workers schedule).run state)
  | write : Activity addressed (Store.attempt write)

/-- From one store on, a computation changes the store by events that install payloads for addressed
nids only. -/
def ActsFrom (addressed : Nid → Prop) {α : Type} (x : StateM SpineStore α) (s : SpineStore) :
    Prop :=
  ∃ events, (∀ nid payload, Event.installed nid payload ∈ events → addressed nid) ∧
    (x s).2 = s.after events

/-- From every store on, a computation changes the store by such events. -/
def Acts (addressed : Nid → Prop) {α : Type} (x : StateM SpineStore α) : Prop :=
  ∀ s, ActsFrom addressed x s

section

variable {addressed : Nid → Prop} {α β σ : Type} {s : SpineStore}

/-- Looking at a store changes nothing. -/
theorem acts_observe (view : SpineStore → α) : Acts addressed fun s => (view s, s) :=
  fun _ => ⟨[], by simp, rfl⟩

/-- An answer without a look at the store changes nothing. -/
theorem acts_pure (a : α) : Acts addressed (pure a : StateM SpineStore α) :=
  acts_observe fun _ => a

/-- Two computations one after the other change a store by the events of both. -/
theorem ActsFrom.bind {x : StateM SpineStore α} {f : α → StateM SpineStore β}
    (hx : ActsFrom addressed x s) (hf : ActsFrom addressed (f (x s).1) (x s).2) :
    ActsFrom addressed (x >>= f) s := by
  obtain ⟨first, hfirst, hx⟩ := hx
  obtain ⟨second, hsecond, hf⟩ := hf
  refine ⟨first ++ second, fun nid payload hmem => ?_, ?_⟩
  · obtain hmem | hmem := List.mem_append.mp hmem
    · exact hfirst nid payload hmem
    · exact hsecond nid payload hmem
  · rw [after_append, ← hx, ← hf]
    rfl

/-- Computations that change every store by such events do so one after the other. -/
theorem Acts.bind {x : StateM SpineStore α} {f : α → StateM SpineStore β} (hx : Acts addressed x)
    (hf : ∀ a, Acts addressed (f a)) : Acts addressed (x >>= f) :=
  fun s => (hx s).bind (hf _ _)

/-- A spine that may have data comes into memory by one event. -/
theorem actsFrom_touch {index : Nat} (h : index < UInt32.size ∨ s.reaches index = true) :
    ActsFrom addressed (touch index) s := by
  refine ⟨[.touched index], by simp, ?_⟩
  simp only [after, List.foldl_cons, List.foldl_nil, Event.happen, if_pos h]

/-- Events leave every nid at its place. -/
theorem place?_after (s : SpineStore) (events : List Event) (nid : Nid) :
    (s.after events).place? nid = s.place? nid :=
  place?_congr (spineSize_after s events) nid

/-- Events leave every spine in memory. -/
theorem loaded_after {index : Nat} (h : s.loaded[index]?.isSome) (events : List Event) :
    (s.after events).loaded[index]?.isSome :=
  after_induction (P := fun _ t => t.loaded[index]?.isSome) h
    fun _ _ _ _ h htransition => htransition.loaded_isSome h

/-- Where a nid lies and that a spine is in memory is not changed by what acts. -/
theorem ActsFrom.keeps {x : StateM SpineStore α} {nid : Nid} {place : Place}
    (hx : ActsFrom addressed x s) (hplace : s.place? nid = some place)
    (hloaded : s.loaded[place.index]?.isSome) :
    (x s).2.place? nid = some place ∧ (x s).2.loaded[place.index]?.isSome := by
  obtain ⟨events, -, hevents⟩ := hx
  rw [hevents, place?_after]
  exact ⟨hplace, loaded_after hloaded events⟩

/-- A store becomes another one by events that install payloads for addressed nids only. -/
def Becomes (addressed : Nid → Prop) (s t : SpineStore) : Prop :=
  ∃ events, (∀ nid payload, Event.installed nid payload ∈ events → addressed nid) ∧
    t = s.after events

private theorem becomes_refl (s : SpineStore) : Becomes addressed s s :=
  ⟨[], by simp, rfl⟩

/-- What acts later adds to the events. -/
theorem Becomes.acts {t : SpineStore} {x : StateM SpineStore α} (h : Becomes addressed s t)
    (hx : ActsFrom addressed x t) : Becomes addressed s (x t).2 := by
  have hbefore : ActsFrom addressed (fun s => ((), t) : StateM SpineStore Unit) s := h
  exact hbefore.bind (f := fun _ => x) hx

private theorem outlastsTouch_becomes (s : SpineStore) :
    OutlastsTouch fun (_ : σ) t => Becomes addressed s t :=
  fun _ _ _ hreaches h => h.acts (actsFrom_touch (Or.inr hreaches))

/-- A look-up installs nothing. -/
theorem acts_lookup (nid : Nid) : Acts addressed (lookup nid) :=
  fun s => Scan.maintains_lookup (outlastsTouch_becomes s) nid () s (becomes_refl s)

/-! ## Merges -/

/-- A swap installs its payload for its own nid at most. -/
theorem actsFrom_swap {nid : Nid} {place : Place} (hnid : addressed nid)
    (hplace : s.place? nid = some place) (hloaded : s.loaded[place.index]?.isSome)
    (expected : Option Cell) (payload : Bytes) :
    ActsFrom addressed (swap place expected payload) s := by
  obtain ⟨spine, hspine⟩ := Option.isSome_iff_exists.mp hloaded
  by_cases hsame : (s.cell? place).map Cell.revision = expected.map Cell.revision
  · refine ⟨[.installed nid payload], ?_, ?_⟩
    · intro other _ hmem
      simp only [List.mem_singleton, Event.installed.injEq] at hmem
      rwa [hmem.1]
    · simp only [swap, if_pos hsame, hspine, Option.getD_some, after, List.foldl_cons,
        List.foldl_nil, Event.happen, hplace]
  · exact ⟨[], by simp, by rw [swap, if_neg hsame]; rfl⟩

/-- Attempts act, as long as the spine is in memory: it stays there. -/
theorem actsFrom_attempt {nid : Nid} {place : Place} {payload : Bytes}
    {combine : Bytes → Bytes → StateM SpineStore Bytes} (hnid : addressed nid)
    (hcombine : ∀ old new, Acts addressed (combine old new)) (n : Nat) (current : Option Cell)
    (hplace : s.place? nid = some place) (hloaded : s.loaded[place.index]?.isSome) :
    ActsFrom addressed (attempt place payload combine n current) s := by
  induction n generalizing s current with
  | zero => exact acts_pure _ s
  | succ n ih =>
    have hinstall {t : SpineStore} (hplace : t.place? nid = some place)
        (hloaded : t.loaded[place.index]?.isSome) (next : Bytes) :
        ActsFrom addressed (do
          if ← swap place current next then return some next
          else
            let t ← get
            attempt place payload combine n (t.cell? place)) t := by
      have hswap := actsFrom_swap hnid hplace hloaded current next
      refine hswap.bind ?_
      obtain ⟨hplace, hloaded⟩ := hswap.keeps hplace hloaded
      split
      · exact acts_pure _ _
      · exact (acts_observe id _).bind (ih _ hplace hloaded)
    cases current with
    | none => exact (acts_pure payload s).bind (hinstall hplace hloaded payload)
    | some cell =>
      have hnext := hcombine cell.payload payload s
      obtain ⟨hplace, hloaded⟩ := hnext.keeps hplace hloaded
      exact hnext.bind (hinstall hplace hloaded _)

/-- A spine that is touched is in memory. -/
theorem loaded_touch (s : SpineStore) (index : Nat) :
    (touch index s).2.loaded[index]? = some (touch index s).1 := by
  cases hloaded : s.loaded[index]? with
  | none =>
    obtain ⟨spine, medium, permits, htouch, -⟩ := touch_of_not_loaded hloaded
    rw [htouch, Std.ExtTreeMap.getElem?_insert_self]
  | some spine => rw [touch_of_loaded hloaded, hloaded]

/-- Only the store that a computation leaves counts. -/
theorem ActsFrom.of_eq {x : StateM SpineStore α} {y : StateM SpineStore β}
    (hx : ActsFrom addressed x s) (h : (y s).2 = (x s).2) : ActsFrom addressed y s := by
  obtain ⟨events, hevents, hx⟩ := hx
  exact ⟨events, hevents, h.trans hx⟩

/-- A merge for a nid below the first one leaves the store as it is. -/
theorem attempt_mergeM_of_place?_none {nid : Nid} (hplace : s.place? nid = none) (payload : Bytes)
    (combine : Bytes → Bytes → StateM SpineStore Bytes) :
    (Store.attempt (mergeM nid payload combine) s).2 = s := by
  simp only [Store.attempt, mergeM, hplace]

/-- A merge brings a spine into memory, and the rest is left to its attempts. -/
theorem attempt_mergeM_state {nid : Nid} {place : Place} (hplace : s.place? nid = some place)
    (payload : Bytes) (combine : Bytes → Bytes → StateM SpineStore Bytes) :
    (Store.attempt (mergeM nid payload combine) s).2 =
      (attempt place payload combine (touch place.index s).2.maxAttempts
        ((touch place.index s).2.cell? place) (touch place.index s).2).2 := by
  obtain ⟨spine, brought, hbrought⟩ : ∃ spine brought, touch place.index s = (spine, brought) :=
    ⟨_, _, rfl⟩
  simp only [Store.attempt, mergeM, hplace, hbrought]
  cases attempt place payload combine brought.maxAttempts (brought.cell? place) brought with
  | mk installed s =>
    cases installed with
    | none => rfl
    | some payload => rfl

/-- A merge installs payloads for its own nid only, besides what combining does. -/
theorem acts_merge {nid : Nid} (payload : Bytes) {combine : Bytes → Bytes → StateM SpineStore Bytes}
    (hnid : addressed nid) (hcombine : ∀ old new, Acts addressed (combine old new)) :
    Acts addressed (Store.attempt (mergeM nid payload combine)) := by
  intro s
  cases hplace : s.place? nid with
  | none => exact (acts_pure () s).of_eq (attempt_mergeM_of_place?_none hplace payload combine)
  | some place =>
    have htouch : ActsFrom addressed (touch place.index) s :=
      actsFrom_touch (Or.inl (index_lt hplace))
    have hplace' : (touch place.index s).2.place? nid = some place := by
      obtain ⟨events, -, hevents⟩ := htouch
      rw [hevents, place?_after, hplace]
    have hmerge : ActsFrom addressed (do
        let _ ← touch place.index
        fun t => attempt place payload combine t.maxAttempts (t.cell? place) t) s :=
      htouch.bind (actsFrom_attempt hnid hcombine _ _ hplace' (by rw [loaded_touch]; rfl))
    exact hmerge.of_eq (attempt_mergeM_state hplace payload combine)

/-! ## Scans -/

section

variable {stop : σ → Bool} {visit : Nid → Bytes → Scan σ Unit}
  (hvisit : ∀ nid payload state, Acts addressed ((visit nid payload).run state))

include hvisit

/-- What is done at a payload adds to the events. -/
theorem maintains_becomes (s : SpineStore) (nid : Nid) (payload : Bytes) :
    Scan.Maintains (fun _ t => Becomes addressed s t) (visit nid payload) :=
  fun state t h => h.acts (hvisit nid payload state t)

/-- A scan installs nothing. -/
theorem acts_forEachUntil (state : σ) : Acts addressed ((forEachUntil stop visit).run state) :=
  fun s => maintains_forEachUntil (outlastsTouch_becomes s) (maintains_becomes hvisit s) state s
    (becomes_refl s)

/-- A scan by workers installs nothing, whatever the schedule. -/
theorem acts_forEachParallelUntil (workers : Nat) (schedule : List Nat) (state : σ) :
    Acts addressed ((forEachParallelUntil stop visit workers schedule).run state) :=
  fun s => maintains_forEachParallelUntil (outlastsTouch_becomes s) (maintains_becomes hvisit s)
    workers schedule state s (becomes_refl s)

end

/-! ## Writing -/

/-- How far a flush got has no influence on what it writes next. -/
theorem writeOne_state (s : SpineStore) (index : Nat) (p q : Progress) :
    (writeOne index p s).2 = (writeOne index q s).2 := by
  simp only [writeOne]
  split
  · rfl
  · split
    · rfl
    · split
      · rfl
      · split <;> rfl

/-- Writing one spine installs nothing. -/
theorem acts_writeOne (index : Nat) (p : Progress) : Acts addressed (writeOne index p) := by
  intro s
  refine ⟨[.flushed index], by simp, ?_⟩
  simp only [after, List.foldl_cons, List.foldl_nil, Event.happen]
  exact writeOne_state s index p {}

/-- Writing spines installs nothing. -/
theorem acts_writeAll (indices : List Nat) (p : Progress) :
    Acts addressed (writeAll indices p) := by
  induction indices generalizing p with
  | nil => exact acts_pure p
  | cons index indices ih => exact (acts_writeOne index p).bind ih

/-- A write leaves what writing all spines in memory leaves. -/
theorem attempt_write_state (s : SpineStore) :
    (Store.attempt write s).2 = (writeAll s.loaded.keys {} s).2 := by
  simp only [Store.attempt, write]
  cases writeAll s.loaded.keys {} s with
  | mk progress s =>
    obtain ⟨written, failure⟩ := progress
    cases failure with
    | none => rfl
    | some error => rfl

/-- A write installs nothing. -/
theorem acts_write : Acts addressed (Store.attempt write) :=
  fun s => (acts_writeAll s.loaded.keys {} s).of_eq (attempt_write_state s)

/-- An activity changes a store by events that install payloads for addressed nids only. -/
theorem Activity.acts {x : StateM SpineStore α} (h : Activity addressed x) : Acts addressed x := by
  induction h with
  | observe view => exact acts_observe view
  | bind _ _ ihx ihf => exact ihx.bind ihf
  | lookup nid => exact acts_lookup nid
  | merge payload hnid _ ih => exact acts_merge payload hnid ih
  | scan stop state _ ih => exact acts_forEachUntil ih state
  | scanParallel stop state workers schedule _ ih =>
    exact acts_forEachParallelUntil ih workers schedule state
  | write => exact acts_write

/-- Puts a payload in the place of what there is for a nid, and writes. -/
def replaceAndWrite (nid : Nid) (payload : Bytes) : StateM SpineStore Unit := do
  let _ ← Store.attempt (merge nid payload fun _ update => update)
  let _ ← Store.attempt write

/-- Replacing a payload and writing is an activity that addresses the one nid. -/
theorem activity_replaceAndWrite (nid : Nid) (payload : Bytes) :
    Activity (· = nid) (replaceAndWrite nid payload) := by
  refine .bind (.merge payload rfl fun _ update => .observe fun _ => update) fun _ => ?_
  exact .bind .write fun _ => .observe fun _ => ()

end

end Chronicle.SpineStore
