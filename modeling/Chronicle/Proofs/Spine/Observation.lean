import Chronicle.Spine.Parallel

/-!
# What scans maintain

A scan brings spines into memory and runs an activity at each payload, and that is all. So whatever
holds of the store and of the state carried along holds after a scan if it outlasts both: that a
spine comes into memory, and that a payload is visited. Looking payloads up needs the first only.
-/

namespace Chronicle.SpineStore

variable {α β σ : Type} {P : σ → SpineStore → Prop}

/-- What holds of a state and a store outlasts that a spine comes into memory where there may be
data. -/
def OutlastsTouch (P : σ → SpineStore → Prop) : Prop :=
  ∀ state s index, s.reaches index = true → P state s → P state (touch index s).2

/-- What outlasts a touch outlasts a look-up. -/
theorem OutlastsTouch.lookup (htouch : OutlastsTouch P) {state : σ} {s : SpineStore} (h : P state s)
    (nid : Nid) : P state (lookup nid s).2 := by
  cases hplace : s.place? nid with
  | none =>
    simp only [SpineStore.lookup, hplace]
    exact h
  | some place =>
    by_cases hreaches : s.reaches place.index = true
    · have htouched := htouch state s place.index hreaches h
      simp only [SpineStore.lookup, hplace, hreaches, if_true]
      exact htouched
    · simp only [SpineStore.lookup, hplace, if_neg hreaches]
      exact h

namespace Scan

/-- What holds of the state carried along and of the store still holds after a scan. -/
def Maintains (P : σ → SpineStore → Prop) (x : Scan σ α) : Prop :=
  ∀ state s, P state s → P (x.run state s).1.2 (x.run state s).2

/-- An answer maintains everything. -/
theorem maintains_pure (a : α) : Maintains P (pure a : Scan σ α) :=
  fun _ _ h => h

/-- What two scans maintain is maintained by one after the other. -/
theorem Maintains.bind {x : Scan σ α} {f : α → Scan σ β} (hx : Maintains P x)
    (hf : ∀ a, Maintains P (f a)) : Maintains P (x >>= f) :=
  fun state s h => hf _ _ _ (hx state s h)

private theorem maintains_getThe_store : Maintains P (getThe SpineStore : Scan σ SpineStore) :=
  fun _ _ h => h

private theorem maintains_getThe_state : Maintains P (getThe σ : Scan σ σ) :=
  fun _ _ h => h

/-- What outlasts a touch is maintained by a look-up. -/
theorem maintains_lookup (htouch : OutlastsTouch P) (nid : Nid) :
    Maintains P (liftM (lookup nid : StateM SpineStore (Option Bytes)) : Scan σ (Option Bytes)) :=
  fun _ _ h => htouch.lookup h nid

end Scan

/-- A scan goes on with the store as it is. -/
theorem run_getThe_store (f : SpineStore → Scan σ α) (state : σ) (s : SpineStore) :
    (getThe SpineStore >>= f).run state s = (f s).run state s :=
  rfl

/-- A scan goes on with the state as it is. -/
theorem run_getThe_state (f : σ → Scan σ α) (state : σ) (s : SpineStore) :
    (getThe σ >>= f).run state s = (f state).run state s :=
  rfl

/-- A scan goes on from where its first part got. -/
theorem run_bind_of_eq {x : Scan σ α} {f : α → Scan σ β} {state state' : σ} {s s' : SpineStore}
    {a : α} (h : x.run state s = ((a, state'), s')) :
    (x >>= f).run state s = (f a).run state' s' := by
  change (match x.run state s with | (answer, t) => (f answer.1).run answer.2 t) = _
  rw [h]

/-- A spine where there may be data is brought into memory before anything else is done with it. -/
theorem maintains_reach (htouch : OutlastsTouch P) {index : Nat} {x y : SpineStore → Scan σ α}
    (hx : ∀ s, Scan.Maintains P (x s)) (hy : ∀ s, Scan.Maintains P (y s)) :
    Scan.Maintains P (do
      let s ← getThe SpineStore
      if s.reaches index then
        let _ ← (touch index : StateM SpineStore Spine)
        x s
      else y s) := by
  intro state s h
  let branch : Scan σ α := if s.reaches index then do
      let _ ← (touch index : StateM SpineStore Spine)
      x s
    else y s
  have hbranch : P (branch.run state s).1.2 (branch.run state s).2 := by
    simp only [branch]
    split
    · rename_i hreaches
      exact hx s state _ (htouch state s index hreaches h)
    · exact hy s state s h
  exact hbranch

section

variable {stop : σ → Bool} {visit : Nid → Bytes → Scan σ Unit}
  (htouch : OutlastsTouch P) (hvisit : ∀ nid payload, Scan.Maintains P (visit nid payload))

include hvisit

private theorem maintains_visitSlots (index n slot : Nat) :
    Scan.Maintains P (visitSlots visit index n slot) := by
  induction n generalizing slot with
  | zero => exact Scan.maintains_pure ()
  | succ n ih =>
    rw [visitSlots]
    refine Scan.maintains_getThe_store.bind fun s => ?_
    dsimp only
    split
    · exact (hvisit _ _).bind fun _ => ih _
    · exact ih _

include htouch

private theorem maintains_visitSpine (index : Nat) : Scan.Maintains P (visitSpine visit index) :=
  maintains_reach htouch (fun s => maintains_visitSlots hvisit index s.spineSize 0) fun _ =>
    Scan.maintains_pure ()

private theorem maintains_visitSpines (n index : Nat) :
    Scan.Maintains P (visitSpines stop visit n index) := by
  induction n generalizing index with
  | zero => exact Scan.maintains_pure ()
  | succ n ih =>
    refine Scan.maintains_getThe_state.bind fun state => ?_
    split
    · exact Scan.maintains_pure ()
    · exact (maintains_visitSpine htouch hvisit index).bind fun _ => ih (index + 1)

/-- What outlasts a touch and every visit holds after a scan. -/
theorem maintains_forEachUntil : Scan.Maintains P (forEachUntil stop visit) :=
  Scan.maintains_getThe_store.bind fun s => maintains_visitSpines htouch hvisit s.spineLimit 0

omit hvisit in
private theorem Crew.maintains_take (crew : Crew) : Scan.Maintains P (crew.take stop) := by
  rw [take]
  split
  · exact Scan.maintains_pure _
  · refine Scan.maintains_getThe_state.bind fun state => ?_
    split
    · exact Scan.maintains_pure _
    · exact maintains_reach htouch (fun _ => Scan.maintains_pure _) fun _ => Scan.maintains_pure _

omit htouch in
private theorem Crew.maintains_proceed (crew : Crew) (worker : Nat) (next : Place) :
    Scan.Maintains P (crew.proceed visit worker next) := by
  refine Scan.maintains_getThe_store.bind fun s => ?_
  split
  · exact (maintains_visitSlots hvisit _ _ _).bind fun _ => Scan.maintains_pure _
  · exact Scan.maintains_pure _

private theorem Crew.maintains_turn (workers choice : Nat) (crew : Crew) :
    Scan.Maintains P (crew.turn stop visit workers choice) := by
  rw [turn]
  split
  · exact Crew.maintains_proceed hvisit _ _ _
  · split
    · exact Crew.maintains_take htouch crew
    · exact Scan.maintains_pure _

private theorem Crew.maintains_follow (workers : Nat) (schedule : List Nat) (crew : Crew) :
    Scan.Maintains P (Crew.follow stop visit workers schedule crew) := by
  induction schedule generalizing crew with
  | nil => exact Scan.maintains_pure _
  | cons choice schedule ih => exact (Crew.maintains_turn htouch hvisit _ _ _).bind ih

omit htouch in
private theorem Crew.maintains_finishTasks (tasks : List Place) :
    Scan.Maintains P (Crew.finishTasks visit tasks) := by
  induction tasks with
  | nil => exact Scan.maintains_pure _
  | cons next tasks ih =>
    refine Scan.maintains_getThe_store.bind fun s => ?_
    exact (maintains_visitSlots hvisit _ _ _).bind fun _ => ih

private theorem Crew.maintains_finishQueue (queue : List Nat) :
    Scan.Maintains P (Crew.finishQueue stop visit queue) := by
  induction queue with
  | nil => exact Scan.maintains_pure _
  | cons index queue ih =>
    refine Scan.maintains_getThe_state.bind fun state => ?_
    split
    · exact Scan.maintains_pure _
    · exact (maintains_visitSpine htouch hvisit index).bind fun _ => ih

/-- What outlasts a touch and every visit holds after a scan by workers, whatever the schedule. -/
theorem maintains_forEachParallelUntil (workers : Nat) (schedule : List Nat) :
    Scan.Maintains P (forEachParallelUntil stop visit workers schedule) := by
  refine Scan.maintains_getThe_store.bind fun s => ?_
  refine (Crew.maintains_follow htouch hvisit _ _ _).bind fun crew => ?_
  exact (Crew.maintains_finishTasks hvisit _).bind fun _ =>
    Crew.maintains_finishQueue htouch hvisit _

end

/-! ## Looking at every payload -/

section

variable {Q : SpineStore → Prop} (htouch : OutlastsTouch fun (_ : Unit) s => Q s)

include htouch

/-- What holds of a store alone outlasts a touch with any state carried along. -/
theorem OutlastsTouch.carried {τ : Type} : OutlastsTouch fun (_ : τ) s => Q s :=
  fun _ s index hreaches h => htouch () s index hreaches h

omit htouch in
private theorem maintains_note (nid : Nid) (payload : Bytes) :
    Scan.Maintains (fun _ s => Q s) (note nid payload) :=
  fun _ _ h => h

/-- What outlasts a touch holds after all entries were listed. -/
theorem OutlastsTouch.entries {s : SpineStore} (h : Q s) : Q (entries s).2 := by
  let never : List (Nid × Bytes) → Bool := fun _ => false
  have hscan : Scan.Maintains (fun _ s => Q s) (forEachUntil never note) :=
    maintains_forEachUntil (OutlastsTouch.carried htouch) maintains_note
  exact hscan [] s h

/-- What outlasts a touch holds after workers listed all entries. -/
theorem OutlastsTouch.entriesParallel {s : SpineStore} (h : Q s) (workers : Nat)
    (schedule : List Nat) : Q (entriesParallel workers schedule s).2 := by
  let never : List (Nid × Bytes) → Bool := fun _ => false
  have hscan : Scan.Maintains (fun _ s => Q s)
      (forEachParallelUntil never note workers schedule) :=
    maintains_forEachParallelUntil (OutlastsTouch.carried htouch) maintains_note workers schedule
  exact hscan [] s h

end

end Chronicle.SpineStore
