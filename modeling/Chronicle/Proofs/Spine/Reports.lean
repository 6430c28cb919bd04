import Chronicle.Proofs.Spine.Coherence
import Chronicle.Proofs.Spine.Observation

/-!
# What scans report

A scan comes to every slot of each spine where there may be data, and reports what lies there at
this moment under the nid that has the slot. This file proves both at once, for scans with one
worker or several. Two actions that do the same wherever they are told the truth make two scans that
do the same. And what holds when a slot is still to be visited becomes what holds when it was.
-/

namespace Chronicle.SpineStore

variable {α β σ : Type} {s t u : SpineStore} {size index : Nat} {indices : List Nat}

/-! ## Stores in which nothing is lost -/

/-- Spines keep their number of slots, and those that can be reached stay so. -/
structure Stays (s t : SpineStore) : Prop where
  spineSize_eq : t.spineSize = s.spineSize
  reaches : ∀ index, s.reaches index = true → t.reaches index = true

/-- Nothing is lost over two stretches. -/
theorem Stays.trans (h : Stays s t) (h' : Stays t u) : Stays s u :=
  ⟨h'.spineSize_eq.trans h.spineSize_eq, fun index hs => h'.reaches index (h.reaches index hs)⟩

/-- Nothing is lost by an event. -/
theorem Transition.stays {event : Event} (h : Transition s event t) : Stays s t :=
  ⟨h.spineSize_eq, fun _ => h.reaches⟩

/-- Nothing is lost, whatever happens. -/
theorem stays_after (s : SpineStore) (events : List Event) : Stays s (s.after events) :=
  after_induction (P := fun _ t => Stays s t) ⟨rfl, fun _ => id⟩
    fun _ _ _ _ h htransition => h.trans htransition.stays

/-- Spines have so many slots, and some of them can be reached. -/
def Reached (size : Nat) (indices : List Nat) (s : SpineStore) : Prop :=
  s.spineSize = size ∧ ∀ index ∈ indices, s.reaches index = true

private theorem Reached.of_subset {others : List Nat} (h : s.Reached size indices)
    (hsubset : others ⊆ indices) : s.Reached size others :=
  ⟨h.1, fun index hindex => h.2 index (hsubset hindex)⟩

private theorem Reached.stays (h : s.Reached size indices) (hstays : Stays s t) :
    t.Reached size indices :=
  ⟨hstays.spineSize_eq.trans h.1, fun index hindex => hstays.reaches index (h.2 index hindex)⟩

/-- A spine that is brought into memory can be reached from then on. -/
theorem Reached.touch (h : s.Reached size indices) (hreaches : s.reaches index = true) :
    (touch index s).2.Reached size (index :: indices) := by
  have hstays := (transition_touch (Or.inr hreaches)).stays
  refine ⟨(h.stays hstays).1, fun other hother => ?_⟩
  obtain rfl | hother := List.mem_cons.mp hother
  · exact hstays.reaches other hreaches
  · exact (h.stays hstays).2 other hother

/-! ## Scans that do the same -/

/-- Wherever something holds of the state carried along and of the store, two scans do the same, and
then something else holds. -/
def Agree (P : σ → SpineStore → Prop) (x y : Scan σ α) (Q : α → σ → SpineStore → Prop) : Prop :=
  ∀ state s, P state s → x.run state s = y.run state s ∧
    Q (x.run state s).1.1 (x.run state s).1.2 (x.run state s).2

section

variable {P P' : σ → SpineStore → Prop} {Q Q' : α → σ → SpineStore → Prop}
  {R : β → σ → SpineStore → Prop} {x y : Scan σ α} {f g : α → Scan σ β}

private theorem agree_pure {a : α} (h : ∀ state s, P state s → Q a state s) :
    Agree P (pure a : Scan σ α) (pure a) Q :=
  fun state s hs => ⟨rfl, h state s hs⟩

/-- Scans that agree go on in agreement where what follows agrees. -/
theorem Agree.bind (hx : Agree P x y Q) (hf : ∀ a, Agree (Q a) (f a) (g a) R) :
    Agree P (x >>= f) (y >>= g) R := by
  intro state s hs
  obtain ⟨heq, hQ⟩ := hx state s hs
  obtain ⟨heq', hR⟩ := hf _ _ _ hQ
  refine ⟨?_, hR⟩
  change (f (x.run state s).1.1).run (x.run state s).1.2 (x.run state s).2 =
    (g (y.run state s).1.1).run (y.run state s).1.2 (y.run state s).2
  rw [← heq, heq']

private theorem Agree.mono (h : Agree P x y Q) (hP : ∀ state s, P' state s → P state s)
    (hQ : ∀ a state s, Q a state s → Q' a state s) : Agree P' x y Q' :=
  fun state s hs => ⟨(h state s (hP state s hs)).1, hQ _ _ _ (h state s (hP state s hs)).2⟩

private theorem agree_getThe_store :
    Agree P (getThe SpineStore : Scan σ SpineStore) (getThe SpineStore)
      fun a state s => a = s ∧ P state s :=
  fun _ _ hs => ⟨rfl, rfl, hs⟩

private theorem agree_getThe_state :
    Agree P (getThe σ : Scan σ σ) (getThe σ) fun a state s => a = state ∧ P state s :=
  fun _ _ hs => ⟨rfl, rfl, hs⟩

end

/-! ## Slots that are still to be visited -/

/-- Two actions do the same wherever a payload is reported under the nid that has its slot. On the
way a property is kept that depends on whether one certain slot is still to be visited, which it is
not once it was visited, was found without a nid or a payload, or cannot be reached. -/
structure Tracks (target : Place) (P : Prop → σ → SpineStore → Prop)
    (visit visit' : Nid → Bytes → Scan σ Unit) : Prop where
  mono : ∀ {left more : Prop} {state s}, (left → more) → P left state s → P more state s
  touch : ∀ left, OutlastsTouch (P left)
  visit : ∀ {left nid place cell state s}, P left state s → s.place? nid = some place →
    s.reaches place.index = true → s.cell? place = some cell →
    (visit nid cell.payload).run state s = (visit' nid cell.payload).run state s ∧
      P (left ∧ place ≠ target) ((visit nid cell.payload).run state s).1.2
        ((visit nid cell.payload).run state s).2 ∧
      Stays s ((visit nid cell.payload).run state s).2
  empty : ∀ {left state s}, P left state s → target.slot < s.spineSize →
    s.cell? target = none ∨ s.nidAt? target = none → P False state s
  unreached : ∀ {left state s}, P left state s → ¬ s.reaches target.index = true → P False state s

namespace Tracks

variable {target : Place} {P : Prop → σ → SpineStore → Prop} {stop : σ → Bool}
  {visit visit' : Nid → Bytes → Scan σ Unit} {left : Prop}

/-- The slot is still to be visited or not, and some spines can be reached. -/
def On (P : Prop → σ → SpineStore → Prop) (size : Nat) (indices : List Nat) (left : Prop)
    (state : σ) (s : SpineStore) : Prop :=
  P left state s ∧ s.Reached size indices

/-- When the store is read, its number of slots is known. -/
theorem agree_sized {Q : α → σ → SpineStore → Prop} {x y : SpineStore → Scan σ α}
    (hx : ∀ s, s.spineSize = size → Agree (On P size indices left) (x s) (y s) Q) :
    Agree (On P size indices left) (getThe SpineStore >>= x) (getThe SpineStore >>= y) Q :=
  fun state s hs => hx s hs.2.1 state s hs

variable (h : Tracks target P visit visit')

include h

private theorem on_mono {others : List Nat} {more : Prop} (hleft : left → more)
    (hsubset : others ⊆ indices) (state : σ) (s : SpineStore)
    (hs : On P size indices left state s) : On P size others more state s :=
  ⟨h.mono hleft hs.1, hs.2.of_subset hsubset⟩

/-- What a slot holds is reported under the nid that has the slot, before the scan goes on. -/
theorem agree_visitSlot {slot : Nat} {x y : Scan σ α} {Q : α → σ → SpineStore → Prop}
    (hindex : index ∈ indices) (hslot : slot < size) (s : SpineStore)
    (hrest : Agree (On P size indices (left ∧ { index, slot } ≠ target)) x y Q) :
    Agree (fun state t => s = t ∧ On P size indices left state t)
      (match s.cell? { index, slot }, s.nidAt? { index, slot } with
        | some cell, some nid => visit nid cell.payload >>= fun _ => x
        | _, _ => x)
      (match s.cell? { index, slot }, s.nidAt? { index, slot } with
        | some cell, some nid => visit' nid cell.payload >>= fun _ => y
        | _, _ => y) Q := by
  rintro state _ ⟨rfl, hs, hreached⟩
  have hwithin : slot < s.spineSize := by rwa [hreached.1]
  have hempty (hnone : s.cell? { index, slot } = none ∨ s.nidAt? { index, slot } = none) :
      On P size indices (left ∧ { index, slot } ≠ target) state s := by
    refine ⟨?_, hreached⟩
    by_cases htarget : { index, slot } = target
    · subst htarget
      exact h.mono False.elim (h.empty hs hwithin hnone)
    · exact h.mono (fun hleft => ⟨hleft, htarget⟩) hs
  cases hcell : s.cell? { index, slot } with
  | none => exact hrest state s (hempty (Or.inl hcell))
  | some cell =>
    cases hnid : s.nidAt? { index, slot } with
    | none => exact hrest state s (hempty (Or.inr hnid))
    | some nid =>
      have hplace : s.place? nid = some { index, slot } :=
        (place?_eq_some_iff (Nat.zero_lt_of_lt hwithin)).mpr ⟨hwithin, hnid⟩
      have hvisit : Agree (fun later t => state = later ∧ s = t) (visit nid cell.payload)
          (visit' nid cell.payload)
          fun _ => On P size indices (left ∧ { index, slot } ≠ target) := by
        rintro _ _ ⟨rfl, rfl⟩
        obtain ⟨heq, hafter, hstays⟩ := h.visit hs hplace (hreached.2 index hindex) hcell
        exact ⟨heq, hafter, hreached.stays hstays⟩
      exact (hvisit.bind fun _ => hrest) state s ⟨rfl, rfl⟩

/-- Both actions do the same at the slots of a spine, after which the target is visited if it was
among them. -/
theorem agree_visitSlots (hindex : index ∈ indices) (n slot : Nat)
    (hslot : ∀ k < n, slot + k < size) :
    Agree (On P size indices left) (visitSlots visit index n slot)
      (visitSlots visit' index n slot) fun _ => On P size indices
        (left ∧ ¬ (target.index = index ∧ slot ≤ target.slot ∧ target.slot < slot + n)) := by
  induction n generalizing slot left with
  | zero =>
    exact agree_pure (h.on_mono (fun hleft => ⟨hleft, by omega⟩) fun _ => id)
  | succ n ih =>
    have hfirst : slot < size := hslot 0 (Nat.succ_pos n)
    have hlater (k : Nat) (hk : k < n) : slot + 1 + k < size := by
      have := hslot (k + 1) (by omega)
      omega
    have hdone : ((left ∧ { index, slot } ≠ target) ∧
          ¬ (target.index = index ∧ slot + 1 ≤ target.slot ∧ target.slot < slot + 1 + n)) →
        left ∧ ¬ (target.index = index ∧ slot ≤ target.slot ∧ target.slot < slot + (n + 1)) := by
      rintro ⟨⟨hleft, hne⟩, hnot⟩
      refine ⟨hleft, fun ⟨hsame, hle, hlt⟩ => ?_⟩
      by_cases hself : target.slot = slot
      · exact hne (by rw [← hsame, ← hself])
      · exact hnot ⟨hsame, by omega, by omega⟩
    have hrest := (ih (slot + 1) hlater).mono (fun _ _ => id) fun _ => h.on_mono hdone fun _ => id
    rw [visitSlots, visitSlots]
    exact agree_getThe_store.bind fun s => h.agree_visitSlot hindex hfirst s hrest

/-- A spine that is not brought into memory because it cannot be reached has no slot that is still
to be visited. -/
theorem agree_reach (index : Nat) {Q : α → σ → SpineStore → Prop}
    {x x' y y' : SpineStore → Scan σ α}
    (hx : ∀ s, s.spineSize = size →
      Agree (On P size (index :: indices) left) (x s) (x' s) Q)
    (hy : ∀ s, Agree (On P size indices (left ∧ target.index ≠ index)) (y s) (y' s) Q) :
    Agree (On P size indices left)
      (do
        let s ← getThe SpineStore
        if s.reaches index then
          let _ ← (SpineStore.touch index : StateM SpineStore Spine)
          x s
        else y s)
      (do
        let s ← getThe SpineStore
        if s.reaches index then
          let _ ← (SpineStore.touch index : StateM SpineStore Spine)
          x' s
        else y' s) Q := by
  refine agree_getThe_store.bind fun s => ?_
  rintro state _ ⟨rfl, hs, hreached⟩
  split
  · rename_i hreaches
    exact hx s hreached.1 state _ ⟨h.touch left state s index hreaches hs, hreached.touch hreaches⟩
  · rename_i hreaches
    refine hy s state s ⟨?_, hreached⟩
    by_cases hsame : target.index = index
    · exact h.mono False.elim (h.unreached hs (hsame ▸ hreaches))
    · exact h.mono (fun hleft => ⟨hleft, hsame⟩) hs

variable (htarget : target.slot < size) {excuse : Prop}
  (hstop : ∀ state, stop state = true → excuse)

include htarget

/-- Both actions do the same at a spine, after which the target is visited if it lay there. -/
theorem agree_visitSpine (index : Nat) :
    Agree (On P size indices left) (visitSpine visit index) (visitSpine visit' index)
      fun _ => On P size indices (left ∧ target.index ≠ index) := by
  refine h.agree_reach index (fun s hsize => ?_) fun _ => agree_pure fun _ _ => id
  refine (h.agree_visitSlots List.mem_cons_self s.spineSize 0 (by omega)).mono (fun _ _ => id)
    fun _ => h.on_mono (fun ⟨hleft, hnot⟩ => ⟨hleft, fun hsame => ?_⟩) (List.subset_cons_self ..)
  exact hnot ⟨hsame, Nat.zero_le _, by omega⟩

include hstop

/-- A slot of a spine that a scan goes through was visited, unless there is an excuse for stopping.
-/
theorem agree_visitSpines (n index : Nat) :
    Agree (On P size indices left) (visitSpines stop visit n index)
      (visitSpines stop visit' n index) fun _ => On P size indices
        (left ∧ (excuse ∨ ¬ (index ≤ target.index ∧ target.index < index + n))) := by
  induction n generalizing index left with
  | zero =>
    exact agree_pure (h.on_mono (fun hleft => ⟨hleft, Or.inr (by omega)⟩) fun _ => id)
  | succ n ih =>
    refine agree_getThe_state.bind fun state => ?_
    split
    · rename_i htold
      exact agree_pure fun later s hs =>
        h.on_mono (fun hleft => ⟨hleft, Or.inl (hstop state htold)⟩) (fun _ => id) later s hs.2
    · refine ((h.agree_visitSpine htarget index).bind fun _ => ih (index + 1)).mono
        (fun _ _ hs => hs.2) fun _ => h.on_mono ?_ fun _ => id
      rintro ⟨⟨hleft, hne⟩, hexcuse | hnot⟩
      · exact ⟨hleft, Or.inl hexcuse⟩
      · exact ⟨hleft, Or.inr fun ⟨hle, hlt⟩ => hnot ⟨by omega, by omega⟩⟩

/-! ### Workers -/

/-- A crew has still to come to a slot. -/
def Awaits (target : Place) (crew : Crew) : Prop :=
  target.index ∈ crew.queue ∨
    ∃ next ∈ crew.tasks, next.index = target.index ∧ next.slot ≤ target.slot

/-- The spines that are handed out can be reached, and the slot is still to be visited only if the
crew has still to come to it or there is an excuse. -/
def Manned (P : Prop → σ → SpineStore → Prop) (size : Nat) (excuse : Prop) (target : Place)
    (crew : Crew) : σ → SpineStore → Prop :=
  On P size (crew.tasks.map Place.index) (excuse ∨ Awaits target crew)

omit htarget in
private theorem agree_take (crew : Crew) :
    Agree (Manned P size excuse target crew) (crew.take (σ := σ) stop) (crew.take stop)
      fun crew => Manned P size excuse target crew := by
  obtain ⟨queue, tasks⟩ := crew
  cases queue with
  | nil => exact agree_pure fun _ _ => id
  | cons index queue =>
    simp only [Crew.take]
    refine agree_getThe_state.bind fun state => ?_
    split
    · rename_i htold
      exact agree_pure fun later s hs =>
        h.on_mono (fun _ => Or.inl (hstop state htold)) (fun _ => id) later s hs.2
    · have hqueue (hleft : excuse ∨ Awaits target { queue := index :: queue, tasks }) :
          target.index = index ∨ excuse ∨ Awaits target { queue, tasks } := by
        obtain hexcuse | hmem | htask := hleft
        · exact Or.inr (Or.inl hexcuse)
        · obtain hsame | hmem := List.mem_cons.mp hmem
          · exact Or.inl hsame
          · exact Or.inr (Or.inr (Or.inl hmem))
        · exact Or.inr (Or.inr (Or.inr htask))
      refine Agree.mono (P := On P size (tasks.map Place.index) _)
        (h.agree_reach index (fun s hsize => ?_) fun s => ?_) (fun _ _ hs => hs.2)
        fun _ _ _ => id
      · refine agree_pure fun state s hs => h.on_mono (fun hleft => ?_) ?_ state s hs
        · obtain hnew | hexcuse | hmem | ⟨next, hnext, hrest⟩ := hqueue hleft
          · exact Or.inr (Or.inr ⟨{ index, slot := 0 }, by simp, hnew.symm, Nat.zero_le _⟩)
          · exact Or.inl hexcuse
          · exact Or.inr (Or.inl hmem)
          · exact Or.inr (Or.inr ⟨next, List.mem_append_left _ hnext, hrest⟩)
        · simp
      · refine agree_pure (h.on_mono ?_ fun _ => id)
        rintro ⟨hleft, hne⟩
        exact (hqueue hleft).resolve_left hne

omit hstop in
private theorem agree_proceed {crew : Crew} {worker : Nat} {next : Place}
    (hnext : crew.tasks[worker]? = some next) :
    Agree (Manned P size excuse target crew) (crew.proceed visit worker next)
      (crew.proceed visit' worker next) fun crew => Manned P size excuse target crew := by
  obtain ⟨queue, tasks⟩ := crew
  obtain ⟨hworker, hget⟩ := List.getElem?_eq_some_iff.mp hnext
  have hindex : next.index ∈ tasks.map Place.index :=
    List.mem_map.mpr ⟨next, List.mem_of_getElem? hnext, rfl⟩
  have hothers : ∀ task ∈ tasks, task = next ∨ task ∈ tasks.eraseIdx worker := by
    intro task htask
    have hperm := List.getElem_cons_eraseIdx_perm hworker
    rw [hget] at hperm
    exact List.mem_cons.mp (hperm.mem_iff.mpr htask)
  refine agree_sized fun s hsize => ?_
  split
  · have hset : ∀ task ∈ tasks.eraseIdx worker,
        task ∈ tasks.set worker { next with slot := next.slot + 1 } := by
      intro task htask
      rw [← List.eraseIdx_set_eq (a := { next with slot := next.slot + 1 })] at htask
      exact List.mem_of_mem_eraseIdx htask
    refine (h.agree_visitSlots hindex 1 next.slot (by omega)).bind fun _ =>
      agree_pure (h.on_mono ?_ ?_)
    · rintro ⟨hexcuse | hmem | ⟨task, htask, hsame, hle⟩, hnot⟩
      · exact Or.inl hexcuse
      · exact Or.inr (Or.inl hmem)
      · refine Or.inr (Or.inr ?_)
        obtain rfl | htask := hothers task htask
        · exact ⟨_, List.mem_set hworker _, hsame, by simp only; omega⟩
        · exact ⟨task, hset task htask, hsame, hle⟩
    · intro index hmem
      rw [List.map_set] at hmem
      obtain hmem | rfl := List.mem_or_eq_of_mem_set hmem
      · exact hmem
      · exact hindex
  · refine agree_pure (h.on_mono ?_ (List.map_subset _ (List.eraseIdx_subset ..)))
    rintro (hexcuse | hmem | ⟨task, htask, hsame, hle⟩)
    · exact Or.inl hexcuse
    · exact Or.inr (Or.inl hmem)
    · obtain rfl | htask := hothers task htask
      · omega
      · exact Or.inr (Or.inr ⟨task, htask, hsame, hle⟩)

private theorem agree_turn (workers choice : Nat) (crew : Crew) :
    Agree (Manned P size excuse target crew) (crew.turn stop visit workers choice)
      (crew.turn stop visit' workers choice) fun crew => Manned P size excuse target crew := by
  rw [Crew.turn, Crew.turn]
  split
  · rename_i hnext
    exact h.agree_proceed htarget hnext
  · split
    · exact h.agree_take hstop crew
    · exact agree_pure fun _ _ => id

/-- Both actions do the same while a crew follows its schedule. -/
theorem agree_follow (workers : Nat) (schedule : List Nat) (crew : Crew) :
    Agree (Manned P size excuse target crew) (Crew.follow stop visit workers schedule crew)
      (Crew.follow stop visit' workers schedule crew)
      fun crew => Manned P size excuse target crew := by
  induction schedule generalizing crew with
  | nil => exact agree_pure fun _ _ => id
  | cons choice schedule ih => exact (h.agree_turn htarget hstop workers choice crew).bind ih

omit hstop in
private theorem agree_finishTasks (queue : List Nat) (tasks : List Place) :
    Agree (Manned P size excuse target { queue, tasks }) (Crew.finishTasks visit tasks)
      (Crew.finishTasks visit' tasks)
      fun _ => On P size [] (excuse ∨ target.index ∈ queue) := by
  induction tasks with
  | nil =>
    refine agree_pure (h.on_mono ?_ fun _ => id)
    rintro (hexcuse | hmem | ⟨_, hnone, -⟩)
    · exact Or.inl hexcuse
    · exact Or.inr hmem
    · cases hnone
  | cons next tasks ih =>
    refine agree_sized fun s hsize => ?_
    refine (h.agree_visitSlots List.mem_cons_self _ next.slot (by omega)).bind fun _ =>
      ih.mono (h.on_mono ?_ (List.subset_cons_self ..)) fun _ _ _ => id
    rintro ⟨hexcuse | hmem | ⟨task, htask, hsame, hle⟩, hnot⟩
    · exact Or.inl hexcuse
    · exact Or.inr (Or.inl hmem)
    · obtain rfl | htask := List.mem_cons.mp htask
      · exact absurd ⟨hsame.symm, hle, by omega⟩ hnot
      · exact Or.inr (Or.inr ⟨task, htask, hsame, hle⟩)

private theorem agree_finishQueue (queue : List Nat) :
    Agree (On P size [] (excuse ∨ target.index ∈ queue))
      (Crew.finishQueue stop visit queue) (Crew.finishQueue stop visit' queue)
      fun _ => On P size [] excuse := by
  induction queue with
  | nil => exact agree_pure (h.on_mono (fun hleft => hleft.resolve_right (by simp)) fun _ => id)
  | cons index queue ih =>
    refine agree_getThe_state.bind fun state => ?_
    split
    · rename_i htold
      exact agree_pure fun later s hs =>
        h.on_mono (fun _ => hstop state htold) (fun _ => id) later s hs.2
    · refine ((h.agree_visitSpine htarget index).bind fun _ => ih.mono (h.on_mono ?_ fun _ => id)
        fun _ _ _ => id).mono (fun _ _ hs => hs.2) fun _ _ _ => id
      rintro ⟨hexcuse | hmem, hne⟩
      · exact Or.inl hexcuse
      · exact Or.inr ((List.mem_cons.mp hmem).resolve_left hne)

omit hstop

variable {state : σ} {s : SpineStore} (hsize : s.spineSize = size) (hs : P True state s)

include hsize hs

/-- The scans do the same, and a slot of a spine below the limit was visited in the end unless
something can stop them. -/
theorem forEachUntil :
    (SpineStore.forEachUntil stop visit).run state s =
        (SpineStore.forEachUntil stop visit').run state s ∧
      P ((∃ state, stop state = true) ∨ ¬ target.index < s.spineLimit)
        ((SpineStore.forEachUntil stop visit).run state s).1.2
        ((SpineStore.forEachUntil stop visit).run state s).2 := by
  let excuse := ∃ state, stop state = true
  have hspines : Agree (On P size [] True) (visitSpines stop visit s.spineLimit 0)
      (visitSpines stop visit' s.spineLimit 0) fun _ => On P size []
        (True ∧ (excuse ∨ ¬ (0 ≤ target.index ∧ target.index < 0 + s.spineLimit))) :=
    h.agree_visitSpines htarget (fun state htold => ⟨state, htold⟩) s.spineLimit 0
  obtain ⟨heq, hafter, -⟩ := hspines state s ⟨hs, hsize, by simp⟩
  refine ⟨heq, h.mono (fun ⟨_, hmay⟩ => hmay.imp_right fun hnot hlt => ?_) hafter⟩
  exact hnot ⟨Nat.zero_le _, by omega⟩

/-- So it is with workers, however they take turns. -/
theorem forEachParallelUntil (workers : Nat) (schedule : List Nat) :
    (SpineStore.forEachParallelUntil stop visit workers schedule).run state s =
        (SpineStore.forEachParallelUntil stop visit' workers schedule).run state s ∧
      P ((∃ state, stop state = true) ∨ ¬ target.index < s.spineLimit)
        ((SpineStore.forEachParallelUntil stop visit workers schedule).run state s).1.2
        ((SpineStore.forEachParallelUntil stop visit workers schedule).run state s).2 := by
  let excuse := (∃ state, stop state = true) ∨ ¬ target.index < s.spineLimit
  have hstop (state : σ) (htold : stop state = true) : excuse := Or.inl ⟨state, htold⟩
  have hcrew := h.agree_follow htarget hstop workers schedule
    { queue := List.range s.spineLimit, tasks := [] }
  have hrest (crew : Crew) := (h.agree_finishTasks htarget crew.queue crew.tasks).bind
    fun _ => h.agree_finishQueue htarget hstop crew.queue
  have hstart : excuse ∨ Awaits target { queue := List.range s.spineLimit, tasks := [] } := by
    by_cases hlimit : target.index < s.spineLimit
    · exact Or.inr (Or.inl (List.mem_range.mpr hlimit))
    · exact Or.inl (Or.inr hlimit)
  obtain ⟨heq, hafter, -⟩ := (hcrew.bind hrest) state s
    ⟨h.mono (fun _ => hstart) hs, hsize, by simp⟩
  exact ⟨heq, hafter⟩

/-- A scan that nothing stops has visited the slot in the end. -/
theorem forEach (hlimit : target.index < s.spineLimit) :
    P False ((SpineStore.forEach visit).run state s).1.2
      ((SpineStore.forEach visit).run state s).2 :=
  h.mono (by simp [hlimit]) (h.forEachUntil htarget hsize hs).2

/-- After a scan by workers that comes to the spine of the target, the target was visited. -/
theorem forEachParallel (hlimit : target.index < s.spineLimit) (workers : Nat)
    (schedule : List Nat) :
    P False ((SpineStore.forEachParallel visit workers schedule).run state s).1.2
      ((SpineStore.forEachParallel visit workers schedule).run state s).2 :=
  h.mono (by simp [hlimit]) (h.forEachParallelUntil htarget hsize hs workers schedule).2

end Tracks

end Chronicle.SpineStore
