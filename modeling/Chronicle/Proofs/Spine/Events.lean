import Chronicle.Proofs.Spine.Stored

/-!
# Events of a spined store

Whatever is done with a spined store changes it by three kinds of events: a spine comes into memory,
a payload is installed for a nid, or a spine is written. This file says once what each event can do.
A property of every moment of a run is one that holds at the opening and that every event keeps.
-/

namespace Chronicle.SpineStore

/-- Smallest changes of a store that others can observe. -/
inductive Event where
  | touched (index : Nat)
  | installed (nid : Nid) (payload : Bytes)
  | flushed (index : Nat)
  deriving DecidableEq

/-- A store in which an event happens. A spine comes into memory if a nid can lie in it or if there
may be data, and a payload is installed only into a spine in memory. -/
def Event.happen (s : SpineStore) : Event → SpineStore
  | touched index => if index < UInt32.size ∨ s.reaches index then (touch index s).2 else s
  | installed nid payload =>
    match s.place? nid with
    | none => s
    | some place =>
      match s.loaded[place.index]? with
      | none => s
      | some spine =>
        { s with loaded := s.loaded.insert place.index (spine.install place.slot payload) }
  | flushed index => (writeOne index {} s).2

/-- A store in which events happen one after another. -/
def after (s : SpineStore) (events : List Event) : SpineStore :=
  events.foldl Event.happen s

/-- The changes that an event can make. -/
inductive Transition (s : SpineStore) : Event → SpineStore → Prop
  | idle (event : Event) : Transition s event s
  | touched {index : Nat} {spine : Spine} {medium : Medium} {permits : Permits}
      (hloaded : s.loaded[index]? = none) (hindex : index < UInt32.size ∨ s.reaches index = true)
      (hloads : Loads s index spine) (hbacking : medium.backing = s.medium.backing)
      (hready : s.Ready → Ready { s with medium, permits }) :
      Transition s (.touched index) { s with
        medium, permits
        extent := max s.extent (index + 1)
        loaded := s.loaded.insert index spine }
  | installed {nid : Nid} {payload : Bytes} {place : Place} {spine : Spine}
      (hplace : s.place? nid = some place) (hloaded : s.loaded[place.index]? = some spine) :
      Transition s (.installed nid payload)
        { s with loaded := s.loaded.insert place.index (spine.install place.slot payload) }
  | written {index : Nat} {spine : Spine} {medium : Medium} {permits : Permits}
      (hloaded : s.loaded[index]? = some spine) (hchanged : spine.changed = true)
      (hdegraded : spine.degraded = false)
      (hwrite : s.medium.backing.writeSpine index (spine.encode s.spineSize) =
        (.ok (), medium.backing))
      (hready : s.Ready → Ready { s with medium, permits }) :
      Transition s (.flushed index)
        { s with medium, permits, loaded := s.loaded.insert index { spine with changed := false } }
  | failed {index : Nat} {medium : Medium} {permits : Permits}
      (hread : ∀ other, medium.backing.readSpine other = s.medium.backing.readSpine other)
      (hready : s.Ready → Ready { s with medium, permits }) :
      Transition s (.flushed index) { s with medium, permits }

/-- Every outcome of writing a spine is a flush. -/
theorem Flushes.transition {s s' : SpineStore} {index : Nat} {p p' : Progress}
    (h : Flushes s index p p' s') : Transition s (.flushed index) s' := by
  cases h with
  | absent => exact .idle _
  | unchanged => exact .idle _
  | degraded => exact .idle _
  | written hloaded hchanged hdegraded hwrite hready =>
    exact .written hloaded hchanged hdegraded hwrite hready
  | failed hread hready => exact .failed hread hready

/-- Touching a spine that may have data is an event. -/
theorem transition_touch {s : SpineStore} {index : Nat}
    (h : index < UInt32.size ∨ s.reaches index = true) :
    Transition s (.touched index) (touch index s).2 := by
  cases hloaded : s.loaded[index]? with
  | none =>
    obtain ⟨spine, medium, permits, htouch, hloads, hbacking, hready⟩ := touch_of_not_loaded hloaded
    rw [htouch]
    exact .touched hloaded h hloads hbacking hready
  | some spine =>
    rw [touch_of_loaded hloaded]
    exact .idle _

private theorem transition_happen (s : SpineStore) (event : Event) :
    Transition s event (event.happen s) := by
  cases event with
  | touched index =>
    rw [Event.happen]
    split
    · rename_i h
      exact transition_touch h
    · exact .idle _
  | installed nid payload =>
    rw [Event.happen]
    split
    · exact .idle _
    · rename_i place hplace
      split
      · exact .idle _
      · rename_i spine hloaded
        exact .installed hplace hloaded
  | flushed index => exact (writeOne_flushes s index {}).transition

variable {s s' : SpineStore} {event : Event} {events : List Event}

/-- Events happen one part after the other. -/
theorem after_append (s : SpineStore) (first second : List Event) :
    s.after (first ++ second) = (s.after first).after second :=
  List.foldl_append ..

/-- What the opening establishes and every event keeps holds after every run. -/
theorem after_induction {P : List Event → SpineStore → Prop} (hopen : P [] s)
    (hstep : ∀ past s s' event, P past s → Transition s event s' → P (past ++ [event]) s') :
    P events (s.after events) := by
  suffices hrun : ∀ past s, P past s → P (past ++ events) (s.after events) from hrun [] s hopen
  intro past s hpast
  induction events generalizing past s with
  | nil => rwa [List.append_nil]
  | cons event events ih =>
    rw [List.append_cons]
    exact ih _ _ (hstep past s _ event hpast (transition_happen s event))

/-! ## What no event changes -/

/-- No event changes the size of the spines. -/
theorem Transition.spineSize_eq (h : Transition s event s') : s'.spineSize = s.spineSize := by
  cases h <;> rfl

/-- No event changes what was listed. -/
theorem Transition.persisted_eq (h : Transition s event s') : s'.persisted = s.persisted := by
  cases h <;> rfl

/-- No event changes how often a merge may try. -/
theorem Transition.maxAttempts_eq (h : Transition s event s') : s'.maxAttempts = s.maxAttempts := by
  cases h <;> rfl

/-- An entry is inserted under its index and the others stay. -/
theorem getElem?_insert_index {α : Type} (map : Std.ExtTreeMap Nat α) (i j : Nat) (a : α) :
    (map.insert i a)[j]? = if j = i then some a else map[j]? := by
  simp only [Std.ExtTreeMap.getElem?_insert, Nat.compare_eq_eq, eq_comm (a := i)]

private theorem isSome_getElem?_insert {α : Type} {map : Std.ExtTreeMap Nat α} {j : Nat}
    (h : map[j]?.isSome) (i : Nat) (a : α) : (map.insert i a)[j]?.isSome := by
  rw [getElem?_insert_index]
  split
  · rfl
  · exact h

/-- A spine in memory stays there. -/
theorem Transition.loaded_isSome {index : Nat} (h : Transition s event s')
    (hloaded : s.loaded[index]?.isSome) : s'.loaded[index]?.isSome := by
  cases h with
  | idle => exact hloaded
  | failed => exact hloaded
  | touched => exact isSome_getElem?_insert hloaded _ _
  | installed => exact isSome_getElem?_insert hloaded _ _
  | written => exact isSome_getElem?_insert hloaded _ _

/-- Every event keeps a store ready. -/
theorem Transition.ready (h : Transition s event s') (hs : s.Ready) : s'.Ready := by
  cases h with
  | idle => exact hs
  | installed => exact ⟨hs.free, hs.reads⟩
  | touched _ _ _ _ hready => exact ⟨(hready hs).free, (hready hs).reads⟩
  | written _ _ _ _ hready => exact ⟨(hready hs).free, (hready hs).reads⟩
  | failed _ hready => exact ⟨(hready hs).free, (hready hs).reads⟩

/-- A spine that is not in memory is read as before. -/
theorem Transition.readSpine_eq {index : Nat} (h : Transition s event s')
    (hloaded : s'.loaded[index]? = none) :
    s'.medium.backing.readSpine index = s.medium.backing.readSpine index := by
  cases h with
  | idle => rfl
  | installed => rfl
  | touched _ _ _ hbacking => simp only [hbacking]
  | @written other spine _ _ _ _ _ hwrite =>
    refine Backing.readSpine_other hwrite (Or.inl ?_)
    rintro rfl
    rw [Std.ExtTreeMap.getElem?_insert_self] at hloaded
    cases hloaded
  | failed hread => exact hread index

/-- Events leave the size of the spines. -/
theorem spineSize_after (s : SpineStore) (events : List Event) :
    (s.after events).spineSize = s.spineSize :=
  after_induction (P := fun _ t => t.spineSize = s.spineSize) rfl
    fun _ _ _ _ h htransition => htransition.spineSize_eq.trans h

end Chronicle.SpineStore
