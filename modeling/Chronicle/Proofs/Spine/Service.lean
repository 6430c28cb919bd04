import Chronicle.Proofs.Spine.Activity
import Chronicle.Proofs.Spine.Coherence

/-!
# What a store serves

As long as blobs can be read, a store serves one payload or none for each nid, whether the spine of
the nid is in memory, was listed and not read yet, or does not exist. Only a merge changes what it
serves, and only for its nid.
-/

namespace Chronicle.SpineStore

variable {s s' : SpineStore} {event : Event} {content : Nid → Option Bytes} {nid : Nid}
  {place : Place}

/-- What memory has at a place, or the medium if the spine is not in memory. -/
def held? (s : SpineStore) (place : Place) : Option Bytes :=
  match s.loaded[place.index]? with
  | some spine => spine.payload? place.slot
  | none => s.medium.payload? s.spineSize place

/-- Blobs that are still to be read can be read, and what is held for each nid is what is to be
served. -/
structure Serves (s : SpineStore) (content : Nid → Option Bytes) : Prop where
  coherent : s.Coherent
  ready : ∀ index, s.loaded[index]? = none → (s.medium.backing.blob? index).isSome → s.Ready
  size_pos : 0 < s.spineSize
  attempts_pos : 0 < s.maxAttempts
  held : ∀ nid place, s.place? nid = some place → s.held? place = content nid
  absent : ∀ nid, s.place? nid = none → content nid = none

/-- Of a spine in memory its payloads are held. -/
theorem held?_of_loaded {spine : Spine} (h : s.loaded[place.index]? = some spine) :
    s.held? place = spine.payload? place.slot := by
  simp only [held?, h]

/-- Of a spine that is not in memory the medium holds what there is. -/
theorem held?_of_not_loaded (h : s.loaded[place.index]? = none) :
    s.held? place = s.medium.payload? s.spineSize place := by
  simp only [held?, h]

/-- An event that installs nothing changes nothing that is held. -/
theorem Serves.held?_eq (h : s.Serves content) (htransition : Transition s event s')
    (hevent : ∀ nid payload, event ≠ .installed nid payload) (place : Place) :
    s'.held? place = s.held? place := by
  cases htransition with
  | idle => rfl
  | @touched index spine _ _ hloaded hindex hloads hbacking =>
    by_cases heq : place.index = index
    · subst heq
      rw [held?_of_loaded Std.ExtTreeMap.getElem?_insert_self, held?_of_not_loaded hloaded]
      exact hloads.payload?_eq h.coherent hloaded (h.coherent.addressable_of_reaches hindex)
        (h.ready _ hloaded) place.slot
    · simp only [held?, getElem?_insert_index, if_neg heq, Medium.payload?, hbacking]
  | installed => exact absurd rfl (hevent _ _)
  | @written index spine _ _ hloaded _ _ hwrite =>
    by_cases heq : place.index = index
    · subst heq
      rw [held?_of_loaded Std.ExtTreeMap.getElem?_insert_self, held?_of_loaded hloaded]
      rfl
    · simp only [held?, getElem?_insert_index, if_neg heq, Medium.payload?,
        Backing.blob?_of_writeSpine hwrite]
  | failed hread => simp only [held?, Medium.payload?, Backing.blob?, hread]

/-- Every event but an install keeps what is served. -/
theorem Serves.transition (h : s.Serves content) (htransition : Transition s event s')
    (hevent : ∀ nid payload, event ≠ .installed nid payload) : s'.Serves content := by
  have hplace (nid : Nid) : s'.place? nid = s.place? nid :=
    place?_congr htransition.spineSize_eq nid
  refine ⟨h.coherent.transition h.size_pos htransition, fun index hloaded hblob => ?_,
    htransition.spineSize_eq ▸ h.size_pos, htransition.maxAttempts_eq ▸ h.attempts_pos,
    fun nid place hnid => ?_, fun nid hnid => ?_⟩
  · have hbefore : s.loaded[index]? = none := by
      cases hspine : s.loaded[index]? with
      | none => rfl
      | some spine =>
        have hisSome := htransition.loaded_isSome (by rw [hspine]; rfl)
        rw [hloaded] at hisSome
        cases hisSome
    rw [Backing.blob?, htransition.readSpine_eq hloaded] at hblob
    exact htransition.ready (h.ready index hbefore hblob)
  · rw [h.held?_eq htransition hevent]
    exact h.held nid place (hplace nid ▸ hnid)
  · exact h.absent nid (hplace nid ▸ hnid)

/-- A store that was opened over a healthy medium serves what the medium stores. -/
theorem serves_ofMedium {medium : Medium} {size permits attempts : Nat} (hhealthy : medium.Healthy)
    (hsize : 0 < size) (hpermits : 0 < permits) (hattempts : 0 < attempts) :
    (ofMedium medium size permits attempts).Serves (medium.stored size) := by
  obtain ⟨indices, hlisting, -⟩ := hhealthy.listing
  refine ⟨coherent_ofMedium size permits attempts hlisting,
    fun _ _ _ => ⟨hpermits, hhealthy.reads⟩, hsize, hattempts, fun nid place hplace => ?_,
    fun nid hplace => ?_⟩
  · rw [held?_of_not_loaded Std.ExtTreeMap.getElem?_empty]
    exact (stored_of_place? hplace).symm
  · exact stored_of_place?_none hplace

/-- A store that was opened over a medium without blobs serves nothing, whatever fails there. -/
theorem serves_of_blank {medium : Medium} {size permits attempts : Nat}
    (hblank : ∀ index, medium.backing.blob? index = none) (hsize : 0 < size)
    (hattempts : 0 < attempts) :
    (ofMedium medium size permits attempts).Serves fun _ => none := by
  have hblob (index : Nat) :
      (ofMedium medium size permits attempts).medium.backing.blob? index = none := hblank index
  have hloaded (index : Nat) : (ofMedium medium size permits attempts).loaded[index]? = none :=
    Std.ExtTreeMap.getElem?_empty
  refine ⟨⟨fun index spine hspine => ?_, fun index spine hspine => ?_, fun index hextent => ?_,
    fun index _ _ _ => hblob index⟩, fun index _ hsome => ?_, hsize, hattempts,
    fun nid place _ => ?_, fun _ _ => rfl⟩
  · rw [hloaded] at hspine
    cases hspine
  · rw [hloaded] at hspine
    cases hspine
  · exact absurd hextent (Nat.not_lt_zero index)
  · rw [hblob] at hsome
    cases hsome
  · rw [held?_of_not_loaded (hloaded _), Medium.payload?_of_none (hblob _)]

/-- A store that obeys the rules and can be read serves what it holds. -/
theorem Coherent.serves (h : s.Coherent) (hready : s.Ready) (hsize : 0 < s.spineSize)
    (hattempts : 0 < s.maxAttempts) : s.Serves fun nid => (s.place? nid).bind s.held? := by
  refine ⟨h, fun _ _ _ => hready, hsize, hattempts, fun nid place hplace => ?_,
    fun nid hplace => ?_⟩
  · rw [hplace, Option.bind_some]
  · rw [hplace, Option.bind_none]

/-- An access that leaves every blob as it is changes nothing that is served. -/
theorem Serves.accessed {medium : Medium} (h : s.Serves content)
    (hread : ∀ index, medium.backing.readSpine index = s.medium.backing.readSpine index)
    (hreads : medium.faults.spineReads = s.medium.faults.spineReads) :
    Serves { s with medium } content := by
  refine ⟨h.coherent.accessed hread, fun index hloaded hblob => ?_, h.size_pos, h.attempts_pos,
    fun nid place hplace => ?_, h.absent⟩
  · rw [Backing.blob?, hread] at hblob
    have hready := h.ready index hloaded hblob
    refine ⟨hready.free, ?_⟩
    rw [hreads]
    exact hready.reads
  · rw [← h.held nid place hplace]
    simp only [held?, Medium.payload?, Backing.blob?, hread]

/-- A spine that comes into memory leaves what is served. -/
theorem Serves.touch {index : Nat} (h : s.Serves content)
    (hindex : index < UInt32.size ∨ s.reaches index = true) :
    (touch index s).2.Serves content :=
  h.transition (transition_touch hindex) (by simp)

/-- Where there cannot be data, nothing is held. -/
theorem Serves.held?_of_not_reached (h : s.Serves content) (hindex : s.Addressable place.index)
    (hreaches : ¬ s.reaches place.index = true) : s.held? place = none := by
  obtain ⟨hloaded, hblob⟩ := h.coherent.of_not_reached hreaches hindex
  rw [held?_of_not_loaded hloaded, Medium.payload?_of_none hblob]

/-! ## Operations -/

/-- A look-up answers what is served. -/
theorem Serves.lookup (h : s.Serves content) (nid : Nid) :
    ∃ s', lookup nid s = (content nid, s') ∧ s'.Serves content := by
  cases hplace : s.place? nid with
  | none =>
    refine ⟨s, ?_, h⟩
    simp only [SpineStore.lookup, hplace, h.absent nid hplace]
  | some place =>
    by_cases hreaches : s.reaches place.index = true
    · have htouched := h.touch (Or.inr hreaches)
      refine ⟨(SpineStore.touch place.index s).2, ?_, htouched⟩
      have hspine : (SpineStore.touch place.index s).2.spineSize = s.spineSize :=
        (transition_touch (Or.inr hreaches)).spineSize_eq
      rw [← htouched.held nid place ((place?_congr hspine nid).trans hplace),
        held?_of_loaded (loaded_touch s place.index)]
      simp only [SpineStore.lookup, hplace, hreaches, if_true]
      rfl
    · refine ⟨s, ?_, h⟩
      rw [← h.held nid place hplace,
        h.held?_of_not_reached (Or.inl (index_lt hplace)) hreaches]
      simp only [SpineStore.lookup, hplace, if_neg hreaches]

/-- A look-up answers what is served. -/
theorem Serves.lookup_eq (h : s.Serves content) (nid : Nid) :
    (SpineStore.lookup nid s).1 = content nid := by
  obtain ⟨_, hlookup, -⟩ := h.lookup nid
  rw [hlookup]

/-- A payload that is installed is served for its nid and for no other. -/
theorem Serves.install {spine : Spine} (h : s.Serves content) (hplace : s.place? nid = some place)
    (hloaded : s.loaded[place.index]? = some spine) (payload : Bytes) :
    Serves { s with loaded := s.loaded.insert place.index (spine.install place.slot payload) }
      fun other => if other = nid then some payload else content other := by
  have htransition : Transition s (.installed nid payload)
      { s with loaded := s.loaded.insert place.index (spine.install place.slot payload) } :=
    .installed hplace hloaded
  refine ⟨h.coherent.transition h.size_pos htransition, fun index hindex hblob => ?_, h.size_pos,
    h.attempts_pos, fun other target htarget => ?_, fun other hother => ?_⟩
  · simp only [getElem?_insert_index] at hindex
    split at hindex
    · cases hindex
    · exact htransition.ready (h.ready index hindex hblob)
  · have hsame : target = place ↔ other = nid := by
      constructor
      · rintro rfl
        exact place?_inj htarget hplace
      · rintro rfl
        exact Option.some.inj (htarget.symm.trans hplace)
    rw [← h.held other target htarget]
    by_cases hindex : target.index = place.index
    · rw [held?_of_loaded (by rw [hindex]; exact Std.ExtTreeMap.getElem?_insert_self),
        Spine.payload?_install, held?_of_loaded (by rw [hindex, hloaded])]
      congr 1
      rw [← hsame]
      cases target
      cases place
      simp_all [eq_comm]
    · have hne : other ≠ nid := fun heq => hindex (congrArg Place.index (hsame.mpr heq))
      simp only [held?, getElem?_insert_index, if_neg hindex, if_neg hne]
  · have hne : other ≠ nid := by
      rintro rfl
      rw [show s.place? other = none from hother] at hplace
      cases hplace
    rw [if_neg hne]
    exact h.absent other hother

/-- What a merge installs where a payload is served already, or where none is. -/
def merged (combine : Bytes → Bytes → Bytes) (payload : Bytes) : Option Bytes → Bytes
  | none => payload
  | some existing => combine existing payload

/-- A swap succeeds with the cell that is there. -/
theorem swap_self {spine : Spine} (hloaded : s.loaded[place.index]? = some spine)
    (payload : Bytes) :
    swap place (s.cell? place) payload s = (true,
      { s with loaded := s.loaded.insert place.index (spine.install place.slot payload) }) := by
  rw [swap, if_pos rfl, hloaded]
  rfl

/-- A function that leaves the store alone lets the first attempt succeed. -/
theorem attempt_pure {spine : Spine} (hloaded : s.loaded[place.index]? = some spine)
    (combine : Bytes → Bytes → Bytes) (payload : Bytes) (n : Nat) :
    attempt place payload (fun existing update => return combine existing update) (n + 1)
        (s.cell? place) s =
      let next := merged combine payload (spine.payload? place.slot)
      (some next,
        { s with loaded := s.loaded.insert place.index (spine.install place.slot next) }) := by
  have hcell : s.cell? place = spine.slots[place.slot]? := by
    rw [cell?, hloaded]
    rfl
  have hrun (next : Bytes) : (do
      if ← swap place (s.cell? place) next then return some next
      else
        let t ← get
        attempt place payload (fun existing update => return combine existing update) n
          (t.cell? place) : StateM SpineStore (Option Bytes)) s =
      (some next,
        { s with loaded := s.loaded.insert place.index (spine.install place.slot next) }) := by
    change (match swap place (s.cell? place) next s with
      | (done, t) => (if done = true then pure (some next) else _ : StateM SpineStore _) t) = _
    rw [swap_self hloaded]
    rfl
  rw [Spine.payload?, ← hcell]
  cases hcurrent : s.cell? place with
  | none =>
    rw [hcurrent] at hrun
    exact hrun payload
  | some cell =>
    rw [hcurrent] at hrun
    exact hrun (combine cell.payload payload)

/-- A merge brings a spine into memory and installs a payload there, which is its answer. -/
theorem attempt_merge {existing? : Option Bytes} (hplace : s.place? nid = some place)
    (hattempts : 0 < (touch place.index s).2.maxAttempts)
    (hexisting : (touch place.index s).1.payload? place.slot = existing?) (payload : Bytes)
    (combine : Bytes → Bytes → Bytes) :
    let brought := (touch place.index s).2
    let next := merged combine payload existing?
    Store.attempt (SpineStore.merge nid payload combine) s = (.ok next, { brought with
      loaded := brought.loaded.insert place.index
        ((touch place.index s).1.install place.slot next) }) := by
  have hloaded := loaded_touch s place.index
  obtain ⟨spine, brought, hbrought⟩ : ∃ spine brought, touch place.index s = (spine, brought) :=
    ⟨_, _, rfl⟩
  simp only [hbrought] at hattempts hexisting hloaded ⊢
  obtain ⟨n, hn⟩ := Nat.exists_eq_add_one_of_ne_zero (Nat.ne_of_gt hattempts)
  have hattempt := attempt_pure hloaded combine payload n
  rw [hexisting, ← hn] at hattempt
  simp only [Store.attempt, SpineStore.merge, mergeM, hplace, hbrought, hattempt]

/-- Without an attempt a merge fails, after it has brought a spine into memory. -/
theorem attempt_merge_of_zero (hplace : s.place? nid = some place)
    (hattempts : (touch place.index s).2.maxAttempts = 0) (payload : Bytes)
    (combine : Bytes → Bytes → Bytes) :
    Store.attempt (SpineStore.merge nid payload combine) s =
      (.error (.concurrencyInvariant nid 0), (touch place.index s).2) := by
  obtain ⟨spine, brought, hbrought⟩ : ∃ spine brought, touch place.index s = (spine, brought) :=
    ⟨_, _, rfl⟩
  simp only [hbrought] at hattempts ⊢
  have hnone : attempt place payload (fun existing update => return combine existing update) 0
      (brought.cell? place) brought = (none, brought) := rfl
  simp only [Store.attempt, SpineStore.merge, mergeM, hplace, hbrought, hattempts, hnone]

/-- A merge answers what it installs, and that is served from then on. -/
theorem Serves.merge (h : s.Serves content) (hplace : s.place? nid = some place) (payload : Bytes)
    (combine : Bytes → Bytes → Bytes) :
    let next := merged combine payload (content nid)
    ∃ s', Store.attempt (SpineStore.merge nid payload combine) s = (.ok next, s') ∧
      s'.Serves fun other => if other = nid then some next else content other := by
  intro next
  have hindex : place.index < UInt32.size ∨ s.reaches place.index = true := Or.inl (index_lt hplace)
  have htouched := h.touch hindex
  have hspine := (transition_touch hindex).spineSize_eq
  have hloaded := loaded_touch s place.index
  have hplace' : (SpineStore.touch place.index s).2.place? nid = some place :=
    (place?_congr hspine nid).trans hplace
  have hpayload := htouched.held nid place hplace'
  rw [held?_of_loaded hloaded] at hpayload
  exact ⟨_, attempt_merge hplace htouched.attempts_pos hpayload payload combine,
    htouched.install hplace' hloaded next⟩

/-- A nid without a place is refused, and nothing changes. -/
theorem attempt_merge_of_none (hplace : s.place? nid = none) (payload : Bytes)
    (combine : Bytes → Bytes → Bytes) :
    Store.attempt (SpineStore.merge nid payload combine) s =
      (.error (.notFound (.nid nid)), s) := by
  simp only [Store.attempt, SpineStore.merge, mergeM, hplace]

/-- A write changes nothing that is served, whether or not it succeeds. -/
theorem Serves.write (h : s.Serves content) :
    (Store.attempt SpineStore.write s).2.Serves content := by
  have hall (indices : List Nat) (p : Progress) : ∀ {s : SpineStore}, s.Serves content →
      (writeAll indices p s).2.Serves content := by
    induction indices generalizing p with
    | nil => exact fun h => h
    | cons index indices ih =>
      exact fun h => ih _ (h.transition (writeOne_flushes _ index p).transition (by simp))
  rw [attempt_write_state]
  exact hall s.loaded.keys {} h

end Chronicle.SpineStore
