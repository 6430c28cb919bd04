import Chronicle.Proofs.Spine.Entries
import Chronicle.Proofs.Spine.Observation
import Chronicle.Proofs.Spine.Service

/-!
# What scans visit

A scan visits each payload that a store displays once, in the order of their nids. What a visitor
does at a payload may use the store, and the directory may grow meanwhile, but nothing that is
displayed lies beyond its limit at the start.
-/

namespace Chronicle.SpineStore

variable {σ α β : Type} {s s' t : SpineStore} {content : Nid → Option Bytes} {index : Nat}
  {P : σ → SpineStore → Prop} {seen : σ → List β} {tell : Nid × Bytes → Option β}
  {visit : Nid → Bytes → Scan σ Unit} {state : σ}

/-- The payloads of a content are found in spines that can be reached, and what is in memory belongs
to it. -/
structure Displays (s : SpineStore) (content : Nid → Option Bytes) : Prop where
  size_pos : 0 < s.spineSize
  loaded : ∀ nid place spine, s.place? nid = some place → s.loaded[place.index]? = some spine →
    spine.payload? place.slot = content nid
  reached : ∀ nid payload, content nid = some payload →
    ∃ place, s.place? nid = some place ∧ s.reaches place.index = true

/-- What is served is displayed. -/
theorem Serves.displays (h : s.Serves content) : s.Displays content := by
  refine ⟨h.size_pos, fun nid place spine hplace hspine => ?_, fun nid payload hpayload => ?_⟩
  · rw [← h.held nid place hplace, held?_of_loaded hspine]
  · cases hplace : s.place? nid with
    | none =>
      rw [h.absent nid hplace] at hpayload
      cases hpayload
    | some place =>
      refine ⟨place, rfl, ?_⟩
      by_contra hreaches
      rw [← h.held nid place hplace,
        h.held?_of_not_reached (Or.inl (index_lt hplace)) hreaches] at hpayload
      cases hpayload

/-- Between two moments of a scan the slots stay where they are, and no spine leaves memory. -/
structure Keeps (s s' : SpineStore) : Prop where
  spineSize_eq : s'.spineSize = s.spineSize
  loaded : ∀ (index : Nat), s.loaded[index]?.isSome → s'.loaded[index]?.isSome

/-- Nothing moves between a moment and itself. -/
theorem keeps_refl (s : SpineStore) : Keeps s s :=
  ⟨rfl, fun _ => id⟩

/-- Nothing moves over two stretches of a scan. -/
theorem Keeps.trans (h : Keeps s s') (h' : Keeps s' t) : Keeps s t :=
  ⟨h'.spineSize_eq.trans h.spineSize_eq, fun index hs => h'.loaded index (h.loaded index hs)⟩

/-- A spine that comes into memory moves nothing. -/
theorem keeps_touch (hindex : index < UInt32.size ∨ s.reaches index = true) :
    Keeps s (touch index s).2 :=
  ⟨(transition_touch hindex).spineSize_eq, fun _ hs => (transition_touch hindex).loaded_isSome hs⟩

/-- While something holds of the state carried along and of the store, which displays a content then,
what is done at a payload keeps it so, and adds what is to be told of the payload to what was
seen. -/
structure Visits (content : Nid → Option Bytes) (P : σ → SpineStore → Prop) (seen : σ → List β)
    (tell : Nid × Bytes → Option β) (visit : Nid → Bytes → Scan σ Unit) : Prop where
  displays : ∀ {state s}, P state s → s.Displays content
  touch : OutlastsTouch P
  visit : ∀ {nid payload state s}, P state s → content nid = some payload →
    ∃ state' s', (visit nid payload).run state s = (((), state'), s') ∧ Keeps s s' ∧ P state' s' ∧
      seen state' = (tell (nid, payload)).toList ++ seen state

/-- From a store on, a scan sees what is to be told of a list of entries, in order. -/
def Sees (P : σ → SpineStore → Prop) (seen : σ → List β) (tell : Nid × Bytes → Option β)
    (x : Scan σ Unit) (s : SpineStore) (entries : List (Nid × Bytes)) : Prop :=
  ∀ state, P state s → ∃ state' s', x.run state s = (((), state'), s') ∧ Keeps s s' ∧
    P state' s' ∧ seen state' = (entries.filterMap tell).reverse ++ seen state

/-- A scan that does nothing sees nothing. -/
theorem sees_pure (s : SpineStore) : Sees P seen tell (pure ()) s [] :=
  fun state hs => ⟨state, s, rfl, keeps_refl s, hs, rfl⟩

/-- What two scans see in turn is seen one after the other. -/
theorem Sees.bind {x y : Scan σ Unit} {first second : List (Nid × Bytes)}
    (hx : Sees P seen tell x s first) (hy : ∀ t, Keeps s t → Sees P seen tell y t second) :
    Sees P seen tell (x >>= fun _ => y) s (first ++ second) := by
  intro state hs
  obtain ⟨state', t, hrun, ht, hP, hseen⟩ := hx state hs
  obtain ⟨state'', s', hrun', hs', hP', hseen'⟩ := hy t ht state' hP
  refine ⟨state'', s', ?_, ht.trans hs', hP', ?_⟩
  · rw [← hrun', run_bind_of_eq hrun]
  · rw [hseen', hseen, List.filterMap_append, List.reverse_append, List.append_assoc]

/-- An entry is at hand where the spine is in memory. -/
theorem Displays.entryAt_eq {slot : Nat} (h : s.Displays content)
    (hloaded : s.loaded[index]?.isSome) (hslot : slot < s.spineSize) :
    entryAt content (index * s.spineSize + slot) =
      match s.cell? { index, slot }, s.nidAt? { index, slot } with
      | some cell, some nid => some (nid, cell.payload)
      | _, _ => none := by
  obtain ⟨spine, hspine⟩ := Option.isSome_iff_exists.mp hloaded
  have hcell : (s.cell? { index, slot }).map Cell.payload = spine.payload? slot := by
    rw [cell?, hspine]
    rfl
  cases hnid : s.nidAt? { index, slot } with
  | none =>
    rw [entryAt, show Nid.ofOffset? (index * s.spineSize + slot) = none from hnid]
    split <;> simp_all
  | some nid =>
    have hplace : s.place? nid = some { index, slot } :=
      (place?_eq_some_iff h.size_pos).mpr ⟨hslot, hnid⟩
    have hcontent := h.loaded nid _ spine hplace hspine
    rw [← hcell] at hcontent
    rw [entryAt, show Nid.ofOffset? (index * s.spineSize + slot) = some nid from hnid,
      Option.bind_eq_bind, Option.bind_some, ← hcontent]
    cases s.cell? { index, slot } with
    | none => rfl
    | some cell => rfl

/-- A spine that cannot hold data has no entries. -/
theorem Displays.entriesFrom_of_not_reached (h : s.Displays content)
    (hreaches : ¬ s.reaches index = true) :
    entriesFrom content (index * s.spineSize) s.spineSize = [] := by
  refine entriesFrom_eq_nil fun k hle hlt nid hnid => ?_
  have hindex : k / s.spineSize = index :=
    Nat.div_eq_of_lt_le hle (by rwa [Nat.add_mul, Nat.one_mul])
  have hplace : s.place? nid = some { index, slot := k % s.spineSize } := by
    rw [place?, hnid, Option.map_some, hindex]
  cases hpayload : content nid with
  | none => rfl
  | some payload =>
    obtain ⟨place, hplace', hreached⟩ := h.reached nid payload hpayload
    obtain rfl := Option.some.inj (hplace.symm.trans hplace')
    exact absurd hreached hreaches

/-- The limit lies beyond every spine where there may be data. -/
theorem lt_spineLimit (hreaches : s.reaches index = true) : index < s.spineLimit := by
  obtain hextent | hlisted := reaches_iff.mp hreaches
  · exact Nat.lt_of_lt_of_le hextent (Nat.le_max_left _ _)
  · refine Nat.lt_of_lt_of_le ?_ (Nat.le_max_right _ _)
    obtain ⟨last, hlast⟩ := Option.isSome_iff_exists.mp (Std.ExtTreeSet.isSome_max?_of_mem hlisted)
    have hle := (Std.ExtTreeSet.max?_eq_some_iff_mem_and_forall.mp hlast).2 index hlisted
    rw [Nat.isLE_compare] at hle
    rw [hlast, Option.elim_some]
    omega

/-- All entries lie in the spines below the limit. -/
theorem Displays.offset_lt (h : s.Displays content) {nid : Nid} {payload : Bytes}
    (hpayload : content nid = some payload) :
    ∃ offset, nid.offset? = some offset ∧ offset < s.spineLimit * s.spineSize := by
  obtain ⟨place, hplace, hreached⟩ := h.reached nid payload hpayload
  have hlt := lt_spineLimit hreached
  obtain ⟨offset, hoffset, rfl⟩ := Option.map_eq_some_iff.mp hplace
  exact ⟨offset, hoffset, (Nat.div_lt_iff_lt_mul h.size_pos).mp hlt⟩

/-! ## Visits in order -/

namespace Visits

variable (h : Visits content P seen tell visit)

include h

private theorem sees_visit {nid : Nid} {payload : Bytes} (hpayload : content nid = some payload)
    (s : SpineStore) : Sees P seen tell (visit nid payload) s [(nid, payload)] := by
  intro state hs
  obtain ⟨state', s', hrun, hkeeps, hP, hseen⟩ := h.visit hs hpayload
  refine ⟨state', s', hrun, hkeeps, hP, hseen.trans ?_⟩
  cases htell : tell (nid, payload) <;> simp [htell]

/-- Visiting slots of a spine in memory sees their entries. -/
theorem sees_visitSlots (hloaded : s.loaded[index]?.isSome) (n slot : Nat)
    (hslot : slot + n ≤ s.spineSize) :
    Sees P seen tell (visitSlots visit index n slot) s
      (entriesFrom content (index * s.spineSize + slot) n) := by
  induction n generalizing slot s with
  | zero => exact sees_pure s
  | succ n ih =>
    have hrest (t : SpineStore) (ht : Keeps s t) :
        Sees P seen tell (visitSlots visit index n (slot + 1)) t
          (entriesFrom content (index * s.spineSize + slot + 1) n) := by
      have hsize := ht.spineSize_eq
      have hsees := ih (ht.loaded index hloaded) (slot + 1) (by omega)
      rwa [hsize, ← Nat.add_assoc] at hsees
    intro state hs
    have hentry := (h.displays hs).entryAt_eq hloaded (show slot < s.spineSize by omega)
    rw [entriesFrom_succ, visitSlots, run_getThe_store]
    cases hcell : s.cell? { index, slot } with
    | none =>
      simp only [hcell] at hentry ⊢
      rw [hentry]
      exact hrest s (keeps_refl s) state hs
    | some cell =>
      cases hnid : s.nidAt? { index, slot } with
      | none =>
        simp only [hcell, hnid] at hentry ⊢
        rw [hentry]
        exact hrest s (keeps_refl s) state hs
      | some nid =>
        simp only [hcell, hnid] at hentry ⊢
        rw [hentry]
        exact (h.sees_visit (entryAt_eq_some_iff.mp hentry).2 s).bind hrest state hs

/-- Visiting a spine sees its entries, of which there are none if it cannot hold data. -/
theorem sees_visitSpine (s : SpineStore) (index : Nat) :
    Sees P seen tell (visitSpine visit index) s
      (entriesFrom content (index * s.spineSize) s.spineSize) := by
  intro state hs
  by_cases hreaches : s.reaches index = true
  · have htouch := keeps_touch (Or.inr hreaches)
    have hloaded : (SpineStore.touch index s).2.loaded[index]?.isSome := by
      rw [loaded_touch]
      rfl
    obtain ⟨state', s', hrun, hs', hP, hseen⟩ := h.sees_visitSlots hloaded s.spineSize 0
      (by rw [htouch.spineSize_eq]; omega) state (h.touch state s index hreaches hs)
    rw [htouch.spineSize_eq, Nat.add_zero] at hseen
    refine ⟨state', s', ?_, htouch.trans hs', hP, hseen⟩
    rw [visitSpine, run_getThe_store, if_pos hreaches, ← hrun]
    rfl
  · rw [(h.displays hs).entriesFrom_of_not_reached hreaches]
    refine ⟨state, s, ?_, keeps_refl s, hs, rfl⟩
    rw [visitSpine, run_getThe_store, if_neg hreaches]
    rfl

/-- A scan over some spines sees the entries of their slots in order. -/
theorem sees_visitSpines (s : SpineStore) (n index : Nat) :
    Sees P seen tell (visitSpines (fun _ => false) visit n index) s
      (entriesFrom content (index * s.spineSize) (n * s.spineSize)) := by
  induction n generalizing index s with
  | zero =>
    rw [Nat.zero_mul]
    exact sees_pure s
  | succ n ih =>
    have hrest (t : SpineStore) (ht : Keeps s t) :
        Sees P seen tell (visitSpines (fun _ => false) visit n (index + 1)) t
          (entriesFrom content (index * s.spineSize + s.spineSize) (n * s.spineSize)) := by
      have hsees := ih t (index + 1)
      rwa [ht.spineSize_eq, Nat.succ_mul] at hsees
    rw [Nat.succ_mul, Nat.add_comm (n * s.spineSize), entriesFrom_add]
    exact (h.sees_visitSpine s index).bind hrest

/-- A scan sees every entry, in ascending order. -/
theorem forEach (s : SpineStore) : Sees P seen tell (SpineStore.forEach visit) s
    (entriesFrom content 0 (s.spineLimit * s.spineSize)) := by
  have hsees := h.sees_visitSpines s s.spineLimit 0
  rw [Nat.zero_mul] at hsees
  intro state hs
  obtain ⟨state', s', hrun, hrest⟩ := hsees state hs
  exact ⟨state', s', by rw [← hrun]; rfl, hrest⟩

end Visits

/-! ## Noting every payload -/

/-- Noting payloads is a visit that tells everything. -/
theorem visits_note (content : Nid → Option Bytes) :
    Visits content (fun _ s => s.Serves content) id some note where
  displays h := h.displays
  touch _ _ _ hreaches h := h.touch (Or.inr hreaches)
  visit {_ _ _ s} h _ := ⟨_, s, rfl, keeps_refl s, h, rfl⟩

/-- A scan answers every entry, in ascending order. -/
theorem Serves.entries (h : s.Serves content) :
    ∃ s', SpineStore.entries s = (entriesFrom content 0 (s.spineLimit * s.spineSize), s') ∧
      s'.Serves content := by
  obtain ⟨visited, s', hrun, -, hserves, hseen⟩ := (visits_note content).forEach s [] h
  rw [List.filterMap_some, id, id, List.append_nil] at hseen
  refine ⟨s', ?_, hserves⟩
  rw [← List.reverse_reverse (entriesFrom content 0 _), ← hseen]
  change (match (forEach note).run [] s with | ((_, visited), t) => (visited.reverse, t)) = _
  rw [hrun]

end Chronicle.SpineStore
