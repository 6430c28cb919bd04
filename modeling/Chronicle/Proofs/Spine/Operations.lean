import Chronicle.Proofs.Medium.Tables
import Chronicle.Proofs.Spine.Service
import Chronicle.Proofs.Store.Outcome

/-!
# Operations as events

A look-up brings a spine into memory, a merge then installs what it answers, and a write writes one
spine after another. What outlasts such events outlasts the operation.
-/

namespace Chronicle.SpineStore

open Store (Ends)

variable {s : SpineStore} {nid : Nid}

/-- A look-up touches one spine. -/
theorem lookup_transition (nid : Nid) (s : SpineStore) :
    ∃ index, Transition s (.touched index) (lookup nid s).2 := by
  cases hplace : s.place? nid with
  | none =>
    refine ⟨0, ?_⟩
    simp only [lookup, hplace]
    exact .idle _
  | some place =>
    refine ⟨place.index, ?_⟩
    by_cases hreaches : s.reaches place.index = true
    · simp only [lookup, hplace, hreaches, if_true]
      exact transition_touch (Or.inr hreaches)
    · simp only [lookup, hplace, if_neg hreaches]
      exact .idle _

/-- A payload that is answered lies in memory from then on. -/
theorem loaded_of_lookup {payload : Bytes} (h : (lookup nid s).1 = some payload) :
    ∃ place spine, s.place? nid = some place ∧ (lookup nid s).2.loaded[place.index]? = some spine ∧
      spine.payload? place.slot = some payload := by
  cases hplace : s.place? nid with
  | none =>
    simp only [lookup, hplace] at h
    cases h
  | some place =>
    by_cases hreaches : s.reaches place.index = true
    · simp only [lookup, hplace, hreaches, if_true] at h ⊢
      exact ⟨place, _, rfl, loaded_touch s place.index, h⟩
    · simp only [lookup, hplace, if_neg hreaches] at h
      cases h

/-- A merge that fails has installed nothing. -/
theorem merge_transitions (nid : Nid) (payload : Bytes) (combine : Bytes → Bytes → Bytes)
    (s : SpineStore) :
    ∃ index touched, Transition s (.touched index) touched ∧
      ((∃ error, merge nid payload combine s = .error error touched) ∨
        ∃ next t, merge nid payload combine s = .ok next t ∧
          Transition touched (.installed nid next) t) := by
  cases hplace : s.place? nid with
  | none => exact ⟨0, s, .idle _, Or.inl ⟨_, by simp only [merge, mergeM, hplace]; rfl⟩⟩
  | some place =>
    have hindex : place.index < UInt32.size ∨ s.reaches place.index = true :=
      Or.inl (index_lt hplace)
    have htransition := transition_touch hindex
    have hplace' := (place?_congr htransition.spineSize_eq nid).trans hplace
    have hloaded := loaded_touch s place.index
    refine ⟨place.index, (touch place.index s).2, htransition, ?_⟩
    rcases Nat.eq_zero_or_pos (touch place.index s).2.maxAttempts with hzero | hpos
    · exact Or.inl
        ⟨_, Store.eq_of_attempt_error (attempt_merge_of_zero hplace hzero payload combine)⟩
    · exact Or.inr ⟨_, _, Store.eq_of_attempt_ok (attempt_merge hplace hpos rfl payload combine),
        .installed hplace' hloaded⟩

/-- Whether or not it succeeds, writing a spine changes no table. -/
theorem readTable_writeOne {name : String} (hname : Folder.IsRootTable name) (index : Nat)
    (p : Progress) (s : SpineStore) :
    (writeOne index p s).2.medium.backing.readTable name = s.medium.backing.readTable name := by
  have hwrite (blob : Bytes) (medium : Medium) :
      (Medium.writeSpine index blob medium).2.backing.readTable name =
        medium.backing.readTable name := by
    simp only [Medium.writeSpine]
    split
    · rfl
    · exact Backing.readTable_of_writeSpine hname rfl
  rw [writeOne]
  cases hloaded : s.loaded[index]? with
  | none => rfl
  | some spine =>
    dsimp only
    split
    · rfl
    · split
      · rfl
      · have hunder := underPermit_eq (Medium.writeSpine index (spine.encode s.spineSize))
          (s.mark index false)
        have hmark (t : SpineStore) (changed : Bool) :
            (t.mark index changed).medium = t.medium := by
          simp only [mark]
          split <;> rfl
        have hafter : (underPermit (Medium.writeSpine index (spine.encode s.spineSize))
            (s.mark index false)).2.medium.backing.readTable name =
              s.medium.backing.readTable name := by
          obtain ⟨permits, -, -, hrun | ⟨-, hrun⟩⟩ := hunder
          · rw [hrun]
            exact (hwrite _ _).trans (by rw [hmark])
          · rw [hrun]
            exact congrArg (fun medium : Medium => medium.backing.readTable name) (hmark s false)
        split
        · rename_i hrun
          rwa [hrun] at hafter
        · rename_i hrun
          rw [hrun] at hafter
          rwa [hmark]

/-- What outlasts that single spines are written, which changes no table, outlasts a write. -/
theorem write_induction {P : SpineStore → Prop}
    (hstep : ∀ s t index, P s → Transition s (.flushed index) t →
      (∀ name, Folder.IsRootTable name →
        t.medium.backing.readTable name = s.medium.backing.readTable name) → P t) (h : P s) :
    Ends write s (fun _ => P) fun _ => P := by
  have hall (indices : List Nat) (p : Progress) : ∀ {s : SpineStore}, P s →
      P (writeAll indices p s).2 := by
    induction indices generalizing p with
    | nil => exact fun h => h
    | cons index indices ih =>
      exact fun h => ih _ (hstep _ _ index h (writeOne_flushes _ index p).transition
        fun name hname => readTable_writeOne hname index p _)
  refine Store.ends_of_attempt ?_
  rw [attempt_write_state]
  exact hall s.loaded.keys {} h

/-- Only a spine that is written changes what is stored on the medium. -/
theorem Transition.backing_eq {t : SpineStore} {event : Event} (h : Transition s event t)
    (hevent : ∀ index, event ≠ .flushed index) : t.medium.backing = s.medium.backing := by
  cases h with
  | idle => rfl
  | touched _ _ _ hbacking => exact hbacking
  | installed => rfl
  | written => exact absurd rfl (hevent _)
  | failed => exact absurd rfl (hevent _)

end Chronicle.SpineStore
