import Chronicle.Store.Basic

/-!
# How actions end

An action ends with an answer or with an error, and leaves a state either way. What holds at its end
is put together from what holds at the ends of its parts.
-/

namespace Chronicle.Store

variable {σ α β : Type} {x : EStateM StoreError σ α} {f : α → EStateM StoreError σ β} {s : σ}

/-- An action goes on with the state as it is. -/
theorem get_bind (f : σ → EStateM StoreError σ α) (s : σ) : (get >>= f) s = f s s :=
  rfl

/-- An action goes on with the state that was modified. -/
theorem modify_bind (g : σ → σ) (f : PUnit → EStateM StoreError σ α) (s : σ) :
    (modify g >>= f) s = f ⟨⟩ (g s) :=
  rfl

/-- An action that answers a function of what another one answers. -/
theorem attempt_bind_pure (x : EStateM StoreError σ α) (g : α → β) (s : σ) :
    (Store.attempt (x >>= fun a => pure (g a)) s).1 = (Store.attempt x s).1.map g := by
  simp only [Store.attempt, bind, EStateM.bind]
  cases x s <;> rfl

/-- An action ends well with a property of its answer and the state, or fails with a property of the
error and the state. -/
def Ends (x : EStateM StoreError σ α) (s : σ) (ok : α → σ → Prop) (failed : StoreError → σ → Prop) :
    Prop :=
  match x s with
  | .ok answer t => ok answer t
  | .error error t => failed error t

section

variable {ok : α → σ → Prop} {failed : StoreError → σ → Prop}

/-- An action ends well with the answer it gives. -/
theorem ends_of_ok {a : α} {t : σ} (h : x s = .ok a t) (ha : ok a t) : Ends x s ok failed := by
  simp only [Ends, h]
  exact ha

/-- An action fails with the error it gives. -/
theorem ends_of_error {error : StoreError} {t : σ} (h : x s = .error error t)
    (herror : failed error t) : Ends x s ok failed := by
  simp only [Ends, h]
  exact herror

/-- What is said of an action that ends well holds where it did. -/
theorem Ends.of_ok {a : α} {t : σ} (h : Ends x s ok failed) (hx : x s = .ok a t) : ok a t := by
  simpa only [Ends, hx] using h

/-- What is said of an action that fails holds where it did. -/
theorem Ends.of_error {error : StoreError} {t : σ} (h : Ends x s ok failed)
    (hx : x s = .error error t) : failed error t := by
  simpa only [Ends, hx] using h

/-- An attempt with an answer is one of an action that ended well. -/
theorem eq_of_attempt_ok {a : α} {t : σ} (h : Store.attempt x s = (.ok a, t)) : x s = .ok a t := by
  rw [Store.attempt] at h
  split at h
  · rename_i hx
    cases h
    exact hx
  · cases h

/-- An attempt with an error is one of an action that failed. -/
theorem eq_of_attempt_error {error : StoreError} {t : σ}
    (h : Store.attempt x s = (.error error, t)) : x s = .error error t := by
  rw [Store.attempt] at h
  split at h
  · cases h
  · rename_i hx
    cases h
    exact hx

/-- An attempt that is answered is an action that ended well. -/
theorem ok_of_attempt {a : α} (h : (Store.attempt x s).1 = .ok a) :
    x s = .ok a (Store.attempt x s).2 :=
  eq_of_attempt_ok (Prod.ext h rfl)

/-- An action whose attempt answers an error failed with it. -/
theorem error_of_attempt {error : StoreError} (h : (Store.attempt x s).1 = .error error) :
    x s = .error error (Store.attempt x s).2 :=
  eq_of_attempt_error (Prod.ext h rfl)

/-- An action that cannot fail ends well. -/
theorem Ends.exists_ok (h : Ends x s ok fun _ _ => False) : ∃ a t, x s = .ok a t ∧ ok a t := by
  cases hx : x s with
  | ok a t => exact ⟨a, t, rfl, h.of_ok hx⟩
  | error error t => exact (h.of_error hx).elim

/-- What holds at both ends of an action holds after it was attempted. -/
theorem Ends.attempt {P : σ → Prop} (h : Ends x s (fun _ => P) fun _ => P) :
    P (Store.attempt x s).2 := by
  cases hx : x s with
  | ok a t =>
    simp only [Store.attempt, hx]
    exact h.of_ok hx
  | error error t =>
    simp only [Store.attempt, hx]
    exact h.of_error hx

/-- Conversely, what holds after an action was attempted holds at both of its ends. -/
theorem ends_of_attempt {P : σ → Prop} (h : P (Store.attempt x s).2) :
    Ends x s (fun _ => P) fun _ => P := by
  cases hx : x s with
  | ok a t =>
    simp only [Store.attempt, hx] at h
    exact ends_of_ok hx h
  | error error t =>
    simp only [Store.attempt, hx] at h
    exact ends_of_error hx h

/-- An action ends with whatever follows from what it ends with. -/
theorem Ends.mono {ok' : α → σ → Prop} {failed' : StoreError → σ → Prop} (h : Ends x s ok failed)
    (hok : ∀ a t, ok a t → ok' a t) (hfailed : ∀ error t, failed error t → failed' error t) :
    Ends x s ok' failed' := by
  cases hx : x s with
  | ok a t => exact ends_of_ok hx (hok a t (h.of_ok hx))
  | error error t => exact ends_of_error hx (hfailed error t (h.of_error hx))

/-- An action fails with whatever follows from what it fails with. -/
theorem Ends.weaken {failed' : StoreError → σ → Prop} (h : Ends x s ok failed)
    (hfailed : ∀ error t, failed error t → failed' error t) : Ends x s ok failed' :=
  h.mono (fun _ _ hpost => hpost) hfailed

/-- An action goes on from where its first part ends well, and fails where that fails. -/
theorem Ends.bind {first : α → σ → Prop} {ok : β → σ → Prop} (hx : Ends x s first failed)
    (hf : ∀ a t, first a t → Ends (f a) t ok failed) : Ends (x >>= f) s ok failed := by
  cases hrun : x s with
  | ok a t =>
    have hbind : (x >>= f) s = f a t := by
      change EStateM.bind x f s = _
      simp only [EStateM.bind, hrun]
    have hrest := hf a t (hx.of_ok hrun)
    simpa only [Ends, hbind] using hrest
  | error error t =>
    have hbind : (x >>= f) s = .error error t := by
      change EStateM.bind x f s = _
      simp only [EStateM.bind, hrun]
    exact ends_of_error hbind (hx.of_error hrun)

/-- An answer ends well at once. -/
theorem ends_pure {a : α} (h : ok a s) : Ends (pure a) s ok failed :=
  h

/-- An error fails at once. -/
theorem ends_throw {error : StoreError} (h : failed error s) :
    Ends (throw error : EStateM StoreError σ α) s ok failed :=
  h

/-- What would follow a failure has no influence. -/
theorem ends_throw_bind {γ : Type} {g : γ → EStateM StoreError σ α} {error : StoreError}
    (h : failed error s) : Ends (throw error >>= g) s ok failed :=
  h

/-- An outcome that was found before ends the action as it says. -/
theorem ends_outcome {ε : Type} [Coe ε StoreError] {y : Except ε α}
    (hok : ∀ a, y = .ok a → ok a s)
    (hfailed : ∀ error : ε, y = .error error → failed error s) : Ends (outcome y) s ok failed := by
  cases y with
  | ok a => exact hok a rfl
  | error error => exact hfailed error rfl

/-- A computation leaves the state alone, and its answer is known afterwards. -/
theorem ends_outcome_known {ε : Type} [Coe ε StoreError] (y : Except ε α) (s : σ) :
    Ends (outcome y) s (fun a t => y = .ok a ∧ s = t) fun _ t => s = t :=
  ends_outcome (fun _ hy => ⟨hy, rfl⟩) fun _ _ => rfl

/-- An outcome that is an answer ends well and changes nothing. -/
theorem ends_outcome_of_ok {ε : Type} [Coe ε StoreError] {y : Except ε α} {a : α}
    (h : y = .ok a) (s : σ) : Ends (outcome y) s (fun found t => found = a ∧ s = t)
      fun _ _ => False := by
  rw [h]
  exact ⟨rfl, rfl⟩

end

section

variable {ok : α → Store → Prop} {failed : StoreError → Store → Prop} {s : Store}

/-- An action that cannot fail ends well. -/
theorem ends_infallible {y : StateM Store α} (h : ok (y s).1 (y s).2) :
    Ends (infallible y) s ok failed :=
  h

/-- An attempt on the payloads leaves the rest of the store alone. -/
theorem attempt_tryOnSpines (y : EStateM StoreError SpineStore α) (s : Store) :
    (attempt (tryOnSpines y) s).2 = { s with spines := (attempt y s.spines).2 } := by
  simp only [attempt, tryOnSpines]
  cases y s.spines <;> rfl

/-- An action on the spines ends as it does on them, the rest of the store staying as it is. -/
theorem ends_tryOnSpines {y : EStateM StoreError SpineStore α}
    (h : Ends y s.spines (fun a spines => ok a { s with spines })
      fun error spines => failed error { s with spines }) : Ends (tryOnSpines y) s ok failed := by
  cases hy : y s.spines with
  | ok a spines =>
    have hrun : tryOnSpines y s = .ok a { s with spines } := by simp only [tryOnSpines, hy]
    exact ends_of_ok hrun (h.of_ok hy)
  | error error spines =>
    have hrun : tryOnSpines y s = .error error { s with spines } := by simp only [tryOnSpines, hy]
    exact ends_of_error hrun (h.of_error hy)

end

end Chronicle.Store
