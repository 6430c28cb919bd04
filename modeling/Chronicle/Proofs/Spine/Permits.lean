import Chronicle.Proofs.Spine.Activity

/-!
# Permits of a caller

An access to the medium takes a permit and gives it back before anything else is done. So a caller
that does one thing after another finds every permit whenever it looks, also within a function that
merges payloads and within what a scan does at a payload. However deep such uses of the store go,
and whichever accesses fail, no second permit is taken while one is held, and none is waited for.
-/

namespace Chronicle.SpineStore

variable {n : Nat} {s t : SpineStore} {α β σ : Type}

/-- None of `n` permits is held, no two ever were at once, and no caller ever found none left. -/
structure Settled (n : Nat) (s : SpineStore) : Prop where
  total : s.permits.total = n
  held : s.permits.held = 0
  peak : s.permits.peak ≤ 1
  starved : s.permits.starved = false

/-- A store that was just opened has all its permits. -/
theorem settled_ofMedium (medium : Medium) (size n attempts : Nat) :
    (ofMedium medium size n attempts).Settled n :=
  ⟨rfl, rfl, Nat.zero_le 1, rfl⟩

namespace Settled

private theorem available_eq (h : s.Settled n) : s.permits.available = n := by
  rw [Permits.available, h.total, h.held, Nat.sub_zero]

private theorem of_permits_eq (h : s.Settled n) (hpermits : t.permits = s.permits) :
    t.Settled n := by
  refine ⟨?_, ?_, ?_, ?_⟩ <;> rw [hpermits]
  exacts [h.total, h.held, h.peak, h.starved]

variable (hn : 0 < n)

include hn

/-- An access finds a permit, and gives it back whether or not it succeeds. -/
theorem underPermit (h : s.Settled n) (access : Medium.Access α) :
    (underPermit access s).2.Settled n := by
  have hfree : s.permits.held < s.permits.total := by rwa [h.held, h.total]
  have hpeak : max s.permits.peak (s.permits.held + 1) ≤ 1 := by
    rw [h.held]
    exact Nat.max_le.mpr ⟨h.peak, Nat.le_refl 1⟩
  simp only [SpineStore.underPermit, Permits.acquire?, if_pos hfree]
  exact ⟨h.total, h.held, hpeak, h.starved⟩

/-- A read takes one permit and gives it back, so that all are left as they were. -/
theorem load (h : s.Settled n) (index : Nat) : (load index s).2.Settled n := by
  have hread := h.underPermit hn (Medium.readSpine index)
  rw [SpineStore.load]
  split
  · split
    · rename_i hrun
      rw [hrun] at hread
      split <;> exact hread
    · rename_i hrun
      rwa [hrun] at hread
    · rename_i hrun
      rwa [hrun] at hread
  · exact h

/-- A spine that comes into memory leaves all permits. -/
theorem touch (h : s.Settled n) (index : Nat) : (touch index s).2.Settled n := by
  rw [SpineStore.touch]
  split
  · exact h
  · exact (h.load hn index).of_permits_eq rfl

/-- A look-up leaves all permits. -/
theorem lookup (h : s.Settled n) (nid : Nid) : (lookup nid s).2.Settled n := by
  rw [SpineStore.lookup]
  split
  · exact h
  · split
    · exact h.touch hn _
    · exact h

omit hn in
private theorem mark (h : s.Settled n) (index : Nat) (changed : Bool) :
    (s.mark index changed).Settled n := by
  rw [SpineStore.mark]
  split
  · exact h.of_permits_eq rfl
  · exact h

/-- A write takes one permit and gives it back, whether or not it succeeds. -/
theorem writeOne (h : s.Settled n) (index : Nat) (p : Progress) :
    (writeOne index p s).2.Settled n := by
  rw [SpineStore.writeOne]
  split
  · exact h
  · rename_i spine _
    have hwrite := (h.mark index false).underPermit hn
      (Medium.writeSpine index (spine.encode s.spineSize))
    split
    · exact h
    · split
      · exact h
      · split
        · rename_i hrun
          rwa [hrun] at hwrite
        · rename_i hrun
          rw [hrun] at hwrite
          exact hwrite.mark index true

/-- Writing spines one after another leaves all permits. -/
theorem writeAll (h : s.Settled n) (indices : List Nat) (p : Progress) :
    (writeAll indices p s).2.Settled n := by
  induction indices generalizing s p with
  | nil => exact h
  | cons index indices ih => exact ih (h.writeOne hn index p) _

omit hn in
private theorem swap (h : s.Settled n) (place : Place) (expected : Option Cell) (payload : Bytes) :
    (swap place expected payload s).2.Settled n := by
  rw [SpineStore.swap]
  split
  · exact h.of_permits_eq rfl
  · exact h

end Settled

/-! ## Callers -/

/-- A computation that leaves all permits as it found them. -/
def Settles (n : Nat) (x : StateM SpineStore α) : Prop :=
  ∀ s, s.Settled n → (x s).2.Settled n

/-- Two computations that leave all permits do so one after the other. -/
theorem Settles.bind {x : StateM SpineStore α} {f : α → StateM SpineStore β} (hx : Settles n x)
    (hf : ∀ a, Settles n (f a)) : Settles n (x >>= f) :=
  fun s h => hf _ _ (hx s h)

private theorem settles_observe (view : SpineStore → α) : Settles n fun s => (view s, s) :=
  fun _ h => h

/-- No permit is held while payloads are merged. -/
theorem settles_attempt {place : Place} {payload : Bytes}
    {combine : Bytes → Bytes → StateM SpineStore Bytes}
    (hcombine : ∀ old new, Settles n (combine old new)) (attempts : Nat) (current : Option Cell) :
    Settles n (attempt place payload combine attempts current) := by
  induction attempts generalizing current with
  | zero => exact settles_observe fun _ => none
  | succ attempts ih =>
    have hinstall (next : Bytes) : Settles n (do
        if ← swap place current next then return some next
        else
          let s ← get
          attempt place payload combine attempts (s.cell? place)) := by
      have hswap : Settles n (swap place current next) := fun s h => h.swap place current next
      refine hswap.bind fun installed => ?_
      split
      · exact settles_observe fun _ => some next
      · exact (settles_observe id).bind fun s => ih (s.cell? place)
    cases current with
    | none => exact hinstall payload
    | some cell => exact (hcombine cell.payload payload).bind hinstall

/-- A merge leaves all permits if combining does. -/
theorem settles_merge (hn : 0 < n) (nid : Nid) (payload : Bytes)
    {combine : Bytes → Bytes → StateM SpineStore Bytes}
    (hcombine : ∀ old new, Settles n (combine old new)) :
    Settles n (Store.attempt (mergeM nid payload combine)) := by
  intro s h
  cases hplace : s.place? nid with
  | none => rwa [attempt_mergeM_of_place?_none hplace]
  | some place =>
    rw [attempt_mergeM_state hplace]
    exact settles_attempt hcombine _ _ _ (h.touch hn place.index)

/-- A write of everything leaves all permits. -/
theorem settles_write (hn : 0 < n) : Settles n (Store.attempt write) := by
  intro s h
  rw [attempt_write_state]
  exact h.writeAll hn s.loaded.keys {}

/-- Scans bring spines into memory and leave the rest to what is done at a payload. -/
theorem outlastsTouch_settled (hn : 0 < n) : OutlastsTouch fun (_ : σ) s => s.Settled n :=
  fun _ _ index _ h => h.touch hn index

/-- What a caller does with a store, one operation after another, if it may check at every moment
that each of `n` permits is available. What functions that merge payloads do, and what is done at
the payloads that a scan visits, is again of this kind. What is done when a check fails is free, and
so is what a merge function, an action or a later operation makes of the answers before. The medium
may change at any moment. A scan with one worker visits one payload after another as well. -/
inductive Caller (n : Nat) : {α : Type} → StateM SpineStore α → Prop
  | observe {α : Type} (view : SpineStore → α) : Caller n fun s => (view s, s)
  | bind {α β : Type} {x : StateM SpineStore α} {f : α → StateM SpineStore β} (hx : Caller n x)
      (hf : ∀ a, Caller n (f a)) : Caller n (x >>= f)
  | check {α : Type} {x : StateM SpineStore α} (hx : Caller n x) (refusal : StateM SpineStore α) :
      Caller n fun s => if s.permits.available = n then x s else refusal s
  | disturb (change : Medium → Medium) :
      Caller n fun s => ((), { s with medium := change s.medium })
  | lookup (nid : Nid) : Caller n (lookup nid)
  | merge (nid : Nid) (payload : Bytes) {combine : Bytes → Bytes → StateM SpineStore Bytes}
      (hcombine : ∀ old new, Caller n (combine old new)) :
      Caller n (Store.attempt (mergeM nid payload combine))
  | scan {σ : Type} (stop : σ → Bool) {visit : Nid → Bytes → Scan σ Unit} (state : σ)
      (hvisit : ∀ nid payload state, Caller n ((visit nid payload).run state)) :
      Caller n ((forEachUntil stop visit).run state)
  | scanAlone {σ : Type} (stop : σ → Bool) {visit : Nid → Bytes → Scan σ Unit} (state : σ)
      {workers : Nat} (hworkers : workers ≤ 1) (schedule : List Nat)
      (hvisit : ∀ nid payload state, Caller n ((visit nid payload).run state)) :
      Caller n ((forEachParallelUntil stop visit workers schedule).run state)
  | write : Caller n (Store.attempt write)

/-- Every caller leaves all permits as it found them. -/
theorem Caller.settles (hn : 0 < n) {x : StateM SpineStore α} (h : Caller n x) : Settles n x := by
  induction h with
  | observe view => exact settles_observe view
  | bind _ _ ihx ihf => exact ihx.bind ihf
  | check _ refusal ih =>
    intro s hs
    change Settled n (if s.permits.available = n then _ else refusal s).2
    rw [if_pos hs.available_eq]
    exact ih s hs
  | disturb change => exact fun s hs => hs.of_permits_eq rfl
  | lookup nid => exact fun s hs => hs.lookup hn nid
  | merge nid payload _ ih => exact settles_merge hn nid payload ih
  | scan stop state _ ih =>
    exact maintains_forEachUntil (outlastsTouch_settled hn) ih state
  | scanAlone stop state _ schedule _ ih =>
    exact maintains_forEachParallelUntil (outlastsTouch_settled hn) ih _ schedule state
  | write => exact settles_write hn

/-- **No caller waits for itself.** Over a store that was opened with at least one permit, whatever
a caller does in sequence, however deep its merge functions and actions use the store, and whichever
accesses fail: all permits are there in the end, and so at each moment at which the caller checks,
no two were ever held at once, and every access found one. -/
theorem permits_suffice (hn : 0 < n) {x : StateM SpineStore α} (h : Caller n x) (medium : Medium)
    (size attempts : Nat) :
    (x (ofMedium medium size n attempts)).2.permits.available = n ∧
      (x (ofMedium medium size n attempts)).2.permits.held = 0 ∧
      (x (ofMedium medium size n attempts)).2.permits.peak ≤ 1 ∧
      (x (ofMedium medium size n attempts)).2.permits.starved = false := by
  have hsettled := h.settles hn _ (settled_ofMedium medium size n attempts)
  exact ⟨hsettled.available_eq, hsettled.held, hsettled.peak, hsettled.starved⟩

/-- Merges a payload by a function that checks the permits, looks another nid up and merges a
payload for it, and writes in the end. -/
def mergeAround (nid inner : Nid) (payload : Bytes) :
    StateM SpineStore (Except StoreError Nat) := do
  let _ ← Store.attempt (mergeM nid payload fun old new s =>
    if s.permits.available = 1 then
      (do
        let found ← lookup inner
        let _ ← Store.attempt (mergeM inner (found.getD old) fun _ update => return update)
        return new : StateM SpineStore Bytes) s
    else (old, s))
  Store.attempt write

/-- A merge whose function uses the store again is a caller. -/
theorem caller_mergeAround (nid inner : Nid) (payload : Bytes) :
    Caller 1 (mergeAround nid inner payload) := by
  have hinner (old new : Bytes) : Caller 1 (do
      let found ← lookup inner
      let _ ← Store.attempt (mergeM inner (found.getD old) fun _ update => return update)
      return new) := by
    refine .bind (.lookup inner) fun found => .bind (.merge inner _ fun _ update => ?_) fun _ => ?_
    · exact .observe fun _ => update
    · exact .observe fun _ => new
  refine .bind (.merge nid payload fun old new => ?_) fun _ => .write
  exact .check (hinner old new) fun s => (old, s)

/-- With one permit, a merge function uses the store while the read of the second spine and the
first write fail. -/
theorem permits_suffice_single :
    let medium : Medium :=
      { backing := .shelf ((Shelf.empty.writeSpine 0
          ((Spine.empty.install 1 [0xaa]).encode 2)).writeSpine 1
          ((Spine.empty.install 0 [0xbb]).encode 2))
        faults := { spineReads := { fails := (· = 1) }, spineWrites := .first 1 } }
    let s := (mergeAround ⟨-2147483646⟩ ⟨-2147483645⟩ [0xcc] (ofMedium medium 2 1 4)).2
    s.medium.faults.spineReads.made = 2 ∧ s.medium.faults.spineWrites.made = 1 ∧
      s.permits.available = 1 ∧ s.permits.peak = 1 ∧ s.permits.starved = false := by
  intro medium s
  obtain ⟨havailable, -, -, hstarved⟩ :=
    permits_suffice Nat.one_pos (caller_mergeAround ⟨-2147483646⟩ ⟨-2147483645⟩ [0xcc]) medium 2 4
  exact ⟨by decide +kernel, by decide +kernel, havailable, by decide +kernel, hstarved⟩

end Chronicle.SpineStore
