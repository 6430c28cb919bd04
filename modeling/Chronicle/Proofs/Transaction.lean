import Chronicle.Proofs.Store.Outcome
import Chronicle.Transaction

/-!
# What transactions do to a store

A transaction that is closed does nothing more to the store. An open one creates a stamp, or does
something with its members one after another and resets the caches.
-/

namespace Chronicle.Transaction

open Store (attempt get_bind modify_bind)

variable {t : Transaction} {s : Store}

private theorem checkOpen_eq (t : Transaction) (s : Store) :
    checkOpen (t, s) =
      match t.state.checkOpen with
      | .ok () => .ok () (t, s)
      | .error error => .error (.transaction error) (t, s) :=
  rfl

/-- What a transaction does first is to check that it is open. -/
theorem checkOpen_bind {α : Type} (x : Action α) :
    (checkOpen >>= fun _ => x) (t, s) =
      match t.state.checkOpen with
      | .ok () => x (t, s)
      | .error error => .error (.transaction error) (t, s) := by
  simp only [bind, EStateM.bind, checkOpen_eq]
  cases t.state <;> rfl

/-- An open transaction passes the check. -/
theorem checkOpen_of_open (hopen : t.state = .uncommitted) : t.state.checkOpen = .ok () := by
  rw [hopen]
  rfl

/-- An open transaction creates a draft stamp and lists it as a member. -/
theorem stamp_of_open (hopen : t.state = .uncommitted) (status : Status)
    (author module path : Nid) (fresh : Uuid) :
    stamp status author module path fresh (t, s) =
      match Store.createStamp (StampFields.draft status author module path) fresh s with
      | .ok nid u => .ok nid ({ t with stamps := t.stamps ++ [nid] }, u)
      | .error error u => .error error (t, u) := by
  rw [stamp, checkOpen_bind, checkOpen_of_open hopen]
  generalize Store.createStamp (StampFields.draft status author module path) fresh = created
  simp only [bind, EStateM.bind, onStore]
  cases created s <;> rfl

/-- A member that is created is a stamp that the store created. -/
theorem createStamp_of_stamp {status : Status} {author module path nid : Nid} {fresh : Uuid}
    {after : Transaction} {u : Store}
    (h : stamp status author module path fresh (t, s) = .ok nid (after, u)) :
    Store.createStamp (StampFields.draft status author module path) fresh s = .ok nid u := by
  by_cases hopen : t.state = .uncommitted
  · rw [stamp_of_open hopen] at h
    split at h
    · rename_i hcreated
      cases h
      exact hcreated
    · cases h
  · rw [stamp, checkOpen_bind] at h
    cases hstate : t.state with
    | uncommitted => exact absurd hstate hopen
    | committed =>
      rw [hstate] at h
      cases h
    | canceled =>
      rw [hstate] at h
      cases h

/-- Closing does something with each member and resets the caches. -/
theorem close_of_open (hopen : t.state = .uncommitted) (state : TransactionState)
    (act : Nid → Store.Action Unit) :
    let closed := ({ t with state }, (Store.resetCaches (forMembers act t.stamps s).2).2)
    close state act (t, s) =
      match (forMembers act t.stamps s).1 with
      | none => .ok () closed
      | some error => .error error closed := by
  rw [close, checkOpen_bind, checkOpen_of_open hopen]
  obtain ⟨failure, after, hafter⟩ :
      ∃ failure after, forMembers act t.stamps s = (failure, after) :=
    ⟨_, _, rfl⟩
  simp only [modify_bind, get_bind]
  simp only [bind, EStateM.bind, onStore, Store.infallible, hafter]
  cases failure <;> rfl

/-- A closed transaction does nothing. -/
theorem attempt_checkOpen_of_closed {α : Type} (hclosed : t.state ≠ .uncommitted) (x : Action α) :
    (attempt (checkOpen >>= fun _ => x) (t, s)).2 = (t, s) := by
  rw [attempt, checkOpen_bind]
  cases hstate : t.state with
  | uncommitted => exact absurd hstate hclosed
  | committed => rfl
  | canceled => rfl

/-- Closing an open transaction leaves it closed, whatever becomes of its members. -/
theorem attempt_close (state : TransactionState) (act : Nid → Store.Action Unit) :
    (attempt (close state act) (t, s)).2 =
      if t.state = .uncommitted then
        ({ t with state }, (Store.resetCaches (forMembers act t.stamps s).2).2)
      else (t, s) := by
  split
  · rename_i hopen
    rw [attempt, close_of_open hopen]
    cases (forMembers act t.stamps s).1 <;> rfl
  · rename_i hclosed
    exact attempt_checkOpen_of_closed hclosed _

/-- A stamp that is asked for becomes a member if the transaction is open and the stamp could be
created. -/
theorem attempt_stamp (status : Status) (author module path : Nid) (fresh : Uuid) :
    (attempt (stamp status author module path fresh) (t, s)).2 =
      if t.state = .uncommitted then
        match Store.createStamp (StampFields.draft status author module path) fresh s with
        | .ok nid u => ({ t with stamps := t.stamps ++ [nid] }, u)
        | .error _ u => (t, u)
      else (t, s) := by
  split
  · rename_i hopen
    rw [attempt, stamp_of_open hopen]
    cases Store.createStamp (StampFields.draft status author module path) fresh s <;> rfl
  · rename_i hclosed
    exact attempt_checkOpen_of_closed hclosed _

/-- Creating a member creates a stamp in the store. -/
theorem store_stamp (status : Status) (author module path : Nid) (fresh : Uuid) :
    (attempt (stamp status author module path fresh) (t, s)).2.2 =
      if t.state = .uncommitted then
        (attempt (Store.createStamp (StampFields.draft status author module path) fresh) s).2
      else s := by
  rw [attempt_stamp]
  split
  · rw [attempt]
    cases Store.createStamp (StampFields.draft status author module path) fresh s <;> rfl
  · rfl

/-- Closing acts on the members of an open transaction and on nothing of a closed one. -/
theorem store_close (state : TransactionState) (act : Nid → Store.Action Unit) :
    (attempt (close state act) (t, s)).2.2 =
      if t.state = .uncommitted then (Store.resetCaches (forMembers act t.stamps s).2).2
      else s := by
  rw [attempt_close]
  split <;> rfl

/-- A time that is a sentinel is refused before anything is done. -/
theorem commitAt_of_sentinel {time : Int64} (h : Time.isSentinel time = true) :
    commitAt time (t, s) = .error (.configuration (.sentinelTime time)) (t, s) := by
  rw [commitAt, if_pos h]
  rfl

/-- Committing at a time closes the transaction and answers that time. -/
theorem commitAt_eq {time : Int64} (h : Time.isSentinel time = false) :
    commitAt time (t, s) =
      match close .committed (Store.commitMember time) (t, s) with
      | .ok () after => .ok time after
      | .error error after => .error error after := by
  rw [commitAt, if_neg (by simp [h])]
  simp only [bind, EStateM.bind]
  cases close .committed (Store.commitMember time) (t, s) <;> rfl

/-- What committing leaves behind is what closing does, unless the time is a sentinel. -/
theorem attempt_commitAt (time : Int64) :
    (attempt (commitAt time) (t, s)).2 =
      if Time.isSentinel time = true then (t, s)
      else (attempt (close .committed (Store.commitMember time)) (t, s)).2 := by
  split
  · rename_i htime
    rw [attempt, commitAt_of_sentinel htime]
  · rename_i htime
    rw [attempt, attempt, commitAt_eq (by simpa using htime)]
    cases close .committed (Store.commitMember time) (t, s) <;> rfl

/-- The store after committing is the one after closing, unless the time is a sentinel. -/
theorem store_commitAt (time : Int64) :
    (attempt (commitAt time) (t, s)).2.2 =
      if Time.isSentinel time = true then s
      else (attempt (close .committed (Store.commitMember time)) (t, s)).2.2 := by
  rw [attempt_commitAt]
  split <;> rfl

/-- What outlasts what is done with a single member outlasts that it is done with all of them. -/
theorem forMembers_induction {act : Nid → Store.Action Unit} {P : Store → Prop} (nids : List Nid)
    (hstep : ∀ nid ∈ nids, ∀ s, P s → P (attempt (act nid) s).2) (h : P s) :
    P (forMembers act nids s).2 := by
  induction nids generalizing s with
  | nil => exact h
  | cons nid nids ih =>
    have hfirst := hstep nid List.mem_cons_self s h
    have hrest : ∀ other ∈ nids, ∀ s, P s → P (attempt (act other) s).2 :=
      fun other hother => hstep other (List.mem_cons_of_mem nid hother)
    cases hact : act nid s with
    | ok _ after =>
      simp only [attempt, hact] at hfirst
      simp only [forMembers, hact]
      exact ih hrest hfirst
    | error error after =>
      simp only [attempt, hact] at hfirst
      simp only [forMembers, hact]
      exact ih hrest hfirst

end Chronicle.Transaction
