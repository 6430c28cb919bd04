import Chronicle.Proofs.Store.Finality
import Mathlib.Data.List.Find

/-!
# Closing a transaction

A member of an open transaction is an open stamp, or was canceled on its own in the meantime. What
is done with it when the transaction is closed closes the one and leaves the other alone, which
counts as a failure or not. One member after another is tried, so that every open one is closed,
nothing else is changed and the first failure is the answer.
-/

namespace Chronicle

open StampHistory (storedIn? push_of_closed current_push_of_open)

/-- A stamp is open, or was canceled without having been committed. -/
inductive PendingIn (content : Nid → Option Bytes) (nid : Nid) : Prop
  | opened {draft : StampFields} (hstored : storedIn? content nid = some (.start draft))
      (hopen : draft.isUncommitted = true)
  | canceled {history : StampHistory} (hstored : storedIn? content nid = some history)
      (hcanceled : history.current.isCanceled = true)
      (htime : Time.isSentinel history.current.time = true)

variable {content content' : Nid → Option Bytes} {nid : Nid} {l m : Ledger}

private theorem PendingIn.congr (h : PendingIn content nid) (hsame : content' nid = content nid) :
    PendingIn content' nid := by
  have hstored : storedIn? content' nid = storedIn? content nid := by
    rw [storedIn?, hsame]
    rfl
  cases h with
  | opened hdraft hopen => exact .opened (hstored.trans hdraft) hopen
  | canceled hhistory hcanceled htime => exact .canceled (hstored.trans hhistory) hcanceled htime

/-- Whether a stamp is canceled. -/
def canceledIn (content : Nid → Option Bytes) (nid : Nid) : Bool :=
  (StampFields.storedIn? content nid).any StampFields.isCanceled

/-- Whether a stamp is open. -/
def openIn (content : Nid → Option Bytes) (nid : Nid) : Bool :=
  (StampFields.storedIn? content nid).any StampFields.isUncommitted

/-- A stamp is canceled exactly if its current fields say so. -/
theorem canceledIn_of_stored {history : StampHistory} (h : storedIn? content nid = some history) :
    canceledIn content nid = history.current.isCanceled := by
  rw [canceledIn, storedIn?_of_history h]
  rfl

/-- A stamp is open exactly if its current fields say so. -/
theorem openIn_of_stored {history : StampHistory} (h : storedIn? content nid = some history) :
    openIn content nid = history.current.isUncommitted := by
  rw [openIn, storedIn?_of_history h]
  rfl

/-- Open fields are not canceled. -/
theorem not_isCanceled_of_isUncommitted {fields : StampFields} (h : fields.isUncommitted = true) :
    fields.isCanceled = false := by
  rw [StampFields.isUncommitted, Bool.and_eq_true] at h
  simpa using h.1

namespace Store

variable {s t : Store} {config : Config} {history : StampHistory} {draft : StampFields}
  {time : Int64}

/-! ## Single members -/

/-- A stored stamp is found with its current fields. -/
theorem ends_stamp_of_stored (hs : s.Bears config l) (h : storedIn? l.content nid = some history) :
    Ends (stamp nid) s (fun fields t => fields = history.current ∧ t.Bears config l)
      fun _ _ => False := by
  have hfound := hs.stamp_iff.mpr (storedIn?_of_history h)
  obtain ⟨t, hrun⟩ : ∃ t, stamp nid s = .ok history.current t :=
    ⟨_, eq_of_attempt_ok (Prod.ext hfound rfl)⟩
  exact ends_of_ok hrun ⟨rfl, Serving.bears hs ((ends_stamp hs.serves nid).of_ok hrun).2⟩

/-- A stamp that is stored takes the fields that are offered if it is open. -/
theorem ends_offer_of_stored (hs : s.Bears config l) (h : storedIn? l.content nid = some history)
    (hsingle : history.current.isUncommitted = true → history.earlier = [])
    (fields : StampFields) :
    Ends (offerFields nid fields) s
      (fun current t => current = (history.push fields).current ∧
        ∃ m : Ledger, m.registry = l.registry ∧ m.content = offering l.content nid fields ∧
          t.Bears config m)
      fun _ _ => False := by
  have htaken : storedIn? (offering l.content nid fields) nid = some (history.push fields) :=
    storedIn?_offering_of_some h hsingle
  refine (ends_offer_of_le hs.serves (le_of_storedIn? h) fields).mono ?_ ?_
  · rintro _ t ⟨⟨found, hfound, rfl⟩, ht⟩
    obtain rfl := Option.some.inj (htaken.symm.trans hfound)
    exact ⟨rfl, Serving.exists_ledger hs ht⟩
  · rintro _ t ⟨hnone, -⟩
    rw [htaken] at hnone
    cases hnone

/-- What is done with the members of a transaction closes the open ones: they take the fields that
are closed for them. A canceled one stays, and may be a failure. -/
structure Closes (config : Config) (act : Nid → Action Unit) (close : StampFields → StampFields)
    (failure? : Option (Nid → StoreError)) : Prop where
  isUncommitted : ∀ fields, fields.isUncommitted = true → (close fields).isUncommitted = false
  opened : ∀ {s : Store} {l : Ledger} {nid : Nid} {draft : StampFields}, s.Bears config l →
    storedIn? l.content nid = some (.start draft) → draft.isUncommitted = true →
    Ends (act nid) s
      (fun _ t => ∃ m : Ledger, m.registry = l.registry ∧
        m.content = offering l.content nid (close draft) ∧ t.Bears config m)
      fun _ _ => False
  canceled : ∀ {s : Store} {l : Ledger} {nid : Nid} {history : StampHistory}, s.Bears config l →
    storedIn? l.content nid = some history → history.current.isCanceled = true →
    Time.isSentinel history.current.time = true →
    Ends (act nid) s (fun _ t => failure? = none ∧ t.Bears config l)
      fun error t => failure?.map (· nid) = some error ∧ t.Bears config l

/-- A canceled stamp takes no fields. -/
theorem ends_offer_of_canceled (hs : s.Bears config l)
    (h : storedIn? l.content nid = some history) (hcanceled : history.current.isCanceled = true)
    (fields : StampFields) :
    Ends (offerFields nid fields) s
      (fun current t => current = history.current ∧ t.Bears config l) fun _ _ => False := by
  have hclosed := StampFields.isUncommitted_of_closed (Or.inr hcanceled)
  refine (ends_offer_of_stored hs h (fun hopen => ?_) fields).mono ?_ fun _ _ hfalse => hfalse
  · rw [hclosed] at hopen
    cases hopen
  · rintro _ t ⟨rfl, m, hregistry, hcontent, hm⟩
    rw [push_of_closed hclosed]
    exact ⟨rfl, hm.of_eq hregistry (hcontent.trans (offering_of_closed fields h hclosed))⟩

/-- Committing reports a canceled member. -/
theorem closes_commitMember (htime : Time.isSentinel time = false) :
    Closes config (commitMember time) (·.committedAt time)
      (some fun nid => .transaction (.stampCanceled nid)) where
  isUncommitted _ _ := StampFields.isUncommitted_committedAt htime
  opened {s l nid draft} hs hstored hopen := by
    refine (ends_stamp_of_stored hs hstored).bind ?_
    rintro _ t ⟨rfl, ht⟩
    refine (ends_offer_of_stored ht hstored (fun _ => rfl) _).bind ?_
    rintro _ u ⟨rfl, hu⟩
    rw [current_push_of_open hopen, if_pos rfl]
    exact ends_pure hu
  canceled {s l nid history} hs hstored hcanceled hsentinel := by
    refine ((ends_stamp_of_stored hs hstored).weaken fun _ _ hfalse => hfalse.elim).bind ?_
    rintro _ t ⟨rfl, ht⟩
    refine ((ends_offer_of_canceled ht hstored hcanceled _).weaken
      fun _ _ hfalse => hfalse.elim).bind ?_
    rintro _ u ⟨rfl, hu⟩
    have hne : history.current ≠ history.current.committedAt time := by
      intro heq
      rw [heq] at hsentinel
      change Time.isSentinel time = true at hsentinel
      rw [htime] at hsentinel
      cases hsentinel
    rw [if_neg hne, if_pos hcanceled]
    exact ends_throw ⟨rfl, hu⟩

/-- Canceling does not mind a canceled member. -/
theorem closes_cancelMember : Closes config cancelMember StampFields.canceled none where
  isUncommitted _ _ := StampFields.isUncommitted_canceled _
  opened {s l nid draft} hs hstored hopen := by
    refine (ends_stamp_of_stored hs hstored).bind ?_
    rintro fields t ⟨hfields, ht⟩
    change fields = draft at hfields
    have hcommitted : draft.isCommitted = false := by
      rw [StampFields.isUncommitted, Bool.and_eq_true] at hopen
      rw [StampFields.isCommitted, bne, hopen.2]
      simp
    rw [hfields]
    dsimp only
    rw [hcommitted]
    refine (ends_offer_of_stored ht hstored (fun _ => rfl) _).bind ?_
    rintro _ u ⟨rfl, hu⟩
    rw [current_push_of_open hopen, StampFields.isCommitted_canceled]
    exact ends_pure hu
  canceled {s l nid history} hs hstored hcanceled _ := by
    refine ((ends_stamp_of_stored hs hstored).weaken fun _ _ hfalse => hfalse.elim).bind ?_
    rintro _ t ⟨rfl, ht⟩
    have hcommitted : history.current.isCommitted = false := by
      rw [StampFields.isCommitted, hcanceled]
      rfl
    dsimp only
    rw [hcommitted]
    refine ((ends_offer_of_canceled ht hstored hcanceled _).weaken
      fun _ _ hfalse => hfalse.elim).bind ?_
    rintro _ u ⟨rfl, hu⟩
    rw [hcommitted]
    exact ends_pure ⟨rfl, hu⟩

/-! ## All members -/

/-- What closing some members makes of a ledger: the open ones are closed, and nothing else
changes. -/
structure ClosedAll (close : StampFields → StampFields) (nids : List Nid) (l m : Ledger) :
    Prop where
  registry_eq : m.registry = l.registry
  opened : ∀ nid ∈ nids, ∀ draft : StampFields, storedIn? l.content nid = some (.start draft) →
    draft.isUncommitted = true →
    StampFields.storedIn? m.content nid = some (close draft)
  others : ∀ nid, (nid ∈ nids → openIn l.content nid = false) → m.content nid = l.content nid

/-- What closing a single member makes of a ledger. -/
theorem closedAll_single {close : StampFields → StampFields}
    (hstored : storedIn? l.content nid = some (.start draft)) (hopen : draft.isUncommitted = true)
    (hregistry : m.registry = l.registry)
    (hcontent : m.content = offering l.content nid (close draft)) :
    ClosedAll close [nid] l m := by
  refine ⟨hregistry, fun other hother found hfound _ => ?_, fun other hother => ?_⟩
  · obtain rfl := List.mem_singleton.mp hother
    obtain rfl : draft = found := congrArg StampHistory.current
      (Option.some.inj (hstored.symm.trans hfound))
    have htaken : storedIn? (offering l.content other (close draft)) other = _ :=
      storedIn?_offering_of_some hstored fun _ => rfl
    rw [hcontent, storedIn?_of_history htaken, current_push_of_open hopen]
  · have hne : other ≠ nid := by
      rintro rfl
      have hclosed := hother (List.mem_singleton_self other)
      rw [openIn_of_stored hstored] at hclosed
      change draft.isUncommitted = false at hclosed
      rw [hopen] at hclosed
      cases hclosed
    rw [hcontent, offering, replaced, if_neg hne]

/-- Every member that was pending is closed. -/
theorem ClosedAll.closedIn {act : Nid → Action Unit} {close : StampFields → StampFields}
    {failure? : Option (Nid → StoreError)} {nids : List Nid} (h : ClosedAll close nids l m)
    (hclose : Closes config act close failure?) (hpending : PendingIn l.content nid)
    (hnid : nid ∈ nids) : ClosedIn m.content nid := by
  cases hpending with
  | opened hstored hopen =>
    exact ⟨_, h.opened nid hnid _ hstored hopen, hclose.isUncommitted _ hopen⟩
  | canceled hstored hcanceled _ =>
    have hclosed := StampFields.isUncommitted_of_closed (Or.inr hcanceled)
    have hsame := h.others nid fun _ => (openIn_of_stored hstored).trans hclosed
    exact ClosedIn.congr ⟨_, storedIn?_of_history hstored, hclosed⟩ hsame

/-- Closing a member and then the others closes them all. -/
theorem ClosedAll.cons {close : StampFields → StampFields} {nids : List Nid} {n : Ledger}
    (h : ClosedAll close [nid] l m) (h' : ClosedAll close nids m n) (hnew : nid ∉ nids) :
    ClosedAll close (nid :: nids) l n := by
  have hfirst {other : Nid} (hother : other ≠ nid) : m.content other = l.content other :=
    h.others other fun hmem => absurd (List.mem_singleton.mp hmem) hother
  have hlast : n.content nid = m.content nid := h'.others nid fun hmem => absurd hmem hnew
  refine ⟨h'.registry_eq.trans h.registry_eq, fun other hother draft hstored hopen => ?_,
    fun other hother => ?_⟩
  · rcases List.mem_cons.mp hother with rfl | hmem
    · rw [StampFields.storedIn?, storedIn?, hlast]
      exact h.opened other (List.mem_singleton_self other) draft hstored hopen
    · have hne : other ≠ nid := fun heq => hnew (heq ▸ hmem)
      refine h'.opened other hmem draft ?_ hopen
      rw [storedIn?, hfirst hne]
      exact hstored
  · by_cases hne : other = nid
    · subst hne
      rw [hlast]
      exact h.others other fun _ => hother List.mem_cons_self
    · rw [h'.others other fun hmem => ?_, hfirst hne]
      rw [openIn, StampFields.storedIn?, storedIn?, hfirst hne]
      exact hother (List.mem_cons_of_mem nid hmem)

private theorem closedAll_of_canceled {close : StampFields → StampFields} (l : Ledger)
    (hstored : storedIn? l.content nid = some history)
    (hcanceled : history.current.isCanceled = true) : ClosedAll close [nid] l l := by
  refine ⟨rfl, fun other hother draft hdraft hopen => ?_, fun _ _ => rfl⟩
  obtain rfl := List.mem_singleton.mp hother
  obtain rfl := Option.some.inj (hstored.symm.trans hdraft)
  change draft.isCanceled = true at hcanceled
  rw [not_isCanceled_of_isUncommitted hopen] at hcanceled
  cases hcanceled

/-- Every member is tried, and the first failure is the answer. -/
theorem Closes.forMembers {act : Nid → Action Unit} {close : StampFields → StampFields}
    {failure? : Option (Nid → StoreError)} (h : Closes config act close failure?) {nids : List Nid}
    (hs : s.Bears config l) (hnodup : nids.Nodup)
    (hpending : ∀ nid ∈ nids, PendingIn l.content nid) :
    ∃ m, (Transaction.forMembers act nids s).2.Bears config m ∧ ClosedAll close nids l m ∧
      (Transaction.forMembers act nids s).1 =
        (nids.find? (canceledIn l.content)).bind fun nid => failure?.map (· nid) := by
  induction nids generalizing s l with
  | nil => exact ⟨l, hs, ⟨rfl, by simp, fun _ _ => rfl⟩, rfl⟩
  | cons nid rest ih =>
    obtain ⟨hnew, hrest⟩ := List.nodup_cons.mp hnodup
    have hlater {m : Ledger} {t : Store} (hm : t.Bears config m)
        (hfirst : ClosedAll close [nid] l m) :
        ∃ n, (Transaction.forMembers act rest t).2.Bears config n ∧
          ClosedAll close (nid :: rest) l n ∧
          (Transaction.forMembers act rest t).1 =
            (rest.find? (canceledIn l.content)).bind fun nid => failure?.map (· nid) := by
      have hsame (other : Nid) (hother : other ∈ rest) : m.content other = l.content other :=
        hfirst.others other fun hmem =>
          absurd (List.mem_singleton.mp hmem ▸ hother) hnew
      obtain ⟨n, hn, hclosed, hanswer⟩ := ih hm hrest fun other hother =>
        (hpending other (List.mem_cons_of_mem nid hother)).congr (hsame other hother)
      have hfind : rest.find? (canceledIn m.content) = rest.find? (canceledIn l.content) := by
        refine List.find?_congr fun other hother => ?_
        rw [canceledIn, StampFields.storedIn?, storedIn?, hsame other hother]
        rfl
      exact ⟨n, hn, hfirst.cons hclosed hnew, hfind ▸ hanswer⟩
    cases hpending nid List.mem_cons_self with
    | opened hstored hopen =>
      obtain ⟨_, t, hrun, m, hregistry, hcontent, hm⟩ := (h.opened hs hstored hopen).exists_ok
      obtain ⟨n, hn, hclosed, hanswer⟩ :=
        hlater hm (closedAll_single hstored hopen hregistry hcontent)
      have hnot : canceledIn l.content nid = false :=
        (canceledIn_of_stored hstored).trans (not_isCanceled_of_isUncommitted hopen)
      rw [List.find?_cons_of_neg (by simp [hnot])]
      simp only [Transaction.forMembers, hrun]
      exact ⟨n, hn, hclosed, hanswer⟩
    | canceled hstored hcanceled htime =>
      have hends := h.canceled hs hstored hcanceled htime
      have hfirst : ClosedAll close [nid] l l := closedAll_of_canceled l hstored hcanceled
      rw [List.find?_cons_of_pos ((canceledIn_of_stored hstored).trans hcanceled), Option.bind_some]
      cases hrun : act nid s with
      | ok _ t =>
        obtain ⟨rfl, ht⟩ := hends.of_ok hrun
        obtain ⟨n, hn, hclosed, hanswer⟩ := hlater ht hfirst
        simp only [Transaction.forMembers, hrun]
        exact ⟨n, hn, hclosed, hanswer.trans (by simp)⟩
      | error error t =>
        obtain ⟨hsome, ht⟩ := hends.of_error hrun
        obtain ⟨n, hn, hclosed, -⟩ := hlater ht hfirst
        simp only [Transaction.forMembers, hrun]
        exact ⟨n, hn, hclosed, hsome.symm⟩

end Store

end Chronicle
