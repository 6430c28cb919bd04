import Chronicle.Proofs.Store.Closing

/-!
# Transactions on a store

Transactions are begun on a store, and what is done with them is done in between other operations,
in any order. A member of an open transaction has a nid that nobody else came by when it was
created. So it belongs to no other transaction, and only its own one commits it, while anyone may
cancel it. Once its transaction is closed, a member is closed as well.
-/

namespace Chronicle

open StampHistory (storedIn?)
open Store (Operation Throughout DrawsApart Drawn Known Apart attempt overMedium)

/-- An operation of a transaction. -/
def Store.Operation.OfTransaction : Operation → Prop
  | join _ _ _ _ _ _ => True
  | commit _ _ => True
  | cancel _ => True
  | _ => False

/-- A store with the transactions that were begun on it. -/
structure Desk where
  store : Store
  transactions : List Transaction

namespace Desk

/-- What is done at a desk. A transaction is known by its number. -/
inductive Call where
  | new (name : String)
  | join (number : Nat) (status : Status) (author module path : Nid) (fresh : Uuid)
  | commit (number : Nat) (time : Int64)
  | cancel (number : Nat)
  | other (operation : Operation) (h : ¬ operation.OfTransaction)

/-- The desk after something was done with a transaction, whether or not that failed. -/
def onTransaction {α : Type} (d : Desk) (number : Nat) (x : Transaction.Action α) : Desk :=
  match d.transactions[number]? with
  | none => d
  | some t =>
    let after := (attempt x (t, d.store)).2
    { store := after.2, transactions := d.transactions.set number after.1 }

/-- The desk after a call, whether or not it failed. -/
def after (d : Desk) : Call → Desk
  | .new name => { d with transactions := d.transactions ++ [{ name }] }
  | .join number status author module path fresh =>
    d.onTransaction number (Transaction.stamp status author module path fresh)
  | .commit number time => d.onTransaction number (Transaction.commitAt time)
  | .cancel number => d.onTransaction number Transaction.cancel
  | .other operation _ => { d with store := operation.perform d.store }

/-- What a call does with the store. -/
def operations (d : Desk) : Call → List Operation
  | .new _ => []
  | .join number status author module path fresh =>
    d.transactions[number]?.toList.map (.join · status author module path fresh)
  | .commit number time => d.transactions[number]?.toList.map (.commit · time)
  | .cancel number => d.transactions[number]?.toList.map .cancel
  | .other operation _ => [operation]

/-- The desk after some calls. -/
def afterAll (d : Desk) (calls : List Call) : Desk :=
  calls.foldl after d

/-- What some calls do with the store. -/
def trace (d : Desk) : List Call → List Operation
  | [] => []
  | call :: later => d.operations call ++ (d.after call).trace later

/-- What some calls do with the store is done by one part after the other. -/
theorem trace_append (d : Desk) (first second : List Call) :
    d.trace (first ++ second) = d.trace first ++ (d.afterAll first).trace second := by
  induction first generalizing d with
  | nil => rfl
  | cons call later ih =>
    rw [List.cons_append, trace, trace, ih, List.append_assoc]
    rfl

private theorem store_after (d : Desk) (call : Call) :
    (d.after call).store = d.store.performAll (d.operations call) := by
  cases call with
  | new name => rfl
  | join number status author module path fresh =>
    simp only [after, operations, onTransaction]
    cases d.transactions[number]? <;> rfl
  | commit number time =>
    simp only [after, operations, onTransaction]
    cases d.transactions[number]? <;> rfl
  | cancel number =>
    simp only [after, operations, onTransaction]
    cases d.transactions[number]? <;> rfl
  | other operation h => rfl

/-- The store of a desk is what the operations of its calls make of it. -/
theorem store_afterAll (d : Desk) (calls : List Call) :
    (d.afterAll calls).store = d.store.performAll (d.trace calls) := by
  induction calls generalizing d with
  | nil => rfl
  | cons call later ih =>
    change ((d.after call).afterAll later).store = _
    rw [ih, store_after, trace, Store.performAll, Store.performAll, Store.performAll,
      List.foldl_append]

end Desk

/-! ## Members -/

/-- A pending stamp is a stored one, and so is a closed one. -/
theorem PendingIn.isSome {content : Nid → Option Bytes} {nid : Nid} (h : PendingIn content nid) :
    (storedIn? content nid).isSome := by
  cases h with
  | opened hstored _ => rw [hstored]; rfl
  | canceled hstored _ _ => rw [hstored]; rfl

private theorem ClosedIn.isSome {content : Nid → Option Bytes} {nid : Nid}
    (h : ClosedIn content nid) :
    (storedIn? content nid).isSome := by
  obtain ⟨history, hhistory, -⟩ := h.exists_history
  rw [hhistory]
  rfl

variable {config : Config} {past : List Operation} {drawn known : Uuid → Prop} {l m : Ledger}
  {deed : Deed} {deeds : List Deed} {nid : Nid}

/-- A pending stamp stays pending unless it is committed. -/
theorem PendingIn.turns (h : PendingIn l.content nid) (hturns : deed.Turns l m)
    (hsound : deed.Sound drawn known l) (hs : Stamped drawn known l.registry l.content)
    (hcommits : ∀ time, deed ≠ .committed nid time) : PendingIn m.content nid := by
  have hmoves := hturns.moves hsound hs nid
  generalize hafter : storedIn? m.content nid = after at hmoves
  cases h with
  | opened hstored hopen =>
    rw [hstored] at hmoves
    cases hmoves with
    | stays => exact .opened hafter hopen
    | commits time => exact absurd rfl (hcommits time)
    | cancels => exact .canceled hafter (StampFields.isCanceled_canceled _) rfl
  | canceled hstored hcanceled htime =>
    rw [hstored] at hmoves
    cases hmoves with
    | stays => exact .canceled hafter hcanceled htime
    | commits time => exact absurd rfl (hcommits time)
    | cancels hopen =>
      have hnot := not_isCanceled_of_isUncommitted hopen
      exact absurd (hnot.symm.trans hcanceled) Bool.false_ne_true

/-- A pending stamp stays so until it is committed. -/
theorem PendingIn.turnAll (h : PendingIn l.content nid) (hturn : Deed.TurnAll deeds l m)
    (hsound : Deed.AllSound drawn known deeds l) (hs : Stamped drawn known l.registry l.content)
    (hcommits : ∀ time, Deed.committed nid time ∉ deeds) : PendingIn m.content nid := by
  induction hturn with
  | nil => exact h
  | cons hfirst _ ih =>
    refine ih (h.turns hfirst hsound.1 hs fun time heq => hcommits time (heq ▸ List.mem_cons_self))
      (hsound.2 _ hfirst) (hfirst.stamped hsound.1 hs) fun time hmem =>
        hcommits time (List.mem_cons_of_mem _ hmem)

namespace Transaction

variable {t u : Transaction}

/-- The members of a transaction are distinct. They are pending while it is open, and closed
afterwards. -/
structure Tracks (content : Nid → Option Bytes) (t : Transaction) : Prop where
  nodup : t.stamps.Nodup
  pending : t.state = .uncommitted → ∀ nid ∈ t.stamps, PendingIn content nid
  closed : t.state ≠ .uncommitted → ∀ nid ∈ t.stamps, ClosedIn content nid

private theorem Tracks.isSome {content : Nid → Option Bytes} (h : t.Tracks content)
    (hnid : nid ∈ t.stamps) : (storedIn? content nid).isSome := by
  by_cases hstate : t.state = .uncommitted
  · exact (h.pending hstate nid hnid).isSome
  · exact (h.closed hstate nid hnid).isSome

/-- Nothing is wrong with a transaction afterwards if nobody committed its members. -/
theorem Tracks.turnAll (h : t.Tracks l.content) (hturn : Deed.TurnAll deeds l m)
    (hsound : Deed.AllSound drawn known deeds l) (hs : Stamped drawn known l.registry l.content)
    (hcommits : ∀ nid ∈ t.stamps, ∀ time, Deed.committed nid time ∉ deeds) :
    t.Tracks m.content :=
  ⟨h.nodup, fun hstate nid hnid =>
    (h.pending hstate nid hnid).turnAll hturn hsound hs (hcommits nid hnid),
    fun hstate nid hnid =>
      (h.closed hstate nid hnid).congr (hturn.content_eq (h.closed hstate nid hnid))⟩

/-- What may become of a transaction: it is given members and closed, but only while it is open. -/
structure Develops (t u : Transaction) : Prop where
  name_eq : u.name = t.name
  stamps : t.stamps <+: u.stamps
  closed : t.state ≠ .uncommitted → u = t

private theorem Develops.refl (t : Transaction) : t.Develops t :=
  ⟨rfl, List.prefix_refl _, fun _ => rfl⟩

private theorem Develops.trans {v : Transaction} (h : t.Develops u) (h' : u.Develops v) :
    t.Develops v :=
  ⟨h'.name_eq.trans h.name_eq, h.stamps.trans h'.stamps, fun hstate => by
    obtain rfl := h.closed hstate
    exact h'.closed hstate⟩

end Transaction

/-- The only operation that commits a stamp is the one of a transaction that it is a member of. -/
theorem Store.Operation.Does.mem_of_committed {operation : Operation} {time : Int64}
    (h : operation.Does config deeds) (hmem : Deed.committed nid time ∈ deeds) :
    ∃ t, operation = .commit t time ∧ nid ∈ t.stamps := by
  cases h with
  | commit _ _ hnids =>
    obtain ⟨other, hother, heq⟩ := List.mem_map.mp hmem
    cases heq
    exact ⟨_, rfl, hnids nid hother⟩
  | cancel => simp at hmem
  | @cancelVersion _ stamp fresh fields first last hfirst hlast =>
    obtain rfl | rfl := hfirst <;> obtain rfl | ⟨kind, version, rfl⟩ := hlast <;> simp at hmem
  | _ => simp at hmem

namespace Transaction

variable {s : Store} {t u : Transaction} {α : Type}

/-- What is known of a transaction after something was done with it: its members are in order, and
new ones were no stamps before. -/
def Proceeds (config : Config) (l : Ledger) (t : Transaction) (after : Transaction × Store) :
    Prop :=
  ∃ m, after.2.Bears config m ∧ after.1.Tracks m.content ∧ t.Develops after.1 ∧
    ∀ nid ∈ after.1.stamps, nid ∈ t.stamps ∨ storedIn? l.content nid = none

private theorem Tracks.proceeds (h : t.Tracks l.content) (hs : s.Bears config l) :
    t.Proceeds config l (t, s) :=
  ⟨l, hs, h, .refl t, fun _ hnid => Or.inl hnid⟩

/-- Closing closes every member. -/
theorem Tracks.proceeds_close {act : Nid → Store.Action Unit} {close : StampFields → StampFields}
    {failure? : Option (Nid → StoreError)} {state : TransactionState} (h : t.Tracks l.content)
    (hs : s.Bears config l) (hclose : Store.Closes config act close failure?)
    (hstate : state ≠ .uncommitted) :
    t.Proceeds config l (attempt (Transaction.close state act) (t, s)).2 := by
  rw [attempt_close]
  split
  · rename_i hopen
    obtain ⟨m, hm, hclosed, -⟩ := hclose.forMembers hs h.nodup (h.pending hopen)
    refine ⟨m, ⟨hm.config_eq, hm.registry_eq, hm.serves⟩, ⟨h.nodup, fun heq => absurd heq hstate,
      fun _ nid hnid => hclosed.closedIn hclose (h.pending hopen nid hnid) hnid⟩,
      ⟨rfl, List.prefix_refl _, fun heq => absurd hopen heq⟩, fun _ hnid => Or.inl hnid⟩
  · exact h.proceeds hs

/-- Committing at a time leaves the members of a transaction in order. -/
theorem Tracks.proceeds_commitAt (h : t.Tracks l.content) (hs : s.Bears config l) (time : Int64) :
    t.Proceeds config l (attempt (commitAt time) (t, s)).2 := by
  rw [attempt_commitAt]
  split
  · exact h.proceeds hs
  · rename_i htime
    exact h.proceeds_close hs (Store.closes_commitMember (by simpa using htime)) (by decide)

/-- A draft that starts where no stamp was is pending. -/
theorem pendingIn_draft {status : Status} {author module path : Nid}
    (hunstored : storedIn? l.content nid = none)
    (hcontent : m.content = offering l.content nid (.draft status author module path))
    (hsome : (storedIn? m.content nid).isSome) : PendingIn m.content nid := by
  have hstored : storedIn? m.content nid = some (.start (.draft status author module path)) := by
    cases hpayload : l.content nid with
    | none => rw [hcontent, storedIn?_offering_of_none hpayload]
    | some payload =>
      rw [hcontent, offering_of_other _ hpayload hunstored, hunstored] at hsome
      cases hsome
  cases hopen : (StampFields.draft status author module path).isUncommitted with
  | true => exact .opened hstored hopen
  | false =>
    have hcanceled : (StampFields.draft status author module path).isCanceled = true := by
      simpa [StampFields.isUncommitted, StampFields.draft] using hopen
    exact .canceled hstored hcanceled (show Time.isSentinel Time.uncommitted = true by decide)

/-- A new member is a pending stamp, under a nid that no stamp had. -/
theorem Tracks.proceeds_stamp {status : Status} {author module path : Nid} {fresh : Uuid}
    (h : t.Tracks l.content) (hs : s.Bears config l)
    (hl : Stamped drawn known l.registry l.content)
    (hsound : t.state = .uncommitted →
      (Deed.created fresh (.draft status author module path)).Sound drawn known l)
    (hnew : l.registry.nid? fresh = none) :
    t.Proceeds config l (attempt (stamp status author module path fresh) (t, s)).2 := by
  rw [attempt_stamp]
  split
  · rename_i hopen
    have hcreated {m : Ledger}
        (hturns : (Deed.created fresh (.draft status author module path)).Turns l m) :
        t.Tracks m.content :=
      h.turnAll (Deed.turnAll_single hturns) ⟨hsound hopen, fun _ _ => trivial⟩ hl
        fun _ _ _ => by simp
    have hends := Store.follows_createStamp hs (.draft status author module path) fresh
    split
    · rename_i nid u hrun
      obtain ⟨m, hcreates, hsome, hm⟩ := hends.of_ok hrun
      obtain ⟨id, huuids, hresolve⟩ := hcreates.resolved
      have hunstored := hl.unstored_of_resolve hresolve huuids hnew
      have htracks := hcreated hcreates.turns
      have hpending : PendingIn m.content nid :=
        pendingIn_draft hunstored hcreates.content_eq hsome
      have hother : nid ∉ t.stamps := by
        intro hmem
        have hstored := h.isSome hmem
        rw [hunstored] at hstored
        cases hstored
      refine ⟨m, hm, ⟨?_, fun _ other hmem => ?_, fun heq => absurd hopen heq⟩,
        ⟨rfl, List.prefix_append _ _, fun heq => absurd hopen heq⟩, fun other hmem => ?_⟩
      · exact h.nodup.append (List.nodup_singleton nid) (by simpa using hother)
      · rcases List.mem_append.mp hmem with hold | hlast
        · exact htracks.pending hopen other hold
        · rw [List.mem_singleton.mp hlast]
          exact hpending
      · rcases List.mem_append.mp hmem with hold | hlast
        · exact Or.inl hold
        · rw [List.mem_singleton.mp hlast]
          exact Or.inr hunstored
    · rename_i error u hrun
      obtain hu | ⟨m, hturns, hm⟩ := (hends.of_error hrun).mayFollow
      · exact h.proceeds hu
      · exact ⟨m, hm, hcreated hturns, .refl t, fun _ hnid => Or.inl hnid⟩
  · exact h.proceeds hs

end Transaction

namespace Desk

variable {d : Desk} {operation : Operation} {number : Nat} {t : Transaction}

/-- What every moment knows of a desk: stamps are in order, and so are the members of every
transaction, no two of which have one in common. -/
structure Keeps (config : Config) (past : List Operation) (l : Ledger) (d : Desk) : Prop where
  bears : d.store.Bears config l
  orderly : Orderly (Drawn config past) (Known config past) l
  tracks : ∀ (i : Nat) (t : Transaction), d.transactions[i]? = some t → t.Tracks l.content
  apart : ∀ (i j : Nat) (t u : Transaction), d.transactions[i]? = some t →
    d.transactions[j]? = some u → ∀ nid ∈ t.stamps, nid ∈ u.stamps → i = j

/-- A moment of which the same is known, with every transaction that there was. -/
def Leads (config : Config) (past : List Operation) (d e : Desk) : Prop :=
  (∃ m, Keeps config past m e) ∧ ∀ (i : Nat) (t : Transaction), d.transactions[i]? = some t →
    ∃ u, e.transactions[i]? = some u ∧ t.Develops u

private theorem Leads.trans {past' : List Operation} {e f : Desk} (h : Leads config past d e)
    (h' : Leads config past' e f) : Leads config past' d f := by
  refine ⟨h'.1, fun i t ht => ?_⟩
  obtain ⟨u, hu, hdevelops⟩ := h.2 i t ht
  obtain ⟨v, hv, hdevelops'⟩ := h'.2 i u hu
  exact ⟨v, hv, hdevelops.trans hdevelops'⟩

private theorem Keeps.self (h : Keeps config past l d) : Leads config past d d :=
  ⟨⟨l, h⟩, fun _ t ht => ⟨t, ht, .refl t⟩⟩

/-- A new transaction has no members. -/
theorem Keeps.new (h : Keeps config past l d) (name : String) :
    Leads config past d (d.after (.new name)) := by
  have hcases (i : Nat) (t : Transaction) (ht : (d.after (.new name)).transactions[i]? = some t) :
      d.transactions[i]? = some t ∨ t = { name } := by
    simp only [after, List.getElem?_append] at ht
    split at ht
    · exact Or.inl ht
    · rw [List.getElem?_singleton] at ht
      split at ht
      · cases ht
        exact Or.inr rfl
      · cases ht
  refine ⟨⟨l, h.bears, h.orderly, fun i t ht => ?_, fun i j t u ht hu nid hnid hmem => ?_⟩,
    fun i t ht => ⟨t, ?_, .refl t⟩⟩
  · obtain ht | rfl := hcases i t ht
    · exact h.tracks i t ht
    · exact ⟨List.nodup_nil, fun _ _ hnid => (by cases hnid), fun _ _ hnid => (by cases hnid)⟩
  · obtain ht | rfl := hcases i t ht
    · obtain hu | rfl := hcases j u hu
      · exact h.apart i j t u ht hu nid hnid hmem
      · cases hmem
    · cases hnid
  · obtain ⟨hlt, -⟩ := List.getElem?_eq_some_iff.mp ht
    change (d.transactions ++ _)[i]? = some t
    rw [List.getElem?_append_left hlt]
    exact ht

/-- A transaction is in order after an operation that commits none of its members. -/
theorem Keeps.tracks_performed {deeds : List Deed} {s : Store} (h : Keeps config past l d)
    (hconducts : Store.Conducts config past operation l deeds m s) {i : Nat}
    (ht : d.transactions[i]? = some t)
    (hcommits : ∀ u time, operation = .commit u time → ∀ nid ∈ t.stamps, nid ∉ u.stamps) :
    t.Tracks m.content := by
  refine (h.tracks i t ht).turnAll hconducts.turn hconducts.sound
    (Store.orderly_weaken h.orderly operation).stamped fun nid hnid time hmem => ?_
  obtain ⟨u, hcommit, hmember⟩ := hconducts.does.mem_of_committed hmem
  exact hcommits u time hcommit nid hnid hmember

/-- An operation of no transaction leaves all of them as they are. -/
theorem Keeps.other (h : Keeps config past l d) (hother : ¬ operation.OfTransaction)
    (hproper : operation.Proper d.store) (hapart : Apart config past operation) :
    Leads config (past ++ [operation]) d (d.after (.other operation hother)) := by
  obtain ⟨deeds, m, hconducts⟩ := h.bears.perform_proper h.orderly hproper hapart
  refine ⟨⟨m, hconducts.bears, hconducts.orderly, fun i t ht => ?_, h.apart⟩,
    fun i t ht => ⟨t, ht, .refl t⟩⟩
  refine h.tracks_performed hconducts ht fun u time hcommit => ?_
  rw [hcommit] at hother
  exact absurd trivial hother

/-- What is done with a transaction leaves the others as they are. -/
theorem Keeps.onTransaction {α : Type} {x : Transaction.Action α} (h : Keeps config past l d)
    (ht : d.transactions[number]? = some t)
    (hx : t.Proceeds config l (attempt x (t, d.store)).2)
    (hperform : operation.perform d.store = (attempt x (t, d.store)).2.2)
    (hproper : operation.Proper d.store) (hapart : Apart config past operation)
    (hcommits : ∀ u time, operation = .commit u time → u = t) :
    Leads config (past ++ [operation]) d (d.onTransaction number x) := by
  obtain ⟨deeds, m, hconducts⟩ := h.bears.perform_proper h.orderly hproper hapart
  obtain ⟨m', hm', htracks, hdevelops, hmembers⟩ := hx
  rw [← hperform] at hm'
  obtain rfl := hconducts.bears.eq hm'
  have hd : d.onTransaction number x = ⟨operation.perform d.store,
      d.transactions.set number (attempt x (t, d.store)).2.1⟩ := by
    simp only [Desk.onTransaction, ht, hperform]
  rw [hd]
  generalize (attempt x (t, d.store)).2.1 = u at htracks hdevelops hmembers ⊢
  obtain ⟨hlt, -⟩ := List.getElem?_eq_some_iff.mp ht
  have hset (i : Nat) : (d.transactions.set number u)[i]? =
      if number = i then some u else d.transactions[i]? := by
    rw [List.getElem?_set, if_pos hlt]
  -- A member of another transaction was stored before, so it is no new one.
  have hothers (i : Nat) (other : Transaction) (hi : d.transactions[i]? = some other)
      (nid : Nid) (hnid : nid ∈ other.stamps) (hmem : nid ∈ u.stamps) : number = i := by
    rcases hmembers nid hmem with hold | hnone
    · exact h.apart number i t other ht hi nid hold hnid
    · have hstored := (h.tracks i other hi).isSome hnid
      rw [hnone] at hstored
      cases hstored
  refine ⟨⟨m, hconducts.bears, hconducts.orderly, fun i v hv => ?_, fun i j v w hv hw => ?_⟩,
    fun i v hv => ?_⟩
  · rw [hset] at hv
    split at hv
    · cases hv
      exact htracks
    · rename_i hne
      refine h.tracks_performed hconducts hv fun w time hcommit nid hnid hmem => hne ?_
      obtain rfl := hcommits w time hcommit
      exact h.apart number i w v ht hv nid hmem hnid
  · rw [hset] at hv hw
    intro nid hnid hmem
    split at hv <;> split at hw
    · rename_i hi hj
      exact hi.symm.trans hj
    · rename_i hi hj
      cases hv
      exact absurd (hothers j w hw nid hmem hnid) hj
    · rename_i hi hj
      cases hw
      exact absurd (hothers i v hv nid hnid hmem) hi
    · exact h.apart i j v w hv hw nid hnid hmem
  · rw [hset]
    split
    · rename_i hi
      subst hi
      obtain rfl := Option.some.inj (ht.symm.trans hv)
      exact ⟨u, rfl, hdevelops⟩
    · exact ⟨v, hv, .refl v⟩

/-- A call does at most one operation. -/
theorem operations_cases (d : Desk) (call : Call) :
    d.operations call = [] ∨ ∃ operation, d.operations call = [operation] := by
  cases call with
  | new name => exact Or.inl rfl
  | other operation h => exact Or.inr ⟨operation, rfl⟩
  | join number status author module path fresh =>
    rw [operations]
    cases d.transactions[number]? <;> simp
  | commit number time =>
    rw [operations]
    cases d.transactions[number]? <;> simp
  | cancel number =>
    rw [operations]
    cases d.transactions[number]? <;> simp

/-- Every call leads to a moment of which the same is known. -/
theorem Keeps.after (h : Keeps config past l d) (call : Call)
    (hproper : ∀ operation ∈ d.operations call, operation.Proper d.store)
    (hapart : ∀ operation ∈ d.operations call, Apart config past operation) :
    Leads config (past ++ d.operations call) d (d.after call) := by
  have hmissing {α : Type} {number : Nat} {x : Transaction.Action α}
      (ht : d.transactions[number]? = none) :
      Leads config (past ++ []) d (d.onTransaction number x) := by
    rw [List.append_nil, Desk.onTransaction, ht]
    exact h.self
  cases call with
  | new name =>
    rw [operations, List.append_nil]
    exact h.new name
  | other operation hother =>
    have hmem := List.mem_singleton_self operation
    exact h.other hother (hproper operation hmem) (hapart operation hmem)
  | join number status author module path fresh =>
    simp only [operations, Desk.after] at hproper hapart ⊢
    cases ht : d.transactions[number]? with
    | none => exact hmissing ht
    | some t =>
      rw [ht] at hproper hapart
      have hproper := hproper _ (List.mem_singleton_self _)
      have hapart := hapart _ (List.mem_singleton_self _)
      have hfresh := List.mem_singleton_self fresh
      refine h.onTransaction ht ?_ rfl hproper hapart fun _ _ heq => by cases heq
      exact (h.tracks number t ht).proceeds_stamp h.bears
        (Store.orderly_weaken h.orderly _).stamped
        (fun hopen => ((Operation.Does.join status author module path fresh hopen).allSound h.bears
          h.orderly hproper hapart).1)
        (Store.nid?_of_drawn h.orderly hapart hfresh)
  | commit number time =>
    simp only [operations, Desk.after] at hproper hapart ⊢
    cases ht : d.transactions[number]? with
    | none => exact hmissing ht
    | some t =>
      rw [ht] at hproper hapart
      refine h.onTransaction ht ((h.tracks number t ht).proceeds_commitAt h.bears time) rfl
        (hproper _ (List.mem_singleton_self _)) (hapart _ (List.mem_singleton_self _)) ?_
      rintro u time heq
      cases heq
      rfl
  | cancel number =>
    simp only [operations, Desk.after] at hproper hapart ⊢
    cases ht : d.transactions[number]? with
    | none => exact hmissing ht
    | some t =>
      rw [ht] at hproper hapart
      exact h.onTransaction ht
        ((h.tracks number t ht).proceeds_close h.bears Store.closes_cancelMember (by decide)) rfl
        (hproper _ (List.mem_singleton_self _)) (hapart _ (List.mem_singleton_self _))
        fun _ _ heq => by cases heq

/-- What is known of a desk is known after all calls. -/
theorem Keeps.afterAll {calls : List Call} (h : Keeps config past l d)
    (hproper : Throughout Operation.Proper d.store (d.trace calls)) (rest : List Operation)
    (hdraws : DrawsApart config (past ++ d.trace calls ++ rest)) :
    Leads config (past ++ d.trace calls) d (d.afterAll calls) := by
  induction calls generalizing past l d with
  | nil =>
    rw [trace, List.append_nil]
    exact h.self
  | cons call later ih =>
    rw [trace] at hproper hdraws ⊢
    obtain ⟨hfirst, hlater⟩ := hproper.of_append (d.operations call)
    have hstep : Leads config (past ++ d.operations call) d (d.after call) := by
      refine h.after call (fun operation hoperation => ?_) fun operation hoperation => ?_
      all_goals obtain hnone | ⟨found, hfound⟩ := d.operations_cases call
      · rw [hnone] at hoperation
        cases hoperation
      · rw [hfound] at hoperation hfirst
        rw [List.mem_singleton.mp hoperation]
        exact hfirst.1
      · rw [hnone] at hoperation
        cases hoperation
      · rw [hfound] at hoperation hdraws
        rw [List.mem_singleton.mp hoperation]
        exact DrawsApart.apart ((d.after call).trace later ++ rest) (by simpa using hdraws)
    obtain ⟨m, hm⟩ := hstep.1
    rw [← store_after] at hlater
    rw [← List.append_assoc] at hdraws ⊢
    exact hstep.trans (ih hm hlater hdraws)

/-- Nothing is wrong with a store that was opened over an empty medium, on which no transaction was
begun. -/
theorem keeps_opened {medium : Medium} {opened : Store} (h : Store.Opens config medium opened)
    (hblank : medium.backing.Blank) : ∃ l, Keeps config [] l ⟨opened, []⟩ := by
  obtain ⟨l, hl, horderly⟩ := h.orderly hblank
  exact ⟨l, hl, horderly, fun i t ht => (by simp at ht), fun i j t u ht => (by simp at ht)⟩

end Desk

end Chronicle
