import Chronicle.Proofs.Store.Desk
import Chronicle.Proofs.Store.Reopening

/-!
# The life of a transaction

A transaction is open until it is committed or canceled for the first time, whatever else is done in
between. It is closed with all of its members, of which the one that was canceled first is reported
if it is committed. From then on it stays as it is and refuses everything.
-/

namespace Chronicle

open StampHistory (storedIn?)
open Store (Operation Throughout DrawsApart attempt overMedium)

namespace Store

/-- The effective fields of a stamp, if one is found. -/
def fieldsAt? (s : Store) (nid : Nid) : Option StampFields :=
  (attempt (stamp nid) s).1.toOption

/-- Whether the stamp at a nid is found and is open. -/
def isOpenAt (s : Store) (nid : Nid) : Bool :=
  (s.fieldsAt? nid).any StampFields.isUncommitted

/-- Whether the stamp at a nid is found and is canceled. -/
def isCanceledAt (s : Store) (nid : Nid) : Bool :=
  (s.fieldsAt? nid).any StampFields.isCanceled

variable {s : Store} {config : Config} {l : Ledger}

private theorem Bears.fieldsAt?_eq (h : s.Bears config l) :
    s.fieldsAt? = StampFields.storedIn? l.content := by
  funext nid
  apply Option.ext
  intro fields
  rw [← h.stamp_iff, fieldsAt?]
  cases (attempt (stamp nid) s).1 <;> simp [Except.toOption]

private theorem Bears.isOpenAt_eq (h : s.Bears config l) : s.isOpenAt = openIn l.content := by
  funext nid
  rw [isOpenAt, openIn, h.fieldsAt?_eq]

private theorem Bears.isCanceledAt_eq (h : s.Bears config l) :
    s.isCanceledAt = canceledIn l.content := by
  funext nid
  rw [isCanceledAt, canceledIn, h.fieldsAt?_eq]

end Store

namespace Transaction

variable {t : Transaction} {s s' : Store} {config : Config} {l m : Ledger}

/-- A transaction refuses everything with an error. A time that no stamp can be committed at is
refused before it is looked at. -/
structure Refuses (t : Transaction) (s : Store) (error : TransactionError) : Prop where
  stamp : ∀ status author module path fresh,
    Transaction.stamp status author module path fresh (t, s) = .error (.transaction error) (t, s)
  cancel : Transaction.cancel (t, s) = .error (.transaction error) (t, s)
  commitAt : ∀ time, Time.isSentinel time = false →
    Transaction.commitAt time (t, s) = .error (.transaction error) (t, s)

/-- A transaction that is not open refuses everything, with the error of the check. -/
theorem refuses_of_checkOpen {error : TransactionError} (h : t.state.checkOpen = .error error)
    (s : Store) : t.Refuses s error := by
  have hbind {α : Type} (x : Action α) :
      (checkOpen >>= fun _ => x) (t, s) = .error (.transaction error) (t, s) := by
    rw [checkOpen_bind, h]
  refine ⟨fun _ _ _ _ _ => hbind _, hbind _, fun time htime => ?_⟩
  rw [commitAt_eq htime, Transaction.close, hbind]

/-- From one store to another, every open member takes the fields that close it, and no other
payload changes. -/
structure ClosesIn (close : StampFields → StampFields) (t : Transaction) (s s' : Store) : Prop where
  members : ∀ nid ∈ t.stamps, s.isOpenAt nid = true →
    s'.fieldsAt? nid = (s.fieldsAt? nid).map close
  others : ∀ nid, (nid ∈ t.stamps → s.isOpenAt nid = false) →
    (SpineStore.lookup nid s'.spines).1 = (SpineStore.lookup nid s.spines).1

private theorem Tracks.closesIn {close : StampFields → StampFields} (h : t.Tracks l.content)
    (hopen : t.state = .uncommitted) (hs : s.Bears config l) (hs' : s'.Bears config m)
    (hclosed : Store.ClosedAll close t.stamps l m) : t.ClosesIn close s s' := by
  constructor
  · intro nid hnid hisOpen
    rw [hs.isOpenAt_eq] at hisOpen
    rw [hs'.fieldsAt?_eq, hs.fieldsAt?_eq]
    cases h.pending hopen nid hnid with
    | opened hstored hdraft =>
      rw [hclosed.opened nid hnid _ hstored hdraft, storedIn?_of_history hstored]
      rfl
    | canceled hstored hcanceled _ =>
      rw [openIn_of_stored hstored,
        StampFields.isUncommitted_of_closed (Or.inr hcanceled)] at hisOpen
      cases hisOpen
  · intro nid hnid
    rw [hs.isOpenAt_eq] at hnid
    rw [hs'.lookup_eq, hs.lookup_eq, hclosed.others nid hnid]

/-- What closing an open transaction comes to. -/
theorem Tracks.close_eq {act : Nid → Store.Action Unit} {close : StampFields → StampFields}
    {failure? : Option (Nid → StoreError)} (h : t.Tracks l.content)
    (hopen : t.state = .uncommitted) (hs : s.Bears config l)
    (hclose : Store.Closes config act close failure?) (state : TransactionState) :
    ∃ s' m, s'.Bears config m ∧ Store.ClosedAll close t.stamps l m ∧
      Transaction.close state act (t, s) =
        match (t.stamps.find? s.isCanceledAt).bind fun nid => failure?.map (· nid) with
        | none => .ok () ({ t with state }, s')
        | some error => .error error ({ t with state }, s') := by
  obtain ⟨m, hm, hclosed, hanswer⟩ := hclose.forMembers hs h.nodup (h.pending hopen)
  refine ⟨(Store.resetCaches (forMembers act t.stamps s).2).2, m,
    ⟨hm.config_eq, hm.registry_eq, hm.serves⟩, hclosed, ?_⟩
  rw [close_of_open hopen, hanswer]
  cases hfailure : (t.stamps.find? (canceledIn l.content)).bind fun nid => failure?.map (· nid) with
  | none => simp only [hs.isCanceledAt_eq, hfailure]
  | some error => simp only [hs.isCanceledAt_eq, hfailure]

/-- A member of an open transaction is open or canceled. -/
theorem Tracks.open_or_canceled (h : t.Tracks l.content) (hopen : t.state = .uncommitted)
    (hs : s.Bears config l) {nid : Nid} (hnid : nid ∈ t.stamps) :
    s.isOpenAt nid = true ∨ s.isCanceledAt nid = true := by
  rw [hs.isOpenAt_eq, hs.isCanceledAt_eq]
  cases h.pending hopen nid hnid with
  | opened hstored hdraft => exact Or.inl ((openIn_of_stored hstored).trans hdraft)
  | canceled hstored hcanceled _ =>
    exact Or.inr ((canceledIn_of_stored hstored).trans hcanceled)

/-- A member that was open is canceled, and one that was canceled stays so. -/
theorem ClosesIn.isCanceledAt (h : t.ClosesIn StampFields.canceled s s') {nid : Nid}
    (hnid : nid ∈ t.stamps) (hs : s.isOpenAt nid = true ∨ s.isCanceledAt nid = true) :
    s'.isCanceledAt nid = true := by
  by_cases hopen : s.isOpenAt nid = true
  · rw [Store.isCanceledAt, h.members nid hnid hopen]
    obtain ⟨fields, hfields, -⟩ := (Option.any_eq_true _ _).mp hopen
    rw [hfields]
    exact StampFields.isCanceled_canceled fields
  · have hsame := h.others nid fun _ => by simpa using hopen
    rw [Store.isCanceledAt, Store.fieldsAt?, Store.stamp_congr hsame]
    exact hs.resolve_left hopen

end Transaction

open Transaction (commitAt cancel ClosesIn)

/-- **A transaction is closed once.** Transactions are begun on a store that was empty, and their
calls come in any order with each other and with other operations, as long as the UUIDs that are
drawn differ from all others, nobody names the UUID of an existing stamp and no payload is merged
past the store. At any moment of such a run, for each transaction:

* Whatever follows, it only gets further members, and nothing happens to it once it is closed. Then
  no member of it is uncommitted ever after.
* To commit it at a time that stands for no commit fails and changes nothing.
* Once it is closed it refuses everything else with the error that tells how it was closed.
* While it is open, each member is uncommitted or canceled. To commit it at a time commits the
  uncommitted ones at that time and changes nothing else. The answer is the time, or that the first
  canceled member is canceled. To cancel it cancels the uncommitted ones, changes nothing else and
  succeeds. -/
theorem Transaction.closes_once {config : Config} {medium next : Medium} {rooted : Bool}
    {opened : Store} {before after : List Desk.Call} {number : Nat} {t : Transaction}
    (hblank : medium.backing.Blank) (hopen : overMedium config rooted medium = .ok opened next)
    (hproper : Throughout Operation.Proper opened (Desk.trace ⟨opened, []⟩ (before ++ after)))
    (hdraws : DrawsApart config (Desk.trace ⟨opened, []⟩ (before ++ after)))
    (ht : (Desk.afterAll ⟨opened, []⟩ before).transactions[number]? = some t) :
    let d := Desk.afterAll ⟨opened, []⟩ before
    let s := d.store
    let e := d.afterAll after
    (∃ u, e.transactions[number]? = some u ∧ t.Develops u) ∧
    (t.state ≠ .uncommitted → ∀ nid ∈ t.stamps,
      ∃ fields, e.store.fieldsAt? nid = some fields ∧ fields.isUncommitted = false) ∧
    (∀ time, Time.isSentinel time = true →
      commitAt time (t, s) = .error (.configuration (.sentinelTime time)) (t, s)) ∧
    (t.state = .committed → t.Refuses s .alreadyCommitted) ∧
    (t.state = .canceled → t.Refuses s .alreadyCanceled) ∧
    (t.state = .uncommitted →
      (∀ nid ∈ t.stamps, s.isOpenAt nid = true ∨ s.isCanceledAt nid = true) ∧
      (∀ time, Time.isSentinel time = false → ∃ s',
        commitAt time (t, s) =
          (match t.stamps.find? s.isCanceledAt with
          | none => .ok time ({ t with state := .committed }, s')
          | some nid =>
            .error (.transaction (.stampCanceled nid)) ({ t with state := .committed }, s')) ∧
        t.ClosesIn (·.committedAt time) s s') ∧
      ∃ s', cancel (t, s) = .ok () ({ t with state := .canceled }, s') ∧
        t.ClosesIn StampFields.canceled s s' ∧ ∀ nid ∈ t.stamps, s'.isCanceledAt nid = true) := by
  intro d s e
  obtain ⟨l, hl⟩ := Desk.keeps_opened (Store.opens_of_overMedium hopen) hblank
  rw [Desk.trace_append] at hproper hdraws
  obtain ⟨hbefore, hafter⟩ := hproper.of_append _
  rw [← Desk.store_afterAll ⟨opened, []⟩] at hafter
  obtain ⟨m, hm⟩ := (hl.afterAll hbefore (d.trace after) (by simpa using hdraws)).1
  obtain ⟨⟨n, hn⟩, hdevelop⟩ := hm.afterAll hafter [] (by simpa using hdraws)
  have htracks : t.Tracks m.content := hm.tracks number t ht
  obtain ⟨u, hu, hdevelops⟩ := hdevelop number t ht
  refine ⟨⟨u, hu, hdevelops⟩, fun hclosed nid hnid => ?_,
    fun time htime => Transaction.commitAt_of_sentinel htime,
    fun hstate => refuses_of_checkOpen (by rw [hstate]; rfl) s,
    fun hstate => refuses_of_checkOpen (by rw [hstate]; rfl) s, fun hstate => ?_⟩
  · obtain rfl := hdevelops.closed hclosed
    rw [hn.bears.fieldsAt?_eq]
    exact (hn.tracks number u hu).closed hclosed nid hnid
  have hmembers (nid : Nid) (hnid : nid ∈ t.stamps) :
      s.isOpenAt nid = true ∨ s.isCanceledAt nid = true :=
    htracks.open_or_canceled hstate hm.bears hnid
  refine ⟨hmembers, fun time htime => ?_, ?_⟩
  · obtain ⟨s', m', hs', hclosed, heq⟩ := htracks.close_eq hstate hm.bears
      (Store.closes_commitMember htime) .committed
    refine ⟨s', ?_, htracks.closesIn hstate hm.bears hs' hclosed⟩
    rw [Transaction.commitAt_eq htime, heq]
    cases t.stamps.find? d.store.isCanceledAt <;> rfl
  · obtain ⟨s', m', hs', hclosed, heq⟩ := htracks.close_eq hstate hm.bears
      Store.closes_cancelMember .canceled
    have hcloses : t.ClosesIn StampFields.canceled s s' :=
      htracks.closesIn hstate hm.bears hs' hclosed
    refine ⟨s', ?_, hcloses, fun nid hnid => hcloses.isCanceledAt hnid (hmembers nid hnid)⟩
    rw [Transaction.cancel, heq]
    cases t.stamps.find? d.store.isCanceledAt <;> rfl

/-- Of two members, one is canceled on its own. Committing the transaction commits the other one and
reports the canceled one, and afterwards the transaction refuses further members. -/
theorem Transaction.closes_once_canceled :
    ∃ opened next t first second before after s' u,
      overMedium { spineSize := 4 } false Medium.inMemory = .ok opened next ∧
      let d := Desk.afterAll ⟨opened, []⟩ before
      let e := d.afterAll after
      d.transactions[0]? = some t ∧ t.stamps = [first, second] ∧
      commitAt 7 (t, d.store) =
        .error (.transaction (.stampCanceled second)) ({ t with state := .committed }, s') ∧
      s'.fieldsAt? first = (d.store.fieldsAt? first).map (·.committedAt 7) ∧
      e.transactions[0]? = some u ∧ t.stamps <+: u.stamps ∧ u.state = .committed ∧
      u.Refuses e.store .alreadyCommitted := by
  let path : Nid := ⟨-2147483642⟩
  let first : Nid := ⟨-2147483641⟩
  let second : Nid := ⟨-2147483640⟩
  let t : Transaction := { name := "work", stamps := [first, second] }
  let u : Transaction := { name := "work", state := .committed, stamps := [first, second] }
  let before : List Desk.Call :=
    [.other (.resolveAliases [⟨1⟩]) id, .new "work", .join 0 .active path path path ⟨2⟩,
      .join 0 .active path path path ⟨3⟩, .other (.cancelStamp second) id]
  let after : List Desk.Call := [.commit 0 7, .join 0 .active path path path ⟨4⟩]
  obtain ⟨opened, next, hopen, hunknown, ht, hu, hisOpen, hfind, hsome⟩ :
      ∃ opened next, overMedium { spineSize := 4 } false Medium.inMemory = .ok opened next ∧
        opened.registry.nid? ⟨1⟩ = none ∧
        let d := Desk.afterAll ⟨opened, []⟩ before
        d.transactions[0]? = some t ∧ (d.afterAll after).transactions[0]? = some u ∧
        d.store.isOpenAt first = true ∧ t.stamps.find? d.store.isCanceledAt = some second ∧
        ∀ k ∈ [2, 3, 5, 6],
          ((Desk.afterAll ⟨opened, []⟩
            ((before ++ after).take k)).transactions[0]?).isSome = true :=
    ⟨_, _, rfl, by decide +kernel, by decide +kernel, by decide +kernel, by decide +kernel,
      by decide +kernel, by decide +kernel⟩
  obtain ⟨t₁, h₁⟩ := Option.isSome_iff_exists.mp (hsome 2 (by simp))
  obtain ⟨t₂, h₂⟩ := Option.isSome_iff_exists.mp (hsome 3 (by simp))
  obtain ⟨t₃, h₃⟩ := Option.isSome_iff_exists.mp (hsome 5 (by simp))
  obtain ⟨t₄, h₄⟩ := Option.isSome_iff_exists.mp (hsome 6 (by simp))
  have htrace : Desk.trace ⟨opened, []⟩ (before ++ after) =
      [.resolveAliases [⟨1⟩], .join t₁ .active path path path ⟨2⟩,
        .join t₂ .active path path path ⟨3⟩, .cancelStamp second, .commit t₃ 7,
        .join t₄ .active path path path ⟨4⟩] := by
    simp only [before, after, List.cons_append, List.nil_append, List.take, Desk.afterAll,
      List.foldl, Desk.trace, Desk.operations, Option.toList] at h₁ h₂ h₃ h₄ ⊢
    rw [h₁, h₂, h₃, h₄]
    rfl
  have hproper : Throughout Operation.Proper opened
      (Desk.trace ⟨opened, []⟩ (before ++ after)) := by
    rw [htrace]
    exact ⟨Store.proper_of_unknown hunknown, id, id, id, id, id, trivial⟩
  have hdraws : DrawsApart { spineSize := 4 } (Desk.trace ⟨opened, []⟩ (before ++ after)) := by
    have hdrawn : (Desk.trace ⟨opened, []⟩ (before ++ after)).flatMap
        (Operation.drawn { spineSize := 4 }) = [⟨2⟩, ⟨3⟩, ⟨4⟩] := by
      rw [htrace]
      rfl
    have hnamed : (Desk.trace ⟨opened, []⟩ (before ++ after)).flatMap
        (Operation.named { spineSize := 4 }) = [⟨1⟩] := by
      rw [htrace]
      rfl
    refine ⟨?_, ?_, ?_⟩ <;> rw [hdrawn]
    · decide
    · rw [hnamed]
      decide
    · intro uuid huuid status
      simp only [List.mem_cons, List.not_mem_nil, or_false] at huuid
      rcases huuid with rfl | rfl | rfl <;> cases status <;> decide
  obtain ⟨⟨v, hv, hdevelops⟩, -, -, -, -, hwhile⟩ :=
    Transaction.closes_once Backing.blank_inMemory hopen hproper hdraws ht
  obtain ⟨-, hcommit, -⟩ := hwhile rfl
  obtain ⟨s', hanswer, hcloses⟩ := hcommit 7 (by decide)
  obtain rfl : u = v := Option.some.inj (hu.symm.trans hv)
  rw [hfind] at hanswer
  exact ⟨opened, next, t, first, second, before, after, s', u, hopen, ht, rfl, hanswer,
    hcloses.members first (by decide) hisOpen, hu, hdevelops.stamps, rfl,
    Transaction.refuses_of_checkOpen rfl _⟩

end Chronicle
