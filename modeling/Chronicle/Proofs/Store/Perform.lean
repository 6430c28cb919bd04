import Chronicle.Proofs.Store.Change

/-!
# What operations keep

Every operation that is done by the rules keeps a property that all changes by the rules keep, at
whatever point it fails.
-/

namespace Chronicle.Store

/-- What adding an origin does: it fails, it changes nothing, or it resets the caches. -/
theorem addPathOrigin_eq (path : Nid) (edge : PathOrigin) (s : Store) :
    addPathOrigin path edge s =
      match s.paths.addOrigin path edge with
      | .error error => .error (.configuration error) s
      | .ok none => .ok () s
      | .ok (some paths) => .ok () (resetCaches { s with paths }).2 := by
  rw [addPathOrigin, get_bind]
  simp only [bind, EStateM.bind, outcome]
  cases s.paths.addOrigin path edge with
  | error error => rfl
  | ok paths? => cases paths? <;> rfl

namespace Invariant

variable {rules : Rules} {I : Store → Prop} (inv : Invariant rules I) {s t : Store}

include inv

/-! ## Stamps -/

/-- Reading the history of a stamp keeps the property. -/
theorem keeps_stampHistory (h : I s) (nid : Nid) :
    Keeps rules I (Store.stampHistory nid) s fun _ t => rules.stored t nid := by
  refine (inv.keeps_lookup h nid).bind fun payload? t hleads hstored => ?_
  cases payload? with
  | some payload =>
    exact ends_outcome (fun _ _ => ⟨.refl hleads.holds, hstored rfl⟩) fun _ _ => .refl hleads.holds
  | none => exact keeps_throw hleads.holds

private theorem keeps_stamp (h : I s) (nid : Nid) :
    Keeps rules I (Store.stamp nid) s fun _ t => rules.stored t nid :=
  (inv.keeps_stampHistory h nid).bind fun _ _ hleads hstored => keeps_pure hleads.holds hstored

/-- Offering fields keeps the property where payloads may be stored. -/
theorem keeps_offerFields {nid : Nid} (h : I s) (hnid : rules.stored s nid) (fields : StampFields) :
    Keeps rules I (Store.offerFields nid fields) s fun _ _ => True := by
  refine (inv.keeps_merge h hnid _ _).bind fun stored t hleads _ => ?_
  refine (keeps_outcome hleads.holds).bind fun history u hleads' _ => ?_
  exact keeps_pure hleads'.holds trivial

/-- Creating a stamp keeps the property. -/
theorem keeps_createStamp (h : I s) (fields : StampFields) (uuid : Uuid) :
    Keeps rules I (Store.createStamp fields uuid) s fun nid t => rules.stored t nid := by
  refine (keeps_outcome h).bind fun id t hleads _ => ?_
  refine (inv.keeps_resolve hleads.holds id).bind fun nid t hleads hnid => ?_
  refine (inv.keeps_offerFields hleads.holds hnid fields).bind fun current u hleads' _ => ?_
  split
  · exact keeps_throw_bind hleads'.holds
  · exact keeps_pure hleads'.holds (hleads'.stored nid hnid)

/-- Committing a stamp keeps the property. -/
theorem keeps_commitStamp (h : I s) (fields : StampFields) (fresh : Uuid) :
    Keeps rules I (Store.commitStamp fields fresh) s fun _ _ => True := by
  rw [Store.commitStamp]
  split
  · exact keeps_throw_bind h
  · exact (inv.keeps_createStamp h fields _).mono fun _ _ _ => trivial

/-- A stamp that is found is one that may be stored. -/
theorem keeps_commitMember (h : I s) (time : Int64) (nid : Nid) :
    Keeps rules I (Store.commitMember time nid) s fun _ _ => True := by
  refine (inv.keeps_stamp h nid).bind fun fields t hleads hnid => ?_
  refine (inv.keeps_offerFields hleads.holds hnid _).bind fun current u hleads' _ => ?_
  split
  · exact keeps_pure hleads'.holds trivial
  · split
    · exact keeps_throw hleads'.holds
    · exact keeps_throw hleads'.holds

/-- Canceling a member keeps the property. -/
theorem keeps_cancelMember (h : I s) (nid : Nid) :
    Keeps rules I (Store.cancelMember nid) s fun _ _ => True := by
  refine (inv.keeps_stamp h nid).bind fun fields t hleads hnid => ?_
  dsimp only
  split
  · exact keeps_throw_bind hleads.holds
  · refine (inv.keeps_offerFields hleads.holds hnid _).bind fun current u hleads' _ => ?_
    split
    · exact keeps_throw hleads'.holds
    · exact keeps_pure hleads'.holds trivial

private theorem keeps_cancelStamp (h : I s) (nid : Nid) :
    Keeps rules I (Store.cancelStamp nid) s fun _ _ => True :=
  (inv.keeps_cancelMember h nid).bind fun _ _ hleads _ => inv.keeps_resetCaches hleads.holds

/-! ## Transactions -/

/-- A new member of a transaction keeps the property. -/
theorem join (h : I s) (t : Transaction) (status : Status) (author module path : Nid)
    (fresh : Uuid) :
    Leads rules I s (Operation.perform s (.join t status author module path fresh)) := by
  rw [Operation.perform, Transaction.store_stamp]
  split
  · exact (inv.keeps_createStamp h _ fresh).attempt
  · exact .refl h

/-- Closing a transaction keeps the property if what is done with its members does. -/
theorem close (h : I s) (t : Transaction) (state : TransactionState) {act : Nid → Action Unit}
    (hact : ∀ nid {s}, I s → Keeps rules I (act nid) s fun _ _ => True) :
    Leads rules I s (attempt (Transaction.close state act) (t, s)).2.2 := by
  rw [Transaction.store_close]
  split
  · have hmembers : Leads rules I s (Transaction.forMembers act t.stamps s).2 :=
      Transaction.forMembers_induction (P := Leads rules I s) t.stamps
        (fun nid _ _ hleads => hleads.trans (hact nid hleads.holds).attempt) (.refl h)
    exact hmembers.trans (inv.resetCaches hmembers.holds)
  · exact .refl h

/-- Committing a transaction keeps the property. -/
theorem commit (h : I s) (t : Transaction) (time : Int64) :
    Leads rules I s (Operation.perform s (.commit t time)) := by
  rw [Operation.perform, Transaction.store_commitAt]
  split
  · exact .refl h
  · exact inv.close h t _ fun nid _ h => inv.keeps_commitMember h time nid

/-! ## Components -/

/-- Reading a chronology keeps the property. -/
theorem keeps_chronology (h : I s) (nid : Nid) :
    Keeps rules I (Store.chronology nid) s fun _ t => rules.stored t nid := by
  refine (inv.keeps_lookup h nid).bind fun payload? t hleads hstored => ?_
  cases payload? with
  | some payload =>
    exact ends_outcome (fun _ _ => ⟨.refl hleads.holds, hstored rfl⟩) fun _ _ => .refl hleads.holds
  | none => exact keeps_throw hleads.holds

/-- Appending a version keeps the property where payloads may be stored. -/
theorem keeps_appendVersion {nid : Nid} (h : I s) (hnid : rules.stored s nid) (kind : ComponentKind)
    (version : Version) :
    Keeps rules I (Store.appendVersion nid kind version) s fun _ _ => True := by
  refine (inv.keeps_stamp h version.stamp).bind fun fields t hleads _ => ?_
  refine (inv.keeps_merge hleads.holds (hleads.stored nid hnid) _ _).bind
    fun stored t hleads _ => ?_
  refine (keeps_outcome hleads.holds).bind fun chronology u hleads _ => ?_
  dsimp only
  split
  · exact keeps_throw_bind hleads.holds
  · exact keeps_pure hleads.holds trivial

/-- Retracting a version keeps the property. -/
theorem keeps_cancelVersion (h : I s) (nid stamp : Nid) (fresh : Uuid) :
    Keeps rules I (Store.cancelVersion nid stamp fresh) s fun _ _ => True := by
  refine (inv.keeps_chronology h nid).bind fun recorded t hleads hnid => ?_
  cases recorded.version? stamp with
  | none => exact keeps_throw hleads.holds
  | some version =>
    refine (inv.keeps_stamp hleads.holds stamp).bind fun fields u hleads' _ => ?_
    have hrest {v : Store} (hv : Leads rules I u v) : Keeps rules I (do
        let canceled ← Store.createStamp fields.canceled fresh
        let _ ← Store.appendVersion nid recorded.kind
          { stamp := canceled, fields := version.fields }
        infallible Store.resetCaches
        return canceled) v fun _ _ => True := by
      refine (inv.keeps_createStamp hv.holds _ fresh).bind fun canceled w hleads'' _ => ?_
      have hnid' := ((hleads'.trans hv).trans hleads'').stored nid hnid
      refine (inv.keeps_appendVersion hleads''.holds hnid' _ _).bind fun _ x hleads _ => ?_
      refine (inv.keeps_resetCaches hleads.holds).bind fun _ y hleads _ => ?_
      exact keeps_pure hleads.holds trivial
    dsimp only
    split
    · exact (inv.keeps_cancelMember hleads'.holds stamp).bind fun _ _ hv _ => hrest hv
    · exact hrest (.refl hleads'.holds)

/-! ## Views -/

/-- An edge between nids that may be linked keeps the property. -/
theorem keeps_addPathOrigin {path : Nid} {edge : PathOrigin} (h : I s) (hpath : rules.linked s path)
    (horigin : rules.linked s edge.origin) :
    Keeps rules I (Store.addPathOrigin path edge) s fun _ _ => True := by
  have hrun := addPathOrigin_eq path edge s
  cases hadd : s.paths.addOrigin path edge with
  | error error =>
    rw [hadd] at hrun
    exact ends_of_error hrun (.refl h)
  | ok paths? =>
    rw [hadd] at hrun
    cases paths? with
    | none => exact ends_of_ok hrun ⟨.refl h, trivial⟩
    | some paths =>
      have hleads := inv.leads h (.linked hpath horigin hadd)
      exact ends_of_ok hrun ⟨hleads.trans (inv.resetCaches hleads.holds), trivial⟩

/-- Whatever a calculator is asked, it looks payloads up and is changed itself. -/
theorem asked {α : Type} (h : I s) (handle : CalculatorHandle)
    {question : Scene → SpineStore.Scan Calculator α}
    (hquestion : ∀ scene {Q : SpineStore → Prop},
      Calculator.OutlastsAnswers scene (fun _ s => Q s) →
      SpineStore.Scan.Maintains (fun _ s => Q s) (question scene)) :
    Leads rules I s (Store.ask handle question s).2 := by
  have hspines : Leads rules I s
      { s with spines := (question s.scene (s.pool.get handle s.scene) s.spines).2 } :=
    hquestion s.scene (Calculator.outlastsAnswers_of_touch s.scene (inv.outlastsTouch s))
      (s.pool.get handle s.scene) s.spines (.refl h)
  exact hspines.trans (inv.leads hspines.holds (.pool _))

private theorem calculator (h : I s) (coordinate : Coordinate) :
    Leads rules I s (Store.calculator coordinate s).2 :=
  inv.leads h (.pool _)

/-! ## Flushing -/

/-- Writing the identity table keeps the property when the rules allow it. -/
theorem flushRegistry (h : I s) (hrule : s.registry.changed = true → rules.identity s) :
    Leads rules I s (Store.flushRegistry s).2 := by
  have hflushes := flushesRegistry s
  generalize Store.flushRegistry s = run at hflushes ⊢
  obtain ⟨answer, t⟩ := run
  cases hflushes with
  | unchanged => exact .refl h
  | written hchanged hwrites => exact inv.leads h (.identity (hrule hchanged) hwrites)
  | failed hchanged hwrites =>
    exact inv.leads h (.accessed hwrites.readSpine (hwrites.failed (by simp)) hwrites.other)

/-- Writing the path table keeps the property when the rules allow it. -/
theorem flushPaths (h : I s) (hrule : s.paths.changed = true →
      (Store.flushPaths s).2.paths.changed = false → rules.paths s) :
    Leads rules I s (Store.flushPaths s).2 := by
  have hflushes := flushesPaths s
  generalize Store.flushPaths s = run at hflushes hrule ⊢
  obtain ⟨answer, t⟩ := run
  cases hflushes with
  | unchanged => exact .refl h
  | written hchanged hwrites => exact inv.leads h (.paths (hrule hchanged rfl) hwrites)
  | failed hchanged hwrites =>
    exact inv.leads h (.accessed hwrites.readSpine hwrites.other (hwrites.failed (by simp)))

/-- A flush by the rules keeps the property. -/
theorem keeps_flush (h : I s) (hpermitted : rules.Permits s .flush) :
    Keeps rules I Store.flush s fun _ _ => True := by
  obtain ⟨hidentity, hpaths, hspines⟩ := hpermitted
  have hfirst := inv.flushRegistry h hidentity
  have hsecond := inv.flushPaths hfirst.holds hpaths
  refine ends_flush (fun _ _ => hfirst.trans hsecond) fun m n hm hn => ?_
  obtain ⟨medium, -, hafter⟩ := store_of_flushes hm hn
  have hrule := hspines (by rw [hafter]; rfl) (by rw [hafter]; rfl)
  exact Ends.mono (inv.keeps_write hsecond.holds hrule)
    (fun _ _ hpost => ⟨(hfirst.trans hsecond).trans hpost.1, trivial⟩)
    fun _ _ hleads => (hfirst.trans hsecond).trans hleads

/-- An operation that is done by the rules keeps the property. -/
theorem perform {operation : Operation} (h : I s) (hpermitted : rules.Permits s operation) :
    Leads rules I s (operation.perform s) := by
  cases operation with
  | resolve id => exact (inv.keeps_resolve h id).attempt
  | resolveAliases uuids =>
    have hresolve : Keeps rules I (Store.resolveAliases uuids) s fun _ _ => True :=
      (keeps_outcome h).bind fun id t hleads _ =>
        (inv.keeps_resolve hleads.holds id).mono fun _ _ _ => trivial
    exact hresolve.attempt
  | payloads request => exact inv.payloads h hpermitted
  | commitStamp fields fresh => exact (inv.keeps_commitStamp h fields fresh).attempt
  | cancelStamp nid => exact (inv.keeps_cancelStamp h nid).attempt
  | join t status author module path fresh => exact inv.join h t status author module path fresh
  | commit t time => exact inv.commit h t time
  | cancel t => exact inv.close h t _ fun nid _ h => inv.keeps_cancelMember h nid
  | appendVersion nid kind version =>
    exact (inv.keeps_appendVersion h hpermitted kind version).attempt
  | cancelVersion nid stamp fresh => exact (inv.keeps_cancelVersion h nid stamp fresh).attempt
  | addPathOrigin path edge =>
    exact (inv.keeps_addPathOrigin h hpermitted.1 hpermitted.2).attempt
  | intern coordinate => exact inv.leads h (.pool _)
  | calculator coordinate => exact inv.calculator h coordinate
  | ask handle question => exact inv.asked h handle fun scene _ hoth => hoth.maintains_ask question
  | latestAll coordinate =>
    have hcalculator := inv.calculator h coordinate
    have hasked : Leads rules I (Store.calculator coordinate s).2
        (Store.ask (Store.calculator coordinate s).1 Calculator.latestAll
          (Store.calculator coordinate s).2).2 :=
      inv.asked hcalculator.holds _ fun scene _ hoth c s hs => hoth.latestAll hs
    exact hcalculator.trans hasked
  | resetCaches => exact inv.resetCaches h
  | evict eviction => exact inv.leads h (.pool _)
  | flush => exact (inv.keeps_flush h hpermitted).attempt

/-- A property that the opening establishes holds in every moment of a session. -/
theorem session {usage : Usage} {opened : Store} (hopened : I opened)
    (hallowed : ∀ s operation, I s → usage.allows s operation → rules.Permits s operation)
    (hs : Session usage opened s) : I s := by
  induction hs with
  | opened => exact hopened
  | performed _ hoperation ih => exact (inv.perform ih (hallowed _ _ ih hoperation)).holds
  | faults _ faults ih => exact inv.change ih (.accessed (fun _ => rfl) rfl rfl)

end Invariant

/-! ## Without restrictions -/

/-- Everything is done by the rules. -/
def unrestrictedRules : Rules where
  stored := fun _ _ => True
  linked := fun _ _ => True
  identity := fun _ => True
  paths := fun _ => True
  spines := fun _ => True

/-- Every operation is done by the rules that restrict nothing. -/
theorem unrestricted_permits (s : Store) (operation : Operation) :
    unrestrictedRules.Permits s operation := by
  cases operation with
  | payloads request => cases request <;> trivial
  | addPathOrigin => exact ⟨trivial, trivial⟩
  | flush => exact ⟨fun _ => trivial, fun _ _ => trivial, fun _ _ => trivial⟩
  | _ => trivial

/-- What every change keeps, every operation keeps. -/
theorem invariant_of_change {I : Store → Prop}
    (h : ∀ {s t}, I s → Change unrestrictedRules s t → I t) : Invariant unrestrictedRules I where
  change := h
  stored _ _ _ := trivial
  resolved _ _ := trivial
  held _ _ := trivial
  spines _ _ _ := trivial

end Chronicle.Store
