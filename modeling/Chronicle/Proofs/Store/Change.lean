import Chronicle.Proofs.Spine.Observation
import Chronicle.Proofs.Spine.Operations
import Chronicle.Proofs.Store.Operation
import Chronicle.Proofs.Store.Tables
import Chronicle.Proofs.Transaction

/-!
# Changes of a store

Whatever is done with a store changes it by few kinds of small changes. This file says once which
changes each operation makes. A property of every moment of a session is one that the opening
establishes and that every change keeps.

Some properties only hold if payloads are stored for certain nids, if edges lead between certain
nids, or if tables and spines are written at certain times. The rules of a property say for which
and when.
-/

namespace Chronicle

namespace Store

/-- When a change is made by the rules. -/
structure Rules where
  /-- A payload may be stored for a nid. -/
  stored : Store → Nid → Prop
  /-- A nid may become a path or an origin. -/
  linked : Store → Nid → Prop
  /-- The identity table may be written. -/
  identity : Store → Prop
  /-- The path table may be written. -/
  paths : Store → Prop
  /-- Spines may be written. -/
  spines : Store → Prop

/-- Smallest changes of a store. -/
inductive Change (rules : Rules) (s : Store) : Store → Prop
  | pool (pool : CalculatorPool) : Change rules s { s with pool }
  | resolved {id : PublicId} {nid : Nid} {registry : Registry}
      (h : s.registry.resolve id = .ok (nid, registry)) : Change rules s { s with registry }
  | linked {path : Nid} {edge : PathOrigin} {paths : PathGraph} (hpath : rules.linked s path)
      (horigin : rules.linked s edge.origin) (h : s.paths.addOrigin path edge = .ok (some paths)) :
      Change rules s { s with paths }
  | touched {index : Nat} {spines : SpineStore}
      (h : SpineStore.Transition s.spines (.touched index) spines) :
      Change rules s { s with spines }
  | installed {nid : Nid} {payload : Bytes} {spines : SpineStore} (hnid : rules.stored s nid)
      (h : SpineStore.Transition s.spines (.installed nid payload) spines) :
      Change rules s { s with spines }
  | flushed {index : Nat} {spines : SpineStore} (hrule : rules.spines s)
      (h : SpineStore.Transition s.spines (.flushed index) spines)
      (hidentity : spines.medium.backing.readTable identityTable =
        s.backing.readTable identityTable)
      (hpaths : spines.medium.backing.readTable pathTable = s.backing.readTable pathTable) :
      Change rules s { s with spines }
  | identity {medium : Medium} (hrule : rules.identity s)
      (h : WritesTable identityTable pathTable s.registry.encodeTable s.spines.medium (.ok ())
        medium) :
      Change rules s { s with registry := s.registry.settled, spines := { s.spines with medium } }
  | paths {medium : Medium} (hrule : rules.paths s)
      (h : WritesTable pathTable identityTable s.paths.encodeTable s.spines.medium (.ok ())
        medium) :
      Change rules s { s with paths := s.paths.settled, spines := { s.spines with medium } }
  /-- An access to the medium leaves all that is persisted as it is. -/
  | accessed {medium : Medium}
      (hspines : ∀ index, medium.backing.readSpine index = s.backing.readSpine index)
      (hidentity : medium.backing.readTable identityTable = s.backing.readTable identityTable)
      (hpaths : medium.backing.readTable pathTable = s.backing.readTable pathTable) :
      Change rules s { s with spines := { s.spines with medium } }

/-- A property is kept by every change that is made by the rules. Payloads may be stored for the
nids that the registry hands out and for those that have one already. -/
structure Invariant (rules : Rules) (I : Store → Prop) : Prop where
  change : ∀ {s t}, I s → Change rules s t → I t
  stored : ∀ {s t nid}, I s → Change rules s t → rules.stored s nid → rules.stored t nid
  resolved : ∀ {s id nid registry}, I s → s.registry.resolve id = .ok (nid, registry) →
    rules.stored { s with registry } nid
  held : ∀ {s nid payload}, I s → (SpineStore.lookup nid s.spines).1 = some payload →
    rules.stored s nid
  spines : ∀ {s index spines}, I s → rules.spines s →
    SpineStore.Transition s.spines (.flushed index) spines → rules.spines { s with spines }

/-- The operations that are done by the rules. Whether a flush is depends on when it writes what. -/
def Rules.Permits (rules : Rules) (s : Store) : Operation → Prop
  | .payloads (.merge nid _ _) => rules.stored s nid
  | .payloads .write => rules.spines s
  | .appendVersion nid _ _ => rules.stored s nid
  | .addPathOrigin path edge => rules.linked s path ∧ rules.linked s edge.origin
  | .flush =>
    let first := (flushRegistry s).2
    let second := (flushPaths first).2
    (s.registry.changed = true → rules.identity s) ∧
      (first.paths.changed = true → second.paths.changed = false → rules.paths first) ∧
      (second.registry.changed = false → second.paths.changed = false → rules.spines second)
  | _ => True

/-- What is known of a later state of a store. -/
structure Leads (rules : Rules) (I : Store → Prop) (s t : Store) : Prop where
  holds : I t
  stored : ∀ nid, rules.stored s nid → rules.stored t nid

/-- An action keeps a property at both of its ends. -/
def Keeps {α : Type} (rules : Rules) (I : Store → Prop) (x : Action α) (s : Store)
    (post : α → Store → Prop) : Prop :=
  Ends x s (fun a t => Leads rules I s t ∧ post a t) fun _ t => Leads rules I s t

section

variable {rules : Rules} {I : Store → Prop} {s t u : Store} {α β : Type}

/-- A store leads to itself. -/
theorem Leads.refl (h : I s) : Leads rules I s s :=
  ⟨h, fun _ hnid => hnid⟩

/-- What a later store leads to the earlier one does. -/
theorem Leads.trans (h : Leads rules I s t) (h' : Leads rules I t u) : Leads rules I s u :=
  ⟨h'.holds, fun nid hnid => h'.stored nid (h.stored nid hnid)⟩

/-- Two actions keep a property one after the other, the second from where the first ends. -/
theorem Keeps.bind {x : Action α} {f : α → Action β} {post : α → Store → Prop}
    {post' : β → Store → Prop} (hx : Keeps rules I x s post)
    (hf : ∀ a t, Leads rules I s t → post a t → Keeps rules I (f a) t post') :
    Keeps rules I (x >>= f) s post' := by
  refine Ends.bind hx fun a t ⟨hleads, hpost⟩ => ?_
  refine (hf a t hleads hpost).mono (fun b u ⟨hleads', hpost'⟩ => ?_) fun _ u hleads' => ?_
  · exact ⟨hleads.trans hleads', hpost'⟩
  · exact hleads.trans hleads'

/-- A weaker statement about the end of an action is kept as well. -/
theorem Keeps.mono {x : Action α} {post post' : α → Store → Prop} (hx : Keeps rules I x s post)
    (h : ∀ a t, post a t → post' a t) : Keeps rules I x s post' :=
  Ends.mono hx (fun a t hpost => ⟨hpost.1, h a t hpost.2⟩) fun _ _ hleads => hleads

/-- An action that keeps a property leads to a store that has it, whether or not it fails. -/
theorem Keeps.attempt {x : Action α} {post : α → Store → Prop} (hx : Keeps rules I x s post) :
    Leads rules I s (Store.attempt x s).2 :=
  Ends.attempt (Ends.mono hx (fun _ _ hpost => hpost.1) fun _ _ hleads => hleads)

/-- An answer keeps a property of the store. -/
theorem keeps_pure (h : I s) {a : α} {post : α → Store → Prop} (hpost : post a s) :
    Keeps rules I (pure a) s post :=
  ends_pure ⟨.refl h, hpost⟩

/-- A failure keeps a property of the store. -/
theorem keeps_throw (h : I s) {error : StoreError} {post : α → Store → Prop} :
    Keeps rules I (throw error : Action α) s post :=
  ends_throw (.refl h)

/-- What comes after a failure is not done, and a property is kept. -/
theorem keeps_throw_bind (h : I s) {error : StoreError} {f : β → Action α}
    {post : α → Store → Prop} : Keeps rules I (throw error >>= f) s post :=
  ends_throw_bind (.refl h)

/-- Going on with an outcome that was found before keeps a property. -/
theorem keeps_outcome (h : I s) {ε : Type} [Coe ε StoreError] {y : Except ε α} :
    Keeps rules I (outcome y) s fun _ _ => True :=
  ends_outcome (fun _ _ => ⟨.refl h, trivial⟩) fun _ _ => .refl h

private theorem keeps_infallible {x : StateM Store α} (h : Leads rules I s (x s).2)
    {post : α → Store → Prop} (hpost : post (x s).1 (x s).2) :
    Keeps rules I (infallible x) s post :=
  ends_infallible ⟨h, hpost⟩

end

namespace Invariant

variable {rules : Rules} {I : Store → Prop} (inv : Invariant rules I) {s t : Store}

include inv

/-- A smallest change leads to a store with the property. -/
theorem leads (h : I s) (hchange : Change rules s t) : Leads rules I s t :=
  ⟨inv.change h hchange, fun _ hnid => inv.stored h hchange hnid⟩

/-- Resetting the caches keeps the property. -/
theorem resetCaches (h : I s) : Leads rules I s (Store.resetCaches s).2 :=
  inv.leads h (.pool s.pool.reset)

/-- Resetting the caches keeps the property, as an action. -/
theorem keeps_resetCaches (h : I s) :
    Keeps rules I (infallible Store.resetCaches) s fun _ _ => True :=
  keeps_infallible (inv.resetCaches h) trivial

/-- Resolving a public id keeps the property, and payloads may be stored for its nid. -/
theorem keeps_resolve (h : I s) (id : PublicId) :
    Keeps rules I (Store.resolve id) s fun nid t => rules.stored t nid := by
  cases hresolve : s.registry.resolve id with
  | ok found =>
    obtain ⟨nid, registry⟩ := found
    have hrun : Store.resolve id s = .ok nid { s with registry } := by
      simp only [Store.resolve, hresolve]
    exact ends_of_ok hrun ⟨inv.leads h (.resolved hresolve), inv.resolved h hresolve⟩
  | error error =>
    have hrun : Store.resolve id s = .error (.configuration error) s := by
      simp only [Store.resolve, hresolve]
    exact ends_of_error hrun (.refl h)

/-! ## Payloads -/

/-- A spine that comes into memory is one more change. -/
theorem outlastsTouch (s : Store) :
    SpineStore.OutlastsTouch fun (_ : Unit) spines => Leads rules I s { s with spines } :=
  fun _ _ _ hreaches hleads =>
    hleads.trans (inv.leads hleads.holds (.touched (SpineStore.transition_touch (Or.inr hreaches))))

/-- A look-up keeps the property. -/
theorem leads_lookup (h : I s) (nid : Nid) :
    Leads rules I s (onSpines (SpineStore.lookup nid) s).2 := by
  obtain ⟨index, htransition⟩ := SpineStore.lookup_transition nid s.spines
  exact inv.leads h (.touched htransition)

/-- A payload that is found is one that may be stored. -/
theorem keeps_lookup (h : I s) (nid : Nid) :
    Keeps rules I (infallible (onSpines (SpineStore.lookup nid))) s fun payload? t =>
      payload?.isSome → rules.stored t nid := by
  refine keeps_infallible (inv.leads_lookup h nid) fun hsome => ?_
  obtain ⟨payload, hpayload⟩ := Option.isSome_iff_exists.mp hsome
  exact (inv.leads_lookup h nid).stored nid (inv.held h hpayload)

/-- A merge for a nid for which payloads may be stored keeps the property. -/
theorem keeps_merge {nid : Nid} (h : I s) (hnid : rules.stored s nid) (payload : Bytes)
    (combine : Bytes → Bytes → Bytes) :
    Keeps rules I (tryOnSpines (SpineStore.merge nid payload combine)) s fun _ _ => True := by
  obtain ⟨index, touched, htouched, hmerge⟩ :=
    SpineStore.merge_transitions nid payload combine s.spines
  have hleads := inv.leads h (.touched htouched)
  refine ends_tryOnSpines ?_
  obtain ⟨error, hmerge⟩ | ⟨next, spines, hmerge, hinstalled⟩ := hmerge
  · exact ends_of_error hmerge hleads
  · refine ends_of_ok hmerge ⟨hleads.trans ?_, trivial⟩
    exact inv.leads hleads.holds (.installed (hleads.stored nid hnid) hinstalled)

/-- Writing the spines keeps the property when the rules allow it. -/
theorem keeps_write (h : I s) (hrule : rules.spines s) :
    Keeps rules I (tryOnSpines SpineStore.write) s fun _ _ => True := by
  refine ends_tryOnSpines ?_
  have hwrite : Ends SpineStore.write s.spines
      (fun _ spines => Leads rules I s { s with spines } ∧ rules.spines { s with spines })
      (fun _ spines => Leads rules I s { s with spines } ∧ rules.spines { s with spines }) := by
    refine SpineStore.write_induction (P := fun spines =>
      Leads rules I s { s with spines } ∧ rules.spines { s with spines }) ?_ ⟨.refl h, hrule⟩
    intro before after index ⟨hleads, hrule⟩ htransition htables
    exact ⟨hleads.trans (inv.leads hleads.holds (.flushed hrule htransition
        (htables _ isRootTable_identity) (htables _ isRootTable_paths))),
      inv.spines (s := { s with spines := before }) hleads.holds hrule htransition⟩
  exact hwrite.mono (fun _ _ hleads => ⟨hleads.1, trivial⟩) fun _ _ hleads => hleads.1

/-- What is asked of the spines by the rules keeps the property. -/
theorem payloads (h : I s) {request : SpineStore.Request}
    (hpermitted : rules.Permits s (.payloads request)) :
    Leads rules I s (onSpines request.perform s).2 := by
  cases request with
  | lookup nid => exact inv.leads_lookup h nid
  | merge nid payload combine =>
    have hmerge := (inv.keeps_merge h hpermitted payload combine).attempt
    rwa [attempt_tryOnSpines] at hmerge
  | scan => exact (inv.outlastsTouch s).entries (.refl h)
  | parallelScan workers schedule =>
    exact (inv.outlastsTouch s).entriesParallel (.refl h) workers schedule
  | write =>
    have hwrite := (inv.keeps_write h hpermitted).attempt
    rwa [attempt_tryOnSpines] at hwrite

end Invariant

end Store

end Chronicle
