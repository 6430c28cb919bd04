import Chronicle.Proofs.Store.AppendOnly
import Chronicle.Proofs.Store.Persistence

/-!
# Where runs lead

A store whose medium can be read bears a ledger from the beginning, and no operation changes that,
not even one that merges payloads past the store. As long as there is none of these, every stamp and
every version that is stored is accounted for: its nid was handed out.
-/

namespace Chronicle

open StampHistory (storedIn?)

/-- Whatever is stored can be found: nothing is persisted, or sessions have left it and it is read
without a failure. -/
inductive Medium.Legible (medium : Medium) : Prop
  | blank (h : medium.backing.Blank)
  | left (h : Store.Leaves Store.persisting medium.backing) (hreads : medium.Healthy)

variable {content : Nid → Option Bytes} {l m : Ledger} {nid : Nid} {deed : Deed}
  {deeds : List Deed}

/-! ## Accounts -/

/-- Stamps are stored for nids that were handed out, and so are versions under stamps. -/
structure Ledger.Accounted (l : Ledger) : Prop where
  stamps : ∀ nid history, storedIn? l.content nid = some history → l.registry.Allocated nid
  versions : ∀ nid c, Chronology.storedIn? l.content nid = some c →
    ∀ v ∈ c.versions, l.registry.Allocated v.stamp

private theorem Ledger.accounted_empty (h : l.content = fun _ => none) : l.Accounted := by
  constructor
  · intro nid history hhistory
    rw [h] at hhistory
    cases hhistory
  · intro nid c hc
    rw [h] at hc
    cases hc

/-- Whatever was handed out stays so. -/
theorem Deed.Turns.allocated (h : deed.Turns l m) (hnid : l.registry.Allocated nid) :
    m.registry.Allocated nid := by
  cases h with
  | resolved hresolve => exact (Registry.resolves_of_resolve hresolve).allocated_of_allocated hnid
  | created _ hresolve =>
    exact (Registry.resolves_of_resolve hresolve).allocated_of_allocated hnid
  | committed _ hregistry => rwa [hregistry]
  | canceled _ hregistry => rwa [hregistry]
  | recorded _ hregistry => rwa [hregistry]
  | settled hregistry =>
    rw [hregistry]
    exact hnid

/-- A stamp is stored where one was stored before, or where fields were offered to a nid that was
handed out. -/
theorem Deed.Turns.stored_cases (h : deed.Turns l m) (hl : l.Accounted) {history : StampHistory}
    (hhistory : storedIn? m.content nid = some history) :
    (∃ before, storedIn? l.content nid = some before) ∨ m.registry.Allocated nid := by
  have hoffered {target : Nid} {fields : StampFields}
      (hcontent : m.content = offering l.content target fields)
      (htarget : m.registry.Allocated target) :
      (∃ before, storedIn? l.content nid = some before) ∨ m.registry.Allocated nid := by
    by_cases hnid : nid = target
    · exact Or.inr (hnid ▸ htarget)
    · rw [hcontent, storedIn?_offering_ne hnid] at hhistory
      exact Or.inl ⟨history, hhistory⟩
  have hturns := h
  cases h with
  | resolved _ hcontent => exact Or.inl ⟨history, hcontent ▸ hhistory⟩
  | created _ hresolve hcontent =>
    exact hoffered hcontent ((Registry.resolves_of_resolve hresolve).allocated l.consistent)
  | committed hstored _ hcontent =>
    exact hoffered hcontent (hturns.allocated (hl.stamps _ _ hstored))
  | canceled hstored _ hcontent =>
    exact hoffered hcontent (hturns.allocated (hl.stamps _ _ hstored))
  | recorded _ _ hcontent =>
    rw [hcontent, storedIn?_recording] at hhistory
    exact Or.inl ⟨history, hhistory⟩
  | settled _ hcontent => exact Or.inl ⟨history, hcontent ▸ hhistory⟩

/-- A deed keeps stamps accounted for, and versions under stamps. -/
theorem Deed.Turns.accounted (h : deed.Turns l m) (hfiled : Filed l.content) (hl : l.Accounted) :
    m.Accounted := by
  refine ⟨fun nid history hhistory => ?_, fun nid c hc v hv => ?_⟩
  · obtain ⟨before, hbefore⟩ | hallocated := h.stored_cases hl hhistory
    · exact h.allocated (hl.stamps nid before hbefore)
    · exact hallocated
  · rcases h.chronology_cases hfiled nid with hsame | ⟨version, fields, hstored, hrecorded⟩
    · exact h.allocated (hl.versions nid c (hsame ▸ hc) v hv)
    · obtain ⟨history, hhistory, -⟩ := Option.map_eq_some_iff.mp hstored
      have hstamp : m.registry.Allocated version.stamp := h.allocated (hl.stamps _ _ hhistory)
      rcases hrecorded with ⟨found, -, hstarted, hsingle⟩ | ⟨found, hfound, htaken⟩
      · obtain rfl := Option.some.inj (hstarted.symm.trans hc)
        rw [hsingle, List.mem_singleton] at hv
        rwa [hv]
      · obtain rfl := Option.some.inj (htaken.symm.trans hc)
        rcases (Chronology.takes_recorded _ found version).mem v hv with rfl | hbefore
        · exact hstamp
        · exact h.allocated (hl.versions nid found hfound v hbefore)

/-- Deeds keep stamps accounted for, however many. -/
theorem Deed.TurnAll.accounted (h : Deed.TurnAll deeds l m) (hfiled : Filed l.content)
    (hl : l.Accounted) : m.Accounted := by
  induction h with
  | nil => exact hl
  | cons hfirst _ ih => exact ih (hfirst.filed hfiled) (hfirst.accounted hfiled hl)

namespace Store

variable {s opened : Store} {config : Config} {medium next : Medium} {rooted : Bool}

/-! ## Ledgers -/

/-- A store that is opened over a legible medium bears some ledger. -/
theorem Opens.bears_of_legible (h : Opens config medium opened) (hmedium : medium.Legible) :
    ∃ l, opened.Bears config l := by
  cases hmedium with
  | blank hblank =>
    obtain ⟨l, -, -, hl⟩ := h.bears hblank
    exact ⟨l, hl⟩
  | left hleft hreads =>
    obtain ⟨read, hread, hspines⟩ := h.spines
    obtain ⟨hpower, hpermits, -, -, -, -, hattempts⟩ := Config.validate_eq_ok_iff.mp h.valid
    have hserves := SpineStore.serves_ofMedium (hread.healthy hreads)
      (Config.pos_of_isPowerOfTwo hpower) (Nat.pos_of_ne_zero hpermits)
      (Nat.pos_of_ne_zero hattempts)
    rw [← hspines] at hserves
    obtain ⟨l, -, -, hl⟩ := exists_ledger h.config_eq hserves
      (h.identified hleft.tabled.1).consistent
    exact ⟨l, hl⟩

/-- No operation keeps a store from bearing a ledger. -/
theorem Bears.outlasts (h : s.Bears config l) (operation : Operation) :
    ∃ m, (operation.perform s).Bears config m := by
  by_cases hmerges : operation.MergesPayload
  · cases operation with
    | payloads request =>
      cases request with
      | merge nid payload combine =>
        have hmerged : Ends (tryOnSpines (SpineStore.merge nid payload combine)) s
            (fun _ t => ∃ m, t.Bears config m) fun _ t => ∃ m, t.Bears config m := by
          refine (ends_merge h.serves nid payload combine).mono ?_ fun _ t ht =>
            ⟨l, Serving.bears h ht.2⟩
          intro _ t ht
          obtain ⟨m, -, -, hm⟩ := Serving.exists_ledger h ht.2
          exact ⟨m, hm⟩
        have hafter := hmerged.attempt (P := fun (t : Store) => ∃ m, t.Bears config m)
        rwa [attempt_tryOnSpines] at hafter
      | _ => exact hmerges.elim
    | _ => exact hmerges.elim
  · obtain ⟨_, m, -, -, hm⟩ := h.perform hmerges
    exact ⟨m, hm⟩

/-- A store bears some ledger, whatever is done with it. -/
theorem Bears.outlastsAll (h : s.Bears config l) (operations : List Operation) :
    ∃ m, (s.performAll operations).Bears config m := by
  induction operations generalizing s l with
  | nil => exact ⟨l, h⟩
  | cons operation later ih =>
    obtain ⟨m, hm⟩ := h.outlasts operation
    exact ih hm

/-- Whatever was done with a store, it bears a ledger. -/
theorem bears_performAll (hmedium : medium.Legible)
    (hopen : overMedium config rooted medium = .ok opened next) (operations : List Operation) :
    ∃ l, (opened.performAll operations).Bears config l := by
  obtain ⟨l, hl⟩ := (opens_of_overMedium hopen).bears_of_legible hmedium
  exact hl.outlastsAll operations

/-- In a proper run no payloads are merged past the store. -/
theorem Throughout.not_mergesPayload {operations : List Operation}
    (h : Throughout Operation.Proper s operations) :
    ∀ operation ∈ operations, ¬ operation.MergesPayload := by
  induction operations generalizing s with
  | nil => simp
  | cons operation later ih =>
    rw [List.forall_mem_cons]
    exact ⟨h.1.not_mergesPayload, ih h.2⟩

/-- On a store that was empty, and past which no payload was merged, everything is accounted for. -/
theorem accounted_performAll (hblank : medium.backing.Blank)
    (hopen : overMedium config rooted medium = .ok opened next) {operations : List Operation}
    (hmerges : ∀ operation ∈ operations, ¬ operation.MergesPayload)
    (hs : (opened.performAll operations).Bears config l) : l.Accounted := by
  obtain ⟨first, -, hempty, hfirst⟩ := (opens_of_overMedium hopen).bears hblank
  obtain ⟨deeds, m, hturn, hm⟩ := hfirst.performAll hmerges
  rw [hs.eq hm]
  exact hturn.accounted (hempty ▸ filed_empty) (Ledger.accounted_empty hempty)

end Store

end Chronicle
