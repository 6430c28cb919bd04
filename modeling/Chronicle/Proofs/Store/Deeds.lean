import Chronicle.Proofs.Store.Caches

/-!
# What operations do

Whatever an operation does to nids, stamps and components is done by few deeds, one after another: a
public id gets a nid, fields are offered to a stamp, a version is recorded. This file says once
which deeds an operation does, at whatever point it fails. Nothing is assumed of the run so far but
that the nids of the registry are in order.
-/

namespace Chronicle

open StampHistory (storedIn?)

/-- The nids that were handed out, and what is stored for nids. Nothing is stored below the first
one. -/
structure Ledger where
  registry : Registry
  content : Nid → Option Bytes
  consistent : registry.Consistent
  placed : ∀ nid payload, content nid = some payload → Nid.first.raw ≤ nid.raw

/-- Smallest parts of what operations do. -/
inductive Deed where
  | resolved (id : PublicId)
  /-- Fields were offered to the nid of a UUID. -/
  | created (uuid : Uuid) (fields : StampFields)
  | committed (nid : Nid) (time : Int64)
  | canceled (nid : Nid)
  | recorded (nid : Nid) (kind : ComponentKind) (version : Version)
  /-- The registry was written. -/
  | settled

/-- A deed turns a ledger into another one. -/
inductive Deed.Turns : Deed → Ledger → Ledger → Prop
  | resolved {l m : Ledger} {id : PublicId} {nid : Nid}
      (hresolve : l.registry.resolve id = .ok (nid, m.registry))
      (hcontent : m.content = l.content) :
      Turns (.resolved id) l m
  | created {l m : Ledger} {uuid : Uuid} {fields : StampFields} {id : PublicId} {nid : Nid}
      (huuids : id.uuids = [uuid]) (hresolve : l.registry.resolve id = .ok (nid, m.registry))
      (hcontent : m.content = offering l.content nid fields) : Turns (.created uuid fields) l m
  | committed {l m : Ledger} {nid : Nid} {time : Int64} {history : StampHistory}
      (hstored : storedIn? l.content nid = some history) (hregistry : m.registry = l.registry)
      (hcontent : m.content = offering l.content nid (history.current.committedAt time)) :
      Turns (.committed nid time) l m
  | canceled {l m : Ledger} {nid : Nid} {history : StampHistory}
      (hstored : storedIn? l.content nid = some history) (hregistry : m.registry = l.registry)
      (hcontent : m.content = offering l.content nid history.current.canceled) :
      Turns (.canceled nid) l m
  | recorded {l m : Ledger} {nid : Nid} {kind : ComponentKind} {version : Version}
      {fields : StampFields} (hstored : StampFields.storedIn? l.content version.stamp = some fields)
      (hregistry : m.registry = l.registry)
      (hcontent : m.content = replaced l.content nid
        (SpineStore.merged (Chronology.mergePayload fields.isUncommitted)
          (Chronology.start nid kind version).encode (l.content nid))) :
      Turns (.recorded nid kind version) l m
  | settled {l m : Ledger} (hregistry : m.registry = l.registry.settled)
      (hcontent : m.content = l.content) : Turns .settled l m

/-- Fields were offered to the nid of a UUID, which got one if it had none. -/
structure Creates (uuid : Uuid) (fields : StampFields) (l : Ledger) (nid : Nid) (m : Ledger) :
    Prop where
  resolved : ∃ id : PublicId, id.uuids = [uuid] ∧ l.registry.resolve id = .ok (nid, m.registry)
  content_eq : m.content = offering l.content nid fields

/-- Creating a stamp is one deed. -/
theorem Creates.turns {uuid : Uuid} {fields : StampFields} {l m : Ledger} {nid : Nid}
    (h : Creates uuid fields l nid m) : (Deed.created uuid fields).Turns l m := by
  obtain ⟨id, huuids, hresolve⟩ := h.resolved
  exact .created huuids hresolve h.content_eq

/-- Some deeds turn a ledger into another one, one after another. -/
inductive Deed.TurnAll : List Deed → Ledger → Ledger → Prop
  | nil (l : Ledger) : TurnAll [] l l
  | cons {deed : Deed} {deeds : List Deed} {l m n : Ledger} (hfirst : deed.Turns l m)
      (hrest : TurnAll deeds m n) : TurnAll (deed :: deeds) l n

namespace Deed

/-- One deed turns a ledger as it does alone. -/
theorem turnAll_single {deed : Deed} {l m : Ledger} (h : deed.Turns l m) :
    TurnAll [deed] l m :=
  .cons h (.nil m)

/-- Deeds turn a ledger one part after the other. -/
theorem TurnAll.append {first second : List Deed} {l m n : Ledger} (h : TurnAll first l m)
    (h' : TurnAll second m n) : TurnAll (first ++ second) l n := by
  induction h with
  | nil => exact h'
  | cons hfirst _ ih => exact .cons hfirst (ih h')

end Deed

namespace Store

/-- The UUID under which a committed stamp is recorded. -/
def committedUuid (config : Config) (fields : StampFields) (fresh : Uuid) : Uuid :=
  if config.stampDedup = .committed ∧ fields.isCommitted then fields.contentUuid else fresh

/-- The deeds of an operation. It can fail before any of them, or between them. -/
inductive Operation.Does (config : Config) : Operation → List Deed → Prop
  | nothing (operation : Operation) : Does config operation []
  | resolve (id : PublicId) : Does config (.resolve id) [.resolved id]
  | resolveAliases {uuids : List Uuid} {id : PublicId} (h : PublicId.ofList uuids = .ok id) :
      Does config (.resolveAliases uuids) [.resolved id]
  | commitStamp {fields : StampFields} (fresh : Uuid)
      (htime : Time.isSentinel fields.time = false) :
      Does config (.commitStamp fields fresh) [.created (committedUuid config fields fresh) fields]
  | cancelStamp (nid : Nid) : Does config (.cancelStamp nid) [.canceled nid]
  | join {t : Transaction} (status : Status) (author module path : Nid) (fresh : Uuid)
      (hstate : t.state = .uncommitted) :
      Does config (.join t status author module path fresh)
        [.created fresh (.draft status author module path)]
  | commit {t : Transaction} {time : Int64} {nids : List Nid} (hstate : t.state = .uncommitted)
      (htime : Time.isSentinel time = false) (hnids : ∀ nid ∈ nids, nid ∈ t.stamps) :
      Does config (.commit t time) (nids.map (.committed · time))
  | cancel {t : Transaction} {nids : List Nid} (hstate : t.state = .uncommitted)
      (hnids : ∀ nid ∈ nids, nid ∈ t.stamps) : Does config (.cancel t) (nids.map .canceled)
  | appendVersion (nid : Nid) (kind : ComponentKind) (version : Version) :
      Does config (.appendVersion nid kind version) [.recorded nid kind version]
  | cancelVersion {nid stamp : Nid} {fresh : Uuid} {fields : StampFields}
      {first last : List Deed} (hfirst : first = [] ∨ first = [.canceled stamp])
      (hlast : last = [] ∨ ∃ kind version, last = [.recorded nid kind version]) :
      Does config (.cancelVersion nid stamp fresh) (first ++ .created fresh fields.canceled :: last)
  | cancelVersion_stamp (nid stamp : Nid) (fresh : Uuid) :
      Does config (.cancelVersion nid stamp fresh) [.canceled stamp]
  | flush : Does config .flush [.settled]

/-- The store is a configured one and has what a ledger says. -/
structure Bears (config : Config) (s : Store) (l : Ledger) : Prop where
  config_eq : s.config = config
  registry_eq : s.registry = l.registry
  serves : s.spines.Serves l.content

variable {s t u : Store} {config : Config} {l m : Ledger} {content : Nid → Option Bytes}
  {nid : Nid}

/-- A store is where deeds lead to from a ledger. -/
def Follows (config : Config) (l : Ledger) (does : List Deed → Prop) (t : Store) : Prop :=
  ∃ deeds m, does deeds ∧ Deed.TurnAll deeds l m ∧ t.Bears config m

/-- A store is where a single deed leads to from a ledger, or where none does. -/
def MayFollow (config : Config) (l : Ledger) (deed : Deed) (t : Store) : Prop :=
  t.Bears config l ∨ ∃ m, deed.Turns l m ∧ t.Bears config m

private theorem Bears.follows {does : List Deed → Prop} (h : s.Bears config l) (hdoes : does []) :
    s.Follows config l does :=
  ⟨[], l, hdoes, .nil l, h⟩

private theorem Bears.mayFollow (h : s.Bears config l) (deed : Deed) : s.MayFollow config l deed :=
  Or.inl h

/-- Paths and calculators are not what deeds are about. -/
theorem Follows.congr {does : List Deed → Prop} (h : s.Follows config l does)
    (hconfig : t.config = s.config) (hregistry : t.registry = s.registry)
    (hspines : t.spines = s.spines) : t.Follows config l does := by
  obtain ⟨deeds, m, hdoes, hturn, hm⟩ := h
  exact ⟨deeds, m, hdoes, hturn, hconfig.trans hm.config_eq, hregistry.trans hm.registry_eq,
    hspines ▸ hm.serves⟩

private theorem MayFollow.follows {deed : Deed} {does : List Deed → Prop}
    (h : s.MayFollow config l deed)
    (hnothing : does []) (hdeed : does [deed]) : s.Follows config l does := by
  obtain h | ⟨m, hturns, hm⟩ := h
  · exact h.follows hnothing
  · exact ⟨[deed], m, hdeed, Deed.turnAll_single hturns, hm⟩

/-- What a store serves and the nids that it handed out make up a ledger. -/
theorem exists_ledger (hconfig : s.config = config) (hserves : s.spines.Serves content)
    (hconsistent : s.registry.Consistent) :
    ∃ m : Ledger, m.registry = s.registry ∧ m.content = content ∧ s.Bears config m := by
  refine ⟨⟨s.registry, content, hconsistent, fun nid payload hpayload => ?_⟩, rfl, rfl, hconfig,
    rfl, hserves⟩
  rw [← Int32.not_lt, ← SpineStore.place?_eq_none_iff (s := s.spines)]
  intro hplace
  rw [hserves.absent nid hplace] at hpayload
  cases hpayload

/-- Where a store serves other payloads, it has another ledger. -/
theorem Serving.exists_ledger (h : s.Bears config l) (hserving : s.Serving content t) :
    ∃ m : Ledger, m.registry = l.registry ∧ m.content = content ∧ t.Bears config m := by
  obtain ⟨spines, rfl, hserves⟩ := hserving
  rw [← h.registry_eq]
  exact Store.exists_ledger (s := { s with spines }) h.config_eq hserves
    (h.registry_eq ▸ l.consistent)

/-- A store that serves the same content still has what the ledger says. -/
theorem Serving.bears (h : s.Bears config l) (hserving : s.Serving l.content t) :
    t.Bears config l := by
  obtain ⟨spines, rfl, hserves⟩ := hserving
  exact ⟨h.config_eq, h.registry_eq, hserves⟩

/-! ## Stamps -/

/-- Where a nid has a place, fields are offered whether or not the answer makes sense. -/
theorem ends_offer_of_le (h : s.spines.Serves content) (hnid : Nid.first.raw ≤ nid.raw)
    (fields : StampFields) :
    Ends (offerFields nid fields) s
      (fun current t => (∃ history, storedIn? (offering content nid fields) nid = some history ∧
        history.current = current) ∧ s.Serving (offering content nid fields) t)
      fun _ t => storedIn? (offering content nid fields) nid = none ∧
        s.Serving (offering content nid fields) t := by
  refine (ends_offer h nid fields).weaken ?_
  rintro _ t (⟨hlt, -⟩ | hpost)
  · exact absurd hnid (Int32.not_le.mpr hlt)
  · exact hpost

/-- What is stored for a nid has a place. -/
theorem le_of_storedIn? {history : StampHistory} (h : storedIn? l.content nid = some history) :
    Nid.first.raw ≤ nid.raw := by
  obtain ⟨payload, hpayload, -⟩ := exists_of_storedIn? h
  exact l.placed nid payload hpayload

/-- Resolving a public id does what it does to the registry of the ledger, and fails as it fails
there. -/
theorem follows_resolve (h : s.Bears config l) (id : PublicId) :
    Ends (resolve id) s
      (fun nid t => ∃ m : Ledger, l.registry.resolve id = .ok (nid, m.registry) ∧
        m.content = l.content ∧ t.Bears config m)
      fun _ t => (∃ error, l.registry.resolve id = .error error) ∧ t.Bears config l := by
  refine (ends_resolve_registry s id).mono ?_ ?_
  · rintro nid _ ⟨registry, hresolve, rfl⟩
    rw [h.registry_eq] at hresolve
    obtain ⟨m, hregistry, hcontent, hm⟩ := exists_ledger (s := { s with registry }) h.config_eq
      h.serves (l.consistent.resolve hresolve).1
    exact ⟨m, hregistry ▸ hresolve, hcontent, hm⟩
  · rintro _ _ ⟨herror, rfl⟩
    exact ⟨h.registry_eq ▸ herror, h⟩

/-- How creating a stamp fails: its UUID gets no nid, or something else than the stamp is stored for
the one that it gets. -/
inductive FailsToCreate (config : Config) (uuid : Uuid) (fields : StampFields) (l : Ledger)
    (t : Store) : Prop
  | unresolved (hid : ∀ id : PublicId, id.uuids = [uuid] → ∀ found, l.registry.resolve id ≠ .ok found)
      (ht : t.Bears config l)
  | occupied {nid : Nid} {m : Ledger} (hcreates : Creates uuid fields l nid m)
      (hother : ∀ history, storedIn? m.content nid = some history → history.current ≠ fields)
      (ht : t.Bears config m)

/-- Even if it fails, creating a stamp leaves one deed done or none. -/
theorem FailsToCreate.mayFollow {uuid : Uuid} {fields : StampFields}
    (h : FailsToCreate config uuid fields l t) : t.MayFollow config l (.created uuid fields) := by
  cases h with
  | unresolved _ ht => exact Or.inl ht
  | occupied hcreates _ ht => exact Or.inr ⟨_, hcreates.turns, ht⟩

/-- Creating a stamp succeeds as `Creates` says, or fails as `FailsToCreate` says. -/
theorem follows_createStamp (h : s.Bears config l) (fields : StampFields) (uuid : Uuid) :
    Ends (createStamp fields uuid) s
      (fun nid t => ∃ m, Creates uuid fields l nid m ∧ (storedIn? m.content nid).isSome ∧
        t.Bears config m)
      fun _ => FailsToCreate config uuid fields l := by
  have hid : Ends (outcome (PublicId.ofUuid uuid)) s (fun id t => id.uuids = [uuid] ∧ s = t)
      fun _ => FailsToCreate config uuid fields l := by
    refine ends_outcome (fun id hofUuid => ⟨Registry.uuids_of_ofUuid hofUuid, rfl⟩)
      fun error herror => .unresolved (fun id huuids => ?_) h
    rw [Registry.ofUuid_of_uuids huuids] at herror
    cases herror
  refine hid.bind ?_
  rintro id _ ⟨huuids, rfl⟩
  refine ((follows_resolve h id).weaken ?_).bind ?_
  · rintro _ t ⟨⟨error, herror⟩, ht⟩
    refine .unresolved (fun other hother found hfound => ?_) ht
    rw [PublicId.ext (hother.trans huuids.symm), herror] at hfound
    cases hfound
  rintro nid t ⟨m, hresolve, hcontent, ht⟩
  have hnid : Nid.first.raw ≤ nid.raw := (l.consistent.resolve hresolve).2.1
  have hoffered {u : Store} (hu : t.Serving (offering m.content nid fields) u) :
      ∃ n : Ledger, n.content = offering m.content nid fields ∧ Creates uuid fields l nid n ∧
        u.Bears config n := by
    obtain ⟨n, hregistry, hoffering, hn⟩ := Serving.exists_ledger ht hu
    exact ⟨n, hoffering, ⟨⟨id, huuids, hregistry ▸ hresolve⟩, hcontent ▸ hoffering⟩, hn⟩
  refine ((ends_offer_of_le ht.serves hnid fields).weaken ?_).bind ?_
  · rintro _ u ⟨hnone, hu⟩
    obtain ⟨n, hoffering, hcreates, hn⟩ := hoffered hu
    refine .occupied hcreates (fun history hhistory => ?_) hn
    rw [hoffering, hnone] at hhistory
    cases hhistory
  · rintro current u ⟨⟨history, hhistory, rfl⟩, hu⟩
    obtain ⟨n, hoffering, hcreates, hn⟩ := hoffered hu
    rw [← hoffering] at hhistory
    dsimp only
    split
    · rename_i hother
      refine ends_throw_bind (.occupied hcreates (fun found hfound => ?_) hn)
      obtain rfl := Option.some.inj (hhistory.symm.trans hfound)
      exact hother.1
    · exact ends_pure ⟨n, hcreates, by rw [hhistory]; rfl, hn⟩

/-- However creating a stamp ends, that is all it does. -/
theorem mayFollow_createStamp (h : s.Bears config l) (fields : StampFields) (uuid : Uuid) :
    (attempt (createStamp fields uuid) s).2.MayFollow config l (.created uuid fields) := by
  refine ((follows_createStamp h fields uuid).mono ?_ fun _ _ ht => ht.mayFollow).attempt
  rintro nid t ⟨m, hcreates, -, hm⟩
  exact Or.inr ⟨m, hcreates.turns, hm⟩

/-- Committing a stamp does some of its deeds, in their order. -/
theorem follows_commitStamp (h : s.Bears config l) (fields : StampFields) (fresh : Uuid) :
    (attempt (commitStamp fields fresh) s).2.Follows config l
      (Operation.Does config (.commitStamp fields fresh)) := by
  rw [commitStamp]
  split
  · exact h.follows (.nothing _)
  · rename_i htime
    have huuid : s.stampUuid fields fresh = committedUuid config fields fresh := by
      rw [stampUuid, committedUuid, h.config_eq]
    have hcreated := mayFollow_createStamp h fields (s.stampUuid fields fresh)
    rw [huuid] at hcreated
    change (attempt (createStamp fields (s.stampUuid fields fresh)) s).2.Follows _ _ _
    rw [huuid]
    exact hcreated.follows (.nothing _) (.commitStamp fresh (by simpa using htime))

/-- Committing a member does that deed or none. -/
theorem mayFollow_commitMember (h : s.Bears config l) (time : Int64) (nid : Nid) :
    (attempt (commitMember time nid) s).2.MayFollow config l (.committed nid time) := by
  refine Ends.attempt (((ends_stamp h.serves nid).weaken
    fun _ t ht => (Serving.bears h ht.2).mayFollow _).bind ?_)
  rintro fields t ⟨⟨history, hhistory, rfl⟩, ht⟩
  have hoffered {u : Store}
      (hu : t.Serving (offering l.content nid (history.current.committedAt time)) u) :
      u.MayFollow config l (.committed nid time) := by
    obtain ⟨m, hregistry, hcontent, hm⟩ := Serving.exists_ledger (Serving.bears h ht) hu
    exact Or.inr ⟨m, .committed hhistory hregistry hcontent, hm⟩
  refine ((ends_offer_of_le ht.serves (le_of_storedIn? hhistory) _).weaken
    fun _ u hu => hoffered hu.2).bind ?_
  rintro current u ⟨-, hu⟩
  split
  · exact ends_pure (hoffered hu)
  · split
    · exact ends_throw (hoffered hu)
    · exact ends_throw (hoffered hu)

/-- Canceling a stamp that is not committed fails where its history cannot be read afterwards. -/
theorem follows_cancelMember (h : s.Bears config l) (nid : Nid) :
    Ends (cancelMember nid) s
      (fun _ t => ∃ m, (Deed.canceled nid).Turns l m ∧ (storedIn? m.content nid).isSome ∧
        t.Bears config m)
      fun _ t => t.Bears config l ∨
        ∃ m, (Deed.canceled nid).Turns l m ∧ storedIn? m.content nid = none ∧ t.Bears config m := by
  refine ((ends_stamp h.serves nid).weaken fun _ t ht => Or.inl (Serving.bears h ht.2)).bind ?_
  rintro fields t ⟨⟨history, hhistory, rfl⟩, ht⟩
  have hoffered {u : Store} (hu : t.Serving (offering l.content nid history.current.canceled) u) :
      ∃ m : Ledger, m.content = offering l.content nid history.current.canceled ∧
        (Deed.canceled nid).Turns l m ∧ u.Bears config m := by
    obtain ⟨m, hregistry, hcontent, hm⟩ := Serving.exists_ledger (Serving.bears h ht) hu
    exact ⟨m, hcontent, .canceled hhistory hregistry hcontent, hm⟩
  dsimp only
  split
  · exact ends_throw_bind (Or.inl (Serving.bears h ht))
  · rename_i hcommitted
    refine ((ends_offer_of_le ht.serves (le_of_storedIn? hhistory) _).weaken ?_).bind ?_
    · rintro _ u ⟨hnone, hu⟩
      obtain ⟨m, hcontent, hturns, hm⟩ := hoffered hu
      exact Or.inr ⟨m, hturns, hcontent ▸ hnone, hm⟩
    · rintro settled u ⟨⟨after, hafter, rfl⟩, hu⟩
      obtain ⟨m, hcontent, hturns, hm⟩ := hoffered hu
      have hsettled : after.current.isCommitted = false := by
        obtain ⟨hnone, -⟩ | ⟨stored, hstored, rfl⟩ := storedIn?_offering hafter
        · obtain ⟨payload, hpayload, -⟩ := exists_of_storedIn? hhistory
          rw [hnone] at hpayload
          cases hpayload
        · obtain rfl := Option.some.inj (hhistory.symm.trans hstored)
          exact StampFields.isCommitted_of_isCanceled
            (StampHistory.isCanceled_push_canceled (by simpa using hcommitted))
      rw [hsettled]
      exact ends_pure ⟨m, hturns, by rw [hcontent, hafter]; rfl, hm⟩

/-- Canceling a member does that deed or none. -/
theorem mayFollow_cancelMember (h : s.Bears config l) (nid : Nid) :
    (attempt (cancelMember nid) s).2.MayFollow config l (.canceled nid) := by
  refine ((follows_cancelMember h nid).mono ?_ ?_).attempt
  · rintro _ t ⟨m, hturns, -, hm⟩
    exact Or.inr ⟨m, hturns, hm⟩
  · rintro _ t (ht | ⟨m, hturns, -, hm⟩)
    · exact Or.inl ht
    · exact Or.inr ⟨m, hturns, hm⟩

/-! ## Components -/

/-- How recording a version fails: its stamp is not stored, its component has no place, or what is
stored in the end is not the chronology of the component with the version in it. -/
inductive FailsToRecord (config : Config) (nid : Nid) (kind : ComponentKind) (version : Version)
    (l : Ledger) (t : Store) : Prop
  | unplaced (h : storedIn? l.content version.stamp = none ∨ nid.raw < Nid.first.raw)
      (ht : t.Bears config l)
  | refused {m : Ledger} (hrecorded : (Deed.recorded nid kind version).Turns l m)
      (hrefused : ∀ c, Chronology.decoded? (m.content nid) = some c →
        records c nid version = false) (ht : t.Bears config m)

/-- Appending a version records it, or fails as `FailsToRecord` says. -/
theorem follows_appendVersion (h : s.Bears config l) (nid : Nid) (kind : ComponentKind)
    (version : Version) :
    Ends (appendVersion nid kind version) s
      (fun c t => ∃ m, (Deed.recorded nid kind version).Turns l m ∧
        Chronology.decoded? (m.content nid) = some c ∧ records c nid version = true ∧
        t.Bears config m)
      fun _ => FailsToRecord config nid kind version l := by
  refine ((ends_stamp h.serves version.stamp).weaken
    fun _ t ht => .unplaced (Or.inl ht.1) (Serving.bears h ht.2)).bind ?_
  rintro fields t ⟨⟨history, hhistory, rfl⟩, ht⟩
  refine ((ends_merge ht.serves nid _ _).weaken fun _ u hu =>
    .unplaced (Or.inr hu.1) (Serving.bears h (ht.trans hu.2))).bind ?_
  rintro stored u ⟨rfl, hu⟩
  obtain ⟨m, hregistry, hcontent, hm⟩ := Serving.exists_ledger (Serving.bears h ht) hu
  have hturns : (Deed.recorded nid kind version).Turns l m :=
    .recorded (storedIn?_of_history hhistory) hregistry hcontent
  have hdecoded : Chronology.decoded? (m.content nid) = (Chronology.decode
      (SpineStore.merged (Chronology.mergePayload history.current.isUncommitted)
        (Chronology.start nid kind version).encode (l.content nid))).toOption := by
    rw [hcontent, replaced, if_pos rfl]
    rfl
  have hread : Ends (outcome (Chronology.decode (SpineStore.merged
      (Chronology.mergePayload history.current.isUncommitted)
        (Chronology.start nid kind version).encode (l.content nid)))) u
      (fun c v => Chronology.decoded? (m.content nid) = some c ∧ v.Bears config m)
      fun _ => FailsToRecord config nid kind version l := by
    refine ends_outcome (fun c hdecode => ⟨?_, hm⟩) fun error hdecode => ?_
    · rw [hdecoded, hdecode]
      rfl
    · refine .refused hturns (fun c hc => ?_) hm
      rw [hdecoded, hdecode] at hc
      cases hc
  refine hread.bind ?_
  rintro c v ⟨hc, hv⟩
  dsimp only
  split
  · rename_i hrefused
    refine ends_throw_bind (.refused hturns (fun found hfound => ?_) hv)
    obtain rfl := Option.some.inj (hc.symm.trans hfound)
    simpa using hrefused
  · rename_i hrecords
    exact ends_pure ⟨m, hturns, hc, by simpa using hrecords, hv⟩

private theorem mayFollow_appendVersion (h : s.Bears config l) (nid : Nid) (kind : ComponentKind)
    (version : Version) :
    (attempt (appendVersion nid kind version) s).2.MayFollow config l
      (.recorded nid kind version) := by
  refine ((follows_appendVersion h nid kind version).mono ?_ ?_).attempt
  · rintro _ t ⟨m, hturns, -, -, hm⟩
    exact Or.inr ⟨m, hturns, hm⟩
  · rintro _ t (⟨-, ht⟩ | ⟨hturns, -, ht⟩)
    · exact Or.inl ht
    · exact Or.inr ⟨_, hturns, ht⟩

/-! ### Retracting a version -/

/-- What it takes to retract a version: the chronology of its component, the version in it and the
history of its stamp. -/
structure Retractable (content : Nid → Option Bytes) (nid stamp : Nid) (recorded : Chronology)
    (version : Version) (history : StampHistory) : Prop where
  recorded_eq : Chronology.decoded? (content nid) = some recorded
  version_eq : recorded.version? stamp = some version
  history_eq : storedIn? content stamp = some history

/-- What retracting a version does: its stamp is canceled if it is open, a canceled stamp is created,
and the version is recorded under that. -/
inductive Retracts (nid stamp : Nid) (fresh : Uuid) (l : Ledger) : Nid → Ledger → Prop
  | intro {recorded c : Chronology} {version : Version} {history : StampHistory} {canceled : Nid}
      {m n o : Ledger} (hfound : Retractable l.content nid stamp recorded version history)
      (hclosed : (Deed.canceled stamp).Turns l m) (hremains : (storedIn? m.content stamp).isSome)
      (hcreates : Creates fresh history.current.canceled m canceled n)
      (hstored : (storedIn? n.content canceled).isSome)
      (hrecorded : (Deed.recorded nid recorded.kind ⟨canceled, version.fields⟩).Turns n o)
      (hc : Chronology.decoded? (o.content nid) = some c)
      (hrecords : records c nid ⟨canceled, version.fields⟩ = true) :
      Retracts nid stamp fresh l canceled o

/-- How retracting a version fails. Whatever it has done by then stays done, and each case says what
stood in the way of the next step. -/
inductive FailsToRetract (config : Config) (nid stamp : Nid) (fresh : Uuid) (l : Ledger)
    (t : Store) : Prop
  | unchanged (ht : t.Bears config l)
  | closed {recorded : Chronology} {version : Version} {history : StampHistory} {m : Ledger}
      (hfound : Retractable l.content nid stamp recorded version history)
      (hclosed : (Deed.canceled stamp).Turns l m)
      (h : storedIn? m.content stamp = none ∨
        ∀ id : PublicId, id.uuids = [fresh] → ∀ found, m.registry.resolve id ≠ .ok found)
      (ht : t.Bears config m)
  | created {recorded : Chronology} {version : Version} {history : StampHistory} {canceled : Nid}
      {m n : Ledger} (hfound : Retractable l.content nid stamp recorded version history)
      (hclosed : (Deed.canceled stamp).Turns l m)
      (hcreates : Creates fresh history.current.canceled m canceled n)
      (hother : ∀ found, storedIn? n.content canceled = some found →
        found.current ≠ history.current.canceled) (ht : t.Bears config n)
  | recorded {recorded : Chronology} {version : Version} {history : StampHistory} {canceled : Nid}
      {m n o : Ledger} (hfound : Retractable l.content nid stamp recorded version history)
      (hclosed : (Deed.canceled stamp).Turns l m)
      (hcreates : Creates fresh history.current.canceled m canceled n)
      (hrecorded : (Deed.recorded nid recorded.kind ⟨canceled, version.fields⟩).Turns n o)
      (hrefused : ∀ c, Chronology.decoded? (o.content nid) = some c →
        records c nid ⟨canceled, version.fields⟩ = false) (ht : t.Bears config o)

/-- Retracting a version succeeds as `Retracts` says and resets the caches in the end, or fails as
`FailsToRetract` says. -/
theorem retracts_cancelVersion (h : s.Bears config l) (nid stamp : Nid) (fresh : Uuid) :
    Ends (cancelVersion nid stamp fresh) s
      (fun canceled t => ∃ o, Retracts nid stamp fresh l canceled o ∧ t.Bears config o ∧
        ∃ u, t = (resetCaches u).2)
      fun _ => FailsToRetract config nid stamp fresh l := by
  refine ((ends_chronology h.serves nid).weaken
    fun _ t ht => .unchanged (Serving.bears h ht)).bind ?_
  rintro recorded t ⟨hrecorded, ht⟩
  cases hversion : recorded.version? stamp with
  | none => exact ends_throw (.unchanged (Serving.bears h ht))
  | some version =>
    refine ((ends_stamp ht.serves stamp).weaken
      fun _ u hu => .unchanged (Serving.bears h (ht.trans hu.2))).bind ?_
    rintro fields u ⟨⟨history, hhistory, rfl⟩, hu⟩
    have hfound : Retractable l.content nid stamp recorded version history :=
      ⟨hrecorded, hversion, hhistory⟩
    -- What is left to do once the stamp of the version was canceled or needs not to be.
    have hrest {m : Ledger} {v : Store} (hclosed : (Deed.canceled stamp).Turns l m)
        (hremains : (storedIn? m.content stamp).isSome) (hv : v.Bears config m) : Ends (do
          let canceled ← createStamp history.current.canceled fresh
          let _ ← appendVersion nid recorded.kind { stamp := canceled, fields := version.fields }
          infallible resetCaches
          return canceled) v
        (fun canceled t => ∃ o, Retracts nid stamp fresh l canceled o ∧ t.Bears config o ∧
          ∃ u, t = (resetCaches u).2)
        fun _ => FailsToRetract config nid stamp fresh l := by
      refine ((follows_createStamp hv history.current.canceled fresh).weaken ?_).bind ?_
      · rintro _ w (⟨hid, hw⟩ | ⟨hcreates, hother, hw⟩)
        · exact .closed hfound hclosed (Or.inr hid) hw
        · exact .created hfound hclosed hcreates hother hw
      rintro canceled w ⟨n, hcreates, hstored, hw⟩
      refine ((follows_appendVersion hw nid recorded.kind _).weaken ?_).bind ?_
      · rintro _ x (⟨hunplaced | hlt, -⟩ | ⟨hturns, hrefused, hx⟩)
        · rw [hunplaced] at hstored
          cases hstored
        · obtain ⟨payload, hpayload, -⟩ := Option.bind_eq_some_iff.mp hrecorded
          exact absurd (l.placed nid payload hpayload) (Int32.not_le.mpr hlt)
        · exact .recorded hfound hclosed hcreates hturns hrefused hx
      rintro _ x ⟨o, hturns, hc, hrecords, hx⟩
      have hreset : Ends (infallible resetCaches) x
          (fun _ t => t.Bears config o ∧ ∃ u, t = (resetCaches u).2)
          fun _ => FailsToRetract config nid stamp fresh l :=
        ends_infallible ⟨⟨hx.config_eq, hx.registry_eq, hx.serves⟩, x, rfl⟩
      exact hreset.bind fun _ _ hpost => ends_pure
        ⟨o, .intro hfound hclosed hremains hcreates hstored hturns hc hrecords, hpost⟩
    have hbears := Serving.bears h (ht.trans hu)
    dsimp only
    split
    · refine ((follows_cancelMember hbears stamp).weaken ?_).bind ?_
      · rintro _ v (hv | ⟨m, hclosed, hnone, hv⟩)
        · exact .unchanged hv
        · exact .closed hfound hclosed (Or.inl hnone) hv
      · rintro _ v ⟨m, hclosed, hremains, hv⟩
        exact hrest hclosed hremains hv
    · rename_i hopen
      -- To cancel a closed stamp changes nothing.
      have hsame := offering_of_closed history.current.canceled hhistory (by simpa using hopen)
      exact hrest (.canceled hhistory rfl hsame.symm) (by rw [hhistory]; rfl) hbears

/-- Retracting a version does some of its deeds, in their order. -/
theorem follows_cancelVersion (h : s.Bears config l) (nid stamp : Nid) (fresh : Uuid) :
    (attempt (cancelVersion nid stamp fresh) s).2.Follows config l
      (Operation.Does config (.cancelVersion nid stamp fresh)) := by
  refine Ends.attempt (P := (Follows config l _ ·)) ((retracts_cancelVersion h nid stamp fresh).mono
    ?_ ?_)
  · rintro canceled t ⟨o, hretracts, ht, -⟩
    obtain ⟨-, hclosed, -, hcreates, -, hrecorded, -, -⟩ := hretracts
    exact ⟨_, o, .cancelVersion (Or.inr rfl) (Or.inr ⟨_, _, rfl⟩),
      .cons hclosed (.cons hcreates.turns (Deed.turnAll_single hrecorded)), ht⟩
  · intro _ t hfails
    cases hfails with
    | unchanged ht => exact ht.follows (.nothing _)
    | closed _ hclosed _ ht =>
      exact ⟨_, _, .cancelVersion_stamp nid stamp fresh, Deed.turnAll_single hclosed, ht⟩
    | created _ hclosed hcreates _ ht =>
      exact ⟨_, _, .cancelVersion (Or.inr rfl) (Or.inl rfl),
        .cons hclosed (Deed.turnAll_single hcreates.turns), ht⟩
    | recorded _ hclosed hcreates hrecorded _ ht =>
      exact ⟨_, _, .cancelVersion (Or.inr rfl) (Or.inr ⟨_, _, rfl⟩),
        .cons hclosed (.cons hcreates.turns (Deed.turnAll_single hrecorded)), ht⟩

/-! ## Transactions -/

/-- What is done with some members of a transaction is a deed for each that it is done with. -/
theorem follows_forMembers {act : Nid → Action Unit} {deed : Nid → Deed} (h : s.Bears config l)
    (hact : ∀ nid {s : Store} {l : Ledger}, s.Bears config l →
      (attempt (act nid) s).2.MayFollow config l (deed nid)) (members : List Nid) :
    (Transaction.forMembers act members s).2.Follows config l fun deeds =>
      ∃ nids : List Nid, (∀ nid ∈ nids, nid ∈ members) ∧ deeds = nids.map deed := by
  refine Transaction.forMembers_induction (P := (Follows config l _ ·)) members ?_
    (h.follows ⟨[], by simp, rfl⟩)
  rintro nid hnid t ⟨_, m, ⟨nids, hnids, rfl⟩, hturn, ht⟩
  obtain hstays | ⟨n, hdeed, hn⟩ := hact nid ht
  · exact ⟨_, m, ⟨nids, hnids, rfl⟩, hturn, hstays⟩
  · refine ⟨_, n, ⟨nids ++ [nid], fun other hother => ?_, by rw [List.map_append]; rfl⟩,
      hturn.append (Deed.turnAll_single hdeed), hn⟩
    rcases List.mem_append.mp hother with hmem | hlast
    · exact hnids other hmem
    · rw [List.mem_singleton.mp hlast]
      exact hnid

/-- Committing a transaction does the deeds of some of its members. -/
theorem follows_commit (h : s.Bears config l) (t : Transaction) (time : Int64) :
    ((Operation.commit t time).perform s).Follows config l
      (Operation.Does config (.commit t time)) := by
  rw [Operation.perform, Transaction.store_commitAt]
  split
  · exact h.follows (.nothing _)
  · rename_i htime
    rw [Transaction.store_close]
    split
    · rename_i hstate
      obtain ⟨_, m, ⟨nids, hnids, rfl⟩, hturn, hm⟩ := follows_forMembers h
        (fun nid {_ _} h => mayFollow_commitMember h time nid) t.stamps
      exact Follows.congr ⟨_, m, .commit hstate (by simpa using htime) hnids, hturn, hm⟩ rfl rfl rfl
    · exact h.follows (.nothing _)

/-- Canceling a transaction does the deeds of some of its members. -/
theorem follows_cancel (h : s.Bears config l) (t : Transaction) :
    ((Operation.cancel t).perform s).Follows config l (Operation.Does config (.cancel t)) := by
  rw [Operation.perform, Transaction.cancel, Transaction.store_close]
  split
  · rename_i hstate
    obtain ⟨_, m, ⟨nids, hnids, rfl⟩, hturn, hm⟩ := follows_forMembers h
      (fun nid {_ _} h => mayFollow_cancelMember h nid) t.stamps
    exact Follows.congr ⟨_, m, .cancel hstate hnids, hturn, hm⟩ rfl rfl rfl
  · exact h.follows (.nothing _)

/-! ## Other operations -/

/-- Payloads are merged past the store, by a function that is not its own. -/
def Operation.MergesPayload : Operation → Prop
  | payloads (.merge _ _ _) => True
  | _ => False

private theorem outlastsTouch_serves :
    SpineStore.OutlastsTouch fun (_ : Unit) s => s.Serves content :=
  fun _ _ _ hreaches hserves => hserves.touch (Or.inr hreaches)

private theorem Bears.spines {spines : SpineStore} (h : s.Bears config l)
    (hserves : spines.Serves l.content) : Bears config { s with spines } l :=
  ⟨h.config_eq, h.registry_eq, hserves⟩

/-- What is asked of the spines without a merge leaves the ledger. -/
theorem Bears.payloads {request : SpineStore.Request} (h : s.Bears config l)
    (hmerges : ¬ (Operation.payloads request).MergesPayload) :
    ((Operation.payloads request).perform s).Bears config l := by
  cases request with
  | lookup nid =>
    obtain ⟨spines, hlookup, hserves⟩ := h.serves.lookup nid
    have hrun : (Operation.payloads (.lookup nid)).perform s =
        { s with spines := (SpineStore.lookup nid s.spines).2 } := rfl
    rw [hrun, hlookup]
    exact h.spines hserves
  | merge => exact absurd trivial hmerges
  | scan => exact h.spines (outlastsTouch_serves.entries h.serves)
  | parallelScan workers schedule =>
    exact h.spines (outlastsTouch_serves.entriesParallel h.serves workers schedule)
  | write => exact h.spines h.serves.write

/-- Whatever a calculator is asked, it looks payloads up. -/
theorem Bears.asked {α : Type} (h : s.Bears config l) (handle : CalculatorHandle)
    {question : Scene → SpineStore.Scan Calculator α}
    (hquestion : ∀ scene {Q : SpineStore → Prop},
      Calculator.OutlastsAnswers scene (fun _ s => Q s) →
      SpineStore.Scan.Maintains (fun _ s => Q s) (question scene)) :
    (ask handle question s).2.Bears config l :=
  ⟨h.config_eq, h.registry_eq, hquestion s.scene
    (Calculator.outlastsAnswers_of_touch s.scene outlastsTouch_serves) _ _ h.serves⟩

/-- A flush leaves the ledger but for the mark of its registry. -/
theorem follows_flush (h : s.Bears config l) :
    (attempt flush s).2.Follows config l (Operation.Does config .flush) := by
  have hfirst : (flushRegistry s).2.Follows config l (Operation.Does config .flush) := by
    have hflushes := flushesRegistry s
    generalize flushRegistry s = run at hflushes ⊢
    obtain ⟨answer, t⟩ := run
    cases hflushes with
    | unchanged => exact h.follows (.nothing _)
    | @written medium _ hwrites =>
      have hserves := h.serves.accessed hwrites.readSpine hwrites.reads
      have hconsistent : s.registry.settled.Consistent := by
        rw [h.registry_eq]
        exact l.consistent.settled
      obtain ⟨m, hregistry, hcontent, hm⟩ := exists_ledger
        (s := { s with registry := s.registry.settled, spines := { s.spines with medium } })
        h.config_eq hserves hconsistent
      refine ⟨_, m, .flush, Deed.turnAll_single (.settled ?_ hcontent), hm⟩
      rw [hregistry, h.registry_eq]
    | failed _ hwrites =>
      exact (h.spines (h.serves.accessed hwrites.readSpine hwrites.reads)).follows (.nothing _)
  have hsecond : (flushPaths (flushRegistry s).2).2.Follows config l
      (Operation.Does config .flush) := by
    obtain ⟨deeds, m, hdoes, hturn, hm⟩ := hfirst
    refine ⟨deeds, m, hdoes, hturn, ?_⟩
    have hflushes := flushesPaths (flushRegistry s).2
    generalize flushPaths (flushRegistry s).2 = run at hflushes ⊢
    obtain ⟨answer, t⟩ := run
    cases hflushes with
    | unchanged => exact hm
    | written _ hwrites =>
      exact ⟨hm.config_eq, hm.registry_eq, hm.serves.accessed hwrites.readSpine hwrites.reads⟩
    | failed _ hwrites => exact hm.spines (hm.serves.accessed hwrites.readSpine hwrites.reads)
  have hflush : Ends flush s (fun _ => (Follows config l (Operation.Does config .flush) ·))
      fun _ => (Follows config l (Operation.Does config .flush) ·) := by
    refine ends_flush (fun _ _ => hsecond) fun m n _ _ => ?_
    refine ends_of_attempt (P := (Follows config l (Operation.Does config .flush) ·)) ?_
    rw [attempt_tryOnSpines]
    obtain ⟨deeds, m, hdoes, hturn, hm⟩ := hsecond
    exact ⟨deeds, m, hdoes, hturn, hm.spines hm.serves.write⟩
  exact hflush.attempt

/-- Every operation does some of its deeds. -/
theorem Bears.perform {operation : Operation} (h : s.Bears config l)
    (hmerges : ¬ operation.MergesPayload) :
    (operation.perform s).Follows config l (operation.Does config) := by
  cases operation with
  | resolve id =>
    refine Ends.attempt (P := (Follows config l (Operation.Does config (.resolve id)) ·))
      ((follows_resolve h id).mono ?_ fun _ _ ht => ht.2.follows (.nothing _))
    rintro nid t ⟨m, hresolve, hcontent, hm⟩
    exact ⟨_, m, .resolve id, Deed.turnAll_single (.resolved hresolve hcontent), hm⟩
  | resolveAliases uuids =>
    refine Ends.attempt
      (P := (Follows config l (Operation.Does config (.resolveAliases uuids)) ·)) ?_
    have hid : Ends (outcome (PublicId.ofList uuids)) s
        (fun id t => PublicId.ofList uuids = .ok id ∧ s = t)
        fun _ => (Follows config l (Operation.Does config (.resolveAliases uuids)) ·) :=
      ends_outcome (fun id hid => ⟨hid, rfl⟩) fun _ _ => h.follows (.nothing _)
    refine hid.bind ?_
    rintro id _ ⟨hid, rfl⟩
    refine (follows_resolve h id).mono ?_ fun _ _ ht => ht.2.follows (.nothing _)
    rintro nid t ⟨m, hresolve, hcontent, hm⟩
    exact ⟨_, m, .resolveAliases hid, Deed.turnAll_single (.resolved hresolve hcontent), hm⟩
  | payloads request => exact (h.payloads hmerges).follows (.nothing _)
  | commitStamp fields fresh => exact follows_commitStamp h fields fresh
  | cancelStamp nid =>
    have hcanceled : Ends (cancelStamp nid) s
        (fun _ => (MayFollow config l (.canceled nid) ·))
        fun _ => (MayFollow config l (.canceled nid) ·) := by
      refine ((follows_cancelMember h nid).weaken ?_).bind ?_
      · rintro _ t (ht | ⟨m, hturns, -, hm⟩)
        · exact Or.inl ht
        · exact Or.inr ⟨m, hturns, hm⟩
      · rintro _ t ⟨m, hturns, -, hm⟩
        exact ends_infallible (Or.inr ⟨m, hturns, hm.config_eq, hm.registry_eq, hm.serves⟩)
    exact hcanceled.attempt.follows (.nothing _) (.cancelStamp nid)
  | join t status author module path fresh =>
    rw [Operation.perform, Transaction.store_stamp]
    split
    · rename_i hstate
      exact (mayFollow_createStamp h _ fresh).follows (.nothing _)
        (.join status author module path fresh hstate)
    · exact h.follows (.nothing _)
  | commit t time => exact follows_commit h t time
  | cancel t => exact follows_cancel h t
  | appendVersion nid kind version =>
    exact (mayFollow_appendVersion h nid kind version).follows (.nothing _)
      (.appendVersion nid kind version)
  | cancelVersion nid stamp fresh => exact follows_cancelVersion h nid stamp fresh
  | addPathOrigin path edge =>
    rw [Operation.perform, attempt, addPathOrigin_eq]
    cases s.paths.addOrigin path edge with
    | error error => exact h.follows (.nothing _)
    | ok paths? => cases paths? <;> exact (h.follows (.nothing _)).congr rfl rfl rfl
  | intern coordinate => exact (h.follows (.nothing _)).congr rfl rfl rfl
  | calculator coordinate => exact (h.follows (.nothing _)).congr rfl rfl rfl
  | ask handle question =>
    exact (h.asked handle fun scene _ hoth => hoth.maintains_ask question).follows (.nothing _)
  | latestAll coordinate =>
    have hprovided : (Store.calculator coordinate s).2.Bears config l :=
      ⟨h.config_eq, h.registry_eq, h.serves⟩
    exact (hprovided.asked _ fun scene _ hoth c s hs => hoth.latestAll hs).follows (.nothing _)
  | resetCaches => exact (h.follows (.nothing _)).congr rfl rfl rfl
  | evict eviction => exact (h.follows (.nothing _)).congr rfl rfl rfl
  | flush => exact follows_flush h

/-! ## Whole runs -/

/-- A look-up answers what the ledger says. -/
theorem Bears.lookup_eq (h : s.Bears config l) (nid : Nid) :
    (SpineStore.lookup nid s.spines).1 = l.content nid :=
  h.serves.lookup_eq nid

/-- A store has one ledger. -/
theorem Bears.eq (h : s.Bears config l) (h' : s.Bears config m) : l = m := by
  have hregistry : l.registry = m.registry := h.registry_eq.symm.trans h'.registry_eq
  have hcontent : l.content = m.content := by
    funext nid
    rw [← h.lookup_eq, ← h'.lookup_eq]
  cases l
  cases m
  cases hregistry
  cases hcontent
  rfl

/-- A store has what every ledger with the same registry and content says. -/
theorem Bears.of_eq (h : s.Bears config m) (hregistry : m.registry = l.registry)
    (hcontent : m.content = l.content) : s.Bears config l :=
  ⟨h.config_eq, h.registry_eq.trans hregistry, hcontent ▸ h.serves⟩

/-- What is answered when a payload is looked up and read. -/
theorem attempt_read_iff {α ε : Type} [Coe ε StoreError] {read : Option Bytes → Action α}
    {decode : Bytes → Except ε α} {missing : StoreError} {a : α} (h : s.spines.Serves content)
    (nid : Nid) (hsome : ∀ payload, read (some payload) = outcome (decode payload))
    (hnone : read none = throw missing) :
    (attempt (infallible (onSpines (SpineStore.lookup nid)) >>= read) s).1 = .ok a ↔
      ((content nid).bind fun payload => (decode payload).toOption) = some a := by
  obtain ⟨spines, hlookup, -⟩ := h.lookup nid
  simp only [attempt, bind, EStateM.bind, infallible, onSpines, hlookup]
  cases content nid with
  | none =>
    rw [hnone]
    constructor
    · intro h
      cases h
    · intro h
      cases h
  | some payload =>
    rw [hsome]
    simp only [outcome, Option.bind_some]
    cases decode payload <;> simp [Except.toOption]

/-- The history of a stamp is answered exactly if the ledger has it. -/
theorem Bears.stampHistory_iff {history : StampHistory} (h : s.Bears config l) :
    (attempt (stampHistory nid) s).1 = .ok history ↔ storedIn? l.content nid = some history :=
  attempt_read_iff h.serves nid (fun _ => rfl) rfl

/-- A chronology is answered exactly if the ledger has it. -/
theorem Bears.chronology_iff {c : Chronology} (h : s.Bears config l) :
    (attempt (chronology nid) s).1 = .ok c ↔
      ((l.content nid).bind fun payload => (Chronology.decode payload).toOption) = some c :=
  attempt_read_iff h.serves nid (fun _ => rfl) rfl

/-- The fields of a stamp are answered exactly if the ledger has them. -/
theorem Bears.stamp_iff {fields : StampFields} (h : s.Bears config l) :
    (attempt (stamp nid) s).1 = .ok fields ↔ StampFields.storedIn? l.content nid = some fields := by
  have hstamp : (attempt (stamp nid) s).1 =
      (attempt (stampHistory nid) s).1.map StampHistory.current :=
    attempt_bind_pure _ _ s
  rw [hstamp, StampFields.storedIn?, Option.map_eq_some_iff]
  simp only [← h.stampHistory_iff]
  cases (attempt (stampHistory nid) s).1 <;> simp [Except.map]

/-- A run leads to the ledger that its deeds make of the first one. -/
theorem Bears.performAll {operations : List Operation} (h : s.Bears config l)
    (hmerges : ∀ operation ∈ operations, ¬ operation.MergesPayload) :
    ∃ deeds m, Deed.TurnAll deeds l m ∧ (s.performAll operations).Bears config m := by
  induction operations generalizing s l with
  | nil => exact ⟨[], l, .nil l, h⟩
  | cons operation rest ih =>
    obtain ⟨first, m, -, hfirst, hm⟩ := h.perform (hmerges operation List.mem_cons_self)
    obtain ⟨deeds, n, hrest, hn⟩ :=
      ih hm fun other hother => hmerges other (List.mem_cons_of_mem operation hother)
    exact ⟨first ++ deeds, n, hfirst.append hrest, hn⟩

/-- A store that was opened over an empty medium has nothing stored. -/
theorem Opens.bears {medium : Medium} {opened : Store} (h : Opens config medium opened)
    (hblank : medium.backing.Blank) :
    ∃ l : Ledger, l.registry = opened.registry ∧ l.content = (fun _ => none) ∧
      opened.Bears config l := by
  have hcoheres := h.coheres hblank
  exact exists_ledger h.config_eq hcoheres.serves hcoheres.stamped.consistent

end Store

end Chronicle
