import Chronicle.Proofs.Store.Deeds

/-!
# Finality of stamps

A stamp is committed or canceled at most once, and that is the end of it. No deed changes a byte of
a closed stamp. An open stamp was created under a UUID that was drawn for it; as long as nobody else
comes by that UUID, it takes one entry more, which commits or cancels it.
-/

namespace Chronicle

open StampHistory (storedIn? push_of_closed push_of_open)

/-- A stamp is stored and is committed or canceled. -/
def ClosedIn (content : Nid → Option Bytes) (stamp : Nid) : Prop :=
  ∃ fields, StampFields.storedIn? content stamp = some fields ∧ fields.isUncommitted = false

variable {content : Nid → Option Bytes} {l m : Ledger} {nid : Nid} {deed : Deed}

/-! ## Closed stamps -/

/-- A closed stamp is stored, and its current fields are not open. -/
theorem ClosedIn.exists_history (h : ClosedIn content nid) :
    ∃ history, storedIn? content nid = some history ∧
      history.current.isUncommitted = false := by
  obtain ⟨_, hfields, hclosed⟩ := h
  obtain ⟨history, hhistory, rfl⟩ := Option.map_eq_some_iff.mp hfields
  exact ⟨history, hhistory, hclosed⟩

/-- Fields that are offered change no closed stamp, whichever nid they are offered to. -/
theorem ClosedIn.offering_eq (h : ClosedIn content nid) (target : Nid) (fields : StampFields) :
    offering content target fields nid = content nid := by
  by_cases htarget : nid = target
  · obtain ⟨history, hhistory, hclosed⟩ := h.exists_history
    rw [← htarget, offering_of_closed fields hhistory hclosed]
  · rw [offering, replaced, if_neg htarget]

/-- No deed changes a closed stamp. -/
theorem Deed.Turns.content_eq (h : deed.Turns l m) (hclosed : ClosedIn l.content nid) :
    m.content nid = l.content nid := by
  cases h with
  | resolved _ hcontent => rw [hcontent]
  | created _ _ hcontent => rw [hcontent, hclosed.offering_eq]
  | committed _ _ hcontent => rw [hcontent, hclosed.offering_eq]
  | canceled _ _ hcontent => rw [hcontent, hclosed.offering_eq]
  | @recorded _ _ target kind version fields _ _ hcontent =>
    rw [hcontent, replaced]
    split
    · rename_i htarget
      obtain ⟨history, hhistory, -⟩ := hclosed.exists_history
      obtain ⟨payload, hpayload, hdecode⟩ := exists_of_storedIn? hhistory
      rw [← htarget, hpayload, Chronology.merged_of_stamp _ _ hdecode]
    · rfl
  | settled _ hcontent => rw [hcontent]

/-- A stamp is closed by what is stored for it alone. -/
theorem ClosedIn.congr {content' : Nid → Option Bytes} (h : ClosedIn content nid)
    (hsame : content' nid = content nid) : ClosedIn content' nid := by
  obtain ⟨fields, hfields, hclosed⟩ := h
  refine ⟨fields, ?_, hclosed⟩
  rw [StampFields.storedIn?, storedIn?, hsame]
  exact hfields

/-- A closed stamp stays as it is for good. -/
theorem Deed.TurnAll.content_eq {deeds : List Deed} (h : Deed.TurnAll deeds l m)
    (hclosed : ClosedIn l.content nid) : m.content nid = l.content nid := by
  induction h with
  | nil => rfl
  | cons hfirst _ ih =>
    have hsame := hfirst.content_eq hclosed
    exact (ih (hclosed.congr hsame)).trans hsame

/-! ## Histories -/

/-- How the history of a stamp looks: it has one entry, or an open entry and one that commits or
cancels it. -/
inductive StampHistory.Regular : StampHistory → Prop
  | start (fields : StampFields) : Regular (.start fields)
  | committed {draft : StampFields} (time : Int64) (hopen : draft.isUncommitted = true) :
      Regular { earlier := [draft], current := draft.committedAt time }
  | canceled {draft : StampFields} (hopen : draft.isUncommitted = true) :
      Regular { earlier := [draft], current := draft.canceled }

namespace StampHistory.Regular

variable {history : StampHistory}

/-- A regular history has one entry or two. -/
theorem length_versions (h : history.Regular) :
    history.versions.length = 1 ∨ history.versions.length = 2 := by
  cases h with
  | start => exact Or.inl rfl
  | committed => exact Or.inr rfl
  | canceled => exact Or.inr rfl

/-- What the earlier entry has in common with the last one. -/
theorem of_mem_earlier (h : history.Regular) {entry : StampFields}
    (hentry : entry ∈ history.earlier) :
    entry.isUncommitted = true ∧ entry.author = history.current.author ∧
      entry.module = history.current.module ∧ entry.path = history.current.path ∧
      (history.current.isCommitted = true → entry.status = history.current.status) := by
  cases h with
  | start => cases hentry
  | committed time hopen =>
    obtain rfl := List.mem_singleton.mp hentry
    exact ⟨hopen, rfl, rfl, rfl, fun _ => rfl⟩
  | canceled hopen =>
    obtain rfl := List.mem_singleton.mp hentry
    refine ⟨hopen, rfl, rfl, rfl, fun hcommitted => ?_⟩
    rw [StampFields.isCommitted_canceled] at hcommitted
    cases hcommitted

end StampHistory.Regular

/-- When a deed can be done without making two stamps of one: a UUID that is drawn is new, open
stamps are created under such UUIDs only, nobody names the UUID of an open stamp, and a stamp is
committed at an ordinary time. -/
def Deed.Sound (drawn known : Uuid → Prop) (l : Ledger) : Deed → Prop
  | resolved id => ∀ uuid ∈ id.uuids, known uuid ∧ ∀ nid history,
      l.registry.nid? uuid = some nid → storedIn? l.content nid = some history →
        history.current.isUncommitted = false
  | created uuid fields => known uuid ∧ (drawn uuid → l.registry.nid? uuid = none) ∧
      (fields.isUncommitted = true → drawn uuid)
  | committed _ time => Time.isSentinel time = false
  | _ => True

/-- Some deeds, each of which can be done when it is its turn. -/
def Deed.AllSound (drawn known : Uuid → Prop) : List Deed → Ledger → Prop
  | [], _ => True
  | deed :: rest, l => deed.Sound drawn known l ∧
      ∀ m, deed.Turns l m → AllSound drawn known rest m

/-- What a deed may do to the history of a stamp, if there is one. -/
inductive Deed.Moves (nid : Nid) : Deed → Option StampHistory → Option StampHistory → Prop
  | stays (deed : Deed) (history? : Option StampHistory) : Moves nid deed history? history?
  | starts (uuid : Uuid) (fields : StampFields) :
      Moves nid (.created uuid fields) none (some (.start fields))
  | commits {draft : StampFields} (time : Int64) (hopen : draft.isUncommitted = true) :
      Moves nid (.committed nid time) (some (.start draft))
        (some { earlier := [draft], current := draft.committedAt time })
  | cancels {draft : StampFields} (hopen : draft.isUncommitted = true) :
      Moves nid (.canceled nid) (some (.start draft))
        (some { earlier := [draft], current := draft.canceled })

section

variable {drawn known : Uuid → Prop} {l m : Ledger} {nid : Nid} {deed : Deed}

/-- Fields that close a stamp are taken by it if it is open. -/
theorem moves_of_offering {target : Nid} {history : StampHistory} {fields : StampFields}
    (hs : Stamped drawn known l.registry l.content)
    (hstored : storedIn? l.content target = some history) (hfields : fields.isUncommitted = false)
    (hmoves : history.current.isUncommitted = true →
      deed.Moves target (some (.start history.current))
        (some { earlier := [history.current], current := fields })) (nid : Nid) :
    deed.Moves nid (storedIn? l.content nid)
      (storedIn? (offering l.content target fields) nid) := by
  by_cases htarget : nid = target
  · subst htarget
    cases hopen : history.current.isUncommitted with
    | false =>
      rw [offering_of_closed fields hstored hopen]
      exact .stays _ _
    | true =>
      have hearlier := hs.single nid history hstored hopen
      have hhistory : history = .start history.current := by
        cases history
        simpa [StampHistory.start] using hearlier
      have htaken : storedIn? (offering l.content nid fields) nid =
          some { earlier := [history.current], current := fields } := by
        rw [storedIn?_offering_of_some hstored fun _ => hearlier, push_of_open hopen hfields,
          StampHistory.versions, hearlier]
        rfl
      rw [htaken, hstored, hhistory]
      exact hmoves hopen
  · rw [storedIn?_offering_ne htarget]
    exact .stays _ _

/-- What a sound deed does to a stamp. -/
theorem Deed.Turns.moves (h : deed.Turns l m) (hsound : deed.Sound drawn known l)
    (hs : Stamped drawn known l.registry l.content) (nid : Nid) :
    deed.Moves nid (storedIn? l.content nid) (storedIn? m.content nid) := by
  cases h with
  | resolved _ hcontent =>
    rw [hcontent]
    exact .stays _ _
  | @created _ _ uuid fields id target huuids hresolve hcontent =>
    obtain ⟨hknown, hnew, hfields⟩ := hsound
    obtain ⟨-, hclosed⟩ := hs.create hresolve huuids hknown hnew hfields
    rw [hcontent]
    by_cases htarget : nid = target
    · subst htarget
      cases hstored : storedIn? l.content nid with
      | some history =>
        rw [offering_of_closed fields hstored (hclosed history hstored), hstored]
        exact .stays _ _
      | none =>
        cases hpayload : l.content nid with
        | some payload =>
          rw [offering_of_other fields hpayload hstored, hstored]
          exact .stays _ _
        | none =>
          rw [storedIn?_offering_of_none hpayload]
          exact .starts uuid fields
    · rw [storedIn?_offering_ne htarget]
      exact .stays _ _
  | committed hstored _ hcontent =>
    rw [hcontent]
    exact moves_of_offering hs hstored (StampFields.isUncommitted_committedAt hsound)
      (fun hopen => .commits _ hopen) nid
  | canceled hstored _ hcontent =>
    rw [hcontent]
    exact moves_of_offering hs hstored (StampFields.isUncommitted_canceled _)
      (fun hopen => .cancels hopen) nid
  | recorded _ _ hcontent =>
    rw [hcontent, storedIn?_recording]
    exact .stays _ _
  | settled _ hcontent =>
    rw [hcontent]
    exact .stays _ _

/-- Sound deeds leave stamps as they should be. -/
theorem Deed.Turns.stamped (h : deed.Turns l m) (hsound : deed.Sound drawn known l)
    (hs : Stamped drawn known l.registry l.content) :
    Stamped drawn known m.registry m.content := by
  cases h with
  | resolved hresolve hcontent =>
    rw [hcontent]
    exact hs.resolve hresolve (fun uuid huuid => (hsound uuid huuid).1)
      fun uuid huuid history => (hsound uuid huuid).2 _ history
  | created huuids hresolve hcontent =>
    rw [hcontent]
    exact (hs.create hresolve huuids hsound.1 hsound.2.1 hsound.2.2).1
  | @committed _ _ target time history hstored hregistry hcontent =>
    have hclosed : (history.current.committedAt time).isUncommitted = false :=
      StampFields.isUncommitted_committedAt hsound
    rw [hregistry, hcontent]
    refine hs.offer (hs.allocated target history hstored) (fun _ hopen => ?_) fun _ _ _ => hclosed
    rw [hclosed] at hopen
    cases hopen
  | @canceled _ _ target history hstored hregistry hcontent =>
    have hclosed := StampFields.isUncommitted_canceled history.current
    rw [hregistry, hcontent]
    refine hs.offer (hs.allocated target history hstored) (fun _ hopen => ?_) fun _ _ _ => hclosed
    rw [hclosed] at hopen
    cases hopen
  | recorded _ hregistry hcontent =>
    rw [hregistry, hcontent]
    exact hs.congr fun nid => storedIn?_recording ..
  | settled hregistry hcontent =>
    rw [hregistry, hcontent]
    exact hs.settled

end

/-- What every moment knows of stamps: they are as they should be, and so are their histories. -/
structure Orderly (drawn known : Uuid → Prop) (l : Ledger) : Prop where
  stamped : Stamped drawn known l.registry l.content
  regular : ∀ nid history, storedIn? l.content nid = some history → history.Regular

variable {drawn known : Uuid → Prop} {deeds : List Deed}

/-- A deed that can be done keeps stamps in order. -/
theorem Deed.Turns.orderly (h : deed.Turns l m) (hsound : deed.Sound drawn known l)
    (hl : Orderly drawn known l) : Orderly drawn known m := by
  refine ⟨h.stamped hsound hl.stamped, fun nid history hhistory => ?_⟩
  have hmoves := h.moves hsound hl.stamped nid
  have hregular := hl.regular nid
  rw [hhistory] at hmoves
  generalize storedIn? l.content nid = before at hmoves hregular
  cases hmoves with
  | stays => exact hregular history rfl
  | starts uuid fields => exact .start fields
  | commits time hopen => exact .committed time hopen
  | cancels hopen => exact .canceled hopen

/-- Deeds keep stamps in order, each of which can be done when it is its turn. -/
theorem Deed.TurnAll.orderly (h : Deed.TurnAll deeds l m)
    (hsound : Deed.AllSound drawn known deeds l) (hl : Orderly drawn known l) :
    Orderly drawn known m := by
  induction h with
  | nil => exact hl
  | cons hfirst _ ih => exact ih (hsound.2 _ hfirst) (hfirst.orderly hsound.1 hl)

private theorem Orderly.mono {drawn' known' : Uuid → Prop} (h : Orderly drawn known l)
    (hdrawn : ∀ uuid, drawn uuid → drawn' uuid) (hknown : ∀ uuid, known uuid → known' uuid) :
    Orderly drawn' known' l :=
  ⟨h.stamped.mono hdrawn hknown, h.regular⟩

private theorem Deed.allSound_of_forall (l : Ledger)
    (h : ∀ deed ∈ deeds, ∀ l, deed.Sound drawn known l) : Deed.AllSound drawn known deeds l := by
  induction deeds generalizing l with
  | nil => trivial
  | cons deed rest ih =>
    exact ⟨h deed List.mem_cons_self l, fun m _ =>
      ih m fun other hother => h other (List.mem_cons_of_mem deed hother)⟩

/-! ## Runs -/

namespace Store

variable {s : Store} {config : Config} {past : List Operation} {operation : Operation}

/-- Payloads are not merged past the store, and nobody names the UUID of an existing stamp. -/
def Operation.Proper (s : Store) : Operation → Prop
  | resolve id => ∀ uuid ∈ id.uuids, ¬ s.NamesStamp uuid
  | resolveAliases uuids => ∀ uuid ∈ uuids, ¬ s.NamesStamp uuid
  | operation => ¬ operation.MergesPayload

/-- Something holds of every operation of a run where it is performed. -/
def Throughout (P : Store → Operation → Prop) (s : Store) : List Operation → Prop
  | [] => True
  | operation :: later => P s operation ∧ Throughout P (operation.perform s) later

/-- What holds throughout a run does so throughout its parts. -/
theorem Throughout.of_append {P : Store → Operation → Prop} (first : List Operation)
    {second : List Operation} (h : Throughout P s (first ++ second)) :
    Throughout P s first ∧ Throughout P (s.performAll first) second := by
  induction first generalizing s with
  | nil => exact ⟨trivial, h⟩
  | cons operation later ih =>
    obtain ⟨hoperation, hlater⟩ := h
    obtain ⟨hfirst, hsecond⟩ := ih hlater
    exact ⟨⟨hoperation, hfirst⟩, hsecond⟩

/-- A proper operation does not merge payloads past the store. -/
theorem Operation.Proper.not_mergesPayload (h : operation.Proper s) :
    ¬ operation.MergesPayload := by
  cases operation <;> first | exact h | exact fun hmerges => hmerges

/-- A UUID without a nid is that of no stamp. -/
theorem proper_of_unknown {uuid : Uuid} (h : s.registry.nid? uuid = none) :
    Operation.Proper s (.resolveAliases [uuid]) := by
  rintro named hnamed ⟨nid, history, hnid, -⟩
  obtain rfl := List.mem_singleton.mp hnamed
  rw [h] at hnid
  cases hnid

/-- A UUID that is drawn is new to the registry. -/
theorem nid?_of_drawn (hl : Orderly (Drawn config past) (Known config past) l)
    (hapart : Apart config past operation) {uuid : Uuid} (huuid : uuid ∈ operation.drawn config) :
    l.registry.nid? uuid = none := by
  cases hnid : l.registry.nid? uuid with
  | none => rfl
  | some nid => exact absurd (hl.stamped.known uuid nid hnid) (hapart.drawn uuid huuid)

/-- The deeds of a proper operation are sound, if its UUIDs are apart from those of the run. -/
theorem Operation.Does.allSound (hdoes : operation.Does config deeds) (hs : s.Bears config l)
    (hl : Orderly (Drawn config past) (Known config past) l) (hproper : operation.Proper s)
    (hapart : Apart config past operation) :
    Deed.AllSound (Drawn config (past ++ [operation])) (Known config (past ++ [operation])) deeds
      l := by
  have hnew {uuid : Uuid} (huuid : uuid ∈ operation.drawn config) :
      l.registry.nid? uuid = none := nid?_of_drawn hl hapart huuid
  have hdrawn {uuid : Uuid} (huuid : uuid ∈ operation.drawn config) :
      Drawn config (past ++ [operation]) uuid := drawn_append.mpr (Or.inr huuid)
  have hknown {uuid : Uuid}
      (huuid : uuid ∈ operation.drawn config ∨ uuid ∈ operation.named config) :
      Known config (past ++ [operation]) uuid := known_append (Or.inr huuid)
  have hnamed {uuid : Uuid} (huuid : ¬ s.NamesStamp uuid) (nid : Nid) (history : StampHistory)
      (hnid : l.registry.nid? uuid = some nid)
      (hhistory : storedIn? l.content nid = some history) :
      history.current.isUncommitted = false :=
    absurd ⟨nid, history, hs.registry_eq ▸ hnid, hs.stampHistory_iff.mpr hhistory⟩ huuid
  cases hdoes with
  | nothing => trivial
  | resolve id =>
    exact ⟨fun uuid huuid => ⟨hknown (Or.inr huuid), hnamed (hproper uuid huuid)⟩,
      fun _ _ => trivial⟩
  | @resolveAliases uuids id hid =>
    have huuids (uuid : Uuid) (huuid : uuid ∈ id.uuids) : uuid ∈ uuids := by
      rw [(PublicId.ofList_eq_ok_iff.mp hid).2.2] at huuid
      exact List.mem_eraseDups.mp huuid
    exact ⟨fun uuid huuid => ⟨hknown (Or.inr (huuids uuid huuid)),
      hnamed (hproper uuid (huuids uuid huuid))⟩, fun _ _ => trivial⟩
  | @commitStamp fields fresh htime =>
    have hclosed : fields.isUncommitted = true → Drawn config
        (past ++ [.commitStamp fields fresh]) (committedUuid config fields fresh) := by
      -- No open stamp has an ordinary time.
      intro hopen
      simp only [StampFields.isUncommitted, Bool.and_eq_true] at hopen
      simp [Time.isSentinel, hopen.2] at htime
    refine ⟨⟨?_, ?_, hclosed⟩, fun _ _ => trivial⟩
    · refine hknown ?_
      simp only [committedUuid, Operation.drawn, Operation.named]
      split <;> simp
    · intro hold
      rw [committedUuid] at hold ⊢
      split at hold
      · rename_i hcontent
        have hname : fields.contentUuid ∈ (Operation.commitStamp fields fresh).named config := by
          simp [Operation.named, hcontent]
        have hnone : (Operation.commitStamp fields fresh).drawn config = [] := by
          simp [Operation.drawn, hcontent]
        rw [drawn_append, hnone] at hold
        exact absurd (hold.resolve_right (by simp)) (hapart.named _ hname)
      · rename_i hcontent
        rw [if_neg hcontent]
        exact hnew (by simp [Operation.drawn, hcontent])
  | cancelStamp => exact ⟨trivial, fun _ _ => trivial⟩
  | @join t status author module path fresh =>
    have hfresh := List.mem_singleton_self fresh
    exact ⟨⟨hknown (Or.inl hfresh), fun _ => hnew hfresh, fun _ => hdrawn hfresh⟩,
      fun _ _ => trivial⟩
  | commit _ htime =>
    refine Deed.allSound_of_forall l fun deed hdeed _ => ?_
    obtain ⟨nid, -, rfl⟩ := List.mem_map.mp hdeed
    exact htime
  | cancel =>
    refine Deed.allSound_of_forall l fun deed hdeed _ => ?_
    obtain ⟨nid, -, rfl⟩ := List.mem_map.mp hdeed
    trivial
  | appendVersion => exact ⟨trivial, fun _ _ => trivial⟩
  | @cancelVersion nid stamp fresh fields first last hfirst hlast =>
    have hfresh := List.mem_singleton_self fresh
    have hcreated {m : Ledger} (hregistry : m.registry = l.registry) :
        Deed.AllSound (Drawn config (past ++ [.cancelVersion nid stamp fresh]))
          (Known config (past ++ [.cancelVersion nid stamp fresh]))
          (.created fresh fields.canceled :: last) m := by
      refine ⟨⟨hknown (Or.inl hfresh), fun _ => hregistry ▸ hnew hfresh, fun _ => hdrawn hfresh⟩,
        fun n _ => ?_⟩
      obtain rfl | ⟨kind, version, rfl⟩ := hlast
      · trivial
      · exact ⟨trivial, fun _ _ => trivial⟩
    obtain rfl | rfl := hfirst
    · exact hcreated rfl
    · refine ⟨trivial, fun m hm => ?_⟩
      cases hm with
      | canceled _ hregistry _ => exact hcreated hregistry
  | cancelVersion_stamp => exact ⟨trivial, fun _ _ => trivial⟩
  | flush => exact ⟨trivial, fun _ _ => trivial⟩

/-- Stamps that are in order are so when one more operation may draw UUIDs. -/
theorem orderly_weaken (h : Orderly (Drawn config past) (Known config past) l)
    (operation : Operation) :
    Orderly (Drawn config (past ++ [operation])) (Known config (past ++ [operation])) l :=
  h.mono (fun _ hdrawn => drawn_append.mpr (Or.inl hdrawn))
    fun _ hknown => known_append (Or.inl hknown)

/-- What a proper operation does, and what is known afterwards. -/
structure Conducts (config : Config) (past : List Operation) (operation : Operation) (l : Ledger)
    (deeds : List Deed) (m : Ledger) (s : Store) : Prop where
  does : operation.Does config deeds
  turn : Deed.TurnAll deeds l m
  sound : Deed.AllSound (Drawn config (past ++ [operation])) (Known config (past ++ [operation]))
    deeds l
  bears : s.Bears config m
  orderly : Orderly (Drawn config (past ++ [operation])) (Known config (past ++ [operation])) m

/-- A proper operation does deeds that keep stamps in order. -/
theorem Bears.perform_proper (hs : s.Bears config l)
    (hl : Orderly (Drawn config past) (Known config past) l) (hproper : operation.Proper s)
    (hapart : Apart config past operation) :
    ∃ deeds m, Conducts config past operation l deeds m (operation.perform s) := by
  obtain ⟨deeds, m, hdoes, hturn, hm⟩ := hs.perform hproper.not_mergesPayload
  have hsound := hdoes.allSound hs hl hproper hapart
  exact ⟨deeds, m, hdoes, hturn, hsound, hm, hturn.orderly hsound (orderly_weaken hl operation)⟩

/-- A run of proper operations does deeds that keep stamps in order. -/
theorem Bears.performAll_proper {operations : List Operation} (hs : s.Bears config l)
    (hl : Orderly (Drawn config past) (Known config past) l)
    (hproper : Throughout Operation.Proper s operations) (rest : List Operation)
    (hdraws : DrawsApart config (past ++ operations ++ rest)) :
    ∃ deeds m, Deed.TurnAll deeds l m ∧ (s.performAll operations).Bears config m ∧
      Orderly (Drawn config (past ++ operations)) (Known config (past ++ operations)) m := by
  induction operations generalizing past s l with
  | nil => exact ⟨[], l, .nil l, hs, by rwa [List.append_nil]⟩
  | cons operation later ih =>
    have hapart : Apart config past operation :=
      DrawsApart.apart (later ++ rest) (by simpa using hdraws)
    obtain ⟨hoperation, hlater⟩ := hproper
    obtain ⟨first, m, hconducts⟩ := hs.perform_proper hl hoperation hapart
    rw [List.append_cons] at hdraws ⊢
    obtain ⟨deeds, n, hturn, hn, hlast⟩ := ih hconducts.bears hconducts.orderly hlater hdraws
    exact ⟨first ++ deeds, n, hconducts.turn.append hturn, hn, hlast⟩

/-- Nothing is out of order in a store that was opened over an empty medium. -/
theorem Opens.orderly {medium : Medium} {opened : Store} (h : Opens config medium opened)
    (hblank : medium.backing.Blank) :
    ∃ l : Ledger, opened.Bears config l ∧ Orderly (Drawn config []) (Known config []) l := by
  obtain ⟨l, hregistry, hcontent, hl⟩ := h.bears hblank
  refine ⟨l, hl, ?_, fun nid history hhistory => ?_⟩
  · rw [hregistry, hcontent]
    exact (h.coheres hblank).stamped
  · rw [hcontent] at hhistory
    cases hhistory

/-- **Stamps are final.** After any run on a store that was empty, as long as the UUIDs that are
drawn differ from all others, nobody names the UUID of an existing stamp and no payload is merged
past the store: the history of a stamp has one or two entries. An earlier entry is uncommitted and
has the author, the module and the path of the last one, and its status as well if that one is
committed. A stamp that was committed or canceled at any moment of the run has kept its payload
since then. -/
theorem stamps_final {medium next : Medium} {rooted : Bool} {opened : Store}
    {before after : List Operation} (hblank : medium.backing.Blank)
    (hopen : overMedium config rooted medium = .ok opened next)
    (hproper : Throughout Operation.Proper opened (before ++ after))
    (hdraws : DrawsApart config (before ++ after)) :
    let s := opened.performAll before
    let t := s.performAll after
    (∀ nid history, (attempt (stampHistory nid) t).1 = .ok history →
      (history.versions.length = 1 ∨ history.versions.length = 2) ∧
      ∀ entry ∈ history.earlier, entry.isUncommitted = true ∧
        entry.author = history.current.author ∧ entry.module = history.current.module ∧
        entry.path = history.current.path ∧
        (history.current.isCommitted = true → entry.status = history.current.status)) ∧
    ∀ nid fields, (attempt (stamp nid) s).1 = .ok fields →
      (fields.isCommitted = true ∨ fields.isCanceled = true) →
      (SpineStore.lookup nid t.spines).1 = (SpineStore.lookup nid s.spines).1 := by
  intro s t
  obtain ⟨l, hl, horderly⟩ := (opens_of_overMedium hopen).orderly hblank
  obtain ⟨hbefore, hafter⟩ := hproper.of_append before
  obtain ⟨_, m, -, hm, hmiddle⟩ :=
    hl.performAll_proper horderly hbefore after (by simpa using hdraws)
  obtain ⟨_, n, hturn, hn, hlast⟩ :=
    hm.performAll_proper hmiddle hafter [] (by simpa using hdraws)
  constructor
  · intro nid history hhistory
    have hregular := hlast.regular nid history (hn.stampHistory_iff.mp hhistory)
    exact ⟨hregular.length_versions, fun entry hentry => hregular.of_mem_earlier hentry⟩
  · intro nid fields hfields hshut
    have hclosed : ClosedIn m.content nid :=
      ⟨fields, hm.stamp_iff.mp hfields, StampFields.isUncommitted_of_closed hshut⟩
    rw [hn.lookup_eq, hm.lookup_eq]
    exact hturn.content_eq hclosed

/-- A stamp is committed with its transaction. Whoever tries to cancel it, to commit it at another
time or to retract its version does not change it. -/
theorem stamps_final_committed :
    ∃ opened next member fields history before after,
      overMedium { spineSize := 4 } false Medium.inMemory = .ok opened next ∧
      let s := opened.performAll before
      let t := s.performAll after
      (attempt (stamp member) s).1 = .ok fields ∧ fields.isCommitted = true ∧
      (attempt (stampHistory member) t).1 = .ok history ∧ history.versions.length = 2 ∧
      (∀ entry ∈ history.earlier, entry.status = fields.status) ∧
      (SpineStore.lookup member t.spines).1 = (SpineStore.lookup member s.spines).1 := by
  let path : Nid := ⟨-2147483642⟩
  let component : Nid := ⟨-2147483641⟩
  let member : Nid := ⟨-2147483640⟩
  let draft : StampFields := .draft .active path path path
  let before : List Operation :=
    [.resolveAliases [⟨1⟩], .resolveAliases [⟨2⟩],
      .join { name := "work" } .active path path path ⟨3⟩,
      .appendVersion component .concept ⟨member, [1]⟩,
      .commit { name := "work", stamps := [member] } 7]
  let after : List Operation :=
    [.cancelStamp member, .commit { name := "other", stamps := [member] } 9,
      .cancelVersion component member ⟨4⟩]
  obtain ⟨opened, next, hopen, hfirst, hsecond, hfields, hhistory⟩ :
      ∃ opened next, overMedium { spineSize := 4 } false Medium.inMemory = .ok opened next ∧
        opened.registry.nid? ⟨1⟩ = none ∧
        (opened.performAll (before.take 1)).registry.nid? ⟨2⟩ = none ∧
        (attempt (stamp member) (opened.performAll before)).1 = .ok (draft.committedAt 7) ∧
        (attempt (stampHistory member) ((opened.performAll before).performAll after)).1 =
          .ok ⟨[draft], draft.committedAt 7⟩ :=
    ⟨_, _, rfl, by decide +kernel, by decide +kernel, by decide +kernel, by decide +kernel⟩
  have hproper : Throughout Operation.Proper opened (before ++ after) :=
    ⟨proper_of_unknown hfirst, proper_of_unknown hsecond, id, id, id, id, id, id, trivial⟩
  have hdraws : DrawsApart { spineSize := 4 } (before ++ after) := by
    refine ⟨by decide, by decide, fun uuid huuid status => ?_⟩
    rcases List.mem_pair.mp huuid with rfl | rfl <;> cases status <;> decide
  obtain ⟨hregular, hkept⟩ := stamps_final Backing.blank_inMemory hopen hproper hdraws
  have hentries := (hregular member _ hhistory).2
  exact ⟨opened, next, member, draft.committedAt 7, _, before, after, hopen, hfields, by decide,
    hhistory, rfl, fun entry hentry => (hentries entry hentry).2.2.2.2 (by decide),
    hkept member _ hfields (by decide)⟩

end Store

end Chronicle
