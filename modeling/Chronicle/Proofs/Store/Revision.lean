import Chronicle.Proofs.Component.Recording
import Chronicle.Proofs.Store.Stamping
import Mathlib.Logic.Relation

/-!
# Revisions of what is stored

What is stored changes in two ways: fields are offered to a stamp, which creates or closes it, and a
version is recorded under a stamp. Each concerns one path, so that a region of paths can be named to
which all changes of a run keep. A stamp outside of the region stays as it is, and so do the
versions under it.
-/

namespace Chronicle

open StampHistory (push_of_closed current_push_of_open)
open StampFields (storedIn?)
open Chronology (Takes versionsOf)

variable {region : Nid → Prop} {content content' content'' : Nid → Option Bytes} {nid : Nid}

/-- The path of a stamp lies in a region, if a stamp is stored. -/
def LiesIn (region : Nid → Prop) (content : Nid → Option Bytes) (nid : Nid) : Prop :=
  ∀ fields, storedIn? content nid = some fields → region fields.path

/-- One change of what is stored, on the paths of a region. An open stamp that takes fields has to
be on one of them already. -/
inductive Revises (region : Nid → Prop) (content : Nid → Option Bytes) :
    (Nid → Option Bytes) → Prop
  | offered {nid : Nid} {fields : StampFields} (hnid : Nid.first.raw ≤ nid.raw)
      (hsingle : ∀ history, StampHistory.storedIn? content nid = some history →
        history.current.isUncommitted = true → history.earlier = [])
      (hregion : ∀ history, StampHistory.storedIn? content nid = some history →
        history.current.isUncommitted = true → region history.current.path)
      (hpath : region fields.path) : Revises region content (offering content nid fields)
  | recorded {version : Version} {fields : StampFields}
      (hstored : storedIn? content version.stamp = some fields) (hpath : region fields.path)
      (nid : Nid) (kind : ComponentKind) :
      Revises region content (replaced content nid
        (SpineStore.merged (Chronology.mergePayload fields.isUncommitted)
          (Chronology.start nid kind version).encode (content nid)))

/-- Some changes, one after another. -/
def Revisions (region : Nid → Prop) : (Nid → Option Bytes) → (Nid → Option Bytes) → Prop :=
  Relation.ReflTransGen (Revises region)

/-! ## Stamps -/

/-- The fields of a stored stamp are its current ones. -/
theorem storedIn?_of_history {history : StampHistory}
    (h : StampHistory.storedIn? content nid = some history) :
    storedIn? content nid = some history.current := by
  rw [storedIn?, h, Option.map_some]

/-- Fields that are offered to a nid become those of its stamp, if it is open or a new one.
Otherwise they change nothing. -/
theorem stored_offering_cases {target : Nid} {fields : StampFields}
    (hsingle : ∀ history, StampHistory.storedIn? content target = some history →
      history.current.isUncommitted = true → history.earlier = []) (nid : Nid) :
    storedIn? (offering content target fields) nid = storedIn? content nid ∨
      nid = target ∧ storedIn? (offering content target fields) nid = some fields ∧
        ∀ history, StampHistory.storedIn? content nid = some history →
          history.current.isUncommitted = true := by
  by_cases htarget : nid = target
  · subst htarget
    cases hstored : StampHistory.storedIn? content nid with
    | some history =>
      have hpushed : StampHistory.storedIn? (offering content nid fields) nid =
          some (history.push fields) := storedIn?_offering_of_some hstored (hsingle history hstored)
      have hafter := storedIn?_of_history hpushed
      cases hopen : history.current.isUncommitted with
      | false =>
        left
        rw [hafter, push_of_closed hopen, storedIn?_of_history hstored]
      | true =>
        rw [current_push_of_open hopen] at hafter
        refine Or.inr ⟨rfl, hafter, fun found hfound => ?_⟩
        cases hfound
        exact hopen
    | none =>
      cases hpayload : content nid with
      | some payload =>
        left
        rw [offering_of_other fields hpayload hstored]
      | none =>
        refine Or.inr ⟨rfl, ?_, fun history hhistory => by cases hhistory⟩
        exact storedIn?_of_history (storedIn?_offering_of_none hpayload)
  · left
    rw [storedIn?, storedIn?_offering_ne htarget]
    rfl

/-- What a change does to a stamp: nothing, or it was none or one of the region before, and is one
of the region afterwards. -/
theorem Revises.stored_cases (h : Revises region content content') (nid : Nid) :
    storedIn? content' nid = storedIn? content nid ∨
      (∃ fields, storedIn? content' nid = some fields ∧ region fields.path) ∧
        LiesIn region content nid ∧ Nid.first.raw ≤ nid.raw := by
  cases h with
  | @offered target fields hnid hsingle hregion hpath =>
    rcases stored_offering_cases hsingle nid with hsame | ⟨rfl, hfields, hopen⟩
    · exact Or.inl hsame
    · refine Or.inr ⟨⟨fields, hfields, hpath⟩, fun found hfound => ?_, hnid⟩
      obtain ⟨history, hhistory, rfl⟩ := Option.map_eq_some_iff.mp hfound
      exact hregion history hhistory (hopen history hhistory)
  | @recorded version fields hstored hpath component kind =>
    left
    unfold storedIn?
    rw [storedIn?_recording]

/-- A stamp in the region stays there when what is stored is revised in it. -/
theorem LiesIn.revised (h : LiesIn region content nid)
    (hrevises : Revises region content content') : LiesIn region content' nid := by
  intro fields hfields
  rcases hrevises.stored_cases nid with hsame | ⟨⟨found, hfound, hpath⟩, -, -⟩
  · exact h fields (hsame ▸ hfields)
  · rw [hfound] at hfields
    cases hfields
    exact hpath

/-- A stamp in the region stays there, however often what is stored is revised in it. -/
theorem LiesIn.revisions (h : LiesIn region content nid)
    (hrevisions : Revisions region content content') : LiesIn region content' nid := by
  induction hrevisions with
  | refl => exact h
  | tail _ hlast ih => exact ih.revised hlast

/-- A stamp that is stored stays one. -/
theorem Revises.isSome (h : Revises region content content') {nid : Nid}
    (hstored : (storedIn? content nid).isSome) : (storedIn? content' nid).isSome := by
  rcases h.stored_cases nid with hsame | ⟨⟨fields, hfields, -⟩, -, -⟩
  · rwa [hsame]
  · rw [hfields]
    rfl

/-! ## Components -/

/-- No version is stored where a stamp is. -/
theorem versionsOf_of_stamp {history : StampHistory}
    (h : StampHistory.storedIn? content nid = some history) : versionsOf (content nid) = [] := by
  obtain ⟨payload, hpayload, hhistory⟩ := exists_of_storedIn? h
  obtain ⟨error, herror⟩ := Chronology.exists_error_of_stamp hhistory
  rw [hpayload, Chronology.versionsOf_of_error herror]

/-- Offering fields records no version. -/
theorem versionsOf_offering {fields : StampFields}
    (hsingle : ∀ history, StampHistory.storedIn? content nid = some history →
      history.current.isUncommitted = true → history.earlier = []) (component : Nid) :
    versionsOf (offering content nid fields component) = versionsOf (content component) := by
  by_cases hcomponent : component = nid
  · subst hcomponent
    cases hpayload : content component with
    | none => exact versionsOf_of_stamp (storedIn?_offering_of_none hpayload)
    | some payload =>
      rw [← hpayload]
      cases hstored : StampHistory.storedIn? content component with
      | none => rw [offering_of_other fields hpayload hstored]
      | some history =>
        rw [versionsOf_of_stamp hstored]
        exact versionsOf_of_stamp (storedIn?_offering_of_some hstored (hsingle history hstored))
  · rw [offering, replaced, if_neg hcomponent]

/-- What every moment knows of the versions that are stored: those of one component have distinct
stamps, each of which is stored, and no stamp is stored below the first nid. -/
structure Dated (content : Nid → Option Bytes) : Prop where
  placed : ∀ nid, (storedIn? content nid).isSome → Nid.first.raw ≤ nid.raw
  nodup : ∀ nid, ((versionsOf (content nid)).map Version.stamp).Nodup
  stored : ∀ nid, ∀ v ∈ versionsOf (content nid), (storedIn? content v.stamp).isSome

/-- Where nothing is stored no version is without a stamp. -/
theorem dated_empty : Dated fun _ => none :=
  ⟨fun _ h => (by cases h), fun _ => List.nodup_nil, fun _ _ h => (by cases h)⟩

/-- Below the first nid there is no stamp. -/
theorem Dated.below (h : Dated content) {stamp : Nid} (hstored : (storedIn? content stamp).isSome) :
    (⟨Int32.minValue⟩ : Nid) ≠ stamp := by
  rintro rfl
  exact absurd (h.placed _ hstored) (by decide)

/-- What a change does to a component: nothing, or its versions take one under a stamp of the
region. -/
theorem Revises.versions_cases (h : Revises region content content') (hdated : Dated content)
    (nid : Nid) :
    versionsOf (content' nid) = versionsOf (content nid) ∨
      ∃ version fields, Takes version (versionsOf (content nid)) (versionsOf (content' nid)) ∧
        storedIn? content version.stamp = some fields ∧ region fields.path := by
  cases h with
  | offered hnid hsingle hregion hpath => exact Or.inl (versionsOf_offering hsingle nid)
  | @recorded version fields hstored hpath component kind =>
    by_cases hnid : nid = component
    · subst hnid
      rw [replaced, if_pos rfl]
      have hfree : (⟨Int32.minValue⟩ : Nid) ∉ (versionsOf (content nid)).map Version.stamp := by
        intro hmem
        obtain ⟨v, hv, hstamp⟩ := List.mem_map.mp hmem
        exact hdated.below (hdated.stored nid v hv) hstamp.symm
      have hne := hdated.below (show (storedIn? content version.stamp).isSome by rw [hstored]; rfl)
      rcases Chronology.versionsOf_merged nid kind fields.isUncommitted (content nid)
        (hdated.nodup nid) hfree hne with hsame | ⟨bytes, htakes⟩
      · exact Or.inl hsame
      · exact Or.inr ⟨_, fields, htakes, hstored, hpath⟩
    · left
      rw [replaced, if_neg hnid]

/-- A revision keeps the versions under distinct stamps that are stored. -/
theorem Dated.revised (h : Dated content) (hrevises : Revises region content content') :
    Dated content' := by
  constructor
  · intro nid hstored
    rcases hrevises.stored_cases nid with hsame | ⟨-, -, hplaced⟩
    · exact h.placed nid (hsame ▸ hstored)
    · exact hplaced
  · intro nid
    rcases hrevises.versions_cases h nid with hsame | ⟨version, _, htakes, -, -⟩
    · rw [hsame]
      exact h.nodup nid
    · exact htakes.nodup (h.nodup nid)
  · intro nid v hv
    apply hrevises.isSome
    rcases hrevises.versions_cases h nid with hsame | ⟨version, fields, htakes, hstored, -⟩
    · exact h.stored nid v (hsame ▸ hv)
    · rcases htakes.mem v hv with rfl | hbefore
      · rw [hstored]
        rfl
      · exact h.stored nid v hbefore

/-- Revisions keep the versions under distinct stamps that are stored, however many. -/
theorem Dated.revisions (h : Dated content) (hrevisions : Revisions region content content') :
    Dated content' := by
  induction hrevisions with
  | refl => exact h
  | tail _ hlast ih => exact ih.revised hlast

end Chronicle
