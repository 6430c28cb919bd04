import Chronicle.Proofs.Calculator.Found
import Chronicle.Proofs.Store.Caches

/-!
# Isolation of branches

A coordinate looks along its route only. Where a run keeps to other paths, walks from the coordinate
meet the same edges, so that its route stays; stamps that it did not see before stay out of sight;
and a version that is recorded under such a stamp is no candidate. So the coordinate is answered as
before.
-/

namespace Chronicle

open StampFields (storedIn?)
open Chronology (versionsOf)
open Calculator (Question Reply latestInIn presentRoute)

variable {coordinate : Coordinate} {route : Route} {content content' : Nid → Option Bytes}
  {nid : Nid}

/-! ## What a coordinate sees on its route -/

/-- What a coordinate sees on a route, by the stamps that are stored. -/
def View.over (coordinate : Coordinate) (route : Route) (content : Nid → Option Bytes) : View :=
  ⟨coordinate, route, storedIn? content⟩

/-- No stamp off the route is visible. -/
theorem View.not_visible_of_liesIn (h : LiesIn (· ∉ route) content nid) :
    ¬ (View.over coordinate route content).Visible nid := by
  rintro ⟨fields, reach, hfields, hsees⟩
  have hreached : route[fields.path]? = some reach := hsees.reached
  apply h fields hfields
  rw [Std.ExtTreeMap.mem_iff_isSome_getElem?, hreached]
  rfl

/-- Changes off the route change no candidate. -/
theorem Revises.candidate?_eq (h : Revises (· ∉ route) content content') (version : Version) :
    (View.over coordinate route content').candidate? version =
      (View.over coordinate route content).candidate? version := by
  rcases h.stored_cases version.stamp with hsame | ⟨-, hbefore, -⟩
  · simp only [View.candidate?, View.over, hsame]
  · have hafter : LiesIn (· ∉ route) content' version.stamp := hbefore.revised h
    rw [View.candidate?_eq_none (View.not_visible_of_liesIn hbefore),
      View.candidate?_eq_none (View.not_visible_of_liesIn hafter)]

/-- A component has the same candidates if only invisible versions were recorded. -/
theorem Chronology.Takes.candidates_eq {view : View} {version : Version}
    {before after : List Version} (h : Takes version before after)
    (hunseen : ¬ view.Visible version.stamp) :
    after.filterMap view.candidate? = before.filterMap view.candidate? := by
  have hothers (versions : List Version) :
      (versions.filter fun v => v.stamp ≠ version.stamp).filterMap view.candidate? =
        versions.filterMap view.candidate? := by
    rw [List.filterMap_filter]
    apply List.filterMap_congr
    intro v _
    by_cases hstamp : v.stamp = version.stamp
    · rw [View.candidate?_eq_none (hstamp ▸ hunseen)]
      simp
    · simp [hstamp]
  rw [← hothers after, h.others, hothers before]

private theorem Revises.candidates_eq (h : Revises (· ∉ route) content content')
    (hdated : Dated content)
    (nid : Nid) :
    (versionsOf (content' nid)).filterMap (View.over coordinate route content').candidate? =
      (versionsOf (content nid)).filterMap (View.over coordinate route content).candidate? := by
  rw [funext h.candidate?_eq]
  rcases h.versions_cases hdated nid with hsame | ⟨version, fields, htakes, hstored, hpath⟩
  · rw [hsame]
  · apply htakes.candidates_eq
    apply View.not_visible_of_liesIn
    intro found hfound
    rw [hstored] at hfound
    cases hfound
    exact hpath

/-- However many changes there are off the route, every candidate stays. -/
theorem Revisions.unseen (h : Revisions (· ∉ route) content content') (coordinate : Coordinate)
    (hdated : Dated content) :
    (View.over coordinate route content').candidate? =
      (View.over coordinate route content).candidate? ∧
    ∀ nid, (versionsOf (content' nid)).filterMap (View.over coordinate route content').candidate? =
      (versionsOf (content nid)).filterMap (View.over coordinate route content).candidate? := by
  induction h with
  | refl => exact ⟨rfl, fun _ => rfl⟩
  | tail hbefore hlast ih =>
    obtain ⟨hcandidate, hcandidates⟩ := ih
    have hmiddle : Dated _ := hdated.revisions hbefore
    exact ⟨(funext hlast.candidate?_eq).trans hcandidate,
      fun nid => (hlast.candidates_eq hmiddle nid).trans (hcandidates nid)⟩

/-! ## What it is answered -/

/-- The reply on a latest version is that of the view over what is stored. -/
theorem reply_latest (coordinate : Coordinate) (route : Route) (content : Nid → Option Bytes)
    (nid : Nid) :
    (Question.latest nid).reply coordinate route content =
      .latest ((View.over coordinate route content).latest (versionsOf (content nid))) := by
  have hlatest : latestInIn coordinate route content =
      (View.over coordinate route content).latestIn := by
    funext payload
    rw [latestInIn, View.latestIn]
    cases Chronology.decode payload <;> rfl
  rw [Question.reply, hlatest, View.elim_latestIn]

private theorem reply_isVisible (coordinate : Coordinate) (route : Route)
    (content : Nid → Option Bytes)
    (nid : Nid) :
    (Question.isVisible nid).reply coordinate route content =
      .visible (decide ((View.over coordinate route content).Visible nid)) := by
  simp only [View.visible_iff_isSome, Bool.decide_eq_true]
  rfl

/-- Changes off the route change neither the latest version of a component nor which stamps are
visible. -/
theorem Revisions.reply_eq (h : Revisions (· ∉ route) content content') (hdated : Dated content)
    (coordinate : Coordinate) (nid : Nid) :
    (Question.latest nid).reply coordinate route content' =
      (Question.latest nid).reply coordinate route content ∧
    (Question.isVisible nid).reply coordinate route content' =
      (Question.isVisible nid).reply coordinate route content := by
  obtain ⟨hcandidate, hcandidates⟩ := h.unseen coordinate hdated
  constructor
  · rw [reply_latest, reply_latest, View.latest_eq_pick, View.latest_eq_pick, hcandidates nid]
    rfl
  · have hvisible : (View.over coordinate route content').Visible nid ↔
        (View.over coordinate route content).Visible nid := by
      let version : Version := { stamp := nid, fields := [] }
      have hiff (view : View) : view.Visible nid ↔ ∃ c, view.candidate? version = some c :=
        show view.Visible version.stamp ↔ _ from View.visible_iff_candidate?
      rw [hiff, hiff, hcandidate]
    rw [reply_isVisible, reply_isVisible, decide_eq_decide.mpr hvisible]

namespace Store

variable {config : Config} {past : List Operation} {s : Store}

/-- Whatever the calculator of a coordinate is asked, the paths and the stored payloads determine
the answer. -/
theorem Coheres.answer_reply (h : Coheres config past content s) (coordinate : Coordinate)
    (question : Question) :
    (answer (Store.calculator coordinate s).1 question (Store.calculator coordinate s).2).1 =
      question.reply coordinate (presentRoute s.scene coordinate) content := by
  obtain ⟨hprovided, -, hview⟩ := h.calculator coordinate
  have horder := hprovided.inOrder (Store.calculator coordinate s).1
  rw [CalculatorPool.coordinate_get hview] at horder
  obtain ⟨c, spines, hask, -⟩ := ask_of_inOrder (fun scene => question.ask scene) horder
    (Calculator.answers_ask _ content coordinate question)
  rw [answer, hask]
  rfl

private theorem Coheres.latest_reply (h : Coheres config past content s) (coordinate : Coordinate)
    (nid : Nid) :
    Reply.latest (latest coordinate nid s).1 =
      (Question.latest nid).reply coordinate (presentRoute s.scene coordinate) content :=
  h.answer_reply coordinate (.latest nid)

/-- **Isolation of branches.** From any moment of a run on a store that was empty, let operations
follow that keep to paths which are not on the route of a coordinate. Then the coordinate sees the
same latest version of every component as before, and the same stamps. -/
theorem branches_isolated {medium next : Medium} {rooted : Bool} {opened : Store}
    {before after : List Operation} (hblank : medium.backing.Blank)
    (hopen : overMedium config rooted medium = .ok opened next)
    (hadmits : opened.Admits (before ++ after)) (hdraws : DrawsApart config (before ++ after))
    (coordinate : Coordinate)
    (hkeeps : RunKeepsTo (· ∉ presentRoute (opened.performAll before).scene coordinate)
      (opened.performAll before) after) :
    let s := opened.performAll before
    let t := s.performAll after
    let visible (u : Store) (stamp : Nid) :=
      (answer (calculator coordinate u).1 (.isVisible stamp) (calculator coordinate u).2).1
    (∀ component, (latest coordinate component t).1 = (latest coordinate component s).1) ∧
      ∀ stamp, visible t stamp = visible s stamp := by
  intro s t visible
  have hopened := (opens_of_overMedium hopen).coheres hblank
  obtain ⟨hbefore, hafter⟩ := hadmits.of_append before
  obtain ⟨content, hs, hrevisions, -⟩ := hopened.developsAll hbefore after
    (by simpa using hdraws) (runKeepsTo_anywhere opened before)
  have hdated : Dated content := dated_empty.revisions hrevisions
  obtain ⟨content', ht, hrevisions', hagrees, -⟩ :=
    hs.developsAll hafter [] (by simpa using hdraws) hkeeps
  have hroute : presentRoute t.scene coordinate = presentRoute s.scene coordinate :=
    hagrees.route_eq
  have hreplies (nid : Nid) := hrevisions'.reply_eq hdated coordinate nid
  constructor
  · intro component
    apply Reply.latest.inj
    rw [ht.latest_reply, hs.latest_reply, hroute]
    exact (hreplies component).1
  · intro stamp
    unfold visible
    rw [ht.answer_reply, hs.answer_reply, hroute]
    exact (hreplies stamp).2

/-- A draft on another path is recorded, committed and linked to the path of a coordinate, which
goes on to see its own version. -/
theorem branches_isolated_drafted :
    ∃ opened next coordinate component version drafted before after,
      overMedium { spineSize := 4 } false Medium.inMemory = .ok opened next ∧
      let s := opened.performAll before
      let t := s.performAll after
      (latest coordinate component s).1 = .single version ∧
      (latest coordinate component t).1 = .single version ∧
      ((attempt (chronology component) t).1.toOption.map Chronology.versions) =
        some [version, drafted] := by
  let own : Nid := ⟨-2147483642⟩
  let other : Nid := ⟨-2147483641⟩
  let component : Nid := ⟨-2147483640⟩
  let version : Version := ⟨⟨-2147483639⟩, [1]⟩
  let member : Nid := ⟨-2147483638⟩
  let drafted : Version := ⟨member, [2]⟩
  let coordinate : Coordinate :=
    { allowed := StatusSet.activeOnly, path := own, time := Time.latest, priority := []
      excluded := ∅, allowed_nonempty := by decide, canceled_notMem := by decide
      priority_nodup := by decide }
  let before : List Operation :=
    [.resolveAliases [⟨1⟩], .resolveAliases [⟨2⟩], .resolveAliases [⟨3⟩],
      .join { name := "own" } .active own own own ⟨4⟩, .appendVersion component .concept version]
  let after : List Operation :=
    [.join { name := "other" } .active other other other ⟨5⟩,
      .appendVersion component .concept drafted,
      .addPathOrigin other { origin := own, time := Time.latest },
      .commit { name := "other", stamps := [member] } 7]
  let draft : StampFields := .draft .active other other other
  obtain ⟨opened, next, hopen, hfirst, hsecond, hthird, hroute, hjoined, hlinked, hsees, hstored⟩ :
      ∃ opened next, overMedium { spineSize := 4 } false Medium.inMemory = .ok opened next ∧
        let s := opened.performAll before
        opened.registry.nid? ⟨1⟩ = none ∧
        (opened.performAll (before.take 1)).registry.nid? ⟨2⟩ = none ∧
        (opened.performAll (before.take 2)).registry.nid? ⟨3⟩ = none ∧
        other ∉ presentRoute s.scene coordinate ∧
        (attempt (stamp member) (s.performAll (after.take 1))).1 = .ok draft ∧
        (attempt (stamp member) (s.performAll (after.take 3))).1 = .ok draft ∧
        (latest coordinate component s).1 = .single version ∧
        ((attempt (chronology component) (s.performAll after)).1.toOption.map
          Chronology.versions) = some [version, drafted] :=
    ⟨_, _, rfl, by decide +kernel, by decide +kernel, by decide +kernel, by decide +kernel,
      by decide +kernel, by decide +kernel, by decide +kernel, by decide +kernel⟩
  have hunnamed {u : Store} {uuid : Uuid} (hnone : u.registry.nid? uuid = none) :
      ∀ named ∈ [uuid], ¬ u.NamesStamp named := by
    rintro named hnamed ⟨nid, history, hnid, -⟩
    obtain rfl := List.mem_singleton.mp hnamed
    rw [hnone] at hnid
    cases hnid
  have hfinds {u : Store} (hmember : (attempt (stamp member) u).1 = .ok draft) :
      FindsIn (· ∉ presentRoute (opened.performAll before).scene coordinate) u member := by
    intro fields hfields
    rw [hmember] at hfields
    cases hfields
    exact hroute
  have hadmits : opened.Admits (before ++ after) :=
    ⟨hunnamed hfirst, hunnamed hsecond, hunnamed hthird, trivial, trivial, trivial, trivial,
      trivial, trivial, trivial⟩
  have hdraws : DrawsApart { spineSize := 4 } (before ++ after) := by
    refine ⟨by decide, by decide, fun uuid huuid status => ?_⟩
    rcases List.mem_pair.mp huuid with rfl | rfl <;> cases status <;> decide
  have hkeeps : RunKeepsTo (· ∉ presentRoute (opened.performAll before).scene coordinate)
      (opened.performAll before) after := by
    refine ⟨hroute, hfinds hjoined, hroute, ?_, trivial⟩
    intro nid hnid
    obtain rfl := List.mem_singleton.mp hnid
    exact hfinds hlinked
  obtain ⟨hlatest, -⟩ := branches_isolated Backing.blank_inMemory hopen hadmits hdraws coordinate
    hkeeps
  exact ⟨opened, next, coordinate, component, version, drafted, before, after, hopen, hsees,
    (hlatest component).trans hsees, hstored⟩

end Store

end Chronicle
