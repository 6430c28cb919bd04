import Chronicle.Proofs.Sorting
import Chronicle.Resolution
import Mathlib.Data.List.MinMax
import Mathlib.Data.List.Nodup

/-!
# The answer of a resolution

A view is a coordinate on a route together with the fields that are found for each stamp. It answers
by the visible versions that no visible version is ahead of: none of them gives no answer, one of
them whose module is ranked before those of all others is the answer, and otherwise they contradict
each other. The order in which the versions were recorded does not matter, as long as no two have
the same stamp.
-/

namespace Chronicle

/-- What it takes for a coordinate on a route to see a change. -/
structure Coordinate.Sees (c : Coordinate) (route : Route) (fields : StampFields) (reach : Reach) :
    Prop where
  not_canceled : fields.isCanceled = false
  allowed : c.allowed.contains fields.status = true
  included : c.excludes fields.module = false
  reached : route[fields.path]? = some reach
  time_le : fields.time ≤ reach.cutoff

/-- The test whether a coordinate sees a stamp decides `Sees`. -/
theorem Coordinate.sees?_eq_some_iff {c : Coordinate} {route : Route} {fields : StampFields}
    {reach : Reach} : c.sees? route fields = some reach ↔ c.Sees route fields reach := by
  unfold Coordinate.sees? Route.place?
  constructor
  · intro h
    split at h
    · rename_i hallowed
      rw [Bool.and_eq_true, Bool.not_eq_true'] at hallowed
      split at h
      · cases h
      · rename_i hcanceled
        obtain ⟨hreached, htime⟩ := Option.filter_eq_some_iff.mp h
        exact ⟨Bool.eq_false_iff.mpr hcanceled, hallowed.1, hallowed.2, hreached,
          of_decide_eq_true htime⟩
    · cases h
  · intro h
    simp [h.not_canceled, h.allowed, h.included, h.reached, h.time_le]

/-- A coordinate on a route, with the fields that are found for each stamp. -/
structure View where
  coordinate : Coordinate
  route : Route
  fieldsOf : Nid → Option StampFields

namespace Candidate

variable {measure : Candidate → Int} {candidates : List Candidate} {c : Candidate}

private theorem mem_smallest :
    c ∈ smallest measure candidates ↔
      c ∈ candidates ∧ ∀ other ∈ candidates, measure c ≤ measure other := by
  simp [smallest]

/-- Of some candidates there is always one with the smallest measure. -/
theorem smallest_ne_nil (h : candidates ≠ []) : smallest measure candidates ≠ [] := by
  obtain ⟨least, hleast⟩ := Option.ne_none_iff_exists'.mp
    (mt List.argmin_eq_none.mp h : List.argmin measure candidates ≠ none)
  apply List.ne_nil_of_mem (a := least)
  rw [mem_smallest]
  exact ⟨List.argmin_mem hleast, fun other hother => List.le_of_mem_argmin hother hleast⟩

/-- One candidate alone has the smallest measure if all others measure more. -/
theorem smallest_eq_singleton_iff :
    smallest measure candidates = [c] ↔
      c ∈ candidates ∧ ∀ other ∈ candidates.erase c, measure c < measure other := by
  constructor
  · intro h
    obtain ⟨hmem, hle⟩ := mem_smallest.mp (h ▸ List.mem_singleton_self c)
    refine ⟨hmem, fun other hother => ?_⟩
    have hsplit : candidates.Perm (c :: candidates.erase c) := List.perm_cons_erase hmem
    have hkept := hsplit.filter fun x => candidates.all fun y => measure x ≤ measure y
    rw [show candidates.filter _ = [c] from h, List.filter_cons_of_pos (by simpa using hle)]
      at hkept
    have hrest := List.filter_eq_nil_iff.mp (List.nil_perm.mp hkept.cons_inv) other hother
    simp only [List.all_eq_true, decide_eq_true_eq, not_forall, not_le] at hrest
    obtain ⟨less, hless, hlt⟩ := hrest
    exact lt_of_le_of_lt (hle less hless) hlt
  · rintro ⟨hmem, hlt⟩
    have hsplit : candidates.Perm (c :: candidates.erase c) := List.perm_cons_erase hmem
    have hle (other : Candidate) (hother : other ∈ candidates) : measure c ≤ measure other := by
      rcases List.mem_cons.mp (hsplit.mem_iff.mp hother) with rfl | hrest
      · exact le_refl _
      · exact le_of_lt (hlt other hrest)
    have hnone : (candidates.erase c).filter
        (fun x => candidates.all fun y => measure x ≤ measure y) = [] := by
      apply List.filter_eq_nil_iff.mpr
      intro other hother hall
      have := of_decide_eq_true (List.all_eq_true.mp hall c hmem)
      exact absurd (hlt other hother) (not_lt.mpr this)
    have hkept := hsplit.filter fun x => candidates.all fun y => measure x ≤ measure y
    rw [List.filter_cons_of_pos (by simpa using hle), hnone] at hkept
    exact List.perm_singleton.mp hkept

/-- A candidate comes before another if it is newer, or as new and at most as far away. -/
def Leads (a b : Candidate) : Prop :=
  b.fields.time ≤ a.fields.time ∧ (b.fields.time = a.fields.time → a.reach.depth ≤ b.reach.depth)

instance (a b : Candidate) : Decidable (a.Leads b) :=
  inferInstanceAs (Decidable (_ ∧ _))

/-- The nearest of the newest candidates are those that lead all of them. -/
theorem mem_nearest_newest :
    c ∈ nearest (newest candidates) ↔ c ∈ candidates ∧ ∀ other ∈ candidates, c.Leads other := by
  have htime (a b : Candidate) : -a.fields.time.toInt ≤ -b.fields.time.toInt ↔
      b.fields.time ≤ a.fields.time := by
    rw [Int64.le_iff_toInt_le]
    omega
  unfold nearest newest
  simp only [mem_smallest, htime, Leads, Int.ofNat_le]
  constructor
  · rintro ⟨⟨hmem, hnewest⟩, hnearest⟩
    refine ⟨hmem, fun other hother => ⟨hnewest other hother, fun heq => ?_⟩⟩
    exact hnearest other ⟨hother, fun third hthird => heq ▸ hnewest third hthird⟩
  · rintro ⟨hmem, hleads⟩
    refine ⟨⟨hmem, fun other hother => (hleads other hother).1⟩, fun other hother => ?_⟩
    have heq : other.fields.time = c.fields.time :=
      Int64.le_antisymm (hleads other hother.1).1 (hother.2 c hmem)
    exact (hleads other hother.1).2 heq

/-- Choosing the newest and of these the nearest is choosing those that lead all others. -/
theorem nearest_newest_eq (candidates : List Candidate) :
    nearest (newest candidates) =
      candidates.filter fun c => ∀ other ∈ candidates, c.Leads other := by
  obtain ⟨test, htest⟩ : ∃ test, nearest (newest candidates) = candidates.filter test :=
    ⟨_, List.filter_filter⟩
  rw [htest]
  apply List.filter_congr
  intro c hc
  have hmem : c ∈ nearest (newest candidates) ↔ _ := mem_nearest_newest
  rw [htest, List.mem_filter] at hmem
  rw [Bool.eq_iff_iff, decide_eq_true_iff]
  exact ⟨fun h => (hmem.mp ⟨hc, h⟩).2, fun h => (hmem.mpr ⟨hc, h⟩).2⟩

end Candidate

namespace View

variable {view : View} {versions : List Version} {version : Version}

/-- What a view sees of a stamp: its fields, and how its path is reached. -/
def Sees (view : View) (stamp : Nid) (fields : StampFields) (reach : Reach) : Prop :=
  view.fieldsOf stamp = some fields ∧ view.coordinate.Sees view.route fields reach

/-- Whether versions with a stamp are visible. -/
def Visible (view : View) (stamp : Nid) : Prop :=
  ∃ fields reach, view.Sees stamp fields reach

/-- A visible version that no visible one is ahead of: none is newer, and none is as new and on a
nearer path. -/
def Foremost (view : View) (versions : List Version) (version : Version) : Prop :=
  ∃ fields reach, view.Sees version.stamp fields reach ∧
    ∀ other ∈ versions, ∀ fields' reach', view.Sees other.stamp fields' reach' →
      fields'.time ≤ fields.time ∧ (fields'.time = fields.time → reach.depth ≤ reach'.depth)

/-- How many modules are preferred to that of a version. -/
def rank (view : View) (version : Version) : Nat :=
  (view.fieldsOf version.stamp).elim view.coordinate.priority.length fun fields =>
    view.coordinate.rank fields.module

/-- One of some versions whose module is ranked before those of all others. -/
def Unrivalled (view : View) (versions : List Version) (version : Version) : Prop :=
  version ∈ versions ∧ ∀ other ∈ versions.erase version, view.rank version < view.rank other

instance (view : View) (versions : List Version) (version : Version) :
    Decidable (view.Unrivalled versions version) :=
  inferInstanceAs (Decidable (_ ∧ _))

/-- The latest of some versions. -/
def latest (view : View) (versions : List Version) : Latest Version :=
  view.coordinate.latest view.route
    (versions.map fun version => (version, view.fieldsOf version.stamp))

/-- The versions in ascending order of their stamps. -/
def inOrder (versions : List Version) : List Version :=
  versions.mergeSort fun a b => (compare a.stamp b.stamp).isLE

/-- A version as a candidate, if it is visible. -/
def candidate? (view : View) (version : Version) : Option Candidate := do
  let fields ← view.fieldsOf version.stamp
  let reach ← view.coordinate.sees? view.route fields
  return { version, fields, reach }

/-- A version is a candidate exactly if its stamp is seen, and then with that stamp's fields. -/
theorem candidate?_eq_some_iff {c : Candidate} :
    view.candidate? version = some c ↔
      c.version = version ∧ view.Sees version.stamp c.fields c.reach := by
  simp only [candidate?, Sees, ← Coordinate.sees?_eq_some_iff, Option.bind_eq_bind,
    Option.bind_eq_some_iff, Option.pure_def, Option.some.injEq]
  constructor
  · rintro ⟨fields, hfields, reach, hreach, rfl⟩
    exact ⟨rfl, hfields, hreach⟩
  · rintro ⟨rfl, hfields, hreach⟩
    exact ⟨c.fields, hfields, c.reach, hreach, rfl⟩

/-- A stamp is visible exactly if its fields are known and its coordinate sees them. -/
theorem visible_iff_isSome {stamp : Nid} :
    view.Visible stamp ↔
      ((view.fieldsOf stamp).bind (view.coordinate.sees? view.route)).isSome := by
  simp only [Option.isSome_iff_exists, Option.bind_eq_some_iff, Coordinate.sees?_eq_some_iff]
  exact ⟨fun ⟨fields, reach, hfields, hsees⟩ => ⟨reach, fields, hfields, hsees⟩,
    fun ⟨reach, fields, hfields, hsees⟩ => ⟨fields, reach, hfields, hsees⟩⟩

/-- A version is a candidate exactly if its stamp is visible. -/
theorem visible_iff_candidate? :
    view.Visible version.stamp ↔ ∃ c, view.candidate? version = some c := by
  constructor
  · rintro ⟨fields, reach, hsees⟩
    exact ⟨⟨version, fields, reach⟩, candidate?_eq_some_iff.mpr ⟨rfl, hsees⟩⟩
  · rintro ⟨c, hc⟩
    exact ⟨c.fields, c.reach, (candidate?_eq_some_iff.mp hc).2⟩

/-- A version is foremost exactly if its candidate leads those of all versions. -/
theorem foremost_iff_candidate? :
    view.Foremost versions version ↔
      ∃ c ∈ view.candidate? version, ∀ other ∈ versions.filterMap view.candidate?,
        c.Leads other := by
  simp only [Option.mem_def, List.mem_filterMap]
  constructor
  · rintro ⟨fields, reach, hsees, hahead⟩
    refine ⟨⟨version, fields, reach⟩, candidate?_eq_some_iff.mpr ⟨rfl, hsees⟩, ?_⟩
    rintro candidate ⟨other, hother, hcandidate⟩
    exact hahead other hother _ _ (candidate?_eq_some_iff.mp hcandidate).2
  · rintro ⟨c, hc, hleads⟩
    refine ⟨c.fields, c.reach, (candidate?_eq_some_iff.mp hc).2, ?_⟩
    intro other hother fields reach hsees
    exact hleads ⟨other, fields, reach⟩
      ⟨other, hother, candidate?_eq_some_iff.mpr ⟨rfl, hsees⟩⟩

instance (view : View) (stamp : Nid) : Decidable (view.Visible stamp) :=
  decidable_of_iff _ visible_iff_isSome.symm

instance (view : View) (versions : List Version) (version : Version) :
    Decidable (view.Foremost versions version) :=
  decidable_of_iff _ foremost_iff_candidate?.symm

/-- The versions that no visible one is ahead of. -/
def front (view : View) (versions : List Version) : List Version :=
  versions.filter (view.Foremost versions)

/-- The front lists the foremost versions. -/
theorem mem_front : version ∈ view.front versions ↔
    version ∈ versions ∧ view.Foremost versions version := by
  simp [front]

/-- A foremost version is visible. -/
theorem Foremost.visible (h : view.Foremost versions version) :
    view.Visible version.stamp := by
  obtain ⟨fields, reach, hsees, -⟩ := h
  exact ⟨fields, reach, hsees⟩

/-! ## The candidates behind the versions -/

/-- The candidates that are resolved are those of the visible versions. -/
theorem candidates_eq (view : View) (versions : List Version) :
    view.coordinate.candidates view.route
        (versions.map fun version => (version, view.fieldsOf version.stamp)) =
      versions.filterMap view.candidate? := by
  rw [Coordinate.candidates, List.filterMap_map]
  rfl

/-- Only the candidates count, and how the coordinate ranks their modules. -/
theorem latest_eq_pick (view : View) (versions : List Version) :
    view.latest versions = view.coordinate.pick (versions.filterMap view.candidate?) := by
  rw [latest, Coordinate.latest, candidates_eq]

/-- A version of a stamp that is not visible is no candidate. -/
theorem candidate?_eq_none (h : ¬ view.Visible version.stamp) : view.candidate? version = none := by
  cases hcandidate : view.candidate? version with
  | none => rfl
  | some c => exact absurd (visible_iff_candidate?.mpr ⟨c, hcandidate⟩) h

/-- The nearest of the newest candidates are those of the versions in front. -/
theorem nearest_newest_candidates (view : View) (versions : List Version) :
    Candidate.nearest (Candidate.newest (versions.filterMap view.candidate?)) =
      (view.front versions).filterMap view.candidate? := by
  rw [Candidate.nearest_newest_eq, List.filter_filterMap, front, List.filterMap_filter]
  apply List.filterMap_congr
  intro version _
  have hforemost : view.Foremost versions version ↔ _ := foremost_iff_candidate?
  cases hcandidate : view.candidate? version with
  | none => simp
  | some c =>
    rw [hcandidate] at hforemost
    simp only [Option.mem_def, Option.some.injEq, exists_eq_left'] at hforemost
    rw [Option.filter_some]
    simp only [hforemost]

/-- Every version of the front is a candidate. -/
theorem map_version_candidates (view : View) (versions : List Version) :
    ((view.front versions).filterMap view.candidate?).map Candidate.version =
      view.front versions := by
  rw [List.map_filterMap]
  have hsome : ∀ version ∈ view.front versions,
      (view.candidate? version).map Candidate.version = some version := by
    intro version hversion
    obtain ⟨c, hc⟩ := visible_iff_candidate?.mp (mem_front.mp hversion).2.visible
    rw [hc, Option.map_some, (candidate?_eq_some_iff.mp hc).1]
  rw [List.filterMap_congr hsome, List.filterMap_some]

private theorem rank_version {c : Candidate} (h : view.candidate? version = some c) :
    view.rank c.version = view.coordinate.rank c.fields.module := by
  obtain ⟨hversion, hfields, -⟩ := candidate?_eq_some_iff.mp h
  rw [rank, hversion, hfields, Option.elim_some]

/-- One candidate alone is preferred if its version is unrivalled. -/
theorem preferred_eq_singleton_iff (view : View) (versions : List Version) (version : Version) :
    (∃ c, c.version = version ∧
      Candidate.preferred view.coordinate ((view.front versions).filterMap view.candidate?) = [c]) ↔
      view.Unrivalled (view.front versions) version := by
  have hfront := map_version_candidates view versions
  generalize htied : (view.front versions).filterMap view.candidate? = tied at hfront
  have hrank (c : Candidate) (hc : c ∈ tied) :
      view.rank c.version = view.coordinate.rank c.fields.module := by
    obtain ⟨_, -, hcandidate⟩ := List.mem_filterMap.mp (htied ▸ hc)
    exact rank_version hcandidate
  have herase (c : Candidate) (hc : c ∈ tied) :
      ((view.front versions).erase c.version).Perm ((tied.erase c).map Candidate.version) := by
    have hsplit := (List.perm_cons_erase hc).map Candidate.version
    rw [hfront, List.map_cons] at hsplit
    simpa using hsplit.erase c.version
  unfold Candidate.preferred
  constructor
  · rintro ⟨c, rfl, honly⟩
    obtain ⟨hmem, hlt⟩ := Candidate.smallest_eq_singleton_iff.mp honly
    refine ⟨hfront ▸ List.mem_map_of_mem hmem, fun other hother => ?_⟩
    obtain ⟨rival, hrival, rfl⟩ := List.mem_map.mp ((herase c hmem).mem_iff.mp hother)
    rw [hrank c hmem, hrank rival (List.mem_of_mem_erase hrival)]
    exact Int.ofNat_lt.mp (hlt rival hrival)
  · rintro ⟨hmem, hlt⟩
    rw [← hfront] at hmem
    obtain ⟨c, hc, rfl⟩ := List.mem_map.mp hmem
    refine ⟨c, rfl, Candidate.smallest_eq_singleton_iff.mpr ⟨hc, fun rival hrival => ?_⟩⟩
    have hless := hlt rival.version ((herase c hc).mem_iff.mpr (List.mem_map_of_mem hrival))
    rw [hrank c hc, hrank rival (List.mem_of_mem_erase hrival)] at hless
    exact Int.ofNat_lt.mpr hless

/-! ## The answer -/

/-- Some versions have at most one that is unrivalled. -/
theorem Unrivalled.unique {other : Version} (h : view.Unrivalled versions version)
    (hother : view.Unrivalled versions other) : other = version := by
  by_contra hne
  have hlt := h.2 other ((List.mem_erase_of_ne hne).mpr hother.1)
  have hgt := hother.2 version ((List.mem_erase_of_ne (Ne.symm hne)).mpr h.1)
  omega

/-- A version that stands alone has no rival. -/
theorem unrivalled_singleton (view : View) (version : Version) :
    view.Unrivalled [version] version :=
  ⟨List.mem_singleton_self version, by simp⟩

/-- If any version is visible, then some version is in front. -/
theorem front_ne_nil_iff : view.front versions ≠ [] ↔ ∃ v ∈ versions, view.Visible v.stamp := by
  constructor
  · intro h
    obtain ⟨version, hversion⟩ := List.exists_mem_of_ne_nil _ h
    obtain ⟨hmem, hforemost⟩ := mem_front.mp hversion
    exact ⟨version, hmem, hforemost.visible⟩
  · rintro ⟨version, hmem, hvisible⟩ hnil
    obtain ⟨c, hc⟩ := visible_iff_candidate?.mp hvisible
    have hne : versions.filterMap view.candidate? ≠ [] :=
      List.ne_nil_of_mem (List.mem_filterMap.mpr ⟨version, hmem, hc⟩)
    have htied := nearest_newest_candidates view versions
    rw [hnil] at htied
    exact Candidate.smallest_ne_nil (Candidate.smallest_ne_nil hne) htied

/-- What the answer can be, by the versions in front. -/
theorem latest_cases (view : View) (versions : List Version) :
    (view.front versions = [] ∧ view.latest versions = .absent) ∨
    (∃ v, view.Unrivalled (view.front versions) v ∧ view.latest versions = .single v) ∨
    (view.front versions ≠ [] ∧ (∀ v, ¬ view.Unrivalled (view.front versions) v) ∧
      view.latest versions = .contradiction (inOrder (view.front versions))) := by
  have hmap := map_version_candidates view versions
  have hpreferred := preferred_eq_singleton_iff view versions
  unfold latest Coordinate.latest Coordinate.pick
  rw [candidates_eq, nearest_newest_candidates]
  generalize (view.front versions).filterMap view.candidate? = tied at hmap hpreferred
  split
  · exact Or.inl ⟨hmap.symm, rfl⟩
  · rename_i only
    refine Or.inr (Or.inl ⟨only.version, ?_, rfl⟩)
    rw [← hmap]
    exact unrivalled_singleton view only.version
  · rename_i hnil _
    right
    split
    · rename_i only honly
      exact Or.inl ⟨only.version, (hpreferred _).mp ⟨only, rfl, honly⟩, rfl⟩
    · rename_i hnone
      refine Or.inr ⟨fun hfront => ?_, fun v hv => ?_, ?_⟩
      · rw [hfront] at hmap
        exact hnil (List.map_eq_nil_iff.mp hmap)
      · obtain ⟨c, -, hc⟩ := (hpreferred v).mpr hv
        exact hnone c hc
      · rw [← hmap]
        rfl

/-- The latest is absent exactly if no version is visible. -/
theorem latest_eq_absent_iff :
    view.latest versions = .absent ↔ ∀ v ∈ versions, ¬ view.Visible v.stamp := by
  have hnil : view.front versions = [] ↔ ∀ v ∈ versions, ¬ view.Visible v.stamp := by
    have h : view.front versions ≠ [] ↔ _ := front_ne_nil_iff
    simpa using not_congr h
  rw [← hnil]
  rcases latest_cases view versions with ⟨h, hanswer⟩ | ⟨v, hv, hanswer⟩ | ⟨h, -, hanswer⟩
  · simp [hanswer, h]
  · simp [hanswer, List.ne_nil_of_mem hv.1]
  · simp [hanswer, h]

/-- The latest is a single version exactly if that version has no rival in the front. -/
theorem latest_eq_single_iff :
    view.latest versions = .single version ↔
      view.Unrivalled (view.front versions) version := by
  rcases latest_cases view versions with ⟨h, hanswer⟩ | ⟨v, hv, hanswer⟩ | ⟨-, h, hanswer⟩
  · simp [hanswer, h, Unrivalled]
  · rw [hanswer, Latest.single.injEq]
    exact ⟨fun heq => heq ▸ hv, fun hversion => hversion.unique hv⟩
  · simp [hanswer, h]

/-- The latest is a contradiction exactly if some version is visible and none of the front is
unrivalled; it lists the front in order. -/
theorem latest_eq_contradiction_iff {tied : List Version} :
    view.latest versions = .contradiction tied ↔
      (∃ v ∈ versions, view.Visible v.stamp) ∧ (∀ v, ¬ view.Unrivalled (view.front versions) v) ∧
        tied = inOrder (view.front versions) := by
  rw [← front_ne_nil_iff]
  rcases latest_cases view versions with ⟨h, hanswer⟩ | ⟨v, hv, hanswer⟩ | ⟨hne, h, hanswer⟩
  · simp [hanswer, h]
  · rw [hanswer]
    constructor
    · intro heq
      cases heq
    · rintro ⟨-, hnone, -⟩
      exact absurd hv (hnone v)
  · simp [hanswer, h, hne, eq_comm]

/-- Putting versions in order neither drops nor adds one. -/
theorem inOrder_perm (versions : List Version) : (inOrder versions).Perm versions :=
  List.mergeSort_perm _ _

/-- Versions in order are sorted by their stamps. -/
theorem sorted_inOrder (versions : List Version) :
    (inOrder versions).Pairwise fun a b => a.stamp.raw ≤ b.stamp.raw := by
  have hle (a b : Nid) : (compare a b).isLE ↔ a.raw ≤ b.raw := by
    rw [← Std.isLE_compare]
    rfl
  exact (pairwise_mergeSort_key Version.stamp versions).imp fun h => (hle _ _).mp h

/-- A contradiction is between two versions or more. -/
theorem two_le_length_of_contradiction {tied : List Version}
    (h : view.latest versions = .contradiction tied) : 2 ≤ tied.length := by
  obtain ⟨hvisible, hnone, rfl⟩ := latest_eq_contradiction_iff.mp h
  have hne := front_ne_nil_iff.mpr hvisible
  rw [(inOrder_perm _).length_eq]
  match hfront : view.front versions with
  | [] => exact absurd hfront hne
  | [only] => exact absurd (hfront ▸ unrivalled_singleton view only) (hnone only)
  | first :: second :: rest => simp

/-- The versions of an answer are visible, and no visible version is ahead of them. -/
theorem foremost_of_mem_latest (h : version ∈ (view.latest versions).toList) :
    version ∈ view.front versions := by
  rcases latest_cases view versions with ⟨-, hanswer⟩ | ⟨v, hv, hanswer⟩ | ⟨-, -, hanswer⟩
  · simp [hanswer, Latest.toList] at h
  · rw [hanswer, Latest.toList, List.mem_singleton] at h
    exact h ▸ hv.1
  · rw [hanswer, Latest.toList] at h
    exact (inOrder_perm _).mem_iff.mp h

/-! ## The order of the versions -/

variable {versions' : List Version}

/-- A foremost version stays so when other versions are left out. -/
theorem Foremost.of_subset (h : view.Foremost versions version) (hsub : versions' ⊆ versions) :
    view.Foremost versions' version := by
  obtain ⟨fields, reach, hsees, hahead⟩ := h
  exact ⟨fields, reach, hsees, fun other hother => hahead other (hsub hother)⟩

private theorem front_perm (view : View) (h : versions.Perm versions') :
    (view.front versions).Perm (view.front versions') := by
  have hforemost (v : Version) : view.Foremost versions v ↔ view.Foremost versions' v :=
    ⟨fun hv => hv.of_subset h.symm.subset, fun hv => hv.of_subset h.subset⟩
  unfold front
  simp only [hforemost]
  exact h.filter _

private theorem Unrivalled.perm (h : view.Unrivalled versions version)
    (hperm : versions.Perm versions') :
    view.Unrivalled versions' version :=
  ⟨hperm.subset h.1, fun other hother => h.2 other ((hperm.erase version).mem_iff.mpr hother)⟩

/-- Versions of distinct stamps have one ascending order. -/
theorem inOrder_eq (h : versions.Perm versions') (hstamps : (versions.map Version.stamp).Nodup) :
    inOrder versions = inOrder versions' := by
  have hperm : (inOrder versions).Perm (inOrder versions') :=
    (inOrder_perm versions).trans (h.trans (inOrder_perm versions').symm)
  refine List.Perm.eq_of_pairwise ?_ (sorted_inOrder versions) (sorted_inOrder versions') hperm
  intro a b ha hb hab hba
  have hraw : a.stamp.raw = b.stamp.raw := Int32.le_antisymm hab hba
  have hstamp : a.stamp = b.stamp := congrArg Nid.mk hraw
  have ha' := (inOrder_perm versions).mem_iff.mp ha
  have hb' := h.mem_iff.mpr ((inOrder_perm versions').mem_iff.mp hb)
  exact List.inj_on_of_nodup_map hstamps ha' hb' hstamp

/-- The order of versions of distinct stamps does not matter. -/
theorem latest_perm (view : View) (h : versions.Perm versions')
    (hstamps : (versions.map Version.stamp).Nodup) :
    view.latest versions = view.latest versions' := by
  have hfront := front_perm view h
  have hsorted : inOrder (view.front versions) = inOrder (view.front versions') :=
    inOrder_eq hfront (hstamps.sublist (List.filter_sublist.map Version.stamp))
  have hvisible :
      (∃ v ∈ versions', view.Visible v.stamp) ↔ ∃ v ∈ versions, view.Visible v.stamp := by
    simp only [h.mem_iff]
  symm
  rcases latest_cases view versions with ⟨hnil, hanswer⟩ | ⟨v, hv, hanswer⟩ | ⟨hne, hnone, hanswer⟩
  · rw [hanswer, latest_eq_absent_iff]
    intro v hv hseen
    exact front_ne_nil_iff.mpr (hvisible.mp ⟨v, hv, hseen⟩) hnil
  · rw [hanswer, latest_eq_single_iff]
    exact hv.perm hfront
  · rw [hanswer, latest_eq_contradiction_iff]
    exact ⟨hvisible.mpr (front_ne_nil_iff.mp hne), fun v hv => hnone v (hv.perm hfront.symm),
      hsorted⟩

end View

end Chronicle
