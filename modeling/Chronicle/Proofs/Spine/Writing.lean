import Chronicle.Proofs.Spine.Access
import Chronicle.Proofs.Spine.Activity
import Mathlib.Data.List.Basic
import Mathlib.Logic.Function.Basic

/-!
# What a flush writes

A flush of the spines attempts one write for each spine that has changes and could be loaded, in
ascending order, whatever became of the writes before. How each write comes out decides what becomes
of its spine and of no other one. The answer is the number of writes if nothing failed, and else the
failure at the lowest index.
-/

namespace Chronicle.SpineStore

/-- Whether a flush attempts to write the spine at an index. -/
def isDue (s : SpineStore) (index : Nat) : Bool :=
  s.loaded[index]?.any fun spine => spine.changed && !spine.degraded

/-- The spines that a flush attempts to write. -/
def attempted (s : SpineStore) : List Nat :=
  s.loaded.keys.filter s.isDue

/-- The bytes in which the spine at an index is written. -/
def blobAt (s : SpineStore) (index : Nat) : Bytes :=
  (s.loaded[index]?.getD .empty).encode s.spineSize

/-- The access in which the spine at an index is written. -/
def writeAt (s : SpineStore) (index : Nat) : StateM Medium (Except IoError Unit) :=
  Medium.writeSpine index (s.blobAt index)

/-- Why a flush fails at an index, if the writes come out in some way. A spine that could not be
loaded fails when it has changes. -/
def failureAt (s : SpineStore) (outcome : Nat → Except IoError Unit) (index : Nat) :
    Option StoreError :=
  match s.loaded[index]? with
  | none => none
  | some spine =>
    if !spine.changed then none
    else if spine.degraded then some (.degradedSpine index)
    else match outcome index with
      | .ok _ => none
      | .error error => some (.io error)

variable {s t u : SpineStore} {index : Nat} {indices : List Nat} {spine : Spine}
  {outcome : Nat → Except IoError Unit} {p q r : Progress}

/-- A spine is due exactly if it is in memory, has changes and could be loaded. -/
theorem isDue_iff : s.isDue index = true ↔
    ∃ spine, s.loaded[index]? = some spine ∧ spine.changed = true ∧ spine.degraded = false := by
  simp [isDue, Option.any_eq_true]

private theorem mem_attempted_iff : index ∈ s.attempted ↔ s.isDue index = true := by
  rw [attempted, List.mem_filter, Std.ExtTreeMap.mem_keys, Std.ExtTreeMap.mem_iff_isSome_getElem?]
  refine ⟨And.right, fun hdue => ⟨?_, hdue⟩⟩
  obtain ⟨spine, hloaded, -⟩ := isDue_iff.mp hdue
  rw [hloaded]
  rfl

private theorem pairwise_keys (s : SpineStore) : s.loaded.keys.Pairwise (· < ·) :=
  Std.ExtTreeMap.ordered_keys.imp Nat.compare_eq_lt.mp

private theorem blobAt_of_loaded (h : s.loaded[index]? = some spine) :
    s.blobAt index = spine.encode s.spineSize := by
  rw [blobAt, h]
  rfl

private theorem mapM_cons_eq (f : Nat → StateM Medium (Except IoError Unit)) (index : Nat)
    (indices : List Nat) (medium : Medium) :
    (index :: indices).mapM f medium =
      ((f index medium).1 :: (indices.mapM f (f index medium).2).1,
        (indices.mapM f (f index medium).2).2) := by
  rw [List.mapM_cons]
  rfl

private theorem failureAt_of_due (hdue : s.isDue index = true) :
    s.failureAt outcome index =
      match outcome index with
      | .ok _ => none
      | .error error => some (.io error) := by
  obtain ⟨spine, hloaded, hchanged, hdegraded⟩ := isDue_iff.mp hdue
  simp [failureAt, hloaded, hchanged, hdegraded]

/-- What a flush does at the spines at some indices, if the writes come out in some way. -/
structure Writes (s : SpineStore) (indices : List Nat) (outcome : Nat → Except IoError Unit)
    (p q : Progress) (t : SpineStore) : Prop where
  spineSize_eq : t.spineSize = s.spineSize
  free : s.permits.held < s.permits.total → t.permits.held < t.permits.total
  /-- As long as a permit is left, these are the accesses to the medium. -/
  calls : s.permits.held < s.permits.total →
    (indices.filter s.isDue).mapM s.writeAt s.medium =
      ((indices.filter s.isDue).map outcome, t.medium)
  done : ∀ index ∈ indices, s.isDue index = true → outcome index = .ok () →
    t.loaded[index]? = s.loaded[index]?.map ({ · with changed := false }) ∧
      t.medium.backing.readSpine index = .ok (some (s.blobAt index))
  kept : ∀ index, (index ∈ indices → s.isDue index = true → outcome index ≠ .ok ()) →
    t.loaded[index]? = s.loaded[index]? ∧
      t.medium.backing.readSpine index = s.medium.backing.readSpine index
  written : (∀ index ∈ indices, s.isDue index = true → outcome index = .ok ()) →
    q.written = p.written + (indices.filter s.isDue).length
  failure : q.failure = p.failure.or (indices.findSome? (s.failureAt outcome))

/-! ## One spine -/

/-- The first failure counts. -/
theorem Progress.failure_fail (p : Progress) (error : StoreError) :
    (p.fail error).failure = p.failure.or (some error) := by
  rw [fail]
  cases p.failure <;> rfl

/-- A spine that is not due stays as it is. -/
theorem writes_of_not_due (hdue : s.isDue index = false) (hwritten : q.written = p.written)
    (hfailure : q.failure = p.failure.or (s.failureAt outcome index)) :
    Writes s [index] outcome p q s where
  spineSize_eq := rfl
  free := id
  calls _ := by
    rw [List.filter_cons_of_neg (by simp [hdue])]
    rfl
  done other hother hother' _ := by
    rw [List.mem_singleton.mp hother, hdue] at hother'
    cases hother'
  kept _ _ := ⟨rfl, rfl⟩
  written _ := by
    rw [List.filter_cons_of_neg (by simp [hdue])]
    exact hwritten
  failure := by
    rw [hfailure, List.findSome?_cons]
    cases s.failureAt outcome index <;> rfl

/-- A write that is carried out changes the mark and the blob of its spine. -/
theorem writes_of_written {medium : Medium} {permits : Permits} (hdue : s.isDue index = true)
    (hloaded : s.loaded[index]? = some spine)
    (hfree : s.permits.held < s.permits.total → permits.held < permits.total)
    (hwrite : Medium.writeSpine index (spine.encode s.spineSize) s.medium = (.ok (), medium)) :
    Writes s [index] (fun _ => .ok ()) p { p with written := p.written + 1 }
      { s with
        medium, permits, loaded := s.loaded.insert index { spine with changed := false } } := by
  obtain ⟨-, ⟨-, hbacking⟩ | ⟨⟨_, hfailed⟩, -⟩⟩ := writeSpine_cases hwrite
  · refine ⟨rfl, hfree, fun _ => ?_, fun other hother _ _ => ?_, fun other hother => ?_,
      fun _ => ?_, ?_⟩
    · rw [List.filter_cons_of_pos hdue]
      rw [← blobAt_of_loaded hloaded] at hwrite
      rw [mapM_cons_eq, writeAt, hwrite]
      rfl
    · obtain rfl := List.mem_singleton.mp hother
      rw [hloaded, Std.ExtTreeMap.getElem?_insert_self, blobAt_of_loaded hloaded]
      exact ⟨rfl, Backing.readSpine_self hbacking⟩
    · have hne : other ≠ index := by
        rintro rfl
        exact hother List.mem_cons_self hdue rfl
      rw [Std.ExtTreeMap.getElem?_insert, if_neg (by simpa using hne.symm)]
      exact ⟨rfl, Backing.readSpine_other hbacking (Or.inl hne)⟩
    · rw [List.filter_cons_of_pos hdue]
      rfl
    · rw [List.findSome?_cons, failureAt_of_due hdue]
      exact Option.or_none.symm
  · cases hfailed

/-- A write that fails, or for which no permit is left, changes neither marks nor blobs. -/
theorem writes_of_failed {medium : Medium} {permits : Permits} {error : IoError}
    (hdue : s.isDue index = true)
    (hfree : s.permits.held < s.permits.total → permits.held < permits.total)
    (hcall : s.permits.held < s.permits.total →
      Medium.writeSpine index (s.blobAt index) s.medium = (.error error, medium))
    (hread : ∀ other, medium.backing.readSpine other = s.medium.backing.readSpine other) :
    Writes s [index] (fun _ => .error error) p (p.fail (.io error)) { s with medium, permits } where
  spineSize_eq := rfl
  free := hfree
  calls hleft := by
    rw [List.filter_cons_of_pos hdue]
    rw [mapM_cons_eq, writeAt, hcall hleft]
    rfl
  done _ _ _ hok := by cases hok
  kept other _ := ⟨rfl, hread other⟩
  written hok := by cases hok index List.mem_cons_self hdue
  failure := by
    rw [Progress.failure_fail, List.findSome?_cons, failureAt_of_due hdue]

/-- Writing one spine does what `Writes` says of its index. -/
theorem writes_writeOne (s : SpineStore) (index : Nat) (p : Progress) :
    ∃ answer, Writes s [index] (fun _ => answer) p (writeOne index p s).1
      (writeOne index p s).2 := by
  cases hloaded : s.loaded[index]? with
  | none =>
    simp only [writeOne, hloaded]
    exact ⟨.ok (), writes_of_not_due (by simp [isDue, hloaded]) rfl (by simp [failureAt, hloaded])⟩
  | some spine =>
    cases hchanged : spine.changed with
    | false =>
      simp only [writeOne, hloaded, hchanged, Bool.not_false, if_true]
      exact ⟨.ok (), writes_of_not_due (by simp [isDue, hloaded, hchanged]) rfl
        (by simp [failureAt, hloaded, hchanged])⟩
    | true =>
      cases hdegraded : spine.degraded with
      | true =>
        simp only [writeOne, hloaded, hchanged, hdegraded, Bool.not_true, Bool.false_eq_true,
          if_false, if_true]
        refine ⟨.ok (), writes_of_not_due (by simp [isDue, hloaded, hdegraded]) rfl ?_⟩
        rw [Progress.failure_fail]
        simp [failureAt, hloaded, hchanged, hdegraded]
      | false =>
        have hdue : s.isDue index = true := isDue_iff.mpr ⟨spine, hloaded, hchanged, hdegraded⟩
        obtain ⟨permits, htotal, hheld, houtcome⟩ :=
          writeOne_of_changed hloaded hchanged hdegraded p
        have hfree : s.permits.held < s.permits.total → permits.held < permits.total := by
          rw [htotal, hheld]
          exact id
        obtain ⟨medium, hwrite, hrun⟩ | ⟨error, medium, hwrite, hrun⟩ | ⟨hfull, hrun⟩ := houtcome
        · rw [hrun]
          exact ⟨.ok (), writes_of_written hdue hloaded hfree hwrite⟩
        · obtain ⟨-, ⟨hwritten, -⟩ | ⟨-, hread⟩⟩ := writeSpine_cases hwrite
          · cases hwritten
          · rw [hrun]
            rw [← blobAt_of_loaded hloaded] at hwrite
            exact ⟨.error error, writes_of_failed hdue hfree (fun _ => hwrite) hread⟩
        · rw [hrun]
          refine ⟨.error .unavailable, writes_of_failed hdue hfree (fun hleft => ?_) fun _ => rfl⟩
          exact absurd hleft (Nat.not_lt.mpr hfull)

/-! ## One after another -/

private theorem isDue_congr (h : t.loaded[index]? = s.loaded[index]?) :
    t.isDue index = s.isDue index := by
  rw [isDue, isDue, h]

private theorem failureAt_congr {outcome' : Nat → Except IoError Unit}
    (h : t.loaded[index]? = s.loaded[index]?) (houtcome : outcome' index = outcome index) :
    t.failureAt outcome' index = s.failureAt outcome index := by
  rw [failureAt, failureAt, h, houtcome]

/-- Neither the write nor its mark changes what would be written. -/
theorem Writes.blobAt_eq (h : Writes s indices outcome p q t) : t.blobAt = s.blobAt := by
  funext index
  rw [blobAt, blobAt, h.spineSize_eq]
  by_cases hdone : index ∈ indices ∧ s.isDue index = true ∧ outcome index = .ok ()
  · rw [(h.done index hdone.1 hdone.2.1 hdone.2.2).1]
    cases s.loaded[index]? <;> rfl
  · rw [(h.kept index fun hmem hdue hok => hdone ⟨hmem, hdue, hok⟩).1]

/-- What is done at one spine and what is done at others do not meet. -/
theorem Writes.cons {answer : Except IoError Unit} (h : Writes s [index] (fun _ => answer) p q t)
    (hnext : Writes t indices outcome q r u) (hnew : index ∉ indices) :
    Writes s (index :: indices) (Function.update outcome index answer) p r u := by
  have hne {other : Nat} (hmem : other ∈ indices) : other ≠ index := by
    rintro rfl
    exact hnew hmem
  have hapart {other : Nat} (hother : other ≠ index) :=
    h.kept other fun hmem => absurd (List.mem_singleton.mp hmem) hother
  have hdue {other : Nat} (hmem : other ∈ indices) : t.isDue other = s.isDue other :=
    isDue_congr (hapart (hne hmem)).1
  have hfilter : indices.filter t.isDue = indices.filter s.isDue :=
    List.filter_congr fun other hmem => hdue hmem
  have hanswers : (indices.filter s.isDue).map (Function.update outcome index answer) =
      (indices.filter s.isDue).map outcome := by
    refine List.map_congr_left fun other hmem => ?_
    exact Function.update_of_ne (hne (List.mem_of_mem_filter hmem)) _ _
  have hself := hnext.kept index fun hmem => absurd hmem hnew
  refine ⟨hnext.spineSize_eq.trans h.spineSize_eq, fun hfree => hnext.free (h.free hfree),
    fun hfree => ?_, ?_, ?_, fun hok => ?_, ?_⟩
  · have hfirst := h.calls hfree
    have hrest := hnext.calls (h.free hfree)
    rw [hfilter, show t.writeAt = s.writeAt by funext; rw [writeAt, writeAt, h.blobAt_eq]] at hrest
    cases hindex : s.isDue index with
    | true =>
      rw [List.filter_cons_of_pos hindex, mapM_cons_eq] at hfirst
      obtain ⟨hanswer, hmedium⟩ := Prod.mk.inj hfirst
      rw [List.filter_cons_of_pos hindex, mapM_cons_eq, List.map_cons, Function.update_self,
        hanswers, List.head_eq_of_cons_eq hanswer, show (s.writeAt index s.medium).2 = t.medium
          from hmedium, hrest]
    | false =>
      rw [List.filter_cons_of_neg (by simp [hindex]), hanswers, ← hrest]
      rw [List.filter_cons_of_neg (by simp [hindex])] at hfirst
      rw [show t.medium = s.medium from (congrArg Prod.snd hfirst).symm]
  · intro other hmem hother hok
    obtain rfl | hmem := List.mem_cons.mp hmem
    · rw [Function.update_self] at hok
      rw [hself.1, hself.2]
      exact h.done other List.mem_cons_self hother hok
    · rw [Function.update_of_ne (hne hmem)] at hok
      have hdone := hnext.done other hmem ((hdue hmem).trans hother) hok
      rwa [(hapart (hne hmem)).1, h.blobAt_eq] at hdone
  · intro other hother
    by_cases heq : other = index
    · subst heq
      rw [hself.1, hself.2]
      refine h.kept other fun _ hdue hok => hother List.mem_cons_self hdue ?_
      rwa [Function.update_self]
    · obtain ⟨hloaded, hread⟩ := hnext.kept other fun hmem hdue' hok => by
        refine hother (List.mem_cons_of_mem index hmem) ((hdue hmem).symm.trans hdue') ?_
        rwa [Function.update_of_ne heq]
      rw [hloaded, hread]
      exact hapart heq
  · have hfirst := h.written fun other hmem hother => by
      obtain rfl := List.mem_singleton.mp hmem
      rw [← hok other List.mem_cons_self hother, Function.update_self]
    have hrest := hnext.written fun other hmem hother => by
      rw [← hok other (List.mem_cons_of_mem index hmem) ((hdue hmem).symm.trans hother),
        Function.update_of_ne (hne hmem)]
    rw [hrest, hfirst, hfilter, List.filter_cons, List.filter_cons]
    split <;> simp only [List.filter_nil, List.length_cons, List.length_nil] <;> omega
  · have hfailures : indices.findSome? (s.failureAt (Function.update outcome index answer)) =
        indices.findSome? (t.failureAt outcome) := by
      rw [← List.head?_filterMap, ← List.head?_filterMap]
      refine congrArg List.head? (List.filterMap_congr fun other hmem => ?_)
      exact (failureAt_congr (hapart (hne hmem)).1 (Function.update_of_ne (hne hmem) _ _).symm).symm
    have hindex : s.failureAt (Function.update outcome index answer) index =
        s.failureAt (fun _ => answer) index :=
      failureAt_congr rfl (Function.update_self index answer outcome)
    rw [hnext.failure, h.failure, List.findSome?_cons, List.findSome?_cons, hfailures, hindex,
      Option.or_assoc]
    cases s.failureAt (fun _ => answer) index <;> rfl

/-- Writing spines does what `Writes` says of their indices. -/
theorem writes_writeAll (hnodup : indices.Nodup) (s : SpineStore) (p : Progress) :
    ∃ outcome, Writes s indices outcome p (writeAll indices p s).1 (writeAll indices p s).2 := by
  induction indices generalizing s p with
  | nil =>
    exact ⟨fun _ => .ok (), rfl, id, fun _ => rfl, fun _ hmem => absurd hmem List.not_mem_nil,
      fun _ _ => ⟨rfl, rfl⟩, fun _ => rfl, Option.or_none.symm⟩
  | cons index indices ih =>
    rw [List.nodup_cons] at hnodup
    obtain ⟨answer, hfirst⟩ := writes_writeOne s index p
    obtain ⟨outcome, hrest⟩ := ih hnodup.2 (writeOne index p s).2 (writeOne index p s).1
    exact ⟨_, hfirst.cons hrest hnodup.1⟩

/-! ## The answer -/

/-- There is no failure exactly if each write is carried out and no spine that could not be loaded
has changes. -/
theorem failureAt_eq_none_iff : s.failureAt outcome index = none ↔
    (s.isDue index = true → outcome index = .ok ()) ∧
      ∀ spine, s.loaded[index]? = some spine → spine.degraded = true → spine.changed = false := by
  cases hloaded : s.loaded[index]? with
  | none => simp [failureAt, isDue, hloaded]
  | some spine =>
    cases hchanged : spine.changed <;> cases hdegraded : spine.degraded <;>
      cases houtcome : outcome index <;> simp [failureAt, isDue, *]

private theorem mem_keys_of_failureAt (h : s.failureAt outcome index ≠ none) :
    index ∈ s.loaded.keys := by
  rw [Std.ExtTreeMap.mem_keys]
  exact by_contra fun hnot => h (by simp [failureAt, Std.ExtTreeMap.getElem?_eq_none hnot])

/-- Of several indices in ascending order, the lowest one at which something is found counts. -/
theorem findSome?_eq_some_iff_lowest {f : Nat → Option StoreError} {error : StoreError}
    (h : indices.Pairwise (· < ·)) (hmem : ∀ index, f index ≠ none → index ∈ indices) :
    indices.findSome? f = some error ↔
      ∃ index, f index = some error ∧ ∀ lower < index, f lower = none := by
  rw [List.findSome?_eq_some_iff]
  constructor
  · rintro ⟨before, index, after, rfl, herror, hnone⟩
    refine ⟨index, herror, fun lower hlt => by_contra fun hsome => ?_⟩
    obtain hbefore | hafter := List.mem_append.mp (hmem lower hsome)
    · exact hsome (hnone lower hbefore)
    · obtain rfl | hafter := List.mem_cons.mp hafter
      · omega
      · have hle := (List.pairwise_cons.mp (List.pairwise_append.mp h).2.1).1 lower hafter
        omega
  · rintro ⟨index, herror, hlower⟩
    obtain ⟨before, after, rfl⟩ := List.append_of_mem (hmem index (by simp [herror]))
    refine ⟨before, index, after, rfl, herror, fun lower hlt => hlower lower ?_⟩
    exact (List.pairwise_append.mp h).2.2 lower hlt index List.mem_cons_self

/-- A write answers the number of spines it wrote, or the first failure. -/
theorem attempt_write_eq (s : SpineStore) :
    Store.attempt write s =
      (match (writeAll s.loaded.keys {} s).1.failure with
        | none => .ok (writeAll s.loaded.keys {} s).1.written
        | some error => .error error,
      (writeAll s.loaded.keys {} s).2) := by
  rw [Store.attempt, write]
  rcases writeAll s.loaded.keys {} s with ⟨⟨written, _ | error⟩, t⟩ <;> rfl

/-- **A flush of the spines.** Whatever writes fail, one write is attempted for each spine in memory
that has changes and could be loaded, in ascending order. A spine whose write is carried out has no
changes any more, and its blob is what was written. Every other spine stays as it was, in memory and
on the medium: the ones whose write fails, the ones that could not be loaded and the ones without
changes. The answer is the number of writes if all of them are carried out and no spine that could
not be loaded has changes, and else the failure at the lowest index. -/
theorem write_outcomes (s : SpineStore) :
    let answer := (Store.attempt write s).1
    let t := (Store.attempt write s).2
    s.attempted.Pairwise (· < ·) ∧
    (∀ index, index ∈ s.attempted ↔ ∃ spine, s.loaded[index]? = some spine ∧
      spine.changed = true ∧ spine.degraded = false) ∧
    ∃ outcome : Nat → Except IoError Unit,
      (s.permits.held < s.permits.total →
        s.attempted.mapM s.writeAt s.medium = (s.attempted.map outcome, t.medium)) ∧
      (∀ index ∈ s.attempted, outcome index = .ok () →
        ∃ spine, s.loaded[index]? = some spine ∧
          t.loaded[index]? = some { spine with changed := false } ∧
          t.medium.backing.readSpine index = .ok (some (spine.encode s.spineSize))) ∧
      (∀ index, (index ∈ s.attempted → outcome index ≠ .ok ()) →
        t.loaded[index]? = s.loaded[index]? ∧
          t.medium.backing.readSpine index = s.medium.backing.readSpine index) ∧
      (∀ k, answer = .ok k ↔ k = s.attempted.length ∧
        (∀ index ∈ s.attempted, outcome index = .ok ()) ∧
        ∀ (index : Nat) (spine : Spine), s.loaded[index]? = some spine → spine.degraded = true →
          spine.changed = false) ∧
      ∀ error, answer = .error error ↔ ∃ index, s.failureAt outcome index = some error ∧
        ∀ lower < index, s.failureAt outcome lower = none := by
  have hkeys := s.pairwise_keys
  obtain ⟨outcome, hwrites⟩ :=
    writes_writeAll (hkeys.imp Nat.ne_of_lt) s {}
  have hmem (index : Nat) (hdue : s.isDue index = true) : index ∈ s.loaded.keys :=
    List.mem_of_mem_filter (mem_attempted_iff.mpr hdue)
  have hfailure : (writeAll s.loaded.keys {} s).1.failure =
      s.loaded.keys.findSome? (s.failureAt outcome) := hwrites.failure
  have hnone : (writeAll s.loaded.keys {} s).1.failure = none ↔
      ∀ index, s.failureAt outcome index = none := by
    rw [hfailure, List.findSome?_eq_none_iff]
    exact ⟨fun h index => by_contra fun hsome => hsome (h index (mem_keys_of_failureAt hsome)),
      fun h index _ => h index⟩
  rw [attempt_write_eq]
  refine ⟨hkeys.filter _, fun index => mem_attempted_iff.trans isDue_iff, outcome, hwrites.calls,
    fun index hindex hok => ?_, fun index hindex => ?_, fun k => ?_, fun error => ?_⟩
  · have hdue := mem_attempted_iff.mp hindex
    obtain ⟨hloaded, hread⟩ := hwrites.done index (hmem index hdue) hdue hok
    obtain ⟨spine, hspine, -⟩ := isDue_iff.mp hdue
    rw [hspine] at hloaded
    rw [blobAt_of_loaded hspine] at hread
    exact ⟨spine, hspine, hloaded, hread⟩
  · exact hwrites.kept index fun _ hdue => hindex (mem_attempted_iff.mpr hdue)
  · have hok : (∀ index, s.failureAt outcome index = none) ↔
        (∀ index ∈ s.attempted, outcome index = .ok ()) ∧
          ∀ (index : Nat) (spine : Spine), s.loaded[index]? = some spine →
            spine.degraded = true → spine.changed = false := by
      simp only [failureAt_eq_none_iff, mem_attempted_iff, forall_and]
    rw [← hok, ← hnone]
    have hcount (hfine : (writeAll s.loaded.keys {} s).1.failure = none) :
        (writeAll s.loaded.keys {} s).1.written = s.attempted.length := by
      rw [hwrites.written fun index _ hdue =>
        (failureAt_eq_none_iff.mp (hnone.mp hfine index)).1 hdue]
      exact Nat.zero_add _
    cases hfine : (writeAll s.loaded.keys {} s).1.failure with
    | none =>
      rw [hcount hfine]
      simp [eq_comm]
    | some error => simp
  · rw [← findSome?_eq_some_iff_lowest hkeys fun _ => mem_keys_of_failureAt, ← hfailure]
    cases (writeAll s.loaded.keys {} s).1.failure <;> simp

/-- A flush whose first write fails, over a spine that could not be loaded and one without
changes. -/
theorem write_outcomes_mixed :
    let s : SpineStore :=
      { medium := { Medium.inMemory with faults := { spineWrites := .first 1 } }
        spineSize := 2, maxAttempts := 4, permits := { total := 1 }, persisted := ∅, extent := 4
        loaded := .ofList [(0, Spine.empty.install 0 [0xaa]), (2, Spine.empty),
          (1, Spine.unreadable.install 0 [0xbb]), (3, Spine.empty.install 1 [0xcc])] }
    let answer := (Store.attempt write s).1
    let t := (Store.attempt write s).2
    s.permits.held < s.permits.total ∧ s.attempted = [0, 3] ∧
      (∃ error, answer = .error (.io error)) ∧ t.loaded[0]? = s.loaded[0]? ∧
      t.medium.backing.readSpine 3 =
        .ok (some ((Spine.empty.install 1 [0xcc]).encode s.spineSize)) := by
  intro s answer t
  have hattempted : s.attempted = [0, 3] := by decide +kernel
  have hloaded : s.loaded[3]? = some (Spine.empty.install 1 [0xcc]) := by decide +kernel
  obtain ⟨-, -, outcome, hcalls, hdone, hkept, -, hfailed⟩ := write_outcomes s
  have hanswers : s.attempted.mapM s.writeAt s.medium =
      ([.error .unavailable, .ok ()], (s.attempted.mapM s.writeAt s.medium).2) := by
    rw [hattempted]
    rfl
  rw [hcalls (by decide), hattempted] at hanswers
  obtain ⟨hanswers, -⟩ := Prod.mk.inj hanswers
  obtain ⟨hfirst, hlast⟩ := List.cons_eq_cons.mp hanswers
  obtain ⟨hlast, -⟩ := List.cons_eq_cons.mp hlast
  have hspine : s.loaded[0]? = some (Spine.empty.install 0 [0xaa]) := by decide +kernel
  refine ⟨by decide, hattempted, ⟨.unavailable, (hfailed _).mpr ⟨0, ?_, ?_⟩⟩, ?_, ?_⟩
  · rw [failureAt, hspine, hfirst]
    rfl
  · exact fun lower hlt => absurd hlt (Nat.not_lt_zero lower)
  · exact (hkept 0 fun _ hok => by rw [hfirst] at hok; cases hok).1
  · obtain ⟨spine, hfound, -, hread⟩ := hdone 3 (by rw [hattempted]; decide) hlast
    obtain rfl := Option.some.inj (hloaded.symm.trans hfound)
    exact hread

end Chronicle.SpineStore
