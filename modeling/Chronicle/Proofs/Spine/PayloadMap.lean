import Chronicle.Proofs.Config
import Chronicle.Proofs.Spine.Workers
import Mathlib.Data.Multiset.Defs

/-!
# A store as a finite map

A store whose spines can be listed and read answers like a finite map of nids. When spines are
brought into memory, and in which order, is never visible.
-/

namespace Chronicle.SpineStore

/-- The payloads of all nids that have one. -/
abbrev PayloadMap := Std.ExtTreeMap Nid Bytes

/-- What is asked of a store. -/
inductive Request where
  | lookup (nid : Nid)
  | merge (nid : Nid) (payload : Bytes) (combine : Bytes → Bytes → Bytes)
  | scan
  | parallelScan (workers : Nat) (schedule : List Nat)
  | write

/-- What is answered. A parallel scan is free in its order. How a write ends is up to the medium and
no part of the answer. -/
inductive Answer where
  | found (payload : Option Bytes)
  | merged (outcome : Except StoreError Bytes)
  | visited (entries : List (Nid × Bytes))
  | gathered (entries : Multiset (Nid × Bytes))
  | done

namespace Request

/-- What a store answers. -/
def perform : Request → StateM SpineStore Answer
  | lookup nid => return .found (← SpineStore.lookup nid)
  | merge nid payload combine =>
    return .merged (← Store.attempt (SpineStore.merge nid payload combine))
  | scan => return .visited (← SpineStore.entries)
  | parallelScan workers schedule =>
    return .gathered (↑(← SpineStore.entriesParallel workers schedule))
  | write => do
    let _ ← Store.attempt SpineStore.write
    return .done

/-- What a map answers. -/
def expected : Request → StateM PayloadMap Answer
  | lookup nid => return .found (← get)[nid]?
  | merge nid payload combine => do
    if nid.raw < Nid.first.raw then return .merged (.error (.notFound (.nid nid)))
    else
      let next := SpineStore.merged combine payload (← get)[nid]?
      modify (·.insert nid next)
      return .merged (.ok next)
  | scan => return .visited (← get).toList
  | parallelScan _ _ => return .gathered (↑(← get).toList)
  | write => return .done

end Request

variable {s : SpineStore} {map : PayloadMap} {content : Nid → Option Bytes} {nid : Nid}

private theorem getElem?_insert_payload (map : PayloadMap) (nid other : Nid) (payload : Bytes) :
    (map.insert nid payload)[other]? = if other = nid then some payload else map[other]? := by
  simp only [Std.ExtTreeMap.getElem?_insert, Std.compare_eq_iff_eq, eq_comm (a := nid)]

/-- What a store serves is what some finite map has. -/
theorem Serves.exists_map (h : s.Serves content) :
    ∃ map : PayloadMap, ∀ nid, map[nid]? = content nid := by
  let entries := entriesFrom content 0 (s.spineLimit * s.spineSize)
  refine ⟨Std.ExtTreeMap.ofList entries, fun nid => ?_⟩
  cases hpayload : content nid with
  | none =>
    refine Std.ExtTreeMap.getElem?_ofList_of_contains_eq_false ?_
    rw [← Bool.not_eq_true, List.contains_iff_mem, List.mem_map]
    rintro ⟨⟨other, payload⟩, hmem, rfl⟩
    rw [(mem_entriesFrom_iff.mp hmem).1] at hpayload
    cases hpayload
  | some payload =>
    refine Std.ExtTreeMap.getElem?_ofList_of_mem Std.ReflCmp.compare_self ?_ ?_
    · refine (pairwise_entriesFrom content 0 _).imp fun hlt heq => ?_
      rw [hlt] at heq
      cases heq
    · obtain ⟨offset, hoffset, hlt⟩ := h.displays.offset_lt hpayload
      exact mem_entriesFrom_iff.mpr ⟨hpayload, offset, hoffset, Nat.zero_le _, by omega⟩

/-- All entries of a store are those of its map. -/
theorem Serves.entriesFrom_eq (h : s.Serves fun nid => map[nid]?) :
    entriesFrom (fun nid => map[nid]?) 0 (s.spineLimit * s.spineSize) = map.toList :=
  entriesFrom_eq_toList (fun _ => rfl) fun _ _ hpayload => h.displays.offset_lt hpayload

/-- A computation goes on from where its first part got. -/
theorem bind_of_eq {σ α β : Type} {x : StateM σ α} {f : α → StateM σ β} {state state' : σ} {a : α}
    (h : x state = (a, state')) : (x >>= f) state = f a state' := by
  change (match x state with | (a, state') => f a state') = _
  rw [h]

/-- One request gets the same answer from a store and from its map. -/
theorem Serves.request (h : s.Serves fun nid => map[nid]?) (request : Request) :
    ∃ answer s' map', request.perform s = (answer, s') ∧ request.expected map = (answer, map') ∧
      s'.Serves fun nid => map'[nid]? := by
  cases request with
  | lookup nid =>
    obtain ⟨s', hrun, hs'⟩ := h.lookup nid
    exact ⟨.found map[nid]?, s', map, bind_of_eq hrun, rfl, hs'⟩
  | merge nid payload combine =>
    cases hplace : s.place? nid with
    | none =>
      refine ⟨.merged (.error (.notFound (.nid nid))), s, map,
        bind_of_eq (attempt_merge_of_none hplace payload combine), ?_, h⟩
      rw [Request.expected, if_pos (place?_eq_none_iff.mp hplace)]
      rfl
    | some place =>
      obtain ⟨s', hrun, hs'⟩ := h.merge hplace payload combine
      have hfirst : ¬ nid.raw < Nid.first.raw := by
        rw [← place?_eq_none_iff (s := s), hplace]
        exact Option.some_ne_none place
      simp only [← getElem?_insert_payload] at hs'
      refine ⟨.merged (.ok (merged combine payload map[nid]?)), s', _, bind_of_eq hrun, ?_, hs'⟩
      rw [Request.expected, if_neg hfirst]
      rfl
  | scan =>
    obtain ⟨s', hrun, hs'⟩ := h.entries
    rw [h.entriesFrom_eq] at hrun
    exact ⟨.visited map.toList, s', map, bind_of_eq hrun, rfl, hs'⟩
  | parallelScan workers schedule =>
    obtain ⟨entries, s', hrun, hs', hperm⟩ := h.entriesParallel workers schedule
    rw [h.entriesFrom_eq, ← Multiset.coe_eq_coe] at hperm
    refine ⟨.gathered map.toList, s', map, ?_, rfl, hs'⟩
    rw [← hperm]
    exact bind_of_eq hrun
  | write => exact ⟨.done, _, map, rfl, rfl, h.write⟩

/-- A run of requests gets the same answers from a store and from its map. -/
theorem Serves.requests (h : s.Serves fun nid => map[nid]?) (requests : List Request) :
    ∃ answers s' map', requests.mapM Request.perform s = (answers, s') ∧
      requests.mapM Request.expected map = (answers, map') ∧ s'.Serves fun nid => map'[nid]? := by
  induction requests generalizing s map with
  | nil => exact ⟨[], s, map, rfl, rfl, h⟩
  | cons request requests ih =>
    obtain ⟨answer, t, between, hperform, hexpected, ht⟩ := h.request request
    obtain ⟨answers, s', map', hperforms, hexpecteds, hs'⟩ := ih ht
    refine ⟨answer :: answers, s', map', ?_, ?_, hs'⟩
    · rw [List.mapM_cons, bind_of_eq hperform, bind_of_eq hperforms]
      rfl
    · rw [List.mapM_cons, bind_of_eq hexpected, bind_of_eq hexpecteds]
      rfl

/-- Over a medium whose spines can be listed and read, every run of requests is answered as by the
map of the payloads that are stored. Nids below the first one are never in the map. -/
theorem answers_eq_map {c : Config} {medium : Medium} (hvalid : c.validate = .ok ())
    (hhealthy : medium.Healthy) :
    ∃ map : PayloadMap, (∀ nid, map[nid]? = medium.stored c.spineSize nid) ∧
      ∀ requests : List Request,
        (requests.mapM Request.perform
            (ofMedium medium c.spineSize c.ioPermits c.maxCasRetries)).1 =
          (requests.mapM Request.expected map).1 ∧
        ∀ nid : Nid, nid.raw < Nid.first.raw →
          (requests.mapM Request.expected map).2[nid]? = none := by
  obtain ⟨hsize, hpermits, -, -, -, -, hattempts⟩ := Config.validate_eq_ok_iff.mp hvalid
  have hserves := serves_ofMedium hhealthy (Config.pos_of_isPowerOfTwo hsize)
    (Nat.pos_of_ne_zero hpermits) (Nat.pos_of_ne_zero hattempts)
  obtain ⟨map, hmap⟩ := hserves.exists_map
  refine ⟨map, hmap, fun requests => ?_⟩
  simp only [← funext hmap] at hserves
  obtain ⟨answers, s', map', hperform, hexpected, hs'⟩ := hserves.requests requests
  simp only [hperform, hexpected, true_and]
  exact fun nid hnid => hs'.absent nid (place?_eq_none_iff.mpr hnid)

/-- Over a medium with one payload, requests are answered as by a map that has this payload. -/
theorem answers_eq_map_single :
    ({ spineSize := 4 } : Config).validate = .ok () ∧ Medium.single.Healthy ∧
      ∃ map : PayloadMap, map[Nid.first]? = some [0xaa] ∧ map[(⟨-2147483646⟩ : Nid)]? = none ∧
        ∀ requests : List Request,
          (requests.mapM Request.perform (ofMedium .single 4 4 (1 <<< 20))).1 =
            (requests.mapM Request.expected map).1 := by
  have hvalid : ({ spineSize := 4 } : Config).validate = .ok () := rfl
  have hhealthy : Medium.single.Healthy := ⟨⟨[0], rfl, fun _ _ => ⟨_, rfl⟩⟩, fun _ _ => rfl⟩
  obtain ⟨map, hmap, hanswers⟩ := answers_eq_map hvalid hhealthy
  refine ⟨hvalid, hhealthy, map, ?_, ?_, fun requests => (hanswers requests).1⟩
  · rw [hmap]
    decide +kernel
  · rw [hmap]
    decide +kernel

end Chronicle.SpineStore
