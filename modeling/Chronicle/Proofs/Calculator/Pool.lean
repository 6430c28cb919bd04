import Chronicle.Proofs.Calculator.Answer
import Chronicle.Proofs.Store.Operation

/-!
# Calculators of a pool

A pool is sound if every calculator that it ever handed out is. Payloads may be added without any
notice, as long as the fields of each stamp stay as they are. Everything else has to come with a
reset, after which no calculator counts on what it remembers.
-/

namespace Chronicle

/-- Stamps that are stored stay as they are. -/
def Extends (content content' : Nid → Option Bytes) : Prop :=
  ∀ stamp fields, StampFields.storedIn? content stamp = some fields →
    StampFields.storedIn? content' stamp = some fields

namespace Calculator

variable {scene scene' : Scene} {content content' : Nid → Option Bytes} {c : Calculator}

/-- A calculator stays sound while the stamps that are stored stay as they are. -/
theorem Sound.extend (h : c.Sound scene content) (hextends : Extends content content') :
    c.Sound scene content' :=
  ⟨h.generation_le, h.stamps_le, h.route_eq,
    fun hcurrent stamp fields hfields => hextends stamp fields
      (h.remembered hcurrent stamp fields hfields)⟩

/-- Nothing but routes and the generation counts. -/
theorem Sound.congr (h : c.Sound scene content) (hgeneration : scene'.generation = scene.generation)
    (hroute : ∀ path time, scene'.paths.route path time = scene.paths.route path time) :
    c.Sound scene' content := by
  refine ⟨?_, h.stamps_le, fun hcurrent => ?_, fun hcurrent => ?_⟩
  · rw [hgeneration]
    exact h.generation_le
  · rw [hroute]
    exact h.route_eq (hcurrent.trans hgeneration)
  · exact h.remembered (hcurrent.trans hgeneration)

/-- In a later generation a calculator is sound whatever has changed. -/
theorem Sound.stale (h : c.Sound scene content) (hlater : scene.generation < scene'.generation) :
    c.Sound scene' content' := by
  have hle := h.generation_le
  refine ⟨by omega, h.stamps_le, fun hcurrent => ?_, fun hcurrent => ?_⟩ <;> omega

end Calculator

namespace CalculatorPool

variable {pool : CalculatorPool} {paths paths' : PathGraph} {content content' : Nid → Option Bytes}
  {coordinate : Coordinate} {handle : CalculatorHandle} {c : Calculator}

/-- The coordinates of the calculators, by their numbers. -/
def views (pool : CalculatorPool) : List Coordinate :=
  pool.calculators.map Calculator.coordinate

/-- Every calculator is sound, and those that are handed out again are for the right coordinate. -/
structure Sound (pool : CalculatorPool) (paths : PathGraph) (content : Nid → Option Bytes) :
    Prop where
  calculators : ∀ c ∈ pool.calculators, c.Sound (pool.scene paths) content
  remembered : ∀ coordinate number, pool.remembered.find? coordinate = some number →
    pool.views[number]? = some coordinate

/-- A pool without calculators is sound. -/
theorem sound_empty (paths : PathGraph) (content : Nid → Option Bytes) :
    ({} : CalculatorPool).Sound paths content :=
  ⟨fun c hc => (by cases hc), fun coordinate number h => (by cases h)⟩

/-- A pool stays sound while the stamps that are stored stay as they are. -/
theorem Sound.extend (h : pool.Sound paths content) (hextends : Extends content content') :
    pool.Sound paths content' :=
  ⟨fun c hc => (h.calculators c hc).extend hextends, h.remembered⟩

/-- A pool stays sound when paths change and every route stays the same. -/
theorem Sound.congr (h : pool.Sound paths content)
    (hroute : ∀ path time, paths'.route path time = paths.route path time) :
    pool.Sound paths' content :=
  ⟨fun c hc => (h.calculators c hc).congr rfl hroute, h.remembered⟩

/-- After a reset the pool is sound whatever has changed. -/
theorem Sound.reset (h : pool.Sound paths content) (paths' : PathGraph)
    (content' : Nid → Option Bytes) : pool.reset.Sound paths' content' :=
  ⟨fun c hc => (h.calculators c hc).stale (Nat.lt_succ_self _),
    fun coordinate number hnumber => (by cases hnumber)⟩

/-- What a cache forgets does no harm. -/
theorem Sound.evict (h : pool.Sound paths content) (eviction : Eviction) :
    (pool.evict eviction).Sound paths content ∧ (pool.evict eviction).views = pool.views := by
  cases eviction with
  | fields number stamp =>
    have hviews : (pool.evict (.fields number stamp)).views = pool.views := by
      refine List.ext_getElem? fun n => ?_
      simp only [views, CalculatorPool.evict, List.getElem?_map, List.getElem?_modify]
      cases pool.calculators[n]? with
      | none => rfl
      | some c =>
        simp only [Option.map_some]
        split <;> rfl
    refine ⟨⟨fun c hc => ?_, fun coordinate other hother => ?_⟩, hviews⟩
    · obtain ⟨n, hn⟩ := List.mem_iff_getElem?.mp hc
      simp only [CalculatorPool.evict, List.getElem?_modify, Option.map_eq_map,
        Option.map_eq_some_iff] at hn
      obtain ⟨found, hfound, rfl⟩ := hn
      have hsound := h.calculators found (List.mem_of_getElem? hfound)
      split
      · exact hsound.evict stamp
      · exact hsound
    · rw [hviews]
      exact h.remembered coordinate other hother
  | calculator forgotten =>
    refine ⟨⟨h.calculators, fun coordinate number hnumber => ?_⟩, rfl⟩
    simp only [CalculatorPool.evict, Cache.find?_evict] at hnumber
    split at hnumber
    · cases hnumber
    · exact h.remembered coordinate number hnumber
  | coordinate => exact ⟨⟨h.calculators, h.remembered⟩, rfl⟩

/-- The calculator behind a handle is sound, whatever the handle. -/
theorem Sound.get (h : pool.Sound paths content) (handle : CalculatorHandle) :
    (pool.get handle (pool.scene paths)).Sound (pool.scene paths) content := by
  rw [CalculatorPool.get]
  cases hfound : pool.calculators[handle.number]? with
  | none => exact Calculator.sound_make _ _ _
  | some c => exact h.calculators c (List.mem_of_getElem? hfound)

/-- A calculator that is handed out has the coordinate its handle was given for. -/
theorem coordinate_get (hview : pool.views[handle.number]? = some coordinate) (scene : Scene) :
    (pool.get handle scene).coordinate = coordinate := by
  rw [views, List.getElem?_map, Option.map_eq_some_iff] at hview
  obtain ⟨c, hc, hcoordinate⟩ := hview
  rw [CalculatorPool.get, hc]
  exact hcoordinate

/-- A calculator can be replaced by a sound one for the same coordinate. -/
theorem Sound.set (h : pool.Sound paths content) (hc : c.Sound (pool.scene paths) content)
    (hcoordinate : c.coordinate = (pool.get handle (pool.scene paths)).coordinate) :
    (pool.set handle c).Sound paths content ∧ (pool.set handle c).views = pool.views := by
  have hviews : (pool.set handle c).views = pool.views := by
    refine List.ext_getElem? fun n => ?_
    simp only [views, CalculatorPool.set, List.getElem?_map, List.getElem?_set]
    split
    · rename_i hnumber
      subst hnumber
      split
      · rename_i hlt
        rw [List.getElem?_eq_getElem hlt]
        simp only [Option.map_some, hcoordinate, CalculatorPool.get, List.getElem?_eq_getElem hlt,
          Option.getD_some]
      · rename_i hlt
        rw [List.getElem?_eq_none (Nat.le_of_not_lt hlt)]
    · rfl
  refine ⟨⟨fun other hother => ?_, fun coordinate number hnumber => ?_⟩, hviews⟩
  · obtain hother | rfl := List.mem_or_eq_of_mem_set hother
    · exact h.calculators other hother
    · exact hc
  · rw [hviews]
    exact h.remembered coordinate number hnumber

/-- A calculator that is added is remembered for its coordinate. What is remembered for others stays
as it is. -/
theorem remembered_add {scene : Scene} {other : Coordinate} {number : Nat}
    (h : (pool.add coordinate scene).2.remembered.find? other = some number) :
    coordinate = other ∧ number = pool.calculators.length ∨
      pool.remembered.find? other = some number := by
  simp only [add, Cache.find?_insert] at h
  split at h
  · rename_i hother
    cases h
    exact Or.inl ⟨hother.symm, rfl⟩
  · exact Or.inr h

/-- A pool provides a calculator for the coordinate, and keeps the ones it has. -/
theorem Sound.provide (h : pool.Sound paths content) (coordinate : Coordinate) :
    let provided := pool.provide coordinate (pool.scene paths)
    provided.2.Sound paths content ∧ provided.2.generation = pool.generation ∧
      pool.views <+: provided.2.views ∧ provided.2.views[provided.1.number]? = some coordinate := by
  intro provided
  simp only [provided, CalculatorPool.provide]
  cases hfind : pool.find? coordinate (pool.scene paths) with
  | some handle =>
    refine ⟨h, rfl, List.prefix_refl _, ?_⟩
    simp only [find?, Option.bind_eq_bind, Option.bind_eq_some_iff] at hfind
    obtain ⟨number, hnumber, hhandle⟩ := hfind
    split at hhandle
    · cases hhandle
    · cases hhandle
      exact h.remembered coordinate number hnumber
  | none =>
    have hviews :
        (pool.add coordinate (pool.scene paths)).2.views = pool.views ++ [coordinate] := by
      simp [add, views, Calculator.make]
    have hlast : (pool.views ++ [coordinate])[pool.calculators.length]? = some coordinate := by
      simp [views]
    dsimp only
    refine ⟨⟨fun c hc => ?_, fun other number hnumber => ?_⟩, rfl, ?_, ?_⟩
    · simp only [add, List.mem_append, List.mem_singleton] at hc
      obtain hc | rfl := hc
      · exact h.calculators c hc
      · exact Calculator.sound_make coordinate _ content
    · rw [hviews]
      obtain ⟨rfl, rfl⟩ | hnumber := remembered_add hnumber
      · exact hlast
      · have hother := h.remembered other number hnumber
        obtain ⟨hlt, -⟩ := List.getElem?_eq_some_iff.mp hother
        rwa [List.getElem?_append_left hlt]
    · rw [hviews]
      exact List.prefix_append _ _
    · rw [hviews]
      exact hlast

end CalculatorPool

end Chronicle
