import Chronicle.Proofs.Calculator.Answer
import Chronicle.Proofs.Store.Operation

/-!
# Asking the calculators of a store

A store asks the calculator behind a handle and keeps it as it is afterwards. A calculator that is
made on the spot answers what the paths and the stored payloads determine.
-/

namespace Chronicle.Store

open Calculator (Answers InOrder Question presentRoute latestInIn)

variable {s : Store} {content : Nid → Option Bytes} {coordinate : Coordinate} {α : Type} {a : α}
  {handle : CalculatorHandle}

/-- Asking a calculator that is in order leaves it in order. -/
theorem ask_of_inOrder (question : Scene → SpineStore.Scan Calculator α)
    (h : InOrder s.scene content coordinate (s.pool.get handle s.scene) s.spines)
    (hquestion : Answers (InOrder s.scene content coordinate) (InOrder s.scene content coordinate)
      (question s.scene) a) :
    ∃ c spines, ask handle question s = (a, { s with spines, pool := s.pool.set handle c }) ∧
      InOrder s.scene content coordinate c spines := by
  obtain ⟨c, spines, hrun, horder⟩ := hquestion _ _ h
  have hasked := congrArg (fun asked : (α × Calculator) × SpineStore =>
    (asked.1.1, { s with spines := asked.2, pool := s.pool.set handle asked.1.2 })) hrun
  exact ⟨c, spines, hasked, horder⟩

/-- A coordinate for which no calculator is remembered gets a new one. -/
theorem calculator_new (h : s.pool.remembered.find? coordinate = none) :
    ∃ handle pool, calculator coordinate s = (handle, { s with pool }) ∧
      pool.generation = s.pool.generation ∧
      pool.get handle s.scene = Calculator.make coordinate s.scene := by
  have hfind : s.pool.find? coordinate s.scene = none := by
    simp [CalculatorPool.find?, h]
  refine ⟨(s.pool.add coordinate s.scene).1, (s.pool.add coordinate s.scene).2, ?_, rfl, ?_⟩
  · simp only [calculator, CalculatorPool.provide, hfind]
  · simp [CalculatorPool.add, CalculatorPool.get]

/-- What a new calculator answers. -/
theorem ask_new (question : Scene → SpineStore.Scan Calculator α)
    (hnew : s.pool.remembered.find? coordinate = none) (hserves : s.spines.Serves content)
    (hquestion : Answers (InOrder s.scene content coordinate) (InOrder s.scene content coordinate)
      (question s.scene) a) :
    (ask (calculator coordinate s).1 question (calculator coordinate s).2).1 = a := by
  obtain ⟨handle, pool, hrun, hgeneration, hget⟩ := calculator_new hnew
  rw [hrun]
  have hscene : scene { s with pool } = s.scene := by
    rw [scene, scene, CalculatorPool.scene, CalculatorPool.scene, hgeneration]
  have horder : InOrder (scene { s with pool }) content coordinate
      (pool.get handle (scene { s with pool })) s.spines := by
    rw [hscene, hget]
    exact ⟨Calculator.sound_make coordinate s.scene content, rfl, hserves⟩
  rw [← hscene] at hquestion
  obtain ⟨c, spines, hask, -⟩ := ask_of_inOrder (s := { s with pool }) question horder hquestion
  rw [hask]

/-- So is the latest version of a component. -/
theorem latest_new (hnew : s.pool.remembered.find? coordinate = none)
    (hserves : s.spines.Serves content) (nid : Nid) :
    (latest coordinate nid s).1 =
      (content nid).elim .absent
        (latestInIn coordinate (presentRoute s.scene coordinate) content) :=
  ask_new (fun scene => Calculator.latest scene nid) hnew hserves
    (Calculator.answers_latest s.scene content coordinate nid)

end Chronicle.Store
