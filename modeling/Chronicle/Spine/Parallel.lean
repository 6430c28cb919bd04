import Chronicle.Spine.Scan

/-!
# Parallel scans

A parallel scan hands its spines out to workers. A worker brings its spine into memory, visits the
slots one after another and then takes the next spine. Which worker goes on is free: a schedule
makes the first of these choices, and when it is used up, the spines that are handed out are
finished one by one and the others visited in order. A scan can be stopped, but a spine that was
handed out is finished.
-/

namespace Chronicle.SpineStore

/-- The workers of a parallel scan. -/
structure Crew where
  /-- The spines that are not handed out yet. -/
  queue : List Nat
  /-- The slot that each busy worker visits next. -/
  tasks : List Place
  deriving DecidableEq

variable {σ : Type}

namespace Crew

/-- A worker takes the next spine, unless a test on the state carried along says to stop. -/
def take (stop : σ → Bool) (crew : Crew) : Scan σ Crew :=
  match crew.queue with
  | [] => return crew
  | index :: queue => do
    if stop (← getThe σ) then return { crew with queue := [] }
    else
      let s ← getThe SpineStore
      if s.reaches index then
        let _ ← (touch index : StateM SpineStore Spine)
        return { queue, tasks := crew.tasks ++ [{ index, slot := 0 }] }
      else return { crew with queue }

/-- A worker visits its next slot, or is done with its spine. -/
def proceed (visit : Nid → Bytes → Scan σ Unit) (crew : Crew) (worker : Nat) (next : Place) :
    Scan σ Crew := do
  let s ← getThe SpineStore
  if next.slot < s.spineSize then
    visitSlots visit next.index 1 next.slot
    return { crew with tasks := crew.tasks.set worker { next with slot := next.slot + 1 } }
  else return { crew with tasks := crew.tasks.eraseIdx worker }

/-- The busy worker that was chosen goes on. A choice of none lets an idle worker take a spine. -/
def turn (stop : σ → Bool) (visit : Nid → Bytes → Scan σ Unit) (workers choice : Nat)
    (crew : Crew) : Scan σ Crew :=
  match crew.tasks[choice]? with
  | some next => crew.proceed visit choice next
  | none => if crew.tasks.length < workers then crew.take stop else return crew

/-- Lets the workers go on as a schedule says. -/
def follow (stop : σ → Bool) (visit : Nid → Bytes → Scan σ Unit) (workers : Nat) :
    (schedule : List Nat) → Crew → Scan σ Crew
  | [], crew => return crew
  | choice :: schedule, crew => do
    follow stop visit workers schedule (← crew.turn stop visit workers choice)

/-- Finishes the spines that are handed out. -/
def finishTasks (visit : Nid → Bytes → Scan σ Unit) : List Place → Scan σ Unit
  | [] => return ()
  | next :: tasks => do
    let s ← getThe SpineStore
    visitSlots visit next.index (s.spineSize - next.slot) next.slot
    finishTasks visit tasks

/-- Visits the spines that are not handed out. -/
def finishQueue (stop : σ → Bool) (visit : Nid → Bytes → Scan σ Unit) : List Nat → Scan σ Unit
  | [] => return ()
  | index :: queue => do
    if stop (← getThe σ) then return ()
    else
      visitSpine visit index
      finishQueue stop visit queue

end Crew

/-- Visits every payload, with so many workers that are chosen by a schedule. The test decides
before each spine whether the scan stops. -/
def forEachParallelUntil (stop : σ → Bool) (visit : Nid → Bytes → Scan σ Unit) (workers : Nat)
    (schedule : List Nat) : Scan σ Unit := do
  let s ← getThe SpineStore
  let crew ← Crew.follow stop visit workers schedule
    { queue := List.range s.spineLimit, tasks := [] }
  Crew.finishTasks visit crew.tasks
  Crew.finishQueue stop visit crew.queue

/-- Visits every payload, with so many workers that are chosen by a schedule. -/
def forEachParallel (visit : Nid → Bytes → Scan σ Unit) (workers : Nat) (schedule : List Nat) :
    Scan σ Unit :=
  forEachParallelUntil (fun _ => false) visit workers schedule

/-- Every payload, in the order in which the workers visit them. -/
def entriesParallel (workers : Nat) (schedule : List Nat) :
    StateM SpineStore (List (Nid × Bytes)) := do
  let (_, visited) ← (forEachParallel note workers schedule).run []
  return visited.reverse

end Chronicle.SpineStore
