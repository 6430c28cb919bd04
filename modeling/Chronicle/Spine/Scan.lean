import Chronicle.Spine.Store

/-!
# Scans

A scan visits every stored payload in ascending order of nids, spine by spine up to the limit that
held when it started. What it does at a payload may use the store and carries a state along. A scan
can be stopped, but only between two spines.
-/

namespace Chronicle.SpineStore

/-- An activity over a spined store that carries a state along. -/
abbrev Scan (σ : Type) := StateT σ (StateM SpineStore)

variable {σ : Type}

/-- Visits `n` slots of a spine in memory, from a slot on. -/
def visitSlots (visit : Nid → Bytes → Scan σ Unit) (index : Nat) : (n slot : Nat) → Scan σ Unit
  | 0, _ => return ()
  | n + 1, slot => do
    let s ← getThe SpineStore
    match s.cell? { index, slot }, s.nidAt? { index, slot } with
    | some cell, some nid => visit nid cell.payload
    | _, _ => pure ()
    visitSlots visit index n (slot + 1)

/-- Visits the spine at an index, if there may be data. -/
def visitSpine (visit : Nid → Bytes → Scan σ Unit) (index : Nat) : Scan σ Unit := do
  let s ← getThe SpineStore
  if s.reaches index then
    let _ ← (touch index : StateM SpineStore Spine)
    visitSlots visit index s.spineSize 0

/-- Visits `n` spines from an index on, unless a test on the state carried along says to stop. -/
def visitSpines (stop : σ → Bool) (visit : Nid → Bytes → Scan σ Unit) :
    (n index : Nat) → Scan σ Unit
  | 0, _ => return ()
  | n + 1, index => do
    if stop (← getThe σ) then return ()
    else
      visitSpine visit index
      visitSpines stop visit n (index + 1)

/-- Visits every payload. The test decides before each spine whether the scan stops. -/
def forEachUntil (stop : σ → Bool) (visit : Nid → Bytes → Scan σ Unit) : Scan σ Unit := do
  let s ← getThe SpineStore
  visitSpines stop visit s.spineLimit 0

/-- Visits every payload. -/
def forEach (visit : Nid → Bytes → Scan σ Unit) : Scan σ Unit :=
  forEachUntil (fun _ => false) visit

/-- Notes a payload in front of those visited before. -/
def note (nid : Nid) (payload : Bytes) : Scan (List (Nid × Bytes)) Unit :=
  modifyThe (List (Nid × Bytes)) ((nid, payload) :: ·)

/-- Every payload, in ascending order of nids. -/
def entries : StateM SpineStore (List (Nid × Bytes)) := do
  let (_, visited) ← (forEach note).run []
  return visited.reverse

/-- The payloads that a scan visits which is told to stop once it has seen `n` of them, and whether
it was told so. -/
def entriesUntil (n : Nat) : StateM SpineStore (List (Nid × Bytes) × Bool) := do
  let (_, visited) ← (forEachUntil (fun visited => n ≤ visited.length) note).run []
  return (visited.reverse, n ≤ visited.length)

end Chronicle.SpineStore
