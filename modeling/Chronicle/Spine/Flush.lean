import Chronicle.Spine.Store

/-!
# Writing spines back

Each spine in memory that has changes is written, in ascending order, whether or not an earlier one
failed. A spine that fails keeps its mark for a later attempt. A spine whose blob could not be
loaded is not written; with changes it counts as a failure. The first failure is the answer.
-/

namespace Chronicle.SpineStore

/-- How far a flush of the spines got. -/
structure Progress where
  written : Nat := 0
  failure : Option StoreError := none
  deriving DecidableEq

/-- Takes note of a failure, of which the first counts. -/
def Progress.fail (p : Progress) (error : StoreError) : Progress :=
  { p with failure := p.failure.getD error }

/-- Replaces the mark of a spine in memory. -/
def mark (s : SpineStore) (index : Nat) (changed : Bool) : SpineStore :=
  match s.loaded[index]? with
  | some spine => { s with loaded := s.loaded.insert index { spine with changed } }
  | none => s

/-- Writes the spine at an index if it has changes. -/
def writeOne (index : Nat) (p : Progress) : StateM SpineStore Progress := fun s =>
  match s.loaded[index]? with
  | none => (p, s)
  | some spine =>
    if !spine.changed then (p, s)
    else if spine.degraded then (p.fail (.degradedSpine index), s)
    else
      match underPermit (Medium.writeSpine index (spine.encode s.spineSize)) (s.mark index false) with
      | (.ok (), s) => ({ p with written := p.written + 1 }, s)
      | (.error error, s) => (p.fail (.io error), s.mark index true)

/-- Writes each of some spines that has changes. -/
def writeAll : List Nat → Progress → StateM SpineStore Progress
  | [], p => return p
  | index :: indices, p => do
    writeAll indices (← writeOne index p)

/-- Writes every spine with changes, and answers how many were written. -/
def write : EStateM StoreError SpineStore Nat := fun s =>
  match writeAll s.loaded.keys {} s with
  | ({ written, failure := none }, s) => .ok written s
  | ({ failure := some error, .. }, s) => .error error s

end Chronicle.SpineStore
