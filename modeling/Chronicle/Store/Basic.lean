import Chronicle.Calculator.Pool
import Chronicle.Config.Basic
import Chronicle.Registry
import Chronicle.Spine.Flush

/-!
# Stores

A store ties the identity registry, the payloads, the path graph and the calculators together. What
it does is an action: it answers or fails, and leaves the store in some state either way, because
an action that fails halfway keeps what it did before.
-/

namespace Chronicle

/-- An open store. -/
structure Store where
  /-- Whether the store has a root directory. -/
  rooted : Bool
  config : Config
  registry : Registry
  paths : PathGraph
  /-- The payloads, and the medium that everything is persisted on. -/
  spines : SpineStore
  pool : CalculatorPool

namespace Store

/-- An activity of a store that can fail. -/
abbrev Action (α : Type) := EStateM StoreError Store α

variable {α : Type}

/-- An activity of a store that cannot fail, as an action. -/
def infallible (x : StateM Store α) : Action α := fun s =>
  let (answer, s) := x s
  .ok answer s

/-- An activity over the payloads that cannot fail. -/
def onSpines (x : StateM SpineStore α) : StateM Store α := fun s =>
  let (answer, spines) := x s.spines
  (answer, { s with spines })

/-- An activity over the payloads that can fail. -/
def tryOnSpines (x : EStateM StoreError SpineStore α) : Action α := fun s =>
  match x s.spines with
  | .ok answer spines => .ok answer { s with spines }
  | .error error spines => .error error { s with spines }

/-- The outcome of a computation that uses neither a store nor anything else. -/
def outcome {σ ε : Type} [Coe ε StoreError] (x : Except ε α) : EStateM StoreError σ α := fun s =>
  match x with
  | .ok answer => .ok answer s
  | .error error => .error error s

/-- An action together with its failure as an answer. -/
def attempt {σ : Type} (x : EStateM StoreError σ α) : StateM σ (Except StoreError α) := fun s =>
  match x s with
  | .ok answer s => (.ok answer, s)
  | .error error s => (.error error, s)

instance : MonadLift (StateM Store) Action := ⟨infallible⟩

instance : MonadLift (StateM SpineStore) (StateM Store) := ⟨onSpines⟩

instance : MonadLift (EStateM StoreError SpineStore) Action := ⟨tryOnSpines⟩

/-! ## Identity -/

/-- The nid of a public id, allocated on first sight. -/
def resolve (id : PublicId) : Action Nid := fun s =>
  match s.registry.resolve id with
  | .ok (nid, registry) => .ok nid { s with registry }
  | .error error => .error (.configuration error) s

/-- The nid of a set of aliases, allocated on first sight. -/
def resolveAliases (uuids : List Uuid) : Action Nid := do
  resolve (← outcome (PublicId.ofList uuids))

/-- The nid of an alias. -/
def nid (s : Store) (uuid : Uuid) : Except StoreError Nid :=
  match s.registry.nid? uuid with
  | some nid => .ok nid
  | none => .error (.notFound (.uuid uuid))

/-- The public id of a nid. -/
def publicId (s : Store) (nid : Nid) : Except StoreError PublicId :=
  match s.registry.publicId? nid with
  | some id => .ok id
  | none => .error (.notFound (.nid nid))

/-- The nid under which the store has registered a status since it was opened. -/
def statusNid (s : Store) (status : Status) : Nid :=
  (s.registry.nid? status.uuid).getD Nid.first

/-! ## Caches -/

/-- What calculators depend on besides the stored payloads. -/
def scene (s : Store) : Scene :=
  s.pool.scene s.paths

/-- How often the caches were reset. -/
def generation (s : Store) : Nat :=
  s.pool.generation

/-- Drops every cached calculator and every interned coordinate. -/
def resetCaches : StateM Store Unit :=
  modify fun s => { s with pool := s.pool.reset }

end Store

end Chronicle
