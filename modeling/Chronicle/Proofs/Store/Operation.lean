import Chronicle.Proofs.Calculator.Question
import Chronicle.Proofs.Spine.PayloadMap
import Chronicle.Store.Components
import Chronicle.Store.Open
import Chronicle.Store.Views
import Chronicle.Transaction

/-!
# Sessions

What can be done with an open store, as data, and what a session of such operations can leave on a
medium. Sessions follow one another on a medium that was blank at first. Between two of them only
the medium survives, whether or not the first one was flushed.
-/

namespace Chronicle

/-- What a cache forgets because it is full. -/
inductive Eviction where
  /-- A calculator forgets the fields of a stamp. -/
  | fields (number : Nat) (stamp : Nid)
  | calculator (coordinate : Coordinate)
  | coordinate (coordinate : Coordinate)

/-- The pool after a cache forgot something. -/
def CalculatorPool.evict (pool : CalculatorPool) : Eviction → CalculatorPool
  | .fields number stamp =>
    { pool with calculators := pool.calculators.modify number fun c =>
        { c with stamps := c.stamps.evict stamp } }
  | .calculator coordinate => { pool with remembered := pool.remembered.evict coordinate }
  | .coordinate coordinate =>
    { pool with coordinates :=
        { pool.coordinates with instances := pool.coordinates.instances.evict coordinate } }

namespace Store

/-- What is done with an open store. A transaction is handed over as it stands. A UUID that the
store draws is handed over as well.

Reading a stamp or a chronology looks its payload up. A merge whose function uses the store comes
down to a look-up, what the function does, and the merge of a payload that is known by then. -/
inductive Operation where
  | resolve (id : PublicId)
  | resolveAliases (uuids : List Uuid)
  | payloads (request : SpineStore.Request)
  | commitStamp (fields : StampFields) (fresh : Uuid)
  | cancelStamp (nid : Nid)
  | join (t : Transaction) (status : Status) (author module path : Nid) (fresh : Uuid)
  | commit (t : Transaction) (time : Int64)
  | cancel (t : Transaction)
  | appendVersion (nid : Nid) (kind : ComponentKind) (version : Version)
  | cancelVersion (nid stamp : Nid) (fresh : Uuid)
  | addPathOrigin (path : Nid) (edge : PathOrigin)
  | intern (coordinate : Coordinate)
  | calculator (coordinate : Coordinate)
  | ask (handle : CalculatorHandle) (question : Calculator.Question)
  | latestAll (coordinate : Coordinate)
  | resetCaches
  | evict (eviction : Eviction)
  | flush

/-- Asks a calculator a question. -/
def answer (handle : CalculatorHandle) (question : Calculator.Question) :
    StateM Store Calculator.Reply :=
  ask handle fun scene => question.ask scene

/-- The store after an operation, whether or not it failed. -/
def Operation.perform (s : Store) : Operation → Store
  | resolve id => (attempt (Store.resolve id) s).2
  | resolveAliases uuids => (attempt (Store.resolveAliases uuids) s).2
  | payloads request => (onSpines request.perform s).2
  | commitStamp fields fresh => (attempt (Store.commitStamp fields fresh) s).2
  | cancelStamp nid => (attempt (Store.cancelStamp nid) s).2
  | join t status author module path fresh =>
    (attempt (Transaction.stamp status author module path fresh) (t, s)).2.2
  | commit t time => (attempt (Transaction.commitAt time) (t, s)).2.2
  | cancel t => (attempt Transaction.cancel (t, s)).2.2
  | appendVersion nid kind version => (attempt (Store.appendVersion nid kind version) s).2
  | cancelVersion nid stamp fresh => (attempt (Store.cancelVersion nid stamp fresh) s).2
  | addPathOrigin path edge => (attempt (Store.addPathOrigin path edge) s).2
  | intern coordinate => (Store.intern coordinate s).2
  | calculator coordinate => (Store.calculator coordinate s).2
  | ask handle question => (answer handle question s).2
  | latestAll coordinate => (Store.latestAll coordinate s).2
  | resetCaches => (Store.resetCaches s).2
  | evict eviction => { s with pool := s.pool.evict eviction }
  | flush => (attempt Store.flush s).2

/-- The nids that the caller of an operation has something merged into. -/
def Operation.targets : Operation → List Nid
  | payloads (.merge nid _ _) => [nid]
  | appendVersion nid _ _ => [nid]
  | _ => []

/-- The nids that the caller of an operation makes a path or an origin. -/
def Operation.links : Operation → List Nid
  | addPathOrigin path edge => [path, edge.origin]
  | _ => []

/-- The store with other accesses to its medium failing from now on. -/
def withFaults (s : Store) (faults : Faults) : Store :=
  { s with spines := { s.spines with medium := { s.spines.medium with faults } } }

/-- How stores are used: the configurations they are opened with, and the operations that are done
with them. -/
structure Usage where
  admits : Config → Prop
  allows : Store → Operation → Prop

/-- The states of a store in a session since it was opened. Which accesses to the medium fail is
free. -/
inductive Session (usage : Usage) (opened : Store) : Store → Prop
  | opened : Session usage opened opened
  | performed {s : Store} {operation : Operation} (h : Session usage opened s)
      (hallowed : usage.allows s operation) : Session usage opened (operation.perform s)
  | faults {s : Store} (h : Session usage opened s) (faults : Faults) :
      Session usage opened (s.withFaults faults)

/-- A session goes on with every operation that is allowed. -/
theorem Session.andThen {usage : Usage} {opened s : Store} (h : Session usage opened s)
    (operation : Operation) (hallowed : usage.allows s operation) :
    Session usage opened (operation.perform s) :=
  .performed h hallowed

/-- The medium under a store. -/
abbrev backing (s : Store) : Backing :=
  s.spines.medium.backing

end Store

/-- Nothing is persisted. -/
structure Backing.Blank (backing : Backing) : Prop where
  blob? : ∀ index, backing.blob? index = none
  identity : backing.readTable Store.identityTable = .ok none
  paths : backing.readTable Store.pathTable = .ok none

/-- Nothing is persisted on a new medium in memory. -/
theorem Backing.blank_inMemory : Medium.inMemory.backing.Blank where
  blob? index := by
    change (Shelf.empty.spines[index]? : Option Bytes) = none
    exact Std.ExtTreeMap.getElem?_empty
  identity := rfl
  paths := rfl

/-- What sessions can leave on a medium, one after another. A session can end at any time. A crash
between two writes of one flush is the end of a session in which every write from the second one on
failed. -/
inductive Store.Leaves (usage : Store.Usage) : Backing → Prop
  | blank {backing : Backing} (h : backing.Blank) : Leaves usage backing
  | session {medium next : Medium} {config : Config} {rooted : Bool} {opened s : Store}
      (h : Leaves usage medium.backing) (hadmitted : usage.admits config)
      (hopen : Store.overMedium config rooted medium = .ok opened next)
      (hs : Store.Session usage opened s) : Leaves usage s.backing

end Chronicle
