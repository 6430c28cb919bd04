import Chronicle.Store.Stamps

/-!
# Transactions

The stamps of a transaction start out uncommitted. Committing gives every member one time, canceling
cancels every member, and whichever of the two comes first closes the transaction. Every member is
tried; the first failure is the answer. A member that was canceled on its own in the meantime stays
canceled.
-/

namespace Chronicle

/-- Whether a transaction is open, or how it was closed. -/
inductive TransactionState where
  | uncommitted
  | committed
  | canceled
  deriving DecidableEq

namespace TransactionState

/-- What a state is called. -/
def name : TransactionState → String
  | uncommitted => "uncommitted"
  | committed => "committed"
  | canceled => "canceled"

/-- Refuses a transaction that is closed. -/
def checkOpen : TransactionState → Except TransactionError Unit
  | uncommitted => .ok ()
  | committed => .error .alreadyCommitted
  | canceled => .error .alreadyCanceled

end TransactionState

/-- A group of stamps that are committed or canceled together. -/
structure Transaction where
  name : String
  state : TransactionState := .uncommitted
  /-- The members in the order in which they were created. -/
  stamps : List Nid := []
  deriving DecidableEq

namespace Transaction

/-- An activity of a transaction on a store. -/
abbrev Action (α : Type) := EStateM StoreError (Transaction × Store) α

/-- Does something on the store. -/
def onStore {α : Type} (x : Store.Action α) : Action α := fun (t, s) =>
  match x s with
  | .ok answer s => .ok answer (t, s)
  | .error error s => .error error (t, s)

/-- Refuses a transaction that is closed. -/
def checkOpen : Action Unit := fun (t, s) =>
  match t.state.checkOpen with
  | .ok () => .ok () (t, s)
  | .error error => .error (.transaction error) (t, s)

/-- Creates a member with a UUID that nothing else has. -/
def stamp (status : Status) (author module path : Nid) (fresh : Uuid) : Action Nid := do
  checkOpen
  let nid ← onStore (Store.createStamp (StampFields.draft status author module path) fresh)
  modify fun (t, s) => ({ t with stamps := t.stamps ++ [nid] }, s)
  return nid

/-- Does something with each of some stamps, whether or not it fails with others. Answers the first
failure. -/
def forMembers (act : Nid → Store.Action Unit) : List Nid → StateM Store (Option StoreError)
  | [] => return none
  | nid :: rest => fun s =>
    match act nid s with
    | .ok () s => forMembers act rest s
    | .error error s =>
      let (_, s) := forMembers act rest s
      (some error, s)

/-- Closes the transaction, does something with each member and resets the caches. -/
def close (state : TransactionState) (act : Nid → Store.Action Unit) : Action Unit := do
  checkOpen
  modify fun (t, s) => ({ t with state }, s)
  let (t, _) ← get
  let failure ← onStore (Store.infallible (forMembers act t.stamps))
  onStore Store.resetCaches
  match failure with
  | some error => throw error
  | none => return ()

/-- Commits every member at a time, which is the answer. -/
def commitAt (time : Int64) : Action Int64 := do
  if Time.isSentinel time then throw (.configuration (.sentinelTime time))
  close .committed (Store.commitMember time)
  return time

/-- Cancels every member. -/
def cancel : Action Unit :=
  close .canceled Store.cancelMember

end Transaction

end Chronicle
