import Chronicle.Store.Open
import Chronicle.Transaction

/-!
# Hosts

A host keeps what outlives a store: a medium, or a file tree with the root directory of a store.
Stores are opened on it one after another, at most one at a time. One that was closed can still be
asked through the calculators that it handed out, and sees the medium as the others have left it.
-/

namespace Chronicle

/-- What the stores of a host have in common. -/
inductive Sharing where
  /-- The medium of the host. -/
  | medium
  /-- A root directory in the file tree of the host. -/
  | directory (root : List String)
  /-- Nothing: every store has a medium in memory of its own. -/
  | nothing
  deriving DecidableEq

/-- What outlives a store, and the stores that were opened on it. -/
structure Host where
  sharing : Sharing
  medium : Medium := Medium.inMemory
  tree : FileTree := FileTree.empty
  /-- Every store that was opened, in order. -/
  stores : List Store := []
  /-- Whether the last store is open. -/
  isOpen : Bool := false
  /-- The transactions of the open store. -/
  transactions : List Transaction := []

namespace Host

variable {α : Type}

/-- The number of the open store. -/
def current? (h : Host) : Option Nat :=
  if h.isOpen then some (h.stores.length - 1) else none

/-- A store with what it shares as the host has it. -/
def lend (h : Host) (store : Store) : Store :=
  let medium := match h.sharing, store.spines.medium.backing with
    | .medium, _ => h.medium
    | .directory _, .folder folder =>
      { store.spines.medium with backing := .folder { folder with tree := h.tree } }
    | _, _ => store.spines.medium
  { store with spines := { store.spines with medium } }

/-- The host with what is shared as a store has it. -/
def takeBack (h : Host) (store : Store) : Host :=
  match h.sharing with
  | .medium => { h with medium := store.spines.medium }
  | .directory _ => { h with tree := (Store.treeOf? store.spines.medium).getD h.tree }
  | .nothing => h

/-- Does something with a store, if there is one of this number. -/
def onStore (number : Nat) (x : StateM Store α) : StateM Host (Option α) := fun h =>
  match h.stores[number]? with
  | none => (none, h)
  | some store =>
    let (answer, store) := x (h.lend store)
    (some answer, { h.takeBack store with stores := h.stores.set number store })

/-- Adds an open store, which has no transactions. -/
def add (h : Host) (store : Store) : Host :=
  { h.takeBack store with stores := h.stores ++ [store], isOpen := true, transactions := [] }

/-- Opens a store. Without a configuration a root directory is asked for one; elsewhere the defaults
count. -/
def openStore (config : Option Config) : EStateM StoreError Host Unit := fun h =>
  match h.sharing with
  | .medium =>
    match Store.overMedium (config.getD {}) false h.medium with
    | .ok store medium => .ok () ({ h with medium }.add store)
    | .error error medium => .error error { h with medium }
  | .directory root =>
    let opening := match config with
      | some config => Store.atRoot root config
      | none => Store.atConfiguredRoot root []
    match opening h.tree with
    | .ok store tree => .ok () ({ h with tree }.add store)
    | .error error tree => .error error { h with tree }
  | .nothing =>
    match Store.inMemory (config.getD {}) with
    | .ok store => .ok () (h.add store)
    | .error error => .error error h

/-- Ends the open store with its transactions. What it has not written is lost to later stores. -/
def drop (h : Host) : Host :=
  { h with isOpen := false, transactions := [] }

/-- Flushes the open store and ends it, whether or not the flush succeeds. -/
def close : StateM Host (Option (Except StoreError Store.FlushStats)) := fun h =>
  match h.current? with
  | none => (none, h)
  | some number =>
    let (answer, h) := onStore number (Store.attempt Store.flush) h
    (answer, h.drop)

/-- Starts a transaction on the open store. Answers its index. -/
def beginTransaction (name : String) : StateM Host Nat :=
  modifyGet fun h =>
    (h.transactions.length, { h with transactions := h.transactions ++ [{ name }] })

/-- Does something with a transaction on a store, if there are both. -/
def onTransaction (number index : Nat) (x : Transaction.Action α) :
    StateM Host (Option (Except StoreError α)) := fun h =>
  match h.transactions[index]? with
  | none => (none, h)
  | some t =>
    let run : StateM Store (Except StoreError α × Transaction) := fun store =>
      match x (t, store) with
      | .ok answer (t, store) => ((.ok answer, t), store)
      | .error error (t, store) => ((.error error, t), store)
    match onStore number run h with
    | (none, h) => (none, h)
    | (some (answer, t), h) =>
      (some answer, { h with transactions := h.transactions.set index t })

end Host

end Chronicle
