import RecordStore.Call
import RecordStore.Listener
import RecordStore.Program

/-!
# Stores

A store puts one cache at most before any number of backends, and tells listeners
about changes.  Its components are fixed when it is built.  It is open until it is
shut down.

The operations of a store are programs over six requests: whether the store is open,
closing it, a call on the cache, offering a record to the cache, a call on a backend,
and a notice to the listeners.  Every request is a step of its own, so operations that
run at the same time mix in every way that their steps allow.

An operation looks once, at its beginning, whether the store is open.  If it is not,
the operation makes no other request (`opened`).  An operation that began in time goes
on to its end, even if the store is closed meanwhile.
-/

namespace RecordStore

namespace Store

/-- The components of a store. -/
structure Layout where
  /-- The name of the cache, if there is one. -/
  cache : Option String
  /-- The names of the backends, in the order in which they are asked. -/
  backends : List String
  listeners : Listener

/-- The numbers of the backends, in the order in which they are asked. -/
def Layout.indices (l : Layout) : List Nat := List.range l.backends.length

/-- Why an operation of a store failed. -/
inductive Error where
  /-- The store is closed. -/
  | closed
  /-- A component failed to start or to shut down. -/
  | lifecycle (component : String) (cause : Failure)
  /-- A backend failed a read. -/
  | backend (index : Nat) (cause : Failure)
  /-- Some backends failed a write that all of them were sent.  The cause is that of
  the first one. -/
  | fanOut (failed attempted : Nat) (cause : Failure)
  deriving DecidableEq

def Error.message : Error → String
  | closed => "ledger store is shut down"
  | lifecycle component cause => "lifecycle failure: " ++ component ++ ": " ++ cause.text
  | backend index _ => "backend #" ++ toString index ++ " failed"
  | fanOut failed attempted _ =>
      toString failed ++ " of " ++ toString attempted ++ " backends failed"

/-! ## Requests -/

/-- What the operations of a store ask. -/
inductive Request where
  | isOpen
  /-- Close the store, and say whether it was open. -/
  | close
  | cache (call : Call)
  /-- Offer a record to the cache, and say whether it was admitted. -/
  | offer (key : Key) (record : Record)
  | backend (index : Nat) (call : Call)
  | notify (notice : Notice)

abbrev Reply : Request → Type
  | .isOpen | .close | .offer _ _ => Bool
  | .cache call | .backend _ call => call.Outcome
  | .notify _ => Unit

/-- The interface of the operations of a store. -/
abbrev Effects : Interface := ⟨Request, Reply⟩

abbrev Prog (α : Type) := Program Effects α

/-- What an operation of a store gives back. -/
abbrev Result (α : Type) := Except Error α

def ask (q : Request) : Prog (Reply q) := Program.ask q .done

/-- An operation that needs the store to be open. -/
def opened {α : Type} (p : Prog (Result α)) : Prog (Result α) := do
  if ← ask .isOpen then p else return .error .closed

end Store

end RecordStore
