import RecordStore.Store

/-!
# Starting and shutting down a store

Both take the cache first, then the backends in their order.  A start ends at the
first component that fails.  A shutdown closes the store, goes through every component
whatever happens, tells the listeners, and reports the first failure.  Of several
shutdowns only one finds the store open.
-/

namespace RecordStore

namespace Store

/-- Starts backends in their order, up to the first failure. -/
def initBackends : List (Nat × String) → Prog (Result Unit)
  | [] => return .ok ()
  | (index, name) :: rest => do
      match ← ask (.backend index .init) with
      | .error e => return .error (.lifecycle name e)
      | .ok () => initBackends rest

/-- The backends of a layout with their numbers. -/
def Layout.numbered (l : Layout) : List (Nat × String) := l.indices.zip l.backends

def init (l : Layout) : Prog (Result Unit) := opened do
  match l.cache with
  | none => initBackends l.numbered
  | some name =>
      match ← ask (.cache .init) with
      | .error e => return .error (.lifecycle name e)
      | .ok () => initBackends l.numbered

/-- Keeps the first of two failures. -/
def firstFailure (name : String) : Option Error → Except Failure Unit → Option Error
  | some e, _ => some e
  | none, .error cause => some (.lifecycle name cause)
  | none, .ok () => none

/-- Shuts backends down in their order, and gives the first failure. -/
def shutdownBackends (failure : Option Error) : List (Nat × String) → Prog (Option Error)
  | [] => return failure
  | (index, name) :: rest => do
      let outcome ← ask (.backend index .shutdown)
      shutdownBackends (firstFailure name failure outcome) rest

def shutdown (l : Layout) : Prog (Result Unit) := do
  if ← ask .close then
    let failure ← match l.cache with
      | none => pure none
      | some name => do
          let outcome ← ask (.cache .shutdown)
          pure (firstFailure name none outcome)
    let failure ← shutdownBackends failure l.numbered
    ask (.notify .shutdown)
    match failure with
    | none => return .ok ()
    | some e => return .error e
  else return .error .closed

/-- Tells every listener about a free-form event. -/
def publish (message : String) (args : List String) : Prog (Result Unit) := opened do
  ask (.notify (.event message args))
  return .ok ()

end Store

end RecordStore
