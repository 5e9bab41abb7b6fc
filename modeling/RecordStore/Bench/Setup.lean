import RecordStore.Bench.World
import RecordStore.Cache.Service
import RecordStore.Call.Text
import RecordStore.Store.Lifecycle
import RecordStore.Store.Reads
import RecordStore.Store.Writes

/-!
# Putting a bench together

A bench is described by its components and by the store over them.  A cache may stand
before any component with a smaller number.

Calls reach a component in two ways.  A call that is made on the component itself goes
straight to it (`Handler`).  A call of a cache on its backend, or of the store on any
of its components, goes through the probe of that component (`probed`).

The programs of caches and stores are run on the bench by `Program.expand`: each of
their requests becomes a program of the bench.
-/

namespace RecordStore

namespace Bench

/-- A component to be put on a bench, with the script of its probe. -/
inductive Part where
  /-- Tables in memory. -/
  | memory (name : String)
  /-- A component that keeps nothing. -/
  | null
  /-- A cache before another component. -/
  | cache (backend : Nat) (config : Cache.Config)

/-- The store to be put on a bench. -/
structure StorePart where
  /-- The number of the cache. -/
  cache : Option Nat := none
  /-- The numbers of the backends. -/
  backends : List Nat := []
  listeners : List Listener := []

/-- What is put on a bench. -/
structure Setup where
  /-- The components, each with the script of its probe. -/
  parts : List (Part × Script)
  store : StorePart := {}

def Part.component : Part → Component
  | memory name => .memory { name }
  | null => .null
  | cache backend config => .cache (.ofConfig config) backend

/-- The world at the beginning. -/
def Setup.world (s : Setup) : World where
  nodes := s.parts.map fun p => { component := p.1.component, probe := { script := p.2 } }
  listeners := .group s.store.listeners

def Setup.nameOf (s : Setup) (n : Nat) : String :=
  ((s.parts[n]?.map fun p => p.1.component.name)).getD ""

/-- The components of the store. -/
def Setup.layout (s : Setup) : Store.Layout where
  cache := s.store.cache.map s.nameOf
  backends := s.store.backends.map s.nameOf
  listeners := .group s.store.listeners

/-! ## Calls on components -/

/-- How a component is called. -/
abbrev Handler := (call : Call) → Prog call.Outcome

/-- Holds a call back until it has a permit, if the probe says so. -/
def hold (n : Nat) (after : Bool) (method : String) : Prog Unit := do
  if ← ask (.isGated n after method) then ask (.permit n)

/-- Whether the probe refuses a call that could be accepted. -/
def refused (n : Nat) (call : Call) : Prog (Option call.Answer) := do
  match call.refusal? with
  | none => return none
  | some no => return if ← ask (.isRejecting n) then some no else none

/-- Calls a component through its probe. -/
def probed (n : Nat) (handler : Handler) (call : Call) : Prog call.Outcome := do
  ask (.log (toString n ++ "." ++ call.text))
  hold n false call.method
  match ← ask (.takeFailure n call.method) with
  | some e => return .error e
  | none =>
      match ← refused n call with
      | some no => return .ok no
      | none =>
          let outcome ← handler call
          hold n true call.method
          return outcome

/-- What a request of a cache becomes, given how its backend is called. -/
def cacheStep (n : Nat) (backend : Handler) : (q : Cache.Request) → Prog (Cache.Reply q)
  | .backend call => backend call
  | q => ask (.cache n q)

/-- Runs a program of a cache, given how its backend is called. -/
def onCache {α : Type} (n : Nat) (backend : Handler) (p : Cache.Service.Prog α) : Prog α :=
  p.expand (cacheStep n backend)

/-- A component with what is needed to call it. -/
structure Access where
  name : String
  /-- How the component is called. -/
  handler : Handler
  /-- How its backend is called, if it is a cache. -/
  backend : Handler
  /-- The name of its backend, if it is a cache. -/
  backendName : String

/-- What stands for a component that is not there. -/
def Access.none : Access where
  name := ""
  handler call := ask (.call 0 call)
  backend call := ask (.call 0 call)
  backendName := ""

/-- Access to a component, given the access to those before it. -/
def Part.access (before : List Access) (n : Nat) : Part → Access
  | cache b _ =>
      let backend := before.getD b .none
      { name := Component.cacheName
        handler := fun call =>
          onCache n (probed b backend.handler) (Cache.Service.serve backend.name call)
        backend := probed b backend.handler
        backendName := backend.name }
  | part =>
      { Access.none with
        name := part.component.name
        handler := fun call => ask (.call n call) }

/-- Access to the components of a list, the first of which has a number. -/
def accesses (before : List Access) : List Part → List Access
  | [] => before
  | part :: rest => accesses (before ++ [part.access before before.length]) rest

/-- Access to every component. -/
def Setup.accesses (s : Setup) : List Access := Bench.accesses [] (s.parts.map (·.1))

/-! ## Calls on the store -/

/-- Calls a component of the store through its probe. -/
def Setup.probed (s : Setup) (n : Nat) (call : Call) : Prog call.Outcome :=
  Bench.probed n (s.accesses.getD n .none).handler call

/-- Offers a record to a cache through its probe. -/
def offered (n : Nat) (a : Access) (key : Key) (record : Record) : Prog Bool := do
  ask (.log (toString n ++ ".add " ++ (record.idAt key).text))
  match ← ask (.takeFailure n "add") with
  | some _ => return false
  | none => onCache n a.backend (Cache.Service.offer key record)

/-- What a request of the store becomes. -/
def Setup.storeStep (s : Setup) : (q : Store.Request) → Prog (Store.Reply q)
  | .isOpen => ask .isOpen
  | .close => ask .close
  | .cache call => s.probed (s.store.cache.getD 0) call
  | .offer key record =>
      let n := s.store.cache.getD 0
      offered n (s.accesses.getD n .none) key record
  | .backend i call => s.probed (s.store.backends.getD i 0) call
  | .notify n => ask (.notify n)

/-- Runs an operation of the store. -/
def Setup.onStore {α : Type} (s : Setup) (p : Store.Prog α) : Prog α :=
  p.expand s.storeStep

end Bench

end RecordStore
