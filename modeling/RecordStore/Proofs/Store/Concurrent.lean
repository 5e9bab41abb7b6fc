import RecordStore.Proofs.Store.Operations

/-!
# A store with its clients

A concurrent store is a cache with its worker and its callers, the backend behind it, and clients
that came with operations (`ConcurrentStore`).  Operations of clients mix with each other and with
the worker of the cache in every way that their steps allow.  Every call on the cache and on the
backend is one step that succeeds, but for the call that shuts the cache down: that one is an errand
of a caller of the cache, and the client waits for its end.

Clients are numbered in the order in which they came.  The events are listed by
`ConcurrentStore.Event`.  An event that cannot happen does nothing, so every list of events is a
run.
-/

namespace RecordStore

namespace Cache.WithCallers

/-- The calls and offers by which the cache answers a call of its owner. -/
def eventsOf : Call → List Event
  | .save record key | .update record key _ => [.offer key record]
  | .saveBatch entries => entries.map fun e => .offer e.1 e.2
  | .deleteBatch ids => ids.map fun id => .call (.delete id.kind id.key)
  | .shutdown => []
  | call => [.call call]

end Cache.WithCallers

namespace Store

open Bench (StoreStep Value)
open Cache (WithCallers)

/-- Somebody with an operation. -/
structure Client where
  step : StoreStep
  /-- The rest of the operation. -/
  program : Prog Value

namespace Client

/-- What the operation gave back, if it has ended. -/
def value? (c : Client) : Option Value :=
  match c.program with
  | .done value => some value
  | .ask _ _ => none

def hasEnded (c : Client) : Bool := c.value?.isSome

/-- What is to be asked next. -/
def asked? (c : Client) : Option Request :=
  match c.program with
  | .ask q _ => some q
  | .done _ => none

/-- Whether the cache is to be called next. -/
def callsCache (c : Client) : Bool :=
  match c.asked? with
  | some (.cache _) => true
  | _ => false

/-- What is to be offered next. -/
def offered? (c : Client) : Option Entry :=
  match c.asked? with
  | some (.offer key record) => some (key, record)
  | _ => none

/-- A client that goes on keeps to what it came for. -/
theorem map_step_set {l : List Client} {n : Nat} {c : Client} (hc : l[n]? = some c)
    (program : Prog Value) : (l.set n ⟨c.step, program⟩).map step = l.map step := by
  obtain ⟨hn, rfl⟩ := List.getElem?_eq_some_iff.1 hc
  have hn' : n < (l.map step).length := by rwa [List.length_map]
  rw [List.map_set, ← List.getElem_map step (h := hn'), List.set_getElem_self]

/-- Where clients only come, and keep to what they came for, each of them is where it was. -/
theorem step_of_prefix {l l' : List Client} (h : l.map step <+: l'.map step) {n : Nat}
    {operation : StoreStep} (hn : l[n]?.map step = some operation) :
    l'[n]?.map step = some operation := by
  rw [← List.getElem?_map] at hn ⊢
  obtain ⟨more, hmore⟩ := h
  rw [← hmore, List.getElem?_append_left (List.getElem?_eq_some_iff.1 hn).1, hn]

end Client

/-- A store with a cache before one backend, and its clients. -/
structure ConcurrentStore (B : Backend) where
  cache : WithCallers
  backend : B.State
  isOpen : Bool := true
  /-- The clients, in the order in which they came. -/
  clients : List Client := []

namespace ConcurrentStore

variable {B : Backend}

/-- What a client came for. -/
def operation? (s : ConcurrentStore B) (n : Nat) : Option StoreStep := s.clients[n]?.map Client.step

/-- What a client gave back, if it has ended. -/
def value? (s : ConcurrentStore B) (n : Nat) : Option Value := s.clients[n]?.bind Client.value?

/-- What a client is to offer next. -/
def offered? (s : ConcurrentStore B) (n : Nat) : Option Entry := s.clients[n]?.bind Client.offered?

/-- What can happen to a concurrent store. -/
inductive Event where
  /-- A client comes. -/
  | begin (step : StoreStep)
  /-- A client goes on with its operation. -/
  | go (n : Nat)
  /-- A party at the cache goes on with a request that is not for the backend. -/
  | work (party : Cache.Party) (now : Nat)
  /-- The worker takes up an event that is ready. -/
  | take (e : Worker.Event Cache.Task) (now : Nat)
  /-- The backend carries out the call that a party at the cache waits for. -/
  | answer (party : Cache.Party)

/-- What a concurrent store is made from. -/
structure StoreSystem (B : Backend) where
  config : Cache.Config
  initial : B.State
  cacheName : String
  backendName : String
  listeners : Listener

def StoreSystem.layout (g : StoreSystem B) : Layout := .single g.cacheName g.backendName g.listeners

def StoreSystem.callerSystem (g : StoreSystem B) : Cache.WithCallers.CallerSystem where
  config := g.config
  initial := B.records g.initial
  backendName := g.backendName

/-- A store where nothing has happened. -/
def StoreSystem.start (g : StoreSystem B) : ConcurrentStore B where
  cache := g.callerSystem.start
  backend := g.initial

/-- The cache is shut down by one of its callers. -/
def shutdownCache (g : StoreSystem B) (s : ConcurrentStore B) :
    Option (Except Failure Unit) × ConcurrentStore B :=
  match s.cache.callers.find? fun c => c.errand == .shutdown with
  | none => (none, { s with cache := g.callerSystem.step s.cache (.begin .shutdown) })
  | some ⟨.shutdown, .done outcome⟩ => (some outcome, s)
  | _ => (none, s)

/-- What happens at a request of a client.  `none` if the client has to wait. -/
def reply? (g : StoreSystem B) (s : ConcurrentStore B) : (q : Request) →
    Option (Reply q) × ConcurrentStore B
  | .isOpen => (some s.isOpen, s)
  | .close => (some s.isOpen, { s with isOpen := false })
  | .cache .shutdown => s.shutdownCache g
  | .cache call => (some (s.cache.running.perform call).1,
      { s with cache := run g.callerSystem.step s.cache (Cache.WithCallers.eventsOf call) })
  | .offer key record => (some (s.cache.running.receive key record).1.1,
      { s with cache := g.callerSystem.step s.cache (.offer key record) })
  | .backend _ call => (some (.ok (B.perform s.backend call).1),
      { s with
        cache := g.callerSystem.step s.cache (.own call)
        backend := (B.perform s.backend call).2 })
  | .notify _ => (some (), s)

/-- A client goes on, unless it has to wait. -/
def go (g : StoreSystem B) (s : ConcurrentStore B) (n : Nat) : ConcurrentStore B :=
  match s.clients[n]? with
  | some ⟨step, .ask q next⟩ =>
      match s.reply? g q with
      | (some a, s') => { s' with clients := s'.clients.set n ⟨step, next a⟩ }
      | (none, s') => s'
  | _ => s

/-- The backend carries out the call that a party waits for. -/
def answer (g : StoreSystem B) (s : ConcurrentStore B) (party : Cache.Party) :
    ConcurrentStore B where
  __ := s
  cache := g.callerSystem.step s.cache (.answer party .done)
  backend := (s.cache.waitsFor? party).elim s.backend fun call => (B.perform s.backend call).2

namespace StoreSystem

variable (g : StoreSystem B)

def step (s : ConcurrentStore B) : Event → ConcurrentStore B
  | .begin step => { s with clients := s.clients ++ [⟨step, step.operation g.layout⟩] }
  | .go n => s.go g n
  | .work party now => { s with cache := g.callerSystem.step s.cache (.go party now) }
  | .take e now => { s with cache := g.callerSystem.step s.cache (.take e now) }
  | .answer party => s.answer g party

/-- Whether a store comes about by some events. -/
def Reaches (s : ConcurrentStore B) : Prop := ∃ events, run g.step g.start events = s

end StoreSystem

end ConcurrentStore

end Store

end RecordStore
