import RecordStore.Cache
import RecordStore.Program
import RecordStore.Worker

/-!
# Caches with their workers

A running cache is a cache with the worker that evicts for it.  The worker is
started once, when the cache is, and it is given up when the cache is shut down.

An admission that leaves the cache full requests an eviction.  One request is
remembered at a time: the caller notes that there is one, and only if none was noted
does it go on to the worker's queue with it.  The note goes when the worker begins with
the request, so admissions during the pass can request the next one.  It also goes when
the request was not accepted.  Then the tick of the worker looks after the cache.  The
admission, the note, the queue and the withdrawal are four steps, and others may go on
between them.

Callers may hand tasks of their own to the worker: a pass with a reply, and a mark in
the queue with a reply.  Such a task carries a *ticket*.  Its caller waits until the
ticket has a reply, or until the worker has ended without one.

All operations of a running cache are programs over the requests listed here.  Every
request but `backend` is what the cache does under one lock or with one flag, and
`Running.reply?` says what that is.  A call on the backend takes as long as it takes.
What takes several steps is a program of `Service`.  `Running.serve` says what a call comes
to when nothing goes on between its steps.
-/

namespace RecordStore

namespace Cache

/-- Why an eviction or a flush has no result. -/
inductive Error where
  /-- The backend refused or failed the batch.  The entries stay cached. -/
  | flush (count : Nat) (cause : Failure)
  /-- The cache was shut down. -/
  | shutDown
  deriving DecidableEq

def Error.message : Error → String
  | flush count _ => Failure.flushMessage count
  | shutDown => "cache is shut down"

/-- What the worker of a cache is given. -/
inductive Task where
  | evict
  /-- Run a pass, and reply with its outcome. -/
  | evictFor (ticket : Nat)
  /-- Reply. -/
  | mark (ticket : Nat)
  deriving DecidableEq

def Task.ticket? : Task → Option Nat
  | evict => none
  | evictFor ticket => some ticket
  | mark ticket => some ticket

/-- A cache with its worker. -/
structure Running where
  cache : Cache
  /-- The time between two ticks of the worker. -/
  retryInterval : Nat
  /-- The bound of the worker's queue. -/
  queueCapacity : Nat
  /-- The worker, once it was started. -/
  worker : Option (Worker Task) := none
  /-- Whether the cache still gives tasks to the worker. -/
  attached : Bool := false
  /-- Whether it is noted that a pass is requested. -/
  requested : Bool := false
  nextTicket : Nat := 0
  /-- The replies that were not fetched. -/
  replies : List (Nat × Except Error Nat) := []

/-! ## Requests -/

/-- What the programs of a cache ask. -/
inductive Request where
  /-- A call that takes one step.  Admissions and a shutdown take more. -/
  | perform (call : Call)
  /-- Offer a record.  Says whether it was admitted, and whether the cache is full with it. -/
  | receive (key : Key) (record : Record)
  /-- Note that a pass is requested.  Says whether that was noted before. -/
  | noteRequest
  /-- Put a requested pass into the queue of the worker.  Says whether it was accepted. -/
  | queueRequest
  /-- Take the note back, since the requested pass was not accepted. -/
  | withdrawRequest
  | isClosed
  /-- Close the cache, and say whether it was closed before. -/
  | close
  | beginEviction
  | beginFlush
  | finishBatch (batch : Nat)
  | dropWritten (candidates : List Candidate)
  | failEviction
  /-- Remove every entry. -/
  | empty
  | isFull
  /-- Forget the requested pass, since it begins. -/
  | clearRequested
  /-- Whether the cache gives tasks to a worker. -/
  | isAttached
  /-- Ask the worker to stop and give it up.  Says whether there was one. -/
  | detach
  | join
  | newTicket
  /-- Submit a task, waiting for room.  Says whether it was accepted. -/
  | submit (task : Task)
  /-- Wait for the reply to a ticket.  There is none if the task was dropped. -/
  | await (ticket : Nat)
  /-- Reply to a ticket. -/
  | answer (ticket : Nat) (outcome : Except Error Nat)
  | beginWork
  /-- Wait for the next event of the worker. -/
  | nextEvent
  /-- The worker has ended. -/
  | finishWork
  /-- A call on the backend of the cache. -/
  | backend (call : Call)

abbrev Reply : Request → Type
  | .perform call | .backend call => call.Outcome
  | .receive _ _ => Bool × Bool
  | .noteRequest | .queueRequest | .isClosed | .close | .isFull | .isAttached | .detach
  | .submit _ => Bool
  | .beginEviction | .beginFlush => Option Pass
  | .finishBatch _ => List EntryId
  | .dropWritten _ | .newTicket => Nat
  | .withdrawRequest | .failEviction | .empty | .clearRequested | .join | .answer _ _
  | .beginWork | .finishWork => Unit
  | .await _ => Option (Except Error Nat)
  | .nextEvent => Worker.Event Task

/-- The interface of the programs of a cache. -/
abbrev Effects : Interface := ⟨Request, Reply⟩

/-! ## Steps -/

namespace Running

/-- A cache that was not started. -/
def ofConfig (c : Config) : Running :=
  { cache := .ofConfig c, retryInterval := c.retryInterval, queueCapacity := c.queueCapacity }

/-- Offers a record.  Says whether it was admitted, and whether the cache is full with it. -/
def receive (r : Running) (key : Key) (record : Record) : (Bool × Bool) × Running :=
  let (admitted, cache) := r.cache.offer key record
  ((admitted, admitted && cache.isFull), { r with cache })

/-- Notes that a pass is requested, and says whether that was noted before. -/
def noteRequest (r : Running) : Bool × Running := (r.requested, { r with requested := true })

/-- Puts a requested pass into the queue of the worker, if there is one that has room. -/
def queueRequest (r : Running) : Bool × Running :=
  if r.attached then
    match r.worker.map (Worker.trySubmit · Task.evict) with
    | some (Except.ok (), w) => (true, { r with worker := some w })
    | _ => (false, r)
  else (false, r)

def withdrawRequest (r : Running) : Running := { r with requested := false }

/-- Starts the worker, unless there is one. -/
def start (r : Running) : Except Failure Unit × Running :=
  if r.cache.closed then (.error .cacheShutDown, r)
  else if r.attached then (.ok (), r)
  else
    let worker := Worker.create r.queueCapacity (some r.retryInterval)
    (.ok (), { r with worker := some worker, attached := true })

/-- Answers a call that takes one step. -/
def perform (r : Running) : (call : Call) → call.Outcome × Running
  | .init => r.start
  | call => let (a, cache) := r.cache.perform call; (Except.ok a, { r with cache })

def withWorker (r : Running) (f : Worker Task → Worker Task) : Running :=
  { r with worker := r.worker.map f }

/-- Whether a task is queued, waits for room, or is being run. -/
def isLive (w : Worker Task) (ticket : Nat) : Bool :=
  let carries (t : Task) : Bool := t.ticket? == some ticket
  w.queue.any carries || w.waiting.any (fun c => carries c.2) ||
    match w.phase with
    | .busy (.task t) => carries t
    | _ => false

/-- Fetches the reply to a ticket, if there is one or will be none. -/
def await? (r : Running) (ticket : Nat) : Option (Option (Except Error Nat)) × Running :=
  match r.replies.find? fun p => p.1 == ticket with
  | some p => (some (some p.2), { r with replies := r.replies.filter fun p => p.1 != ticket })
  | none =>
      match r.worker with
      | some w => if isLive w ticket then (none, r) else (some none, r)
      | none => (some none, r)

/-- Submits a task to the worker, or lets the caller wait. -/
def submit? (r : Running) (caller : Nat) (task : Task) : Option Bool × Running :=
  match r.worker with
  | none => (some false, r)
  | some w =>
      match w.submit caller task with
      | (some (.ok ()), w) => (some true, { r with worker := some w })
      | (some (.error _), w) => (some false, { r with worker := some w })
      | (none, w) => (none, { r with worker := some w })

/-- What happens at a request of a caller at a time.  `none` if the caller has to
wait, as it has to for every call on the backend. -/
def reply? (caller now : Nat) (r : Running) : (q : Request) → Option (Reply q) × Running
  | .perform call => let (a, r) := r.perform call; (some a, r)
  | .receive key record => let (a, r) := r.receive key record; (some a, r)
  | .noteRequest => let (a, r) := r.noteRequest; (some a, r)
  | .queueRequest => let (a, r) := r.queueRequest; (some a, r)
  | .withdrawRequest => (some (), r.withdrawRequest)
  | .isClosed => (some r.cache.closed, r)
  | .close => let (a, cache) := r.cache.close; (some a, { r with cache })
  | .beginEviction => let (a, cache) := r.cache.beginEviction; (some a, { r with cache })
  | .beginFlush => let (a, cache) := r.cache.beginFlush; (some a, { r with cache })
  | .finishBatch batch =>
      let (a, cache) := r.cache.finishBatch batch; (some a, { r with cache })
  | .dropWritten candidates =>
      let (a, cache) := r.cache.dropWritten candidates; (some a, { r with cache })
  | .failEviction => (some (), { r with cache := r.cache.failEviction })
  | .empty => (some (), { r with cache := r.cache.empty })
  | .isFull => (some r.cache.isFull, r)
  | .clearRequested => (some (), { r with requested := false })
  | .isAttached => (some r.attached, r)
  | .detach => (some r.attached, { r.withWorker Worker.stop with attached := false })
  | .join =>
      match r.worker with
      | some w => if w.hasEnded then (some (), r) else (none, r)
      | none => (some (), r)
  | .newTicket => (some r.nextTicket, { r with nextTicket := r.nextTicket + 1 })
  | .submit task => r.submit? caller task
  | .await ticket => r.await? ticket
  | .answer ticket outcome => (some (), { r with replies := r.replies ++ [(ticket, outcome)] })
  | .beginWork =>
      match r.worker with
      | some w => (some (), { r with worker := some (w.begin now) })
      | none => (none, r)
  | .nextEvent =>
      match r.worker with
      | some w =>
          if w.hasEnded then (none, r)
          else match w.next now with
            | (some e, w) => (some e, { r with worker := some w })
            | (none, w) => (none, { r with worker := some w })
      | none => (none, r)
  | .finishWork => (some (), r.withWorker Worker.finish)
  | .backend _ => (none, r)

/-! ## Calls at once -/

/-- Requests a pass, unless one is requested. -/
def requestPass (r : Running) : Running :=
  let (requested, r) := r.noteRequest
  if requested then r
  else
    let (queued, r) := r.queueRequest
    if queued then r else r.withdrawRequest

/-- Offers a record, and requests a pass if that leaves the cache full. -/
def offer (r : Running) (key : Key) (record : Record) : Bool × Running :=
  let ((admitted, full), r) := r.receive key record
  (admitted, if full then r.requestPass else r)

/-- Offers records one after the other, and answers whether any was admitted. -/
def offerAll (r : Running) : List Entry → Bool × Running
  | [] => (false, r)
  | e :: rest =>
      let (admitted, r) := r.offer e.1 e.2
      let (others, r) := r.offerAll rest
      (admitted || others, r)

/-- What a call comes to when nothing goes on between its steps.  A shutdown is left out, and
does nothing here. -/
def serve (r : Running) : (call : Call) → call.Outcome × Running
  | .save record key => let (a, r) := r.offer key record; (Except.ok a, r)
  | .saveBatch entries => let (a, r) := r.offerAll entries; (Except.ok a, r)
  | .update record key _ => let (a, r) := r.offer key record; (Except.ok a, r)
  | call => r.perform call

end Running

end Cache

end RecordStore
