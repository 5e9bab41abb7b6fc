import RecordStore.Cache.Running

/-!
# What a cache does for its callers

The operations of a running cache that take more than one step, as programs.

* An admission that leaves the cache full requests a pass, unless one is requested.
* An eviction pass writes the oldest entries to the backend and drops those that
  stayed as they were.  A flush writes every entry and drops none.  Both end their
  batch in the same way: what was deleted meanwhile is deleted from the backend, even
  if the write failed.  Of two failures the write's counts.
* `evict` hands a pass to the worker and waits for its outcome.  A cache without a
  worker runs the pass in the caller's place.
* `waitForEvictions` waits until the tasks that are queued now have run.
* `shutdown` closes the cache, stops the worker, flushes what is left, and empties the
  cache if that succeeded.  A second shutdown does nothing and succeeds.
* `work` is one round of the worker: it waits for an event and deals with it.

The name of the backend appears in the wording of a refused batch.
-/

namespace RecordStore

namespace Cache

namespace Service

abbrev Prog (α : Type) := Program Effects α

def ask (q : Request) : Prog (Reply q) := Program.ask q .done

/-! ## Admissions -/

/-- Requests a pass, unless one is requested. -/
def requestPass : Prog Unit := do
  if ← ask .noteRequest then return ()
  if ← ask .queueRequest then return ()
  ask .withdrawRequest

/-- Offers a record, and requests a pass if that leaves the cache full. -/
def offer (key : Key) (record : Record) : Prog Bool := do
  let (admitted, full) ← ask (.receive key record)
  if full then requestPass
  return admitted

/-- Offers records one after the other, and answers whether any was admitted. -/
def offerAll : List Entry → Prog Bool
  | [] => return false
  | e :: rest => do
      let admitted ← offer e.1 e.2
      let others ← offerAll rest
      return admitted || others

/-! ## Passes -/

/-- Writes the entries of a pass to the backend. -/
def save (backendName : String) (entries : List Entry) : Prog (Except Failure Unit) := do
  match ← ask (.backend (.saveBatch entries)) with
  | .error e => return .error e
  | .ok accepted => return if accepted then .ok () else .error (.batchRefused backendName)

/-- Writes a pass to the backend, and deletes there what was deleted meanwhile. -/
def writeBatch (backendName : String) (p : Pass) : Prog (Except Failure Unit) := do
  let written ← save backendName p.entries
  let deleted ← ask (.finishBatch p.batch)
  if deleted.isEmpty then return written
  let redeleted ← ask (.backend (.deleteBatch deleted))
  match written with
  | .error e => return .error e
  | .ok () => return redeleted

/-- Runs an eviction pass, and gives the number of entries removed. -/
def evictOldest (backendName : String) : Prog (Except Error Nat) := do
  match ← ask .beginEviction with
  | none => return .ok 0
  | some p =>
      match ← writeBatch backendName p with
      | .error e =>
          ask .failEviction
          return .error (.flush p.size e)
      | .ok () =>
          let removed ← ask (.dropWritten p.candidates)
          return .ok removed

/-- Writes every entry, and gives their number. -/
def flushAll (backendName : String) : Prog (Except Error Nat) := do
  match ← ask .beginFlush with
  | none => return .ok 0
  | some p =>
      match ← writeBatch backendName p with
      | .error e => return .error (.flush p.size e)
      | .ok () => return .ok p.size

/-! ## Operations -/

/-- Writes every entry, unless the cache is closed. -/
def writeAll (backendName : String) : Prog (Except Error Nat) := do
  if ← ask .isClosed then return .error .shutDown
  flushAll backendName

/-- Has a pass run, and gives its outcome. -/
def evict (backendName : String) : Prog (Except Error Nat) := do
  if ← ask .isClosed then return .error .shutDown
  if !(← ask .isAttached) then
    evictOldest backendName
  else
    let ticket ← ask .newTicket
    if ← ask (.submit (.evictFor ticket)) then
      return (← ask (.await ticket)).getD (.error .shutDown)
    else return .error .shutDown

/-- Waits until the tasks that are queued now have run. -/
def waitForEvictions : Prog Unit := do
  if ← ask .isAttached then
    let ticket ← ask .newTicket
    if ← ask (.submit (.mark ticket)) then
      let _ ← ask (.await ticket)

/-- The failure that an error of a flush is to the outside. -/
def failureOf : Error → Failure
  | .flush count cause => .flush count cause
  | .shutDown => .cacheShutDown

def shutdown (backendName : String) : Prog (Except Failure Unit) := do
  if ← ask .close then return .ok ()
  if ← ask .detach then
    ask .join
  match ← flushAll backendName with
  | .error e => return .error (failureOf e)
  | .ok _ =>
      ask .empty
      return .ok ()

/-- Answers a call on the cache. -/
def serve (backendName : String) : (call : Call) → Prog call.Outcome
  | .shutdown => shutdown backendName
  | .save record key => do return .ok (← offer key record)
  | .saveBatch entries => do return .ok (← offerAll entries)
  | .update record key _ => do return .ok (← offer key record)
  | call => ask (.perform call)

/-! ## The worker -/

def runTask (backendName : String) : Task → Prog Unit
  | .evict => do
      ask .clearRequested
      let _ ← evictOldest backendName
  | .evictFor ticket => do
      let outcome ← evictOldest backendName
      ask (.answer ticket outcome)
  | .mark ticket => ask (.answer ticket (.ok 0))

/-- Deals with an event.  Answers whether the worker goes on. -/
def handle (backendName : String) : Worker.Event Task → Prog Bool
  | .task t => do
      runTask backendName t
      return true
  | .tick => do
      if ← ask .isFull then
        let _ ← evictOldest backendName
      return true
  | .stop => do
      ask .finishWork
      return false

/-- One round of the worker.  Answers whether there is another. -/
def work (backendName : String) : Prog Bool := do
  handle backendName (← ask .nextEvent)

end Service

end Cache

end RecordStore
