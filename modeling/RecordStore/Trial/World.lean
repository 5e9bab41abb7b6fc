import RecordStore.Lock
import RecordStore.Permits
import RecordStore.Schedule
import RecordStore.Worker

/-!
# The world of a trial

A trial has one worker, whose tasks are texts, and nothing else.  What the worker does
is written into a log.  Time stands still, unless it is moved.

The *owner* of the worker can ask it to stop, and gives it up with that.  Several callers
act for the owner.  Those that leave the worker in its place share a lock, and the one
that stops it takes the lock alone.

Besides, the owner may hand out a *handle*.  Tasks sent through the handle go into the
same queue, whether or not the owner has given the worker up.
-/

namespace RecordStore

namespace Trial

/-- Everything in a trial. -/
structure World where
  worker : Worker String
  attached : Bool := true
  hasHandle : Bool := false
  lock : Lock := {}
  permits : Permits := {}
  now : Nat := 0
  /-- The lines written since the log was last read, the newest first. -/
  log : List String := []

/-- What processes in a trial ask. -/
inductive Request where
  | log (line : String)
  /-- Take a permit. -/
  | permit
  | release (count : Nat)
  | enter (mode : Lock.Mode)
  | leave (mode : Lock.Mode)
  | isAttached
  | trySubmit (task : String)
  | submit (task : String)
  /-- Ask the worker to stop and give it up. -/
  | detach
  | join
  /-- Have a handle or none. -/
  | setHandle (present : Bool)
  | hasHandle
  | beginWork
  /-- Wait for the next event of the worker. -/
  | nextEvent
  /-- The worker has ended. -/
  | finishWork

/-- Whether a task was accepted. -/
abbrev Submission := Except Worker.SubmitError Unit

abbrev Reply : Request → Type
  | .log _ | .permit | .release _ | .enter _ | .leave _ | .detach | .join | .setHandle _
  | .beginWork | .finishWork => Unit
  | .isAttached | .hasHandle => Bool
  | .trySubmit _ | .submit _ => Submission
  | .nextEvent => Worker.Event String

abbrev Effects : Interface := ⟨Request, Reply⟩

abbrev Prog (α : Type) := Program Effects α

def ask (q : Request) : Prog (Reply q) := Program.ask q .done

namespace World

/-- What happens at a request of a process. -/
def reply? (caller : Nat) : (q : Request) → World → Option (Reply q) × World
  | .log line, w => (some (), { w with log := line :: w.log })
  | .permit, w =>
      let (served, permits) := w.permits.take caller
      (if served then some () else none, { w with permits })
  | .release count, w => (some (), { w with permits := w.permits.release count })
  | .enter mode, w =>
      let (served, lock) := w.lock.enter caller mode
      (if served then some () else none, { w with lock })
  | .leave mode, w => (some (), { w with lock := w.lock.leave mode })
  | .isAttached, w => (some w.attached, w)
  | .trySubmit task, w =>
      let (answer, worker) := w.worker.trySubmit task
      (some answer, { w with worker })
  | .submit task, w =>
      let (answer, worker) := w.worker.submit caller task
      (answer, { w with worker })
  | .detach, w => (some (), { w with worker := w.worker.stop, attached := false })
  | .join, w => (if w.worker.hasEnded then some () else none, w)
  | .setHandle present, w => (some (), { w with hasHandle := present })
  | .hasHandle, w => (some w.hasHandle, w)
  | .beginWork, w => (some (), { w with worker := w.worker.begin w.now })
  | .nextEvent, w =>
      if w.worker.hasEnded then (none, w)
      else
        let (event, worker) := w.worker.next w.now
        (event, { w with worker })
  | .finishWork, w => (some (), { w with worker := w.worker.finish })

/-- A trial as an environment of processes. -/
def environment : Environment Effects World := ⟨reply?⟩

end World

end Trial

end RecordStore
