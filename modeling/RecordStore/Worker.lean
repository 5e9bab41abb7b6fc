/-!
# Background workers

A worker takes tasks from a bounded queue and runs them one at a time, in the order
in which they were accepted.  It may also have a tick, an event that comes round
after a fixed period.

* A task is accepted while the queue has room.  `trySubmit` refuses it otherwise,
  and `submit` lets the caller wait.  Room that comes free belongs to the callers
  that wait, the first come first, so nobody overtakes them.
* The first period begins when the worker begins.  A tick that is taken up more than
  five milliseconds late starts a full period from then on.  Any other keeps to its
  due time.
* The request to stop is an event like the others, so the worker ends its task first.
  When it takes the request up, tasks left in the queue are dropped, and every later
  one is refused.
* A worker with a period of zero ends as soon as it begins, since such a tick would
  never pause.  Its owner is not told.

Callers are numbers, and times are milliseconds.  What a task does is not said here:
`Worker.ready` lists the events that the worker could go on with, and `Worker.take`
goes on with one of them.  `Worker.next` takes the first of the list.  The worker is
busy with the event until it takes up another.
-/

namespace RecordStore

namespace Worker

/-- Why a task was not accepted. -/
inductive SubmitError where
  /-- The queue has no room. -/
  | full
  /-- The worker has ended. -/
  | stopped
  deriving DecidableEq

def SubmitError.message : SubmitError → String
  | full => "worker queue is full"
  | stopped => "worker is not running"

/-- What a worker goes on with. -/
inductive Event (τ : Type) where
  /-- A task from the queue. -/
  | task (t : τ)
  | tick
  /-- The request to stop. -/
  | stop
  deriving DecidableEq

/-- What a worker is doing. -/
inductive Phase (τ : Type) where
  | fresh
  | idle
  | busy (e : Event τ)
  | ended
  deriving DecidableEq

end Worker

/-- A worker and its queue. -/
structure Worker (τ : Type) where
  /-- The bound of the queue, one at least. -/
  capacity : Nat
  /-- The period of the tick. -/
  period : Option Nat
  /-- The accepted tasks that have not begun, the oldest first. -/
  queue : List τ := []
  /-- The callers that wait for room, each with its task, the first come first. -/
  waiting : List (Nat × τ) := []
  /-- What the worker is doing. -/
  phase : Worker.Phase τ := .fresh
  /-- The time of the next tick. -/
  due : Nat := 0
  /-- Whether the worker was asked to stop. -/
  stopping : Bool := false

namespace Worker

variable {τ : Type}

/-- A worker that has not begun. -/
def create (capacity : Nat) (period : Option Nat) : Worker τ :=
  { capacity := max 1 capacity, period }

def hasEnded (w : Worker τ) : Bool :=
  match w.phase with
  | .ended => true
  | _ => false

/-- The room in the queue, callers that wait not counted. -/
def room (w : Worker τ) : Nat := w.capacity - w.queue.length

/-! ## Submitting -/

def trySubmit (w : Worker τ) (t : τ) : Except SubmitError Unit × Worker τ :=
  if w.hasEnded then (.error .stopped, w)
  else if w.waiting.length < w.room then (.ok (), { w with queue := w.queue ++ [t] })
  else (.error .full, w)

/-- The place of a caller in the line for room.  A newcomer stands behind everyone. -/
def place (w : Worker τ) (caller : Nat) : Nat :=
  w.waiting.findIdx fun c => c.1 == caller

/-- The worker without a caller in the line. -/
def leaveLine (w : Worker τ) (caller : Nat) : Worker τ :=
  { w with waiting := w.waiting.filter fun c => c.1 != caller }

/-- Submits a task, or lets the caller wait.  A caller that waits asks again, and is
answered by `none` as long as it has to wait. -/
def submit (w : Worker τ) (caller : Nat) (t : τ) :
    Option (Except SubmitError Unit) × Worker τ :=
  if w.hasEnded then (some (.error .stopped), w.leaveLine caller)
  else if w.place caller < w.room then
    let w := w.leaveLine caller
    (some (.ok ()), { w with queue := w.queue ++ [t] })
  else if w.place caller < w.waiting.length then (none, w)
  else (none, { w with waiting := w.waiting ++ [(caller, t)] })

/-! ## Running -/

/-- The tick after one that was due and is taken up now. -/
def nextDue (due now period : Nat) : Nat :=
  if now ≤ due + 5 then due + period else now + period

/-- Ends the worker.  Its queue is dropped. -/
def finish (w : Worker τ) : Worker τ := { w with phase := .ended, queue := [] }

/-- Begins to run.  A worker with a period of zero ends at once. -/
def begin (w : Worker τ) (now : Nat) : Worker τ :=
  match w.period with
  | none => { w with phase := .idle }
  | some 0 => w.finish
  | some period => { w with phase := .idle, due := now + period }

def tickIsDue (w : Worker τ) (now : Nat) : Bool :=
  w.period.isSome && w.due ≤ now

/-- The events that the worker could take up. -/
def ready (w : Worker τ) (now : Nat) : List (Event τ) :=
  w.queue.head?.toList.map .task ++ (if w.tickIsDue now then [.tick] else []) ++
    (if w.stopping then [.stop] else [])

/-- Ends what the worker was doing, and takes up a ready event. -/
def take (w : Worker τ) (now : Nat) (e : Event τ) : Worker τ :=
  let w := { w with phase := .busy e }
  match e with
  | .task _ => { w with queue := w.queue.tail }
  | .tick => { w with due := nextDue w.due now (w.period.getD 0) }
  | .stop => w

/-- Ends what the worker was doing, and takes up the first ready event.  A task comes
before a tick, and a tick before the request to stop.  `none` if no event is ready. -/
def next (w : Worker τ) (now : Nat) : Option (Event τ) × Worker τ :=
  match w.ready now with
  | e :: _ => (some e, w.take now e)
  | [] => (none, { w with phase := .idle })

def stop (w : Worker τ) : Worker τ := { w with stopping := true }

/-! ## Tests -/

/-- A worker with room for one task, a full queue and a caller that waits. -/
def sample : Worker Nat :=
  let w := (create 0 (some 20)).begin 0
  ((w.trySubmit 1).2.submit 7 2).2

example : (sample.trySubmit 3).1.toOption = none ∧ sample.waiting.length = 1 := by decide
example : ((sample.next 0).2.trySubmit 3).1.toOption = none := by decide
example : ((sample.next 0).2.submit 7 2).2.queue = [2] := by decide
example : nextDue 20 25 20 = 40 ∧ nextDue 20 26 20 = 46 := by decide
example : ((create 8 (some 0) : Worker Nat).begin 0).hasEnded = true := by decide

end Worker

end RecordStore
