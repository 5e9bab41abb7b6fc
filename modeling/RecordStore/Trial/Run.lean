import RecordStore.Stepping
import RecordStore.Trial.World

/-!
# Running a trial

A task tells that it runs.  A task whose name begins with "gate" then waits for a permit
and tells that it ends.  A task whose name begins with "panic" breaks the worker: it ends
at once, without shutting down.

The worker tells its ticks, and that it shuts down, unless it is a *plain* one.

Each step of a trial is a process, except for the one that lets time pass.  That one moves
the time in one jump.  The worker is a process with the number zero, and steps are
numbered from one.  Usually the worker begins before the first step.
-/

namespace RecordStore

/-- What is tried. -/
structure Trial where
  name : String
  /-- The bound of the queue that is asked for. -/
  capacity : Nat
  /-- The period of the tick. -/
  period : Option Nat := none
  /-- Whether the worker does nothing at ticks and when it shuts down. -/
  plain : Bool := false
  /-- Whether the worker begins before the first step. -/
  settled : Bool := true

namespace Trial

/-- What is done in a trial. -/
inductive Action where
  | release (count : Nat)
  | submit (task : String)
  /-- Submit tasks one after the other, without waiting. -/
  | burst (tasks : List String)
  /-- Stop the worker. -/
  | stop
  /-- Whether the worker was not stopped. -/
  | isRunning
  | name
  /-- Take a handle.  Tells whether there was one. -/
  | hold
  /-- Send a task through the handle.  Tells whether it was accepted. -/
  | sendHeld (task : String)
  /-- Drop the handle. -/
  | dropHeld

/-- A step of a trial. -/
inductive Step where
  | advance (ms : Nat)
  | act (a : Action)

/-- What a step ends with. -/
inductive Value where
  | unit
  | bool (b : Bool)
  | text (s : String)
  /-- Whether a task was accepted. -/
  | submission (s : Submission)
  /-- Whether each of several tasks was accepted. -/
  | submissions (ss : List Submission)

/-- The processes of a trial. -/
abbrev Processes := Schedule Effects World Value

/-! ## The worker -/

/-- Writes a line into the log, unless the worker is plain. -/
def tell (plain : Bool) (line : String) : Prog Unit :=
  if plain then return () else ask (.log line)

/-- Runs a task.  Answers whether the worker goes on. -/
def runTask (task : String) : Prog Bool := do
  ask (.log ("run " ++ task))
  if task.startsWith "gate" then
    ask .permit
    ask (.log ("end " ++ task))
    return true
  else return !task.startsWith "panic"

/-- Deals with an event.  Answers whether the worker goes on. -/
def handle (plain : Bool) : Worker.Event String → Prog Bool
  | .task task => runTask task
  | .tick => do
      tell plain "tick"
      return true
  | .stop => do
      tell plain "shutdown"
      return false

/-- One round of the worker. -/
def round (plain : Bool) : Prog (Ending Value) := do
  if ← handle plain (← ask .nextEvent) then return .again
  ask .finishWork
  return .result .unit

def workerProcess (plain : Bool) : Process Effects Value where
  number := 0
  left := do
    ask .beginWork
    round plain
  body := round plain

/-! ## Steps -/

def submit (task : String) : Prog Submission := do
  if ← ask .isAttached then ask (.submit task) else return .error .stopped

/-- Submits a task for the owner, without waiting. -/
def trySubmit (task : String) : Prog Submission := do
  if ← ask .isAttached then ask (.trySubmit task) else return .error .stopped

/-- Takes a handle, and answers whether there is one. -/
def hold : Prog Bool := do
  let attached ← ask .isAttached
  ask (.setHandle attached)
  return attached

/-- Sends a task through the handle, and answers whether it was accepted. -/
def send (task : String) : Prog Bool := do
  if ← ask .hasHandle then return (← ask (.submit task)).toBool else return false

/-- Acts for the owner. -/
def owned {α : Type} (mode : Lock.Mode) (p : Prog α) : Prog α := do
  ask (.enter mode)
  let a ← p
  ask (.leave mode)
  return a

def Action.program (t : Trial) : Action → Prog Value
  | release count => do ask (.release count); return .unit
  | submit task => do return .submission (← owned .shared (Trial.submit task))
  | burst tasks => do return .submissions (← owned .shared (tasks.mapM trySubmit))
  | stop => do
      owned .alone do
        ask .detach
        ask .join
      return .unit
  | isRunning => do return .bool (← owned .shared (ask .isAttached))
  | name => do return .text (← owned .shared (return t.name))
  | hold => do return .bool (← owned .shared Trial.hold)
  | sendHeld task => do return .bool (← send task)
  | dropHeld => do ask (.setHandle false); return .unit

def advance (s : Processes) (ms : Nat) : Processes :=
  s.change World.environment fun w => { w with now := w.now + ms }

def start (t : Trial) (number : Nat) (step : Step) (s : Processes) : Processes :=
  match step with
  | .advance ms =>
      let s := advance s ms
      { s with results := s.results ++ [(number, .unit)] }
  | .act a => s.add (.once number (a.program t))

def driven (t : Trial) : Driven Effects World Value Step where
  environment := World.environment
  start := start t
  takeLog w := (w.log.reverse, { w with log := [] })

/-- The processes at the beginning. -/
def processes (t : Trial) : Processes :=
  let s : Processes :=
    { state := { worker := .create t.capacity t.period }, line := [workerProcess t.plain] }
  if t.settled then t.driven.settle s else s

def run (t : Trial) (steps : List Step) : List (Report World Value) :=
  t.driven.run 1 t.processes steps

end Trial

end RecordStore
