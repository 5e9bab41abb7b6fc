import RecordStore.Bench.Step
import RecordStore.Stepping

/-!
# Running a bench

The steps on a bench are started one after the other.  A step on a component or on the
store is a process.  A step that lets time pass moves the time in one jump, and puts the
workers whose ticks are due in line.

The workers of caches are processes too.  They are there from the beginning, and wait
until their caches are started.
-/

namespace RecordStore

namespace Bench

/-- The processes of a bench. -/
abbrev Processes := Schedule Effects World Value

/-! ## Workers -/

/-- One round of the worker of a cache. -/
def round (n : Nat) (a : Access) : Prog (Ending Value) := do
  let goesOn ← onCache n a.backend (Cache.Service.work a.backendName)
  return if goesOn then .again else .result .unit

/-- The worker of a cache. -/
def workerProcess (n : Nat) (a : Access) : Process Effects Value where
  number := n
  left := do
    ask (.cache n .beginWork)
    round n a
  body := round n a

/-- The processes at the beginning: a worker for every component, which only those of
caches ever use. -/
def Setup.processes (s : Setup) : Processes where
  state := s.world
  parked := s.accesses.zipIdx.map fun p => workerProcess p.2 p.1

/-! ## Steps -/

/-- Puts a parked worker that can go on at the end of the line. -/
def wakeWorker (s : Processes) (n : Nat) : Processes :=
  let goes (p : Process Effects Value) : Bool :=
    p.number == n && p.canRun World.environment s.state
  { s with line := s.line ++ s.parked.filter goes, parked := s.parked.filter fun p => !goes p }

def advance (s : Processes) (ms : Nat) : Processes :=
  let time := s.state.now + ms
  let due := s.state.dueBy time
  due.foldl wakeWorker { s with state := { s.state with now := time } }

def start (setup : Setup) (number : Nat) (step : Step) (s : Processes) : Processes :=
  match step with
  | .advance ms =>
      let s := advance s ms
      { s with results := s.results ++ [(number, .unit)] }
  | .node n step => s.add (.once number (step.program n (setup.accesses.getD n .none)))
  | .store step => s.add (.once number (setup.onStore (step.operation setup.layout)))

/-- A bench, driven by its steps. -/
def Setup.driven (setup : Setup) : Driven Effects World Value Step where
  environment := World.environment
  start := start setup
  takeLog w := (w.log.reverse, { w with log := [] })

def run (setup : Setup) (steps : List Step) : List (Report World Value) :=
  setup.driven.run setup.parts.length setup.processes steps

end Bench

end RecordStore
