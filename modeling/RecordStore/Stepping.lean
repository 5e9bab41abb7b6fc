import RecordStore.Schedule

/-!
# Running step by step

A schedule is driven from outside by steps.  Each step starts something, and then
everything that can run does, until nothing can go on without a later step.

Steps are numbered like processes.  A step that starts a process uses its own number for
it, and the result of that process is the value of the step.  A step whose value is not
there yet is *pending*.  The step during which the value does come tells it as a late
one.

Processes that belong to no step have numbers below that of the first step.
-/

namespace RecordStore

/-- What is told about a step. -/
structure Report (σ ρ : Type) where
  /-- The value, unless the step is pending. -/
  value : Option ρ
  /-- The lines written. -/
  events : List String
  /-- The earlier steps that have come to an end, counted from zero, with their values. -/
  late : List (Nat × ρ)
  /-- The state after the step. -/
  state : σ

/-- What is driven by steps. -/
structure Driven (I : Interface) (σ ρ α : Type) where
  /-- What replies to the processes. -/
  environment : Environment I σ
  /-- What a step with a number starts. -/
  start : Nat → α → Schedule I σ ρ → Schedule I σ ρ
  /-- The lines written since they were last taken, and the state without them. -/
  takeLog : σ → List String × σ

namespace Driven

variable {I : Interface} {σ ρ α : Type}

/-- A bound on the requests between two steps.  It is there so that the run ends, and is
too high to be reached. -/
def patience : Nat := 1000000000

/-- Runs everything that can run. -/
def settle (d : Driven I σ ρ α) (s : Schedule I σ ρ) : Schedule I σ ρ :=
  s.settle d.environment patience

/-- The results of other steps than one, in the order of the steps.  The first step of
all has a number. -/
def late (first number : Nat) (results : List (Nat × ρ)) : List (Nat × ρ) :=
  let others := results.filter fun r => first ≤ r.1 && r.1 != number
  (others.mergeSort fun a b => a.1 ≤ b.1).map fun r => (r.1 - first, r.2)

/-- Runs steps.  The first step of all has a number, and so has the next one. -/
def runFrom (d : Driven I σ ρ α) (first number : Nat) (s : Schedule I σ ρ) :
    List α → List (Report σ ρ)
  | [] => []
  | step :: rest =>
      let s := d.settle (d.start number step s)
      let (events, state) := d.takeLog s.state
      let report : Report σ ρ :=
        { value := (s.results.find? fun r => r.1 == number).map (·.2)
          events
          late := late first number s.results
          state }
      report :: runFrom d first (number + 1) { s with state, results := [] } rest

/-- Runs steps.  The first one has a number. -/
def run (d : Driven I σ ρ α) (first : Nat) (s : Schedule I σ ρ) (steps : List α) :
    List (Report σ ρ) :=
  d.runFrom first first s steps

end Driven

end RecordStore
