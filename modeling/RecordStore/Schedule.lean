import RecordStore.Program

/-!
# Schedules

A schedule runs several programs over one environment, one at a time.  Programs are
kept as *processes* with numbers.

* A process runs until its program has ended, or until the environment has no reply
  to its request.  Then the process is *parked*, and the next one in line runs.
* After every reply, each parked process whose request has a reply by now goes to the
  end of the line, the one parked first going first.  It makes its request again when
  it runs.
* A program ends with a result, or with the wish to start over.

So the order of everything is fixed by the programs and the environment.
`Schedule.step?` is one request, and `Schedule.settle` goes on until nobody is in
line.  The number of requests is bounded, since programs that start over need not
come to an end.

The environment is told who asks.  A request without a reply may still change it, so
that the environment can keep those who wait in a line of its own.
-/

namespace RecordStore

/-- How a program of a process ends. -/
inductive Ending (ρ : Type) where
  /-- The process has a result. -/
  | result (r : ρ)
  /-- The process starts over. -/
  | again

/-- A program that may start over. -/
structure Process (I : Interface) (ρ : Type) where
  /-- The number of the process. -/
  number : Nat
  left : Program I (Ending ρ)
  /-- The program that the process starts over with. -/
  body : Program I (Ending ρ)

/-- What replies to the requests of processes. -/
structure Environment (I : Interface) (σ : Type) where
  /-- The reply to a process, if there is one yet, and the state after it. -/
  reply? : Nat → (r : I.Request) → σ → Option (I.Reply r) × σ

/-- Processes over an environment. -/
structure Schedule (I : Interface) (σ ρ : Type) where
  /-- The state of the environment. -/
  state : σ
  /-- The processes in line, the next one first. -/
  line : List (Process I ρ) := []
  /-- The processes that wait for a reply, the one parked first first. -/
  parked : List (Process I ρ) := []
  /-- The results, with the numbers of their processes, the oldest first. -/
  results : List (Nat × ρ) := []

namespace Process

variable {I : Interface} {σ ρ : Type}

/-- A process that runs a program once. -/
def once (number : Nat) (p : Program I ρ) : Process I ρ :=
  let p := p.bind fun r => .done (.result r)
  { number, left := p, body := p }

/-- Whether the environment has a reply to what the process asks, or needs none. -/
def canRun (env : Environment I σ) (state : σ) (p : Process I ρ) : Bool :=
  match p.left with
  | .done _ => true
  | .ask r _ => (env.reply? p.number r state).1.isSome

end Process

namespace Schedule

variable {I : Interface} {σ ρ : Type}

/-- Puts a process at the end of the line. -/
def add (s : Schedule I σ ρ) (p : Process I ρ) : Schedule I σ ρ :=
  { s with line := s.line ++ [p] }

/-- Puts the parked processes that can go on at the end of the line. -/
def wake (env : Environment I σ) (s : Schedule I σ ρ) : Schedule I σ ρ :=
  { s with
    line := s.line ++ s.parked.filter fun p => p.canRun env s.state
    parked := s.parked.filter fun p => !p.canRun env s.state }

def change (env : Environment I σ) (s : Schedule I σ ρ) (f : σ → σ) : Schedule I σ ρ :=
  wake env { s with state := f s.state }

/-- Lets the first process in line make one request, or end. -/
def step? (env : Environment I σ) (s : Schedule I σ ρ) : Option (Schedule I σ ρ) :=
  match s.line with
  | [] => none
  | p :: rest =>
      match p.left with
      | .done (.result r) => some { s with line := rest, results := s.results ++ [(p.number, r)] }
      | .done .again => some { s with line := { p with left := p.body } :: rest }
      | .ask r next =>
          match env.reply? p.number r s.state with
          | (some reply, state) =>
              some (wake env { s with state, line := { p with left := next reply } :: rest })
          | (none, state) => some { s with state, line := rest, parked := s.parked ++ [p] }

/-- Runs until nobody is in line, with a bound on the requests. -/
def settle (env : Environment I σ) : Nat → Schedule I σ ρ → Schedule I σ ρ
  | 0, s => s
  | n + 1, s =>
      match s.step? env with
      | some s => settle env n s
      | none => s

end Schedule

end RecordStore
