import RecordStore.Bench.Script
import RecordStore.Cache.Running
import RecordStore.Listener.Text
import RecordStore.Memory
import RecordStore.Schedule

/-!
# The world of a bench

A bench holds components, numbered from zero, each with a probe before it, and a store
over some of them.  Time stands still, unless it is moved.  Whatever reaches a probe or
a listener is written into a log.

`World.reply?` says what happens at a request of a process.  A process that waits for a
permit, for room in a queue, or for a worker, has no reply for the time being.

Workers whose ticks are due go on in the order of their due times.  Among ticks due at
the same time, the one that has been waited for the longest goes first.  The world
remembers the order in which workers began to wait for their ticks.
-/

namespace RecordStore

namespace Bench

/-- A component of a bench. -/
inductive Component where
  /-- Tables in memory. -/
  | memory (m : Memory)
  /-- A component that keeps nothing. -/
  | null
  /-- A cache, with the number of its backend. -/
  | cache (r : Cache.Running) (backend : Nat)

namespace Component

def cacheName : String := "write-back-cache"

def name : Component → String
  | memory m => m.name
  | null => "null"
  | cache _ _ => cacheName

def len : Component → Nat
  | memory m => m.len
  | null => 0
  | cache r _ => r.cache.len

def figures : Component → List Nat
  | memory m => [m.len, m.reads.toNat, m.writes.toNat, m.batchWrites.toNat]
  | null => []
  | cache r _ =>
      let c := r.cache.counters
      r.cache.len :: [c.hits, c.misses, c.admissions, c.rejections, c.evicted,
        c.failedEvictions].map UInt64.toNat

/-- When the worker of a component has its next tick. -/
def due? : Component → Option Nat
  | cache r _ => r.worker.bind fun w => if w.hasEnded then none else w.period.map fun _ => w.due
  | _ => none

end Component

/-- A component with its probe. -/
structure Node where
  component : Component
  probe : Probe := {}

/-- Everything on a bench. -/
structure World where
  /-- The components, by their numbers. -/
  nodes : List Node
  /-- The listeners of the store. -/
  listeners : Listener := .group []
  storeIsOpen : Bool := true
  now : Nat := 0
  /-- The lines written since the log was last read, the newest first. -/
  log : List String := []
  /-- The workers that wait for a tick, the one that waits the longest first. -/
  tickers : List Nat := []

/-! ## Requests -/

/-- What processes on a bench ask. -/
inductive Request where
  | log (line : String)
  /-- Whether a probe holds a method back, before the call or after it. -/
  | isGated (node : Nat) (after : Bool) (method : String)
  | permit (node : Nat)
  /-- Decide whether a call fails. -/
  | takeFailure (node : Nat) (method : String)
  /-- Whether a probe refuses writes. -/
  | isRejecting (node : Nat)
  | change (node : Nat) (c : ScriptChange)
  | release (node count : Nat)
  /-- Call a component that is no cache. -/
  | call (node : Nat) (call : Call)
  | cache (node : Nat) (q : Cache.Request)
  | look (node : Nat)
  | isOpen
  /-- Close the store, and say whether it was open. -/
  | close
  | notify (n : Notice)

abbrev Reply : Request → Type
  | .log _ | .permit _ | .change _ _ | .release _ _ | .notify _ => Unit
  | .isGated _ _ _ | .isRejecting _ | .isOpen | .close => Bool
  | .takeFailure _ _ => Option Failure
  | .call _ call => call.Outcome
  | .cache _ q => Cache.Reply q
  | .look _ => Component

abbrev Effects : Interface := ⟨Request, Reply⟩

abbrev Prog (α : Type) := Program Effects α

def ask (q : Request) : Prog (Reply q) := Program.ask q .done

namespace World

/-! ## Nodes -/

/-- The node of a number.  A number that is not in use stands for nothing. -/
def node (w : World) (n : Nat) : Node := w.nodes.getD n { component := .null }

def script (w : World) (n : Nat) : Script := (w.node n).probe.script

def setNode (w : World) (n : Nat) (node : Node) : World :=
  { w with nodes := w.nodes.set n node }

def setComponent (w : World) (n : Nat) (component : Component) : World :=
  w.setNode n { w.node n with component }

def setProbe (w : World) (n : Nat) (probe : Probe) : World :=
  w.setNode n { w.node n with probe }

def figures (w : World) : List (List Nat) := w.nodes.map fun n => n.component.figures

/-- Writes lines into the log, the first one first. -/
def write (w : World) (lines : List String) : World :=
  { w with log := lines.reverse ++ w.log }

/-! ## Replies -/

/-- Calls a component that is no cache. -/
def perform (w : World) (n : Nat) (call : Call) : call.Outcome × World :=
  match (w.node n).component with
  | .memory m =>
      let (answer, m) := m.perform call
      (.ok answer, w.setComponent n (.memory m))
  | _ => (.ok call.discard, w)

/-- Keeps account of the workers that wait for a tick. -/
def keepTicker (w : World) (n : Nat) : (q : Cache.Request) → Option (Cache.Reply q) → World
  | .nextEvent, none => { w with tickers := if n ∈ w.tickers then w.tickers else w.tickers ++ [n] }
  | .nextEvent, some .tick => { w with tickers := w.tickers.erase n }
  | _, _ => w

def askCache (w : World) (caller n : Nat) (q : Cache.Request) :
    Option (Cache.Reply q) × World :=
  match (w.node n).component with
  | .cache r backend =>
      let (reply, r) := r.reply? caller w.now q
      (reply, (w.setComponent n (.cache r backend)).keepTicker n q reply)
  | _ => (none, w)

/-- What happens at a request of a process. -/
def reply? (caller : Nat) : (q : Request) → World → Option (Reply q) × World
  | .log line, w => (some (), w.write [line])
  | .isGated n after method, w =>
      let s := w.script n
      (some ((if after then s.gateAfter else s.gate).contains method), w)
  | .permit n, w =>
      let probe := (w.node n).probe
      let (served, permits) := probe.permits.take caller
      (if served then some () else none, w.setProbe n { probe with permits })
  | .takeFailure n method, w =>
      let probe := (w.node n).probe
      let (failure, script) := probe.script.takeFailure method
      (some failure, w.setProbe n { probe with script })
  | .isRejecting n, w => (some (w.script n).reject, w)
  | .change n c, w =>
      let probe := (w.node n).probe
      (some (), w.setProbe n { probe with script := probe.script.apply c })
  | .release n count, w =>
      let probe := (w.node n).probe
      (some (), w.setProbe n { probe with permits := probe.permits.release count })
  | .call n call, w =>
      let (outcome, w) := w.perform n call
      (some outcome, w)
  | .cache n q, w => w.askCache caller n q
  | .look n, w => (some (w.node n).component, w)
  | .isOpen, w => (some w.storeIsOpen, w)
  | .close, w => (some w.storeIsOpen, { w with storeIsOpen := false })
  | .notify n, w => (some (), w.write ((w.listeners.notify n).map Delivery.text))

/-- A bench as an environment of processes. -/
def environment : Environment Effects World := ⟨reply?⟩

/-! ## Time -/

/-- The workers whose ticks are due by a time, in the order in which they go on. -/
def dueBy (w : World) (time : Nat) : List Nat :=
  let due := w.tickers.filterMap fun n => ((w.node n).component.due?).map fun d => (d, n)
  ((due.filter fun p => p.1 ≤ time).mergeSort fun p q => p.1 ≤ q.1).map (·.2)

end World

end Bench

end RecordStore
