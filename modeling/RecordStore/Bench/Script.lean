import RecordStore.Failure
import RecordStore.Permits

/-!
# Scripts for probes

A *probe* stands between a component and those who call it.  Its script says what it
does to a call, by the name of the call's method.

* `gate`: the call waits for a permit before it reaches the component.
* `fail`: the call fails instead of reaching the component.  The number of such
  failures may be bounded.  The failure has a message, and a context around it if one
  is set.
* `reject`: a write is refused instead of reaching the component.
* `gateAfter`: the call waits for a permit after the component has answered.

A script can be changed at any time.  A change names the parts it replaces.
-/

namespace RecordStore

namespace Bench

/-- What a probe does to calls. -/
structure Script where
  /-- The methods that wait before the component is called. -/
  gate : List String := []
  /-- The methods that wait after the component has answered. -/
  gateAfter : List String := []
  /-- The methods that fail. -/
  fail : List String := []
  /-- How many more calls fail, if that is bounded. -/
  failTimes : Option Nat := none
  /-- The message of a failure. -/
  message : String := "disk unavailable"
  /-- The context around the message. -/
  context : Option String := none
  /-- Whether writes are refused. -/
  reject : Bool := false
  deriving DecidableEq

/-- The parts of a script that a change replaces. -/
structure ScriptChange where
  /-- The methods that wait before. -/
  gate : Option (List String) := none
  /-- The methods that wait after. -/
  gateAfter : Option (List String) := none
  /-- The methods that fail. -/
  fail : Option (List String) := none
  /-- How many more calls fail. -/
  failTimes : Option (Option Nat) := none
  /-- The message of a failure. -/
  message : Option String := none
  /-- The context around the message. -/
  context : Option (Option String) := none
  /-- Whether writes are refused. -/
  reject : Option Bool := none

namespace Script

def apply (s : Script) (c : ScriptChange) : Script where
  gate := c.gate.getD s.gate
  gateAfter := c.gateAfter.getD s.gateAfter
  fail := c.fail.getD s.fail
  failTimes := c.failTimes.getD s.failTimes
  message := c.message.getD s.message
  context := c.context.getD s.context
  reject := c.reject.getD s.reject

/-- The failure that the script makes. -/
def failure (s : Script) : Failure :=
  match s.context with
  | none => .reported s.message
  | some context => .during context (.reported s.message)

/-- Decides whether a call fails, and counts it if it does. -/
def takeFailure (s : Script) (method : String) : Option Failure × Script :=
  if s.fail.contains method then
    match s.failTimes with
    | none => (some s.failure, s)
    | some 0 => (none, s)
    | some (n + 1) => (some s.failure, { s with failTimes := some n })
  else (none, s)

end Script

/-- A probe: its script and its permits. -/
structure Probe where
  /-- What the probe does to calls. -/
  script : Script := {}
  permits : Permits := {}

end Bench

end RecordStore
