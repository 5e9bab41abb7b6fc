/-!
# Fair locks

A lock is held by any number of callers that share it, or by one caller that has it for
itself.  Callers are numbers.

The lock is fair: callers that have to wait stand in a line, and nobody gets the lock
before a caller ahead of it that excludes it.  So a newcomer that could share the lock
still waits behind a caller that wants it for itself.

A caller that is refused is remembered, and asks again later.
-/

namespace RecordStore

/-- How a lock is held. -/
inductive Lock.Mode where
  /-- Together with others. -/
  | shared
  | alone
  deriving DecidableEq

/-- A lock, and the callers that wait for it. -/
structure Lock where
  /-- The number of callers that share the lock. -/
  sharers : Nat := 0
  /-- Whether a caller has the lock for itself. -/
  isTaken : Bool := false
  /-- The waiting callers, the first come first. -/
  waiting : List (Nat × Lock.Mode) := []
  deriving DecidableEq

namespace Lock

/-- The callers that wait ahead of a caller.  Everyone is ahead of a newcomer. -/
def ahead (l : Lock) (caller : Nat) : List (Nat × Mode) :=
  l.waiting.takeWhile fun c => c.1 != caller

/-- Whether the lock is free for a caller, given those ahead of it. -/
def isFree (l : Lock) (ahead : List (Nat × Mode)) : Mode → Bool
  | .shared => !l.isTaken && ahead.all fun c => c.2 == .shared
  | .alone => !l.isTaken && l.sharers == 0 && ahead.isEmpty

/-- The lock in the hands of one more caller. -/
def taken (l : Lock) : Mode → Lock
  | .shared => { l with sharers := l.sharers + 1 }
  | .alone => { l with isTaken := true }

/-- Asks for the lock, and answers whether the caller has it. -/
def enter (l : Lock) (caller : Nat) (mode : Mode) : Bool × Lock :=
  let ahead := l.ahead caller
  if l.isFree ahead mode then
    (true, { l.taken mode with waiting := l.waiting.filter fun c => c.1 != caller })
  else if ahead.length < l.waiting.length then (false, l)
  else (false, { l with waiting := l.waiting ++ [(caller, mode)] })

/-- Gives the lock back. -/
def leave (l : Lock) : Mode → Lock
  | .shared => { l with sharers := l.sharers - 1 }
  | .alone => { l with isTaken := false }

/-- A lock that one caller shares, one waits to have alone, and one waits to share. -/
def sample : Lock :=
  let l := (({} : Lock).enter 1 .shared).2
  ((l.enter 2 .alone).2.enter 3 .shared).2

example : sample.waiting = [(2, .alone), (3, .shared)] := by decide
example : ((sample.leave .shared).enter 3 .shared).1 = false := by decide
example : ((sample.leave .shared).enter 2 .alone).1 = true := by decide

end Lock

end RecordStore
