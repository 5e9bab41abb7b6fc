/-!
# Permits

A store of permits holds back callers until a permit is free for them.  Callers are
numbers.  They are served in the order in which they asked, and a permit that is
released while nobody waits is kept.

A caller that is refused is remembered, and asks again later.  It is served once the
free permits reach down to its place in the line.  A newcomer is served at once only
if a permit is left over when everyone in the line has one.
-/

namespace RecordStore

/-- Free permits, and the callers that wait for one. -/
structure Permits where
  /-- The number of free permits. -/
  free : Nat := 0
  /-- The waiting callers, the first come first. -/
  waiting : List Nat := []
  deriving DecidableEq

namespace Permits

def release (p : Permits) (count : Nat) : Permits := { p with free := p.free + count }

/-- The place of a caller in the line.  A newcomer stands behind everyone. -/
def place (p : Permits) (caller : Nat) : Nat := p.waiting.idxOf caller

/-- Asks for a permit, and answers whether there is one. -/
def take (p : Permits) (caller : Nat) : Bool × Permits :=
  if p.place caller < p.free then
    (true, { free := p.free - 1, waiting := p.waiting.erase caller })
  else if caller ∈ p.waiting then (false, p)
  else (false, { p with waiting := p.waiting ++ [caller] })

example : ((({} : Permits).take 1).2.release 1 |>.take 2).1 = false := by decide
example : ((({} : Permits).take 1).2.release 1 |>.take 1).1 = true := by decide

end Permits

end RecordStore
