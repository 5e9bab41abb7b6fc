/-!
# The counters of a cache

A cache counts its look-ups, its decisions about records offered to it, and what
its eviction passes did.  Counters only grow, modulo two to the sixty-four.

The hit rate is the share of look-ups that found an entry, a binary floating-point
number.  Before any look-up it is zero.
-/

namespace RecordStore

namespace Cache

/-- The counters of a cache. -/
structure Counters where
  /-- Look-ups that found an entry. -/
  hits : UInt64 := 0
  /-- Look-ups that found none. -/
  misses : UInt64 := 0
  /-- Records admitted. -/
  admissions : UInt64 := 0
  /-- Records refused. -/
  rejections : UInt64 := 0
  /-- Entries removed by eviction passes. -/
  evicted : UInt64 := 0
  /-- Eviction passes that failed. -/
  failedEvictions : UInt64 := 0
  deriving DecidableEq

namespace Counters

def addHit (c : Counters) : Counters := { c with hits := c.hits + 1 }

def addMiss (c : Counters) : Counters := { c with misses := c.misses + 1 }

def addAdmission (c : Counters) : Counters := { c with admissions := c.admissions + 1 }

def addRejection (c : Counters) : Counters := { c with rejections := c.rejections + 1 }

/-- More entries removed by an eviction pass. -/
def addEvicted (c : Counters) (count : Nat) : Counters :=
  { c with evicted := c.evicted + UInt64.ofNat count }

def addFailedEviction (c : Counters) : Counters :=
  { c with failedEvictions := c.failedEvictions + 1 }

/-- The share of look-ups that found an entry. -/
def hitRate (c : Counters) : Float :=
  let total := c.hits + c.misses
  if total = 0 then 0 else c.hits.toFloat / total.toFloat

example : (({} : Counters).addEvicted (2 ^ 64 - 1) |>.addEvicted 2).evicted = 1 := by decide

end Counters

end Cache

end RecordStore
