import RecordStore.Kind

/-!
# The configuration of a cache

A cache is given a budget in bytes.  The number of entries it is meant to hold is
the budget divided by the usual size of a record, and one at least
(`Config.maxEntries`).

An eviction pass takes the oldest twentieth of that number, rounded up, and with
it every entry by which the cache has grown beyond the number
(`evictionCount`).
-/

namespace RecordStore

namespace Cache

/-- The usual size of a record in bytes. -/
def usualRecordSize : Nat := 953

/-- The part of its capacity that a cache evicts at once, in percent. -/
def evictionPercent : Nat := 5

/-- How a cache is set up. -/
structure Config where
  /-- The memory that the entries may take, in bytes. -/
  byteBudget : Nat := 64 * 1024 * 1024
  /-- The kinds that are never admitted. -/
  excludedKinds : List Kind := [.approvee]
  /-- The time between two looks at a cache that stayed over capacity, in
  milliseconds. -/
  retryInterval : Nat := 1000
  /-- The bound of the queue of eviction requests. -/
  queueCapacity : Nat := 16
  deriving DecidableEq

/-- The number of entries a cache is meant to hold. -/
def Config.maxEntries (c : Config) : Nat :=
  max 1 (c.byteBudget / usualRecordSize)

/-- The number of entries an eviction pass takes from a cache of a length. -/
def evictionCount (maxSize len : Nat) : Nat :=
  max 1 ((maxSize * evictionPercent + 99) / 100) + (len - maxSize)

example : ({} : Config).maxEntries = 70418 := by decide
example : evictionCount 10 10 = 1 ∧ evictionCount 21 21 = 2 ∧ evictionCount 3 6 = 4 := by decide

end Cache

end RecordStore
