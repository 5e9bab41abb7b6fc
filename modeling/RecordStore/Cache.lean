import RecordStore.Cache.Config
import RecordStore.Cache.Contents
import RecordStore.Cache.Counters
import RecordStore.Call

/-!
# Caches

A cache holds recently written records, up to a number of them, and hands them to a
backend in batches.  The oldest admission is handed over first, and reads change
nothing about that.

A record is admitted if it exists, its kind is not excluded, its values are not
derived, and the cache is not closed.  Admission never waits: the cache may grow
beyond its number until an eviction pass has run.

An *eviction pass* runs while the cache is at its number or above.  A *flush* takes
every entry and leaves it cached.  Either is a sequence of steps, and other
operations may come between them.

* `beginEviction` or `beginFlush` looks at the slots and begins a batch.
* The backend writes the entries, with no step of the cache.
* `finishBatch` ends the batch, and gives the addresses to delete from the backend
  again.
* The backend deletes those, if there are any.
* `dropWritten` ends a pass that succeeded: it removes the slots that did not change
  since the look.  `failEviction` ends one that failed, and removes nothing.

Every step is a function of the cache alone, so the steps of several passes and
other operations can be put together in any order.
-/

namespace RecordStore

/-- A cache of records. -/
structure Cache where
  /-- The kinds that are never admitted. -/
  excluded : List Kind
  /-- The number of entries the cache is meant to hold. -/
  maxSize : Nat
  /-- The entries, the filter and the batches. -/
  contents : Cache.Contents
  counters : Cache.Counters := {}
  /-- Whether the cache was shut down. -/
  closed : Bool := false

namespace Cache

def ofConfig (c : Config) : Cache :=
  { excluded := c.excludedKinds, maxSize := c.maxEntries, contents := .empty c.maxEntries }

def len (c : Cache) : Nat := c.contents.slots.len

/-- Whether a kind is never admitted. -/
def isExcluded (c : Cache) (kind : Kind) : Bool := c.excluded.contains kind

/-- Whether the cache holds as many entries as it is meant to, or more. -/
def isFull (c : Cache) : Bool := c.maxSize ≤ c.len

/-! ## Admission -/

/-- Whether the cache takes a record. -/
def accepts (c : Cache) (record : Record) : Bool :=
  !c.isExcluded record.kind && !record.isDerived && record.present && !c.closed

/-- Offers a record under a key, and answers whether it was admitted. -/
def offer (c : Cache) (key : Key) (record : Record) : Bool × Cache :=
  if c.accepts record then
    (true, { c with
      contents := c.contents.put key record
      counters := c.counters.addAdmission })
  else (false, { c with counters := c.counters.addRejection })

/-! ## Reads -/

/-- The record at an address. -/
def lookup (c : Cache) (id : EntryId) : Option Record :=
  if c.isExcluded id.kind then none else (c.contents.get? id).map (·.record)

/-- Looks up a record and counts it. -/
def get (c : Cache) (id : EntryId) : Option Record × Cache :=
  match c.lookup id with
  | some record => (some record, { c with counters := c.counters.addHit })
  | none => (none, { c with counters := c.counters.addMiss })

/-- Whether there may be an entry at an address. -/
def mayHave (c : Cache) (id : EntryId) : Bool :=
  !c.isExcluded id.kind && c.contents.mayHave id

/-- The better of two entries, where a later one has to be strictly better. -/
def better (prefer : Key → Key → Bool) (best e : Entry) : Entry :=
  if prefer e.1 best.1 then e else best

/-- The preferred entry of a kind among those whose keys are acceptable. -/
def pick (c : Cache) (kind : Kind) (accept : Key → Bool) (prefer : Key → Key → Bool) :
    Option Entry :=
  match ((c.contents.slots.ofKind kind).map Slot.entry).filter fun e => accept e.1 with
  | [] => none
  | e :: rest => some (rest.foldl (better prefer) e)

/-- The keys of a kind, the oldest first. -/
def keys (c : Cache) (kind : Kind) : List Key :=
  (c.contents.slots.ofKind kind).map (·.key)

/-! ## Removal -/

/-- Deletes the entry at an address. -/
def delete (c : Cache) (id : EntryId) : Cache :=
  { c with contents := c.contents.remove id }

/-- Deletes the entries of a kind. -/
def clear (c : Cache) (kind : Kind) : Cache :=
  { c with contents := c.contents.removeKind kind }

/-! ## Passes -/

/-- An eviction pass or a flush that has begun. -/
structure Pass where
  /-- The number of its batch. -/
  batch : Nat
  /-- The slots it writes. -/
  candidates : List Candidate

/-- The entries a pass writes. -/
def Pass.entries (p : Pass) : List Entry := p.candidates.map fun c => c.slot.entry

def Pass.size (p : Pass) : Nat := p.candidates.length

/-- Begins a pass over slots, unless there are none. -/
def beginPass (c : Cache) (candidates : List Candidate) : Option Pass × Cache :=
  if candidates.isEmpty then (none, c)
  else
    let (batch, contents) := c.contents.begin (candidates.map (·.slot))
    (some ⟨batch, candidates⟩, { c with contents })

/-- Begins an eviction pass, if the cache is full. -/
def beginEviction (c : Cache) : Option Pass × Cache :=
  if c.isFull then c.beginPass (c.contents.slots.oldest (evictionCount c.maxSize c.len))
  else (none, c)

/-- Begins a flush, if there are entries. -/
def beginFlush (c : Cache) : Option Pass × Cache :=
  c.beginPass c.contents.slots.candidates

/-- Ends the batch of a pass, and gives the addresses to delete from the backend. -/
def finishBatch (c : Cache) (batch : Nat) : List EntryId × Cache :=
  let (deleted, contents) := c.contents.finish batch
  (deleted, { c with contents })

/-- Ends an eviction pass that succeeded, and gives the number of entries removed. -/
def dropWritten (c : Cache) (candidates : List Candidate) : Nat × Cache :=
  let (removed, contents) := c.contents.dropAllWritten candidates
  (removed, { c with
    contents := contents.rebuild c.maxSize
    counters := c.counters.addEvicted removed })

/-- Ends an eviction pass that failed. -/
def failEviction (c : Cache) : Cache :=
  { c with counters := c.counters.addFailedEviction }

/-! ## Closing -/

/-- Closes the cache, and answers whether it was closed before. -/
def close (c : Cache) : Bool × Cache := (c.closed, { c with closed := true })

/-- Removes every entry, as the last step of a shutdown. -/
def empty (c : Cache) : Cache := { c with contents := c.contents.clear }

/-! ## Calls -/

/-- Offers records one after the other, and answers whether any was admitted. -/
def offerAll (c : Cache) : List Entry → Bool × Cache
  | [] => (false, c)
  | e :: rest =>
      let (admitted, c) := c.offer e.1 e.2
      let (others, c) := c.offerAll rest
      (admitted || others, c)

/-- Answers a call that needs nothing but the cache.  Starting and shutting down are
not among them, and do nothing here. -/
def perform (c : Cache) : (call : Call) → call.Answer × Cache
  | .init | .shutdown => ((), c)
  | .get kind key => c.get ⟨kind, key⟩
  | .save record key => c.offer key record
  | .saveBatch entries => c.offerAll entries
  | .update record key _ => c.offer key record
  | .delete kind key => ((), c.delete ⟨kind, key⟩)
  | .deleteBatch ids => ((), ids.foldl delete c)
  | .has kind key => ((c.lookup ⟨kind, key⟩).isSome, c)
  | .mayHave kind key => (c.mayHave ⟨kind, key⟩, c)
  | .seek kind raw => c.get ⟨kind, .ofRaw kind raw⟩
  | .first kind => (c.pick kind (fun _ => true) (fun a b => a < b), c)
  | .latest kind => (c.pick kind (fun _ => true) (fun a b => b < a), c)
  | .next kind key => (c.pick kind (fun k => key < k) (fun a b => a < b), c)
  | .previous kind key => (c.pick kind (fun k => k < key) (fun a b => b < a), c)
  | .keysStartingWith kind start =>
      (sortedSet ((c.keys kind).filter fun k => k.startsWith start), c)
  | .keysMissingFrom _ _ => ([], c)
  | .loadAllKeys kind => ((c.keys kind).map (·.bytes), c)
  | .count kind => ((c.keys kind).length, c)
  | .clear kind => ((), c.clear kind)
  | .clearMetadata _ => ((), c)

end Cache

end RecordStore
