import RecordStore.Cache.Slots
import RecordStore.Filter

/-!
# The contents of a cache

The contents of a cache are its slots, a membership filter over their addresses,
and the batches that are being written.

The filter holds the fingerprint of every slot.  When it refuses one, the contents
are *saturated*: the filter is not asked any more, and every address may be
present.  Saturation ends when the contents are cleared, or when a new filter
takes all the slots.

A *batch* is written in three steps: it is begun with the entries as they are, the
backend writes it while the contents change, and it is finished.  The batch keeps
the addresses of its entries, and those of them that were deleted since it began.
A deletion marks the address in every batch that has it, and an admission takes
the mark away.  When the batch is finished, the marked addresses have to be
deleted from the backend again.
-/

namespace RecordStore

namespace Cache

/-! ## Batches -/

/-- A batch that is being written. -/
structure Batch where
  /-- The number of the batch. -/
  number : Nat
  /-- The addresses of its entries. -/
  ids : List EntryId
  /-- The addresses deleted since the batch began. -/
  deleted : List EntryId := []
  deriving DecidableEq

namespace Batch

/-- Marks an address of the batch as deleted. -/
def markDeleted (b : Batch) (id : EntryId) : Batch :=
  if id ∈ b.ids then { b with deleted := b.deleted.insert id } else b

/-- Marks the addresses of a kind as deleted. -/
def markCleared (b : Batch) (kind : Kind) : Batch :=
  (b.ids.filter fun id => id.kind == kind).foldl markDeleted b

/-- Takes the mark of an address away. -/
def unmark (b : Batch) (id : EntryId) : Batch :=
  { b with deleted := b.deleted.filter fun d => d != id }

end Batch

/-! ## Contents -/

/-- What a cache holds. -/
structure Contents where
  /-- The entries. -/
  slots : Slots := {}
  /-- The fingerprints of the entries. -/
  filter : Filter
  /-- Whether the filter refused a fingerprint. -/
  saturated : Bool := false
  /-- The batches that are being written, the oldest first. -/
  batches : List Batch := []
  /-- The number of the next batch. -/
  nextBatch : Nat := 0

namespace Contents

/-- Contents without entries, for a number of them. -/
def empty (capacity : Nat) : Contents := { filter := .ofCapacity capacity }

/-- Whether there may be an entry at an address. -/
def mayHave (c : Contents) (id : EntryId) : Bool :=
  c.saturated || c.filter.contains (Fingerprint.ofId id)

/-- The entry at an address. -/
def get? (c : Contents) (id : EntryId) : Option Slot :=
  if c.mayHave id then c.slots.get? id else none

/-! ## The filter -/

/-- Adds the fingerprint of a new slot. -/
def note (c : Contents) (id : EntryId) : Contents :=
  if c.saturated then c
  else match c.filter.insert (Fingerprint.ofId id) with
    | .ok filter => { c with filter }
    | .error _ => { c with saturated := true }

/-- Takes away the fingerprint of a slot that is gone. -/
def forget (c : Contents) (slot : Slot) : Contents :=
  if c.saturated then c else { c with filter := c.filter.erase (Fingerprint.ofId slot.id) }

/-- A filter with the fingerprints of all addresses, if it takes them. -/
def filterOf? (f : Filter) : List EntryId → Option Filter
  | [] => some f
  | id :: rest =>
      match f.insert (Fingerprint.ofId id) with
      | .ok f => filterOf? f rest
      | .error _ => none

/-- Tries to end saturation with a new filter for a number of entries. -/
def rebuild (c : Contents) (capacity : Nat) : Contents :=
  if c.saturated then
    match filterOf? (.ofCapacity capacity) (c.slots.toList.map Slot.id) with
    | some filter => { c with filter, saturated := false }
    | none => c
  else c

/-! ## Entries -/

/-- Admits a record under a key. -/
def put (c : Contents) (key : Key) (record : Record) : Contents :=
  let id := record.idAt key
  let c := { c with batches := c.batches.map (Batch.unmark · id) }
  match c.slots.insert key record with
  | (.appended, slots) => { c with slots }.note id
  | (.replaced, slots) => { c with slots }

/-- Removes the entry at an address, and marks the address in the batches. -/
def remove (c : Contents) (id : EntryId) : Contents :=
  let (gone, slots) := c.slots.remove id
  let c := { c with slots }
  let c := match gone with
    | some slot => c.forget slot
    | none => c
  { c with batches := c.batches.map (Batch.markDeleted · id) }

/-- Removes the entries of a kind, and marks the kind in the batches. -/
def removeKind (c : Contents) (kind : Kind) : Contents :=
  let (gone, slots) := c.slots.removeKind kind
  let c := gone.foldl forget { c with slots }
  { c with batches := c.batches.map (Batch.markCleared · kind) }

/-- Removes every entry.  Batches go on. -/
def clear (c : Contents) : Contents :=
  { c with slots := c.slots.clear, filter := c.filter.clear, saturated := false }

/-! ## Writing batches -/

/-- Begins a batch of slots, and gives its number. -/
def begin (c : Contents) (slots : List Slot) : Nat × Contents :=
  (c.nextBatch, { c with
    batches := c.batches ++ [{ number := c.nextBatch, ids := slots.map Slot.id }]
    nextBatch := c.nextBatch + 1 })

/-- Finishes a batch, and gives the addresses deleted since it began. -/
def finish (c : Contents) (number : Nat) : List EntryId × Contents :=
  (((c.batches.find? fun b => b.number == number).map (·.deleted)).getD [],
    { c with batches := c.batches.filter fun b => b.number != number })

/-- Removes a written slot, unless it was replaced or removed since the look.
Answers whether it did. -/
def dropWritten (c : Contents) (candidate : Candidate) : Bool × Contents :=
  match c.slots.removeIfVersion candidate.seq candidate.slot.version with
  | (some slot, slots) => (true, { c with slots }.forget slot)
  | (none, slots) => (false, { c with slots })

/-- Removes written slots, and gives their number. -/
def dropAllWritten (c : Contents) : List Candidate → Nat × Contents
  | [] => (0, c)
  | candidate :: rest =>
      let (gone, c) := c.dropWritten candidate
      let (n, c) := c.dropAllWritten rest
      (if gone then n + 1 else n, c)

end Contents

end Cache

end RecordStore
