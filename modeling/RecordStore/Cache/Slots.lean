import Std.Data.TreeMap
import RecordStore.Record

/-!
# The slots of a cache

The entries of a cache stand in *slots*, in the order of their admission.  Every
slot has a number of its own, greater than those of the slots before it, and an
index finds the number by the address.  Two things are counted and never reused.

* The number of a slot.  A record admitted under an address that has a slot
  replaces the record there and keeps the number, so it keeps its place.
* The version of a slot.  Every admission gives the slot a new version, so a slot
  whose record was replaced can be told from one that was not.

A *candidate* is what is known of a slot after a look at it: its number, and its
contents then.  `Slots.removeIfVersion?` removes a slot only if it still has the
version of the look.
-/

namespace RecordStore

namespace Cache

/-- An entry of a cache. -/
structure Slot where
  /-- The version of the record, new with every admission. -/
  version : Nat
  key : Key
  record : Record
  deriving DecidableEq

namespace Slot

/-- The table of a slot. -/
def kind (s : Slot) : Kind := s.record.kind

/-- The address of a slot. -/
def id (s : Slot) : EntryId := s.record.idAt s.key

/-- The key and the record of a slot. -/
def entry (s : Slot) : Entry := (s.key, s.record)

end Slot

/-- A slot as it was when looked at, with its number. -/
structure Candidate where
  /-- The number of the slot. -/
  seq : Nat
  /-- The contents of the slot then. -/
  slot : Slot
  deriving DecidableEq

/-- What became of an admitted record. -/
inductive Admission where
  /-- It has a new slot at the end. -/
  | appended
  /-- It replaced the record of a slot. -/
  | replaced
  deriving DecidableEq

/-- The slots of a cache. -/
structure Slots where
  /-- The slots by their numbers. -/
  bySeq : Std.TreeMap Nat Slot := {}
  /-- The numbers of the slots by their addresses. -/
  index : Std.TreeMap EntryId Nat := {}
  /-- The number of the next new slot. -/
  nextSeq : Nat := 0
  /-- The version given last. -/
  lastVersion : Nat := 0

namespace Slots

/-! ## Views -/

/-- The slots with their numbers, the oldest first. -/
def candidates (s : Slots) : List Candidate :=
  s.bySeq.toList.map fun p => ⟨p.1, p.2⟩

/-- The slots, the oldest first. -/
def toList (s : Slots) : List Slot := s.candidates.map (·.slot)

/-- The slots of a kind, the oldest first. -/
def ofKind (s : Slots) (kind : Kind) : List Slot :=
  s.toList.filter fun slot => slot.kind == kind

/-- The number of slots. -/
def len (s : Slots) : Nat := s.bySeq.size

/-- The slot of an address. -/
def get? (s : Slots) (id : EntryId) : Option Slot :=
  s.index[id]?.bind fun seq => s.bySeq[seq]?

/-- The oldest slots, with their numbers, up to a count. -/
def oldest (s : Slots) (count : Nat) : List Candidate :=
  s.candidates.take count

/-! ## Changes -/

/-- The number and the slot under an address. -/
def find? (s : Slots) (id : EntryId) : Option Candidate :=
  s.index[id]?.bind fun seq => s.bySeq[seq]?.map fun slot => ⟨seq, slot⟩

/-- Admits a record under a key. -/
def insert (s : Slots) (key : Key) (record : Record) : Admission × Slots :=
  let version := s.lastVersion + 1
  match s.find? (record.idAt key) with
  | some c =>
      (.replaced, { s with
        bySeq := s.bySeq.insert c.seq { c.slot with version, record }
        lastVersion := version })
  | none =>
      (.appended, { s with
        bySeq := s.bySeq.insert s.nextSeq ⟨version, key, record⟩
        index := s.index.insert (record.idAt key) s.nextSeq
        nextSeq := s.nextSeq + 1
        lastVersion := version })

/-- Removes a slot, by its number and its address. -/
def erase (s : Slots) (seq : Nat) (id : EntryId) : Slots :=
  { s with bySeq := s.bySeq.erase seq, index := s.index.erase id }

/-- Removes the slot of an address, and gives it back. -/
def remove (s : Slots) (id : EntryId) : Option Slot × Slots :=
  match s.index[id]? with
  | some seq => (s.bySeq[seq]?, s.erase seq id)
  | none => (none, s)

/-- Removes the slot of a number if it has a version, and gives it back. -/
def removeIfVersion (s : Slots) (seq version : Nat) : Option Slot × Slots :=
  match s.bySeq[seq]? with
  | some slot =>
      if slot.version = version then (some slot, s.erase seq slot.id) else (none, s)
  | none => (none, s)

/-- Removes the slots of a kind, and gives them back. -/
def removeKind (s : Slots) (kind : Kind) : List Slot × Slots :=
  let doomed := s.candidates.filter fun c => c.slot.kind == kind
  (doomed.map (·.slot), doomed.foldl (fun s c => s.erase c.seq c.slot.id) s)

/-- Removes every slot.  The counts go on from where they are. -/
def clear (s : Slots) : Slots := { s with bySeq := {}, index := {} }

/-! ## Tests -/

/-- Three admissions, the last in the place of the first. -/
def sample : Slots :=
  [(1, 10), (2, 20), (1, 11)].foldl
    (fun s p => (s.insert (.hash [p.1]) (.ofBytes .transaction [p.2])).2) {}

example : sample.toList.map (·.record.bytes) = [[11], [20]] := by decide
example : sample.toList.map (·.version) = [3, 2] := by decide
example : (sample.removeIfVersion 0 1).1 = none ∧ (sample.removeIfVersion 1 2).2.len = 1 := by
  decide
example : (sample.remove ⟨.transaction, .hash [1]⟩).2.toList.map (·.key) = [.hash [2]] := by decide

end Slots

end Cache

end RecordStore
