import RecordStore.Call

/-!
# Tables in memory

A memory component keeps every table as an ordered map from keys to records.  It
takes any record under any key, placeholders included, and stores it in the table
of the record's kind.

The keys that begin with given bytes are found by a scan.  It starts at the key
that the table uses for those bytes, and ends at the first key of another form or
with another beginning.  Keys of a form that the table does not use are not found
by it.

The component counts its calls: reads, single writes and batched writes.  Deletions,
upkeep and the number of entries are not counted.

`Memory.perform` answers every call.  It never fails.
-/

namespace RecordStore

/-! ## One table -/

abbrev Table := Std.TreeMap Key Record

namespace Table

/-- The entries of a table, by increasing key. -/
def entries (t : Table) : List Entry := t.toList

/-- The keys of a table, in increasing order. -/
def keys (t : Table) : List Key := t.entries.map (·.1)

/-- The entry with the smallest key above a key. -/
def next? (t : Table) (key : Key) : Option Entry :=
  t.entries.find? fun e => key < e.1

/-- The entry with the greatest key below a key. -/
def previous? (t : Table) (key : Key) : Option Entry :=
  (t.entries.takeWhile fun e => e.1 < key).getLast?

/-- The keys of one form from a key on, as long as they begin with its bytes. -/
def scan (t : Table) (start : Key) : List Key :=
  (t.keys.dropWhile fun k => k < start).takeWhile fun k =>
    k.form == start.form && k.startsWith start.bytes

/-- The table without metadata. -/
def clearMetadata (t : Table) : Table :=
  t.map fun _ r => r.clearMetadata

end Table

/-! ## All tables -/

/-- A component that keeps its tables in memory. -/
structure Memory where
  name : String := "memory"
  /-- The tables.  One that is not there has no entries. -/
  tables : Std.TreeMap Kind Table := {}
  /-- Reads of entries and keys. -/
  reads : UInt64 := 0
  /-- Single writes. -/
  writes : UInt64 := 0
  batchWrites : UInt64 := 0

namespace Memory

def table (m : Memory) (kind : Kind) : Table := m.tables.getD kind {}

def len (m : Memory) : Nat :=
  m.tables.foldl (fun n _ t => n + t.size) 0

def modify (m : Memory) (kind : Kind) (f : Table → Table) : Memory :=
  { m with tables := m.tables.insert kind (f (m.table kind)) }

def put (m : Memory) (e : Entry) : Memory :=
  m.modify e.2.kind fun t => t.insert e.1 e.2

def erase (m : Memory) (id : EntryId) : Memory :=
  m.modify id.kind fun t => t.erase id.key

/-- Removes a table. -/
def drop (m : Memory) (kind : Kind) : Memory :=
  { m with tables := m.tables.erase kind }

def countRead (m : Memory) : Memory := { m with reads := m.reads + 1 }

def countWrite (m : Memory) : Memory := { m with writes := m.writes + 1 }

def countBatch (m : Memory) : Memory := { m with batchWrites := m.batchWrites + 1 }

/-- The keys of a table that another table has no entry for. -/
def missing (m : Memory) (kind referenced : Kind) : List Key :=
  (m.table kind).keys.filter fun k => !(m.table referenced).contains k

/-- Removes the metadata of a table.  The metadata of transactions has a table of
its own as well, which goes too. -/
def clearMetadata (m : Memory) (kind : Kind) : Memory :=
  let m := m.modify kind Table.clearMetadata
  if kind = .transaction then m.drop .transactionMetadata else m

def perform (m : Memory) : (c : Call) → c.Answer × Memory
  | .init | .shutdown => ((), m)
  | .get kind key => ((m.table kind)[key]?, m.countRead)
  | .save record key => (true, m.countWrite.put (key, record))
  | .saveBatch entries => (true, entries.foldl put m.countBatch)
  | .update record key _ => (true, m.countWrite.put (key, record))
  | .delete kind key => ((), m.erase ⟨kind, key⟩)
  | .deleteBatch ids => ((), ids.foldl erase m)
  | .has kind key => ((m.table kind).contains key, m.countRead)
  | .mayHave kind key => ((m.table kind).contains key, m.countRead)
  | .seek kind raw => ((m.table kind)[Key.ofRaw kind raw]?, m.countRead)
  | .first kind => ((m.table kind).entries.head?, m.countRead)
  | .latest kind => ((m.table kind).entries.getLast?, m.countRead)
  | .next kind key => ((m.table kind).next? key, m.countRead)
  | .previous kind key => ((m.table kind).previous? key, m.countRead)
  | .keysStartingWith kind start => ((m.table kind).scan (.ofRaw kind start), m.countRead)
  | .keysMissingFrom kind referenced => (m.missing kind referenced, m.countRead)
  | .loadAllKeys kind => ((m.table kind).keys.map (·.bytes), m.countRead)
  | .count kind => ((m.table kind).size, m)
  | .clear kind => ((), m.drop kind)
  | .clearMetadata kind => ((), m.clearMetadata kind)

/-! ## Tests -/

/-- Two hash keys and an index key in one table. -/
def sample : Memory :=
  [(Key.hash [1, 2], Record.ofBytes .tag [5]), (.hash [1], .ofBytes .tag [6]),
    (.index 1, .ofBytes .tag [7])].foldl put {}

example : (sample.table .tag).keys = [.hash [1], .hash [1, 2], .index 1] := by decide
example : ((sample.perform (.next .tag (.hash [1]))).1.map (·.1)) = some (.hash [1, 2]) := by decide
example : ((sample.perform (.previous .tag (.index 0))).1.map (·.1)) = some (.hash [1, 2]) := by
  decide
example : (sample.perform (.keysStartingWith .tag [1])).1 = [.hash [1], .hash [1, 2]] := by decide
example : (sample.perform (.keysStartingWith .tag [0])).1 = [] := by decide

end Memory

end RecordStore
