import Std.Data.TreeMap
import RecordStore.Failure
import RecordStore.Record

/-!
# Calls on components

A store is built from components: persistent backends, and caches before them.  All
of them take the same calls.  Tables are the kinds of the entries in them.

* point access: get, save, update and delete one entry, or several at once,
* existence: `has` is exact, and `mayHave` may be wrong when it says yes,
* ordered access: the first and the last entry of a table, and the neighbours of a
  key, which need not be stored,
* whole tables: keys by their beginning, keys that another table lacks, all keys,
  the number of entries,
* upkeep: clear a table, clear the metadata in it, start and shut down.

Each call has a type of answers.  A component gives an answer of that type or
fails.  Sets of keys are lists in increasing order without repetitions.
-/

namespace RecordStore

/-- Values in increasing order without repetitions. -/
def sortedSet {α : Type} [Ord α] (values : List α) : List α :=
  (Std.TreeMap.ofList (values.map fun v => (v, ()))).keys

/-- What a component can be asked. -/
inductive Call where
  /-- Start: open tables, start workers. -/
  | init
  /-- Release what the component holds. -/
  | shutdown
  /-- The record under a key. -/
  | get (kind : Kind) (key : Key)
  /-- Store a record.  Answers whether it was accepted. -/
  | save (record : Record) (key : Key)
  /-- Store several records.  Answers whether they were accepted. -/
  | saveBatch (entries : List Entry)
  /-- Replace a record whose value changed for a reason. -/
  | update (record : Record) (key : Key) (reason : String)
  | delete (kind : Kind) (key : Key)
  | deleteBatch (ids : List EntryId)
  /-- Whether there is an entry under a key. -/
  | has (kind : Kind) (key : Key)
  /-- Whether there may be an entry under a key.  `false` is certain. -/
  | mayHave (kind : Kind) (key : Key)
  /-- The record under the key that a table uses for given bytes. -/
  | seek (kind : Kind) (raw : Bytes)
  /-- The entry with the smallest key. -/
  | first (kind : Kind)
  /-- The entry with the greatest key. -/
  | latest (kind : Kind)
  /-- The entry with the smallest key above a key. -/
  | next (kind : Kind) (key : Key)
  /-- The entry with the greatest key below a key. -/
  | previous (kind : Kind) (key : Key)
  /-- The keys that begin with given bytes. -/
  | keysStartingWith (kind : Kind) (start : Bytes)
  /-- The keys that another table has no entry for. -/
  | keysMissingFrom (kind referenced : Kind)
  /-- The bytes of every key. -/
  | loadAllKeys (kind : Kind)
  | count (kind : Kind)
  /-- Remove every entry of a table. -/
  | clear (kind : Kind)
  /-- Remove the metadata of every entry of a table. -/
  | clearMetadata (kind : Kind)

namespace Call

abbrev Answer : Call → Type
  | init | shutdown | delete _ _ | deleteBatch _ | clear _ | clearMetadata _ => Unit
  | save _ _ | saveBatch _ | update _ _ _ | has _ _ | mayHave _ _ => Bool
  | get _ _ | seek _ _ => Option Record
  | first _ | latest _ | next _ _ | previous _ _ => Option Entry
  | keysStartingWith _ _ | keysMissingFrom _ _ => List Key
  | loadAllKeys _ => List Bytes
  | count _ => Nat

/-- What a component gives back for a call: an answer, or a failure. -/
abbrev Outcome (c : Call) : Type := Except Failure c.Answer

/-- The answer of a component that holds nothing and takes nothing. -/
def blank : (c : Call) → c.Answer
  | init | shutdown | delete _ _ | deleteBatch _ | clear _ | clearMetadata _ => ()
  | save _ _ | saveBatch _ | update _ _ _ | has _ _ | mayHave _ _ => false
  | get _ _ | seek _ _ => none
  | first _ | latest _ | next _ _ | previous _ _ => none
  | keysStartingWith _ _ | keysMissingFrom _ _ => []
  | loadAllKeys _ => []
  | count _ => (0 : Nat)

/-- The answer of a component that takes every write and keeps nothing. -/
def discard : (c : Call) → c.Answer
  | save _ _ | saveBatch _ | update _ _ _ => true
  | c => blank c

/-- The answer that refuses a write.  Calls that accept nothing have none. -/
def refusal? : (c : Call) → Option c.Answer
  | save _ _ | saveBatch _ | update _ _ _ => some false
  | _ => none

end Call

end RecordStore
