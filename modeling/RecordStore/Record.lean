import RecordStore.Key

/-!
# Records

A record is the stored value of an entity: its kind, its bytes, and for some
kinds a second serialization of the metadata alone.  A record that does not
exist is the placeholder for an entity that was looked up and not found.
-/

namespace RecordStore

/-- The stored value of an entity. -/
structure Record where
  /-- The kind of the entity. -/
  kind : Kind
  /-- The full serialization. -/
  bytes : Bytes
  /-- The serialization of the metadata alone, if there is one. -/
  metadata : Option Bytes
  /-- `false` for a placeholder. -/
  present : Bool
  deriving DecidableEq, Inhabited

namespace Record

/-- An existing record without metadata. -/
def ofBytes (kind : Kind) (bytes : Bytes) : Record := ⟨kind, bytes, none, true⟩

/-- The placeholder for an entity of a kind. -/
def missing (kind : Kind) : Record := ⟨kind, [], none, false⟩

/-- The record with other metadata. -/
def withMetadata (r : Record) (metadata : Bytes) : Record :=
  { r with metadata := some metadata }

def clearMetadata (r : Record) : Record :=
  { r with metadata := none }

/-- Whether the record is always merged anew from deltas. -/
def isDerived (r : Record) : Bool := r.kind.isDerived

/-- The number of bytes a record takes, metadata included. -/
def size (r : Record) : Nat :=
  r.bytes.length + (r.metadata.getD []).length

/-- The address of a record stored under a key. -/
def idAt (r : Record) (key : Key) : EntryId := ⟨r.kind, key⟩

example : ((ofBytes .bundle [1, 2]).withMetadata [3]).size = 3 := by decide
example : (missing .tag).present = false ∧ (missing .tag).isDerived = true := by decide

end Record

/-- A key with the record stored under it. -/
abbrev Entry := Key × Record

/-- The address of an entry. -/
def Entry.id (e : Entry) : EntryId := e.2.idAt e.1

end RecordStore
