import RecordStore.Bytes

/-!
# Kinds of entities

Every entity belongs to one of nine kinds, and each kind has a table of its
own.  The kind decides

* the name of the table,
* the form of the keys that address it (`Kind.keyForm`),
* whether its values are derived, that is merged from deltas.  A stored copy of
  a derived value goes stale with the next delta, so derived values are never
  cached,
* a one-byte code that separates the kinds in digests (`Kind.code`).

A kind has a short name, used in every written form (`Kind.name`).  The name of
its table is the same, but for the metadata table (`Kind.metadataTable`).
-/

namespace RecordStore

/-- What the bytes of a key encode. -/
inductive KeyForm where
  /-- The hash of a transaction, address, bundle or tag. -/
  | hash
  /-- The index of a milestone, high byte first. -/
  | index
  deriving DecidableEq, Inhabited

namespace KeyForm

/-- The byte that separates the forms in digests and in the order of keys. -/
def tag : KeyForm → UInt8
  | hash => 0
  | index => 1

/-- The short name of a form. -/
def name : KeyForm → String
  | hash => "hash"
  | index => "index"

def all : List KeyForm := [hash, index]

/-- The form of a short name. -/
def ofName? (s : String) : Option KeyForm :=
  all.find? fun f => f.name == s

/-- Hash keys come before index keys. -/
instance : Ord KeyForm := ⟨compareOn tag⟩

instance : Std.TransOrd KeyForm := inferInstanceAs (Std.TransCmp (compareOn tag))

theorem tag_inj {f g : KeyForm} (h : f.tag = g.tag) : f = g := by
  revert h; cases f <;> cases g <;> decide

instance : Std.LawfulEqOrd KeyForm where
  eq_of_compare h := tag_inj (Std.LawfulEqOrd.eq_of_compare (α := UInt8) h)

end KeyForm

/-- A kind of entity, which is also the table it is stored in. -/
inductive Kind where
  /-- The body of a transaction. -/
  | transaction
  /-- Validity, solidity and snapshot index of a transaction. -/
  | transactionMetadata
  /-- The transaction of a milestone index. -/
  | milestone
  /-- The balance changes of a milestone. -/
  | stateDiff
  /-- The transactions that touch an address. -/
  | address
  /-- The transactions that approve a transaction. -/
  | approvee
  /-- The transactions of a bundle. -/
  | bundle
  /-- The transactions that carry an obsolete tag. -/
  | obsoleteTag
  /-- The transactions that carry a tag. -/
  | tag
  deriving DecidableEq, Inhabited

namespace Kind

def all : List Kind :=
  [transaction, transactionMetadata, milestone, stateDiff, address, approvee, bundle,
    obsoleteTag, tag]

/-- The short name of a kind. -/
def name : Kind → String
  | transaction => "transaction"
  | transactionMetadata => "transactionMetadata"
  | milestone => "milestone"
  | stateDiff => "stateDiff"
  | address => "address"
  | approvee => "approvee"
  | bundle => "bundle"
  | obsoleteTag => "obsoleteTag"
  | tag => "tag"

/-- The kind of a short name. -/
def ofName? (s : String) : Option Kind :=
  all.find? fun k => k.name == s

/-- The byte that stands for a kind in digests. -/
def code : Kind → UInt8
  | transaction => 1
  | transactionMetadata => 2
  | milestone => 3
  | stateDiff => 4
  | address => 5
  | approvee => 6
  | bundle => 7
  | obsoleteTag => 8
  | tag => 9

/-- Kinds are ordered by their codes. -/
instance : Ord Kind := ⟨compareOn code⟩

instance : Std.TransOrd Kind := inferInstanceAs (Std.TransCmp (compareOn code))

theorem code_inj {k l : Kind} (h : k.code = l.code) : k = l := by
  revert h; cases k <;> cases l <;> decide

instance : Std.LawfulEqOrd Kind where
  eq_of_compare h := code_inj (Std.LawfulEqOrd.eq_of_compare (α := UInt8) h)

/-- The form of the keys that address a table. -/
def keyForm : Kind → KeyForm
  | milestone => .index
  | _ => .hash

/-- Whether the values of a kind are merged from deltas. -/
def isDerived : Kind → Bool
  | address | approvee | bundle | obsoleteTag | tag => true
  | _ => false

/-! ## Tables -/

/-- The name of the metadata table, which stands apart from the regular ones. -/
def metadataTable : String := "transaction-metadata"

def table : Kind → String
  | transactionMetadata => metadataTable
  | k => k.name

/-- The kinds of the regular tables, in their fixed order. -/
def regular : List Kind :=
  [transaction, milestone, stateDiff, address, approvee, bundle, obsoleteTag, tag]

/-- The regular tables with their kinds. -/
def families : List (String × Kind) :=
  regular.map fun k => (k.table, k)

/-- A name that no table has. -/
structure UnknownTable where
  /-- The name looked up. -/
  name : String
  deriving DecidableEq

def UnknownTable.message (e : UnknownTable) : String :=
  "unknown table name: " ++ e.name

/-- The kind of a table's name. -/
def ofTable (s : String) : Except UnknownTable Kind :=
  if s = metadataTable then .ok transactionMetadata
  else match families.find? fun f => f.1 == s with
    | some f => .ok f.2
    | none => .error ⟨s⟩

/-! ## Tests -/

example : all.map code = [1, 2, 3, 4, 5, 6, 7, 8, 9] := by decide
example : all.all fun k => ofName? k.name == some k := by decide
example : (all.map fun k => (ofTable k.table).toOption) = all.map some := by decide
example : (ofTable "transactionMetadata").toOption = none := by decide

end Kind

end RecordStore
