import RecordStore.Kind

/-!
# Keys

A key is a form and a string of bytes.  Keys of different forms are never
equal, even when their bytes are.  Keys are ordered by form first, then
lexicographically by bytes.  An index key spells its index with the high byte
first, so index keys are in numeric order.

A key has two written forms.

* `Key.display`: `#` and the number for an index key of four bytes, else hex.
* `Key.text`: `h:` or `i:`, then hex.  This one tells the forms apart.

An entry is addressed by its kind and its key, an `EntryId`.
-/

namespace RecordStore

/-- The identity of an entity within its table. -/
structure Key where
  /-- What the bytes encode. -/
  form : KeyForm
  /-- The encoded identity. -/
  bytes : Bytes
  deriving DecidableEq, Inhabited

namespace Key

def hash (bytes : Bytes) : Key := ⟨.hash, bytes⟩

/-- The key of a milestone index. -/
def index (n : UInt32) : Key := ⟨.index, Bytes.ofWord n⟩

/-- The key that a table uses for given bytes. -/
def ofRaw (kind : Kind) (bytes : Bytes) : Key := ⟨kind.keyForm, bytes⟩

/-- The index of an index key.  Hash keys and index keys that are not four bytes
long have none. -/
def asIndex (k : Key) : Option UInt32 :=
  match k.form with
  | .hash => none
  | .index => Bytes.toWord? k.bytes

/-- Whether the bytes of a key begin with given bytes. -/
def startsWith (k : Key) (pre : Bytes) : Bool :=
  pre.isPrefixOf k.bytes

/-! ## Order -/

/-- Keys are ordered by form, then by bytes. -/
instance : Ord Key := ⟨compareLex (compareOn form) (compareOn bytes)⟩

instance : Std.TransOrd Key :=
  inferInstanceAs (Std.TransCmp (compareLex (compareOn form) (compareOn bytes)))

instance : Std.LawfulEqOrd Key where
  eq_of_compare {a b} h := by
    have h : (compare a.form b.form).then (compare a.bytes b.bytes) = .eq := h
    obtain ⟨hf, hb⟩ := Ordering.then_eq_eq.1 h
    cases a; cases b
    exact congr (congrArg Key.mk (Std.LawfulEqOrd.eq_of_compare hf))
      (Std.LawfulEqOrd.eq_of_compare hb)

instance : LT Key := ltOfOrd

instance : LE Key := leOfOrd

/-! ## Written forms -/

/-- The form of a key that is read by people. -/
def display (k : Key) : String :=
  match k.asIndex with
  | some n => "#" ++ toString n.toNat
  | none => k.bytes.toHex

/-- The form of a key that names its form too. -/
def text (k : Key) : String :=
  match k.form with
  | .hash => "h:" ++ k.bytes.toHex
  | .index => "i:" ++ k.bytes.toHex

/-! ## Tests -/

example : (index 258).bytes = [0, 0, 1, 2] ∧ (index 258).asIndex = some 258 := by decide
example : (hash [0, 0, 1, 2]).asIndex = none := by decide
example : index 255 < index 256 ∧ hash [255] < index 0 ∧ hash [1] < hash [1, 0] := by decide
example : (hash [1, 2, 3]).startsWith [1, 2] = true := by decide

end Key

/-- The address of an entry: its table and its key there. -/
structure EntryId where
  /-- The table. -/
  kind : Kind
  /-- The key within the table. -/
  key : Key
  deriving DecidableEq, Inhabited

namespace EntryId

/-- Addresses are ordered by kind, then by key. -/
instance : Ord EntryId := ⟨compareLex (compareOn kind) (compareOn key)⟩

instance : Std.TransOrd EntryId :=
  inferInstanceAs (Std.TransCmp (compareLex (compareOn kind) (compareOn key)))

instance : Std.LawfulEqOrd EntryId where
  eq_of_compare {a b} h := by
    have h : (compare a.kind b.kind).then (compare a.key b.key) = .eq := h
    obtain ⟨hk, hk'⟩ := Ordering.then_eq_eq.1 h
    cases a; cases b
    exact congr (congrArg EntryId.mk (Std.LawfulEqOrd.eq_of_compare hk))
      (Std.LawfulEqOrd.eq_of_compare hk')

/-- The written form of an address: the kind's name, a slash and the key. -/
def text (id : EntryId) : String :=
  id.kind.name ++ "/" ++ id.key.text

end EntryId

end RecordStore
