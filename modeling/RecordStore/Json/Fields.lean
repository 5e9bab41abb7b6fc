import RecordStore.Json.Text

/-!
# Reading structures from JSON

The rules by which structured values are read, shared by every type that has a
JSON form.

* A structure is an object or an array.  In an object the members may come in any
  order, and members that are no fields of the structure are skipped.  A field
  given twice is refused.  In an array the fields stand in their fixed order.
* A choice among names is the name, or an object whose only member has that name
  and the value `null`.
* A byte string is a string, or an array of numbers below 256.
* A natural number is written with digits alone, and is bounded.
-/

namespace RecordStore

namespace Json

/-! ## Members -/

/-- The members of an object, with their names read. -/
abbrev Fields := List (List Char × Json)

/-- Reads the members of an object as the fields of a structure.  Refuses a name
that cannot be read, a field given twice, and a skipped value that may not be
skipped. -/
def fields? (names : List String) (members : List (List Char × Json)) : Option Fields := do
  let read ← members.mapM fun m => (name? m.1).map fun n => (n, m.2)
  let known := names.map String.toList
  let skipped := read.filter fun m => !known.contains m.1
  if skipped.all (fun m => m.2.isSkippable) &&
      known.all (fun n => (read.filter fun m => m.1 == n).length ≤ 1) then
    pure read
  else none

/-- The value of a field, if it is given. -/
def Fields.get? (fields : Fields) (name : String) : Option Json :=
  (fields.find? fun m => m.1 == name.toList).map (·.2)

/-! ## Simple values -/

def choice? {α : Type} (ofName? : String → Option α) : Json → Option α
  | string raw => (name? raw).bind fun n => ofName? (String.ofList n)
  | object [(raw, null)] => (name? raw).bind fun n => ofName? (String.ofList n)
  | _ => none

/-- The value of decimal digits. -/
def decimal (digits : List Char) : Nat :=
  digits.foldl (fun n c => 10 * n + (c.toNat - 48)) 0

def natBelow? (bound : Nat) : Json → Option Nat
  | number digits =>
      if digits.all isDigit && decimal digits < bound then some (decimal digits) else none
  | _ => none

def word64? : Json → Option Nat := natBelow? UInt64.size

def byte? (v : Json) : Option UInt8 :=
  (natBelow? 256 v).map UInt8.ofNat

def byteString? : Json → Option Bytes
  | string raw => bytes? raw
  | array items => items.mapM byte?
  | _ => none

def bool? : Json → Option Bool
  | bool b => some b
  | _ => none

def optional? {α : Type} (value? : Json → Option α) : Json → Option (Option α)
  | null => some none
  | v => (value? v).map some

def list? {α : Type} (value? : Json → Option α) : Json → Option (List α)
  | array items => items.mapM value?
  | _ => none

/-- The array form of a byte string. -/
def ofBytes (bs : Bytes) : Json :=
  array (bs.map fun b => ofNat b.toNat)

end Json

end RecordStore
