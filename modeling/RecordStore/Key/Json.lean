import RecordStore.Key
import RecordStore.Kind.Json

/-!
# The JSON form of keys

A key is a structure of two fields, `kind` for its form and `bytes`.  Both must be
given.
-/

namespace RecordStore

namespace Key

def toJson (k : Key) : Json :=
  .ofMembers [("kind", k.form.toJson), ("bytes", .ofBytes k.bytes)]

/-- Reads a key from the values of its fields. -/
def ofFields? (form bytes : Json) : Option Key := do
  let form ← KeyForm.ofJson? form
  let bytes ← bytes.byteString?
  pure ⟨form, bytes⟩

def ofJson? : Json → Option Key
  | .object members => do
      let fields ← Json.fields? ["kind", "bytes"] members
      ofFields? (← fields.get? "kind") (← fields.get? "bytes")
  | .array [form, bytes] => ofFields? form bytes
  | _ => none

def read? (text : String) : Option Key :=
  (Json.read? text.toList).bind ofJson?

example : (hash [1, 2]).toJson.text = "\x7b\"kind\":\"hash\",\"bytes\":[1,2]\x7d" := by
  decide +kernel
example : read? "\x7b\"bytes\":\"a\",\"x\":[],\"kind\":\x7b\"index\":null\x7d\x7d"
    = some ⟨.index, [97]⟩ := by decide +kernel
example : read? "[\"hash\",[0,255]]" = some (hash [0, 255]) := by decide +kernel
example : read? "[\"hash\",[256]]" = none ∧ read? "[\"hash\"]" = none := by decide +kernel

end Key

end RecordStore
