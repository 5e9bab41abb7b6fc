import RecordStore.Record
import RecordStore.Key.Json

/-!
# The JSON form of records

A record is a structure of four fields, `kind`, `bytes`, `metadata` and `exists`.
In an object the field `metadata` may be left out, which is the same as `null`.
-/

namespace RecordStore

namespace Record

def toJson (r : Record) : Json :=
  .ofMembers [("kind", r.kind.toJson), ("bytes", .ofBytes r.bytes),
    ("metadata", (r.metadata.map Json.ofBytes).getD .null), ("exists", .bool r.present)]

/-- Reads a record from the values of its fields. -/
def ofFields? (kind bytes metadata present : Json) : Option Record := do
  let kind ← Kind.ofJson? kind
  let bytes ← bytes.byteString?
  let metadata ← metadata.optional? Json.byteString?
  let present ← present.bool?
  pure ⟨kind, bytes, metadata, present⟩

def ofJson? : Json → Option Record
  | .object members => do
      let fields ← Json.fields? ["kind", "bytes", "metadata", "exists"] members
      ofFields? (← fields.get? "kind") (← fields.get? "bytes")
        ((fields.get? "metadata").getD .null) (← fields.get? "exists")
  | .array [kind, bytes, metadata, present] => ofFields? kind bytes metadata present
  | _ => none

def read? (text : String) : Option Record :=
  (Json.read? text.toList).bind ofJson?

example : read? "\x7b\"kind\":\"tag\",\"bytes\":[],\"exists\":false\x7d" = some (missing .tag) := by
  decide +kernel
example : read? "[\"tag\",[],null]" = none := by decide +kernel

end Record

end RecordStore
