import RecordStore.Cache.Config
import RecordStore.Kind.Json

/-!
# The JSON form of configurations

A configuration is a structure of four fields: `byte_budget`, `excluded_kinds`,
`eviction_retry_interval_ms` and `eviction_queue_capacity`.  A field that is left
out takes its default, be it a member of an object or the end of an array.  A
field that is given as `null` is refused.
-/

namespace RecordStore

namespace Cache

namespace Config

/-- Reads a field that may be left out. -/
def given? {α : Type} (value? : Json → Option α) (default : α) : Option Json → Option α
  | none => some default
  | some v => value? v

/-- Reads a configuration from the values of its fields. -/
def ofFields? (budget kinds retry queue : Option Json) : Option Config := do
  let standard : Config := {}
  let budget ← given? Json.word64? standard.byteBudget budget
  let kinds ← given? (Json.list? Kind.ofJson?) standard.excludedKinds kinds
  let retry ← given? Json.word64? standard.retryInterval retry
  let queue ← given? Json.word64? standard.queueCapacity queue
  pure ⟨budget, kinds, retry, queue⟩

def ofJson? : Json → Option Config
  | .object members => do
      let fields ← Json.fields? ["byte_budget", "excluded_kinds", "eviction_retry_interval_ms",
        "eviction_queue_capacity"] members
      ofFields? (fields.get? "byte_budget") (fields.get? "excluded_kinds")
        (fields.get? "eviction_retry_interval_ms") (fields.get? "eviction_queue_capacity")
  | .array items =>
      if items.length ≤ 4 then ofFields? items[0]? items[1]? items[2]? items[3]? else none
  | _ => none

def read? (text : String) : Option Config :=
  (Json.read? text.toList).bind ofJson?

example : read? "[]" = some {} ∧ read? "[7]" = some { byteBudget := 7 } := by decide +kernel
example : read? "[1,[],2,3,4]" = none := by decide +kernel
example : read? "\x7b\"byte_budget\":null\x7d" = none := by decide +kernel

end Config

end Cache

end RecordStore
