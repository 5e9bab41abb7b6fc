import RecordStore.Call

/-!
# Calls in words

A call is written as the name of its method and its arguments, each after a single
blank.  Entries are written as their addresses, key bytes as a kind, a slash and
hex.  The addresses of a batch of deletions come in the order of their texts,
since the order of such a batch means nothing.
-/

namespace RecordStore

namespace Call

def method : Call → String
  | init => "init"
  | shutdown => "shutdown"
  | get _ _ => "get"
  | save _ _ => "save"
  | saveBatch _ => "save_batch"
  | update _ _ _ => "update"
  | delete _ _ => "delete"
  | deleteBatch _ => "delete_batch"
  | has _ _ => "exists"
  | mayHave _ _ => "may_exist"
  | seek _ _ => "seek"
  | first _ => "first"
  | latest _ => "latest"
  | next _ _ => "next"
  | previous _ _ => "previous"
  | keysStartingWith _ _ => "keys_starting_with"
  | keysMissingFrom _ _ => "keys_with_missing_references"
  | loadAllKeys _ => "load_all_keys"
  | count _ => "count"
  | clear _ => "clear"
  | clearMetadata _ => "clear_metadata"

/-- Key bytes of a table in words. -/
def rawText (kind : Kind) (raw : Bytes) : String :=
  kind.name ++ "/" ++ raw.toHex

/-- The arguments of a call in words. -/
def args : Call → List String
  | init | shutdown => []
  | get kind key | delete kind key | has kind key | mayHave kind key | next kind key
  | previous kind key => [(EntryId.mk kind key).text]
  | save record key => [(record.idAt key).text]
  | saveBatch entries => entries.map fun e => e.id.text
  | update record key reason => [(record.idAt key).text, reason]
  | deleteBatch ids => (ids.map EntryId.text).mergeSort
  | seek kind raw | keysStartingWith kind raw => [rawText kind raw]
  | keysMissingFrom kind referenced => [kind.name, referenced.name]
  | first kind | latest kind | loadAllKeys kind | count kind | clear kind
  | clearMetadata kind => [kind.name]

/-- A call in words. -/
def text (c : Call) : String :=
  " ".intercalate (c.method :: c.args)

example : (saveBatch
      [(.hash [1], .ofBytes .transaction []), (.index 7, .ofBytes .milestone [])]).text
    = "save_batch transaction/h:01 milestone/i:00000007" := by decide

end Call

end RecordStore
