import RecordStore.Bench.Setup

/-!
# Steps on a bench

A step is one operation on a component, on its probe, or on the store.  Each step is a
program, and ends with a value.

Some steps work on *numbered entries*.  Entry number `n` of a kind has the four bytes
of `n` as its key, the high byte first, in the form that the kind uses.  Its record has
the same bytes, the low byte first.
-/

namespace RecordStore

namespace Bench

/-! ## Values -/

/-- What a step ends with. -/
inductive Value where
  | unit
  | bool (b : Bool)
  | number (n : Nat)
  | text (s : String)
  /-- A word of sixty-four bits. -/
  | word (n : UInt64)
  | record (r : Option Record)
  | entry (e : Option Entry)
  /-- Keys, if there are any to tell. -/
  | keys (ks : Option (List Key))
  /-- The bytes of keys, if there are any to tell. -/
  | rawKeys (ks : Option (List Bytes))
  /-- A component failed. -/
  | failed (e : Failure)
  /-- A cache failed. -/
  | cacheError (e : Cache.Error)
  /-- The store failed. -/
  | storeError (e : Store.Error)
  deriving DecidableEq

def Value.ofAnswer : (call : Call) → call.Answer → Value
  | .init, _ | .shutdown, _ | .delete _ _, _ | .deleteBatch _, _ | .clear _, _
  | .clearMetadata _, _ => .unit
  | .save _ _, b | .saveBatch _, b | .update _ _ _, b | .has _ _, b | .mayHave _ _, b => .bool b
  | .get _ _, r | .seek _ _, r => .record r
  | .first _, e | .latest _, e | .next _ _, e | .previous _ _, e => .entry e
  | .keysStartingWith _ _, ks | .keysMissingFrom _ _, ks => .keys (some ks)
  | .loadAllKeys _, ks => .rawKeys (some ks)
  | .count _, n => .number n

/-- The value of what a component gives back. -/
def Value.ofOutcome (call : Call) : call.Outcome → Value
  | .ok a => .ofAnswer call a
  | .error e => .failed e

/-- The value of what a pass or a flush gives back. -/
def Value.ofPass : Except Cache.Error Nat → Value
  | .ok n => .number n
  | .error e => .cacheError e

/-- The value of what the store gives back. -/
def Value.ofResult {α : Type} (value : α → Value) : Store.Result α → Value
  | .ok a => value a
  | .error e => .storeError e

/-! ## Steps -/

/-- A step on a component. -/
inductive NodeStep where
  | script (c : ScriptChange)
  | release (count : Nat)
  | name
  | len
  | isEmpty
  | call (c : Call)
  | offer (key : Key) (record : Record)
  /-- The number of entries the cache is meant to hold. -/
  | maxSize
  /-- Write every entry of the cache. -/
  | writeAll
  | evict
  /-- Wait for the eviction passes requested so far. -/
  | waitForEvictions
  /-- The hit rate of the cache. -/
  | hitRate
  /-- Offer numbered entries.  Tells how many were admitted. -/
  | fill (kind : Kind) (start count : Nat)
  /-- Whether there are entries under the keys of numbered entries. -/
  | probeHas (kind : Kind) (start count : Nat)
  /-- Whether there may be entries under the keys of numbered entries. -/
  | probeMayHave (kind : Kind) (start count : Nat)

/-- A step on the store. -/
inductive StoreStep where
  | isClosed
  | init
  | shutdown
  /-- The record under a key. -/
  | load (kind : Kind) (key : Key)
  /-- The record under the key of given bytes. -/
  | find (kind : Kind) (raw : Bytes)
  | has (kind : Kind) (key : Key)
  /-- Whether there may be an entry. -/
  | mayHave (kind : Kind) (key : Key)
  | first (kind : Kind)
  | latest (kind : Kind)
  | next (kind : Kind) (key : Key)
  | previous (kind : Kind) (key : Key)
  | count (kind : Kind)
  /-- The keys that begin with given bytes. -/
  | keysStartingWith (kind : Kind) (start : Bytes)
  /-- The bytes of all keys. -/
  | loadAllKeys (kind : Kind)
  /-- The keys that another table lacks. -/
  | keysMissingFrom (kind referenced : Kind)
  | save (record : Record) (key : Key)
  | saveBatch (entries : List Entry)
  /-- Replace a record. -/
  | update (record : Record) (key : Key) (reason : String)
  | delete (kind : Kind) (key : Key)
  | deleteBatch (ids : List EntryId)
  | clearTable (kind : Kind)
  | clearMetadata (kind : Kind)
  | publish (message : String) (args : List String)

/-- A step on a bench. -/
inductive Step where
  | advance (ms : Nat)
  | node (n : Nat) (s : NodeStep)
  | store (s : StoreStep)

/-! ## Programs -/

/-- The key of a numbered entry. -/
def numberedKey (kind : Kind) (n : Nat) : Key := .ofRaw kind (.ofWord (.ofNat n))

/-- The record of a numbered entry. -/
def numberedRecord (kind : Kind) (n : Nat) : Record := .ofBytes kind (.ofWordLow (.ofNat n))

/-- Offers numbered entries one after the other, and counts those admitted. -/
def fill (node : Nat) (a : Access) (kind : Kind) (start admitted : Nat) : Nat → Prog Nat
  | 0 => return admitted
  | count + 1 => do
      let taken ← onCache node a.backend
        (Cache.Service.offer (numberedKey kind start) (numberedRecord kind start))
      fill node a kind (start + 1) (if taken then admitted + 1 else admitted) count

/-- Makes calls one after the other, and writes a digit for each answer. -/
def digits (handler : Handler) (yes : (call : Call) → call.Answer → Bool) (written : List Char) :
    List Call → Prog Value
  | [] => return .text (String.ofList written.reverse)
  | call :: rest => do
      match ← handler call with
      | .ok a => digits handler yes ((if yes call a then '1' else '0') :: written) rest
      | .error e => return .failed e

/-- Whether an answer says that there is an entry. -/
def saysYes : (call : Call) → call.Answer → Bool
  | .has _ _, b | .mayHave _ _, b => b
  | _, _ => false

/-- The keys of numbered entries. -/
def numberedKeys (kind : Kind) (start count : Nat) : List Key :=
  (List.range count).map fun i => numberedKey kind (start + i)

/-- Looks at the cache of a node. -/
def lookAtCache (n : Nat) (value : Cache → Value) : Prog Value := do
  match ← ask (.look n) with
  | .cache r _ => return value r.cache
  | _ => return .unit

/-- The program of a step on a component. -/
def NodeStep.program (n : Nat) (a : Access) : NodeStep → Prog Value
  | script c => do ask (.change n c); return .unit
  | release count => do ask (.release n count); return .unit
  | name => return .text a.name
  | len => do return .number (← ask (.look n)).len
  | isEmpty => do return .bool ((← ask (.look n)).len == 0)
  | call c => do return .ofOutcome c (← a.handler c)
  | offer key record => do
      return .bool (← onCache n a.backend (Cache.Service.offer key record))
  | maxSize => lookAtCache n fun c => .number c.maxSize
  | writeAll => do return .ofPass (← onCache n a.backend (Cache.Service.writeAll a.backendName))
  | evict => do return .ofPass (← onCache n a.backend (Cache.Service.evict a.backendName))
  | waitForEvictions => do
      onCache n a.backend Cache.Service.waitForEvictions
      return .unit
  | hitRate => lookAtCache n fun c => .word c.counters.hitRate.toBits
  | fill kind start count => do return .number (← Bench.fill n a kind start 0 count)
  | probeHas kind start count =>
      digits a.handler saysYes [] ((numberedKeys kind start count).map (.has kind))
  | probeMayHave kind start count =>
      digits a.handler saysYes [] ((numberedKeys kind start count).map (.mayHave kind))

/-- The operation of a step on the store. -/
def StoreStep.operation (l : Store.Layout) : StoreStep → Store.Prog Value
  | isClosed => do return .bool (!(← Store.ask .isOpen))
  | init => do return .ofResult (fun _ => .unit) (← Store.init l)
  | shutdown => do return .ofResult (fun _ => .unit) (← Store.shutdown l)
  | load kind key => do return .ofResult .record (← Store.load l kind key)
  | find kind raw => do return .ofResult .record (← Store.find l kind raw)
  | has kind key => do return .ofResult .bool (← Store.has l kind key)
  | mayHave kind key => do return .ofResult .bool (← Store.mayHave l kind key)
  | first kind => do return .ofResult .entry (← Store.first l kind)
  | latest kind => do return .ofResult .entry (← Store.latest l kind)
  | next kind key => do return .ofResult .entry (← Store.next l kind key)
  | previous kind key => do return .ofResult .entry (← Store.previous l kind key)
  | count kind => do return .ofResult .number (← Store.count l kind)
  | keysStartingWith kind start => do
      return .ofResult .keys (← Store.keysStartingWith l kind start)
  | loadAllKeys kind => do return .ofResult .rawKeys (← Store.loadAllKeys l kind)
  | keysMissingFrom kind referenced => do
      return .ofResult (fun ks => .keys (some ks)) (← Store.keysMissingFrom l kind referenced)
  | save record key => do return .ofResult .bool (← Store.save l record key)
  | saveBatch entries => do return .ofResult .bool (← Store.saveBatch l entries)
  | update record key reason => do return .ofResult .bool (← Store.update l record key reason)
  | delete kind key => do return .ofResult (fun _ => .unit) (← Store.delete l kind key)
  | deleteBatch ids => do return .ofResult (fun _ => .unit) (← Store.deleteBatch l ids)
  | clearTable kind => do return .ofResult (fun _ => .unit) (← Store.clearTable l kind)
  | clearMetadata kind => do return .ofResult (fun _ => .unit) (← Store.clearMetadata l kind)
  | publish message args => do return .ofResult (fun _ => .unit) (← Store.publish message args)

end Bench

end RecordStore
