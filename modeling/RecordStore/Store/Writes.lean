import RecordStore.Store

/-!
# Writing to a store

A write goes to the cache first, then to every backend in its order.  The outcome at
the cache changes nothing.  A backend that fails keeps no other from the write, and
the failures are reported together: how many of how many, and the cause of the first.

Writes that can be accepted answer whether any backend accepted them.  After an update
that no backend failed, the listeners are told.

Clearing a table, or its metadata, goes to the backends alone.
-/

namespace RecordStore

namespace Store

/-- What became of a write at the backends so far. -/
structure Tally where
  /-- The number of backends that failed. -/
  failed : Nat := 0
  first : Option Failure := none
  /-- Whether any backend accepted the write. -/
  accepted : Bool := false

/-- Adds the outcome at one more backend. -/
def Tally.add (t : Tally) : Except Failure Bool → Tally
  | .ok accepted => { t with accepted := t.accepted || accepted }
  | .error e => { t with failed := t.failed + 1, first := some (t.first.getD e) }

/-- The result of a write that a number of backends were sent. -/
def Tally.result (t : Tally) (attempted : Nat) : Result Bool :=
  match t.first with
  | none => .ok t.accepted
  | some cause => .error (.fanOut t.failed attempted cause)

/-- Sends a call to backends one after the other. -/
def sendAll (call : Call) (accepted : call.Answer → Bool) (t : Tally) : List Nat → Prog Tally
  | [] => return t
  | index :: rest => do
      let outcome ← ask (.backend index call)
      sendAll call accepted (t.add (outcome.map accepted)) rest

/-- Sends a call to every backend. -/
def fanOut (l : Layout) (call : Call) (accepted : call.Answer → Bool) : Prog (Result Bool) := do
  let t ← sendAll call accepted {} l.indices
  return t.result l.backends.length

/-- Sends a call to the cache, if there is one. -/
def tellCache (l : Layout) (call : Call) : Prog Unit := do
  if l.cache.isSome then
    let _ ← ask (.cache call)

/-- Sends a call to the cache and to every backend. -/
def write (l : Layout) (call : Call) (accepted : call.Answer → Bool) : Prog (Result Bool) :=
  opened do
    tellCache l call
    fanOut l call accepted

/-- The result of a write that cannot be accepted. -/
def done (r : Result Bool) : Result Unit := r.map fun _ => ()

/-! ## Operations -/

def save (l : Layout) (record : Record) (key : Key) : Prog (Result Bool) :=
  write l (.save record key) id

def saveBatch (l : Layout) (entries : List Entry) : Prog (Result Bool) :=
  write l (.saveBatch entries) id

/-- Replaces a record whose value changed, and tells the listeners. -/
def update (l : Layout) (record : Record) (key : Key) (reason : String) : Prog (Result Bool) := do
  match ← write l (.update record key reason) id with
  | .error e => return .error e
  | .ok accepted =>
      ask (.notify (.change key record reason))
      return .ok accepted

def delete (l : Layout) (kind : Kind) (key : Key) : Prog (Result Unit) := do
  return done (← write l (.delete kind key) fun _ => true)

def deleteBatch (l : Layout) (ids : List EntryId) : Prog (Result Unit) := do
  return done (← write l (.deleteBatch ids) fun _ => true)

/-- Removes every entry of a table from the backends. -/
def clearTable (l : Layout) (kind : Kind) : Prog (Result Unit) := do
  return done (← opened (fanOut l (.clear kind) fun _ => true))

/-- Removes the metadata of a table from the backends. -/
def clearMetadata (l : Layout) (kind : Kind) : Prog (Result Unit) := do
  return done (← opened (fanOut l (.clearMetadata kind) fun _ => true))

end Store

end RecordStore
