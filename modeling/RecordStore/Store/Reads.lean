import RecordStore.Store

/-!
# Reading from a store

There are two kinds of reads.

A *search* ends at the first component that has something.  The cache is asked first,
then the backends in their order.  What a backend has found is offered to the cache,
under the key it was found at.  A search for mere existence offers nothing.

A *collection* asks every component and puts the answers together: counts are added,
and sets of keys united.  The cache is not asked for missing references, and the first
backend that reports any settles that question.

A cache that fails counts as one that has nothing.  A backend that fails ends the
read with an error that carries its number.
-/

namespace RecordStore

namespace Store

/-! ## Searches -/

/-- Asks backends in their order until one has something. -/
def searchBackends {α : Type} (call : Call) (found? : call.Answer → Option α) :
    List Nat → Prog (Result (Option α))
  | [] => return .ok none
  | index :: rest => do
      match ← ask (.backend index call) with
      | .error e => return .error (.backend index e)
      | .ok answer =>
          match found? answer with
          | some a => return .ok (some a)
          | none => searchBackends call found? rest

/-- What the cache answers.  A failing cache, or none at all, has nothing. -/
def askCache (l : Layout) (call : Call) : Prog call.Answer := do
  if l.cache.isNone then return call.blank
  match ← ask (.cache call) with
  | .ok answer => return answer
  | .error _ => return call.blank

/-- Offers an entry to the cache, if there is one. -/
def readThrough (l : Layout) (e : Entry) : Prog Unit := do
  if l.cache.isSome then
    let _ ← ask (.offer e.1 e.2)

/-- Searches the cache, then the backends, and offers what a backend has found. -/
def search {α : Type} (l : Layout) (call : Call) (found? : call.Answer → Option α)
    (admissible : α → Option Entry) : Prog (Result (Option α)) := opened do
  match found? (← askCache l call) with
  | some a => return .ok (some a)
  | none =>
      match ← searchBackends call found? l.indices with
      | .ok (some a) =>
          match admissible a with
          | some e => readThrough l e
          | none => pure ()
          return .ok (some a)
      | other => return other

def load (l : Layout) (kind : Kind) (key : Key) : Prog (Result (Option Record)) :=
  search l (.get kind key) id fun r => some (key, r)

/-- The record under the key that a table uses for given bytes. -/
def find (l : Layout) (kind : Kind) (raw : Bytes) : Prog (Result (Option Record)) :=
  search l (.seek kind raw) id fun r => some (.ofRaw kind raw, r)

/-- Something where the answer is yes. -/
def whenTrue (b : Bool) : Option Unit := if b then some () else none

/-- Whether any component says yes. -/
def searchYes (l : Layout) (call : Call) (answer : call.Answer → Bool) : Prog (Result Bool) := do
  match ← search l call (fun a => whenTrue (answer a)) (fun _ => none) with
  | .ok found => return .ok found.isSome
  | .error e => return .error e

/-- Whether there is an entry under a key. -/
def has (l : Layout) (kind : Kind) (key : Key) : Prog (Result Bool) :=
  searchYes l (.has kind key) id

/-- Whether there may be an entry under a key. -/
def mayHave (l : Layout) (kind : Kind) (key : Key) : Prog (Result Bool) :=
  searchYes l (.mayHave kind key) id

/-- The entry with the smallest key, in the first component that has entries. -/
def first (l : Layout) (kind : Kind) : Prog (Result (Option Entry)) :=
  search l (.first kind) id some

/-- The entry with the greatest key, in the first component that has entries. -/
def latest (l : Layout) (kind : Kind) : Prog (Result (Option Entry)) :=
  search l (.latest kind) id some

/-- The next entry above a key, in the first component that has one. -/
def next (l : Layout) (kind : Kind) (key : Key) : Prog (Result (Option Entry)) :=
  search l (.next kind key) id some

/-- The next entry below a key, in the first component that has one. -/
def previous (l : Layout) (kind : Kind) (key : Key) : Prog (Result (Option Entry)) :=
  search l (.previous kind key) id some

/-! ## Collections -/

/-- Puts the answers of backends together. -/
def collectBackends {σ : Type} (call : Call) (add : σ → call.Answer → σ) (s : σ) :
    List Nat → Prog (Result σ)
  | [] => return .ok s
  | index :: rest => do
      match ← ask (.backend index call) with
      | .error e => return .error (.backend index e)
      | .ok answer => collectBackends call add (add s answer) rest

/-- Puts the answers of the cache and the backends together. -/
def collect {σ : Type} (l : Layout) (call : Call) (add : σ → call.Answer → σ) (s : σ) :
    Prog (Result σ) := opened do
  let answer ← askCache l call
  collectBackends call add (add s answer) l.indices

def nonempty? {α : Type} (values : List α) : Option (List α) :=
  if values.isEmpty then none else some values

/-- The set of the values in a collection, if there are any. -/
def settle {α : Type} [Ord α] (r : Result (List α)) : Result (Option (List α)) :=
  r.map fun values => nonempty? (sortedSet values)

def count (l : Layout) (kind : Kind) : Prog (Result Nat) :=
  collect l (.count kind) (fun n m => n + m) (0 : Nat)

/-- The keys in all components that begin with given bytes. -/
def keysStartingWith (l : Layout) (kind : Kind) (start : Bytes) :
    Prog (Result (Option (List Key))) := do
  return settle (← collect l (.keysStartingWith kind start) (fun ks more => ks ++ more) [])

/-- The bytes of the keys in all components. -/
def loadAllKeys (l : Layout) (kind : Kind) : Prog (Result (Option (List Bytes))) := do
  return settle (← collect l (.loadAllKeys kind) (fun ks more => ks ++ more) [])

/-- The keys that another table lacks, as the first backend reports that has any. -/
def keysMissingFrom (l : Layout) (kind referenced : Kind) : Prog (Result (List Key)) := opened do
  let found ← searchBackends (.keysMissingFrom kind referenced) nonempty? l.indices
  return found.map (Option.getD · [])

end Store

end RecordStore
