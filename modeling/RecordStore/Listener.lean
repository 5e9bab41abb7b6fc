import RecordStore.Record

/-!
# Listeners

A listener is told about changed entries and free-form events, and is shut down
once.  A group hands every notice on to its members, in order.  Groups may hold
groups, so the listeners of a store form a tree.

What a listener does with a notice lies outside the store.  A *delivery* says that
a notice reached a leaf of the tree.  Leaves carry numbers.  A quiet leaf does
nothing when it is shut down, so it has no delivery then.
-/

namespace RecordStore

/-- A tree of listeners. -/
inductive Listener where
  /-- A listener with a number.  A quiet one ignores its shutdown. -/
  | leaf (number : Nat) (quiet : Bool)
  /-- Hands every notice on to its members, in order. -/
  | group (members : List Listener)

/-- What listeners are told. -/
inductive Notice where
  /-- The value stored under a key changed, for a reason. -/
  | change (key : Key) (record : Record) (reason : String)
  /-- A free-form event with arguments. -/
  | event (message : String) (args : List String)
  /-- The listener is no longer needed. -/
  | shutdown
  deriving DecidableEq

/-- A notice that reached a leaf. -/
structure Delivery where
  /-- The number of the leaf. -/
  leaf : Nat
  notice : Notice
  deriving DecidableEq

namespace Listener

/-- Whether a leaf does nothing about a notice. -/
def ignores (quiet : Bool) : Notice → Bool
  | .shutdown => quiet
  | _ => false

mutual

/-- The deliveries of a notice, in the order they happen. -/
def notify (n : Notice) : Listener → List Delivery
  | leaf number quiet => if ignores quiet n then [] else [⟨number, n⟩]
  | group members => notifyAll n members

/-- The deliveries of a notice to listeners one after the other. -/
def notifyAll (n : Notice) : List Listener → List Delivery
  | [] => []
  | l :: rest => notify n l ++ notifyAll n rest

end

/-- The members of a group.  A leaf has none. -/
def members : Listener → List Listener
  | leaf _ _ => []
  | group members => members

/-- The number of members of a group, not counting theirs. -/
def size (l : Listener) : Nat := l.members.length

/-- Whether a group has no members. -/
def isEmpty (l : Listener) : Bool := l.members.isEmpty

example : (group [leaf 0 false, group [leaf 1 true], leaf 2 false]).notify .shutdown
    = [⟨0, .shutdown⟩, ⟨2, .shutdown⟩] := by decide

end Listener

end RecordStore
