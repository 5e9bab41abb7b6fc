import RecordStore.Kind
import RecordStore.Json.Fields

/-!
# The JSON form of kinds

A kind and the form of a key are written as their short names.
-/

namespace RecordStore

def KeyForm.toJson (f : KeyForm) : Json := .ofName f.name

/-- Reads the form of a key. -/
def KeyForm.ofJson? : Json → Option KeyForm := Json.choice? ofName?

def Kind.toJson (k : Kind) : Json := .ofName k.name

def Kind.ofJson? : Json → Option Kind := Json.choice? ofName?

def Kind.read? (text : String) : Option Kind :=
  (Json.read? text.toList).bind ofJson?

end RecordStore
