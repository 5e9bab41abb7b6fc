import RecordStore.Listener
import RecordStore.Json

/-!
# Deliveries in words

A delivery is written as one line: `L` and the number of the leaf, a word for the
notice, and what the notice carries, separated by single blanks.  The arguments of
an event are written as a JSON array.
-/

namespace RecordStore

/-- What a leaf is told, in words. -/
def Notice.text : Notice → String
  | .change key record reason =>
      "change " ++ (record.idAt key).text ++ " " ++ record.bytes.toHex ++ " " ++ reason
  | .event message args =>
      "publish " ++ message ++ " " ++ (Json.array (args.map Json.ofText)).text
  | .shutdown => "shutdown"

/-- A delivery as a line. -/
def Delivery.text (d : Delivery) : String :=
  "L" ++ toString d.leaf ++ " " ++ d.notice.text

example : (Delivery.text ⟨0, .event "m" ["a", "\n"]⟩) = "L0 publish m [\"a\",\"\\n\"]" := by
  decide +kernel

end RecordStore
