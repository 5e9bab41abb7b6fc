import RecordStore.Bytes

/-!
# JSON values

A JSON value as it is written: objects keep the order and the repetitions of
their members, numbers keep their digits, and strings keep their escapes.  What
a string or a number stands for depends on who reads it, so that is left to
`RecordStore.Json.Text` and to the readers of the forms.

`Json.write` gives the text of a value without any blanks.
-/

namespace RecordStore

/-- A JSON value as it is written. -/
inductive Json where
  /-- The word `null`. -/
  | null
  /-- The words `true` and `false`. -/
  | bool (value : Bool)
  | number (digits : List Char)
  /-- A string, by the characters between its quotes. -/
  | string (raw : List Char)
  | array (items : List Json)
  /-- An object: each member's name, as a string is kept, and its value. -/
  | object (members : List (List Char × Json))

namespace Json

/-! ## Writing -/

def quoted (raw : List Char) : List Char :=
  '"' :: raw ++ ['"']

mutual

/-- The text of a value, without blanks. -/
def write : Json → List Char
  | null => "null".toList
  | bool true => "true".toList
  | bool false => "false".toList
  | number digits => digits
  | string raw => quoted raw
  | array items => '[' :: writeItems items
  | object members => '{' :: writeMembers members

/-- The items of an array, from the first on, with the closing bracket. -/
def writeItems : List Json → List Char
  | [] => [']']
  | [v] => write v ++ [']']
  | v :: rest => write v ++ ',' :: writeItems rest

/-- The members of an object, from the first on, with the closing brace. -/
def writeMembers : List (List Char × Json) → List Char
  | [] => ['}']
  | [(name, v)] => quoted name ++ ':' :: write v ++ ['}']
  | (name, v) :: rest => quoted name ++ ':' :: write v ++ ',' :: writeMembers rest

end

/-- The number of a natural number. -/
def ofNat (n : Nat) : Json :=
  number (Nat.toDigits 10 n)

/-- The characters that stand for a character between quotes.  The quote, the
backslash and the control characters are escaped, and nothing else is. -/
def escape (c : Char) : List Char :=
  match c with
  | '"' => ['\\', '"']
  | '\\' => ['\\', '\\']
  | '\n' => ['\\', 'n']
  | '\r' => ['\\', 'r']
  | '\t' => ['\\', 't']
  | '\x08' => ['\\', 'b']
  | '\x0c' => ['\\', 'f']
  | c => if c.toNat < 32 then "\\u00".toList ++ Bytes.hexPair (UInt8.ofNat c.toNat) else [c]

def ofText (s : String) : Json :=
  string (s.toList.flatMap escape)

/-- The string of a text that needs no escapes. -/
def ofName (s : String) : Json :=
  string s.toList

/-- The object of members whose names need no escapes. -/
def ofMembers (members : List (String × Json)) : Json :=
  object (members.map fun m => (m.1.toList, m.2))

/-- The text of a value as a string. -/
def text (v : Json) : String :=
  String.ofList v.write

example : (ofMembers [("a", array [ofNat 10, null]), ("b", bool true)]).write
    = "\x7b\"a\":[10,null],\"b\":true\x7d".toList := by decide

end Json

end RecordStore
