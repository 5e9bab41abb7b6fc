import RecordStore.Json

/-!
# Reading JSON

`Json.read?` reads a whole text as one value, by the grammar of JSON.

* Blanks are the space, the tab, the line feed and the carriage return.  They may
  stand before and after every token.
* A number has no leading zero, and at least one digit after a point or an
  exponent mark.
* A list has no comma after its last item.
* Nothing but blanks may follow the value.

A string ends at the first quote that no backslash precedes.  Whether its escapes
are right is not decided here, since that depends on what the string is read as.

Each reader takes what is left of the text and answers a value with what is left
after it.  Values nest, so the readers of values are bounded by a count of steps.
Each step but the first of a list consumes a character, so twice the length of
the text is enough.
-/

namespace RecordStore

namespace Json

/-! ## Tokens -/

def isBlank (c : Char) : Bool :=
  c == ' ' || c == '\t' || c == '\n' || c == '\r'

/-- The text after its leading blanks. -/
def skipBlanks (s : List Char) : List Char :=
  s.dropWhile isBlank

/-- The text after a word it must begin with. -/
def word? : List Char → List Char → Option (List Char)
  | [], s => some s
  | _ :: _, [] => none
  | w :: ws, c :: s => if w == c then word? ws s else none

/-- The characters up to the closing quote of a string, and the text after it. -/
def string? : List Char → Option (List Char × List Char)
  | [] => none
  | '"' :: s => some ([], s)
  | ['\\'] => none
  | '\\' :: c :: s => (string? s).map fun r => ('\\' :: c :: r.1, r.2)
  | c :: s => (string? s).map fun r => (c :: r.1, r.2)

/-- Whether a character is a decimal digit. -/
def isDigit (c : Char) : Bool := '0' ≤ c && c ≤ '9'

/-- The leading digits of a text, and the text after them. -/
def digits (s : List Char) : List Char × List Char :=
  (s.takeWhile isDigit, s.dropWhile isDigit)

/-- One or more digits. -/
def digits? (s : List Char) : Option (List Char × List Char) :=
  if (digits s).1.isEmpty then none else some (digits s)

/-- Digits without a leading zero. -/
def whole? : List Char → Option (List Char × List Char)
  | '0' :: s => some (['0'], s)
  | s => digits? s

/-- A point and digits, if there is a point. -/
def fraction? : List Char → Option (List Char × List Char)
  | '.' :: s => (digits? s).map fun r => ('.' :: r.1, r.2)
  | s => some ([], s)

/-- The sign of an exponent, if there is one. -/
def sign : List Char → List Char × List Char
  | '+' :: s => (['+'], s)
  | '-' :: s => (['-'], s)
  | s => ([], s)

/-- An exponent mark, a sign and digits, if there is a mark. -/
def exponent? : List Char → Option (List Char × List Char)
  | c :: s =>
      if c == 'e' || c == 'E' then
        (digits? (sign s).2).map fun r => (c :: (sign s).1 ++ r.1, r.2)
      else some ([], c :: s)
  | [] => some ([], [])

/-- A number, sign and all. -/
def number? (s : List Char) : Option (List Char × List Char) := do
  let (minus, s) := match s with
    | '-' :: s => (['-'], s)
    | s => ([], s)
  let (whole, s) ← whole? s
  let (fraction, s) ← fraction? s
  let (exponent, s) ← exponent? s
  pure (minus ++ whole ++ fraction ++ exponent, s)

/-! ## Values -/

mutual

/-- A value, after any blanks. -/
def value? : Nat → List Char → Option (Json × List Char)
  | 0, _ => none
  | n + 1, s =>
      match skipBlanks s with
      | [] => none
      | '"' :: s => (string? s).map fun r => (.string r.1, r.2)
      | '[' :: s =>
          match skipBlanks s with
          | ']' :: s => some (.array [], s)
          | s => (items? n s).map fun r => (.array r.1, r.2)
      | '{' :: s =>
          match skipBlanks s with
          | '}' :: s => some (.object [], s)
          | s => (members? n s).map fun r => (.object r.1, r.2)
      | 'n' :: s => (word? "ull".toList s).map fun s => (.null, s)
      | 't' :: s => (word? "rue".toList s).map fun s => (.bool true, s)
      | 'f' :: s => (word? "alse".toList s).map fun s => (.bool false, s)
      | s => (number? s).map fun r => (.number r.1, r.2)

/-- The items of an array, one at least, and the closing bracket. -/
def items? : Nat → List Char → Option (List Json × List Char)
  | 0, _ => none
  | n + 1, s => do
      let (v, s) ← value? n s
      match skipBlanks s with
      | ',' :: s => (items? n s).map fun r => (v :: r.1, r.2)
      | ']' :: s => some ([v], s)
      | _ => none

/-- The members of an object, one at least, and the closing brace. -/
def members? : Nat → List Char → Option (List (List Char × Json) × List Char)
  | 0, _ => none
  | n + 1, s => do
      let .cons '"' s := skipBlanks s | none
      let (name, s) ← string? s
      let .cons ':' s := skipBlanks s | none
      let (v, s) ← value? n s
      match skipBlanks s with
      | ',' :: s => (members? n s).map fun r => ((name, v) :: r.1, r.2)
      | '}' :: s => some ([(name, v)], s)
      | _ => none

end

def read? (s : List Char) : Option Json :=
  match value? (2 * s.length + 2) s with
  | some (v, rest) => if (skipBlanks rest).isEmpty then some v else none
  | none => none

/-! ## Tests -/

/-- Reads a text and writes it again without its blanks. -/
def respell? (s : String) : Option (List Char) :=
  (read? s.toList).map write

example : respell? " [ 1 , -0.5e+3 , \"a\\\"b\" ] " = some "[1,-0.5e+3,\"a\\\"b\"]".toList := by
  decide +kernel
example : respell? "\x7b \"a\" : \x7b\x7d \x7d" = some "\x7b\"a\":\x7b\x7d\x7d".toList := by
  decide +kernel
example : respell? "[1,]" = none ∧ respell? "01" = none ∧ respell? "1." = none := by
  decide +kernel
example : respell? "nul" = none ∧ respell? "1 2" = none ∧ respell? "" = none := by
  decide +kernel

end Json

end RecordStore
