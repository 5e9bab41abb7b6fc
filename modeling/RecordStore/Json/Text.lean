import RecordStore.Json.Reader

/-!
# What a JSON string stands for

The characters between the quotes of a string stand for a list of code points: a
character for itself, an escape for one code point.  An escape of four hex digits
spells a unit of sixteen bits.  A high surrogate directly followed by a low one is
a single code point beyond the sixteen bits.  Any other surrogate stands alone.

Three readers use this, and they differ in what they refuse.

* `name?` reads a name.  It refuses a lone surrogate, which is no character, and
  a control character that is not escaped.
* `bytes?` reads a string of bytes, the UTF-8 of the code points.  It takes
  control characters as they are, and a lone surrogate gives the three bytes that
  the rule of UTF-8 would give.
* `isSkippable` is for a value nobody reads.  It refuses control characters, and
  takes any well-formed escape.
-/

namespace RecordStore

namespace Json

/-! ## Code points -/

/-- The code point of an escape of one letter. -/
def escape? : Char → Option Nat
  | '"' => some 0x22
  | '\\' => some 0x5c
  | '/' => some 0x2f
  | 'b' => some 0x08
  | 'f' => some 0x0c
  | 'n' => some 0x0a
  | 'r' => some 0x0d
  | 't' => some 0x09
  | _ => none

/-- The value of four hex digits. -/
def unit? (a b c d : Char) : Option Nat := do
  let a ← Bytes.hexValue? a
  let b ← Bytes.hexValue? b
  let c ← Bytes.hexValue? c
  let d ← Bytes.hexValue? d
  pure (((a * 16 + b) * 16 + c) * 16 + d)

/-- The code points and units that characters of a string spell. -/
def units? : List Char → Option (List Nat)
  | [] => some []
  | '\\' :: 'u' :: a :: b :: c :: d :: rest => do
      let unit ← unit? a b c d
      let units ← units? rest
      pure (unit :: units)
  | '\\' :: c :: rest => do
      let unit ← escape? c
      let units ← units? rest
      pure (unit :: units)
  | ['\\'] => none
  | c :: rest => (units? rest).map (c.toNat :: ·)

/-- Whether a unit is the first half of a code point beyond sixteen bits. -/
def isHigh (n : Nat) : Bool := 0xd800 ≤ n && n < 0xdc00

/-- Whether a unit is the second half of a code point beyond sixteen bits. -/
def isLow (n : Nat) : Bool := 0xdc00 ≤ n && n < 0xe000

/-- Joins each high surrogate with a low one that follows it. -/
def joinPairs : List Nat → List Nat
  | [] => []
  | [n] => [n]
  | hi :: lo :: rest =>
      if isHigh hi && isLow lo then
        (0x10000 + (hi - 0xd800) * 0x400 + (lo - 0xdc00)) :: joinPairs rest
      else hi :: joinPairs (lo :: rest)

/-- The code points that characters of a string stand for. -/
def points? (raw : List Char) : Option (List Nat) :=
  (units? raw).map joinPairs

/-! ## Readers -/

/-- Whether no control character stands unescaped. -/
def isPlain (raw : List Char) : Bool :=
  raw.all fun c => 0x20 ≤ c.toNat

/-- Whether a code point is a surrogate. -/
def isSurrogate (n : Nat) : Bool := isHigh n || isLow n

def name? (raw : List Char) : Option (List Char) := do
  let points ← points? raw
  if isPlain raw && points.all (fun n => !isSurrogate n) then
    pure (points.map Char.ofNat)
  else none

/-- The bytes of a code point, by the rule of UTF-8. -/
def utf8 (n : Nat) : Bytes :=
  if n < 0x80 then [UInt8.ofNat n]
  else if n < 0x800 then [UInt8.ofNat (0xc0 + n / 0x40), UInt8.ofNat (0x80 + n % 0x40)]
  else if n < 0x10000 then
    [UInt8.ofNat (0xe0 + n / 0x1000), UInt8.ofNat (0x80 + n / 0x40 % 0x40),
      UInt8.ofNat (0x80 + n % 0x40)]
  else
    [UInt8.ofNat (0xf0 + n / 0x40000), UInt8.ofNat (0x80 + n / 0x1000 % 0x40),
      UInt8.ofNat (0x80 + n / 0x40 % 0x40), UInt8.ofNat (0x80 + n % 0x40)]

def bytes? (raw : List Char) : Option Bytes :=
  (points? raw).map fun points => points.flatMap utf8

/-- Whether a string may stand where nobody reads it. -/
def stringIsSkippable (raw : List Char) : Bool :=
  isPlain raw && (units? raw).isSome

mutual

/-- Whether a value may stand where nobody reads it. -/
def isSkippable : Json → Bool
  | string raw => stringIsSkippable raw
  | array items => itemsAreSkippable items
  | object members => membersAreSkippable members
  | null | bool _ | number _ => true

/-- Whether every item may stand where nobody reads it. -/
def itemsAreSkippable : List Json → Bool
  | [] => true
  | v :: rest => isSkippable v && itemsAreSkippable rest

/-- Whether every member may stand where nobody reads it. -/
def membersAreSkippable : List (List Char × Json) → Bool
  | [] => true
  | (name, v) :: rest => stringIsSkippable name && isSkippable v && membersAreSkippable rest

end

/-! ## Tests -/

example : points? "a\\u0041\\ud83d\\ude00".toList = some [97, 65, 0x1f600] := by decide
example : bytes? "\\ud800\\ud83d\\ude00".toList
    = some [0xed, 0xa0, 0x80, 0xf0, 0x9f, 0x98, 0x80] := by decide
example : name? "\\ud800".toList = none ∧ name? "\t".toList = none := by decide
example : bytes? "\t".toList = some [9] ∧ stringIsSkippable "\\ud800".toList = true := by decide
example : points? "\\x".toList = none ∧ points? "\\u12".toList = none := by decide

end Json

end RecordStore
