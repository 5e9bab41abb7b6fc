/-!
# Byte strings

Keys and values are byte strings.  A byte string is a list of bytes, compared
lexicographically: the first differing byte decides, and a proper prefix is
smaller than what it begins.

Two written forms are used.

* hex: two lower-case digits per byte, the high half first.
* thirty-two bit words: four bytes, either the high byte first (the form of an
  index key, so that byte order is numeric order) or the low byte first.
-/

namespace RecordStore

/-- A string of bytes. -/
abbrev Bytes := List UInt8

namespace Bytes

/-! ## Hex -/

/-- The lower-case hex digit of a number below sixteen. -/
def hexDigit (n : Nat) : Char :=
  if n < 10 then Char.ofNat (48 + n) else Char.ofNat (87 + n)

/-- The two hex digits of a byte. -/
def hexPair (b : UInt8) : List Char :=
  [hexDigit (b.toNat / 16), hexDigit (b.toNat % 16)]

/-- A byte string in hex. -/
def toHex (bs : Bytes) : String :=
  String.ofList (bs.flatMap hexPair)

/-- The value of a hex digit, of either case. -/
def hexValue? (c : Char) : Option Nat :=
  if '0' ≤ c ∧ c ≤ '9' then some (c.toNat - 48)
  else if 'a' ≤ c ∧ c ≤ 'f' then some (c.toNat - 87)
  else if 'A' ≤ c ∧ c ≤ 'F' then some (c.toNat - 55)
  else none

/-- Reads pairs of hex digits.  An odd digit at the end is refused. -/
def ofHexDigits? : List Char → Option Bytes
  | [] => some []
  | [_] => none
  | hi :: lo :: rest => do
      let h ← hexValue? hi
      let l ← hexValue? lo
      let bs ← ofHexDigits? rest
      pure (UInt8.ofNat (16 * h + l) :: bs)

def ofHex? (s : String) : Option Bytes :=
  ofHexDigits? s.toList

/-! ## Words -/

/-- The four bytes of a word, the high byte first. -/
def ofWord (n : UInt32) : Bytes :=
  [(n >>> 24).toUInt8, (n >>> 16).toUInt8, (n >>> 8).toUInt8, n.toUInt8]

/-- The four bytes of a word, the low byte first. -/
def ofWordLow (n : UInt32) : Bytes :=
  (ofWord n).reverse

/-- The word that four bytes spell, the high byte first. -/
def toWord? : Bytes → Option UInt32
  | [a, b, c, d] =>
      some ((a.toUInt32 <<< 24) ||| (b.toUInt32 <<< 16) ||| (c.toUInt32 <<< 8) ||| d.toUInt32)
  | _ => none

/-- The sixteen hex digits of a sixty-four bit word. -/
def hexOfWord64 (n : UInt64) : String :=
  toHex [(n >>> 56).toUInt8, (n >>> 48).toUInt8, (n >>> 40).toUInt8, (n >>> 32).toUInt8,
    (n >>> 24).toUInt8, (n >>> 16).toUInt8, (n >>> 8).toUInt8, n.toUInt8]

/-- The sixty-four bit word that a byte string spells, the high byte first. -/
def toWord64 (bs : Bytes) : UInt64 :=
  bs.foldl (fun n b => (n <<< 8) ||| b.toUInt64) 0

/-! ## Tests -/

example : ofHexDigits? "00ff1A".toList = some [0, 255, 26] := by decide
example : ofHexDigits? "abc".toList = none := by decide
example : [0, 255, 26].flatMap hexPair = "00ff1a".toList := by decide
example : toWord? (ofWord 0x01020304) = some 0x01020304 := by decide
example : compare ([1] : Bytes) [1, 0] = .lt ∧ compare ([2] : Bytes) [1, 9] = .gt := by decide

end Bytes

end RecordStore
