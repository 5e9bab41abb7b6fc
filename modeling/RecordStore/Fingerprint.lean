import RecordStore.Record

/-!
# Fingerprints

A fingerprint is a stable digest of sixty-four bits of an entry's address.  Two
steps make it.

* `absorb` runs over bytes: it adds each byte into the state by exclusive or
  and multiplies by an odd constant.
* `avalanche` mixes a state so that its high and its low bits are both usable.
  It is a sequence of shifts and odd multiplications.

The fingerprint of an address absorbs the code of the kind and the tag of the
key's form, then the bytes of the key, and is mixed once.  Arithmetic is modulo
two to the sixty-four.
-/

namespace RecordStore

namespace Fingerprint

/-- The state that every digest starts from. -/
def basis : UInt64 := 0xcbf29ce484222325

/-- The odd multiplier of the absorbing step. -/
def multiplier : UInt64 := 0x100000001b3

/-- One byte added to a state. -/
def absorbByte (state : UInt64) (b : UInt8) : UInt64 :=
  (state ^^^ b.toUInt64) * multiplier

/-- A byte string added to a state, byte by byte. -/
def absorb (state : UInt64) (bs : Bytes) : UInt64 :=
  bs.foldl absorbByte state

/-- A state folded onto itself: the high half is added into the low half. -/
def fold (h : UInt64) : UInt64 :=
  h ^^^ (h >>> 33)

/-- The final mixing of a state. -/
def avalanche (h : UInt64) : UInt64 :=
  fold (fold (fold h * 0xff51afd7ed558ccd) * 0xc4ceb9fe1a85ec53)

/-- The fingerprint of key bytes of a form in a table. -/
def ofRaw (kind : Kind) (form : KeyForm) (bytes : Bytes) : UInt64 :=
  avalanche (absorb (absorb basis [kind.code, form.tag]) bytes)

/-- The fingerprint of an address. -/
def ofId (id : EntryId) : UInt64 :=
  ofRaw id.kind id.key.form id.key.bytes

/-! ## Tests -/

example : absorb basis [] = basis := rfl
example : avalanche 0 = 0 := by decide

end Fingerprint

end RecordStore
