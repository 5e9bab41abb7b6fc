import RecordStore.Fingerprint

/-!
# The membership filter

A filter answers whether a fingerprint may be in a set, without the set.  It
keeps one byte per fingerprint, its *tag*, in one of two *buckets* of four
places.

* The tag is the top byte of the fingerprint, or one where that byte is zero.
  Zero marks a free place.
* The number of buckets is a power of two.  The low bits of the fingerprint
  choose the first bucket.  The other is its *partner*: the first combined by
  exclusive or with the mixed tag.  The partner of the partner is the first
  again, so a tag can be moved without its fingerprint.

Two fingerprints with the same tag and the same pair of buckets cannot be told
apart.  The filter counts each such class exactly: a tag is added for each
insertion and taken away for each deletion, so a fingerprint inserted more often
than deleted is never denied.

An insertion into two full buckets moves tags.  It takes the place of some tag
in one of the two buckets, puts that tag into its partner bucket, and goes on
with the tag displaced there if that bucket is full too.  After five hundred
moves the tag left over becomes the *stray*.  As long as there is a stray, every
insertion is refused and changes nothing.  Each deletion tries to put the stray
back into a bucket.

The places that give way are chosen by a generator of sixty-four bit words, so a
run can be repeated exactly.
-/

namespace RecordStore

namespace Filter

/-! ## Buckets -/

/-- Four places for tags.  Zero marks a free place. -/
abbrev Bucket := Vector UInt8 4

/-- The number of buckets among which a number of bits chooses. -/
def bucketCount (bits : Nat) : Nat := Nat.pow 2 bits

theorem bucketCount_pos (bits : Nat) : 0 < bucketCount bits := Nat.two_pow_pos bits

/-- The buckets of a filter. -/
abbrev Buckets (bits : Nat) := Vector Bucket (bucketCount bits)

/-- A position among the buckets. -/
abbrev Position (bits : Nat) := Fin (bucketCount bits)

/-- A tag that found no place, with the bucket it was displaced to. -/
structure Stray (bits : Nat) where
  /-- One of the two buckets of the tag. -/
  position : Position bits
  tag : UInt8
  deriving DecidableEq

/-- The low bits of a word. -/
def Position.ofWord (bits : Nat) (w : UInt64) : Position bits :=
  ⟨w.toNat % bucketCount bits, Nat.mod_lt _ (bucketCount_pos bits)⟩

/-- The other bucket of a tag that may stand in a bucket. -/
def partner {bits : Nat} (i : Position bits) (tag : UInt8) : Position bits :=
  ⟨(i.val ^^^ (Fingerprint.avalanche tag.toUInt64).toNat) % bucketCount bits,
    Nat.mod_lt _ (bucketCount_pos bits)⟩

def tagOf (fingerprint : UInt64) : UInt8 :=
  let top := (fingerprint >>> 56).toUInt8
  if top = 0 then 1 else top

namespace Buckets

variable {bits : Nat}

/-- Whether a bucket holds a tag.  The tag zero asks for a free place. -/
def holds (b : Buckets bits) (i : Position bits) (tag : UInt8) : Bool :=
  b[i].contains tag

/-- Replaces the first place of a bucket that holds `old`. -/
def exchange (b : Buckets bits) (i : Position bits) (old new : UInt8) : Buckets bits :=
  b.set i (b[i].replace old new)

/-- Whether a bucket has a free place. -/
def hasRoom (b : Buckets bits) (i : Position bits) : Bool :=
  b.holds i 0

/-- Puts a tag into the first free place of a bucket. -/
def put (b : Buckets bits) (i : Position bits) (tag : UInt8) : Buckets bits :=
  b.exchange i 0 tag

/-- Frees the first place of a bucket that holds a tag. -/
def take (b : Buckets bits) (i : Position bits) (tag : UInt8) : Buckets bits :=
  b.exchange i tag 0

/-- Buckets without tags. -/
def empty (bits : Nat) : Buckets bits :=
  Vector.replicate (bucketCount bits) (Vector.replicate 4 0)

end Buckets

/-! ## Moving tags -/

def nextWord (x : UInt64) : UInt64 :=
  let x := x ^^^ (x <<< 13)
  let x := x ^^^ (x >>> 7)
  x ^^^ (x <<< 17)

/-- The word that every filter starts from. -/
def firstWord : UInt64 := 0x9e3779b97f4a7c15

/-- The number of moves after which an insertion gives up. -/
def maxMoves : Nat := 500

/-- The outcome of moving tags. -/
structure Walk (bits : Nat) where
  /-- The buckets after the moves. -/
  buckets : Buckets bits
  /-- The word of the generator after the moves. -/
  word : UInt64
  /-- The tag left over, if no free place was found. -/
  stray : Option (Stray bits)

/-- Places a tag in a full bucket by moving others, with a bound on the moves. -/
def walk {bits : Nat} : Nat → Buckets bits → UInt64 → Position bits → UInt8 → Walk bits
  | 0, b, word, i, tag => ⟨b, word, some ⟨i, tag⟩⟩
  | moves + 1, b, word, i, tag =>
      let word := nextWord word
      let place : Fin 4 := ⟨word.toNat % 4, Nat.mod_lt _ (by decide)⟩
      let displaced := b[i][place]
      let b : Buckets bits := b.set i (b[i].set place tag)
      let j := partner i displaced
      if b.hasRoom j then ⟨b.put j displaced, word, none⟩
      else walk moves b word j displaced

end Filter

/-! ## Filters -/

/-- A membership filter. -/
structure Filter where
  /-- The number of bits that choose a bucket. -/
  bits : Nat
  /-- The tags. -/
  buckets : Filter.Buckets bits
  /-- The number of fingerprints held, the stray included. -/
  len : Nat
  /-- The number of fingerprints the filter was sized for. -/
  capacity : Nat
  /-- The tag that found no place. -/
  stray : Option (Filter.Stray bits)
  /-- The word of the generator. -/
  word : UInt64

namespace Filter

/-! ## Size -/

/-- The least number of bits that give at least `n` buckets. -/
def bitsFor (n : Nat) : Nat :=
  if n ≤ 1 then 0 else (n - 1).log2 + 1

/-- The number of bits for a capacity: enough for a quarter of the capacity, and
one more where that would fill over nine tenths of the places. -/
def sizeBits (capacity : Nat) : Nat :=
  let needed := (capacity + 3) / 4
  let bits := bitsFor needed
  if needed * 100 > bucketCount bits * 90 then bits + 1 else bits

/-- An empty filter for at least one fingerprint. -/
def ofCapacity (capacity : Nat) : Filter :=
  let capacity := max 1 capacity
  let bits := sizeBits capacity
  { bits, buckets := .empty bits, len := 0, capacity, stray := none, word := firstWord }

/-- The number of places, taken or free. -/
def places (f : Filter) : Nat := bucketCount f.bits * 4

/-- The capacity and the number of places of a filter made for a capacity. -/
def sizeFor (capacity : Nat) : Nat × Nat :=
  (max 1 capacity, bucketCount (sizeBits (max 1 capacity)) * 4)

/-- Whether a filter holds nothing. -/
def isEmpty (f : Filter) : Bool := f.len == 0

def home (f : Filter) (fingerprint : UInt64) : Position f.bits :=
  .ofWord f.bits fingerprint

/-! ## Operations -/

/-- An insertion was refused because the filter has a stray. -/
structure Full where
  /-- The number of fingerprints the filter was sized for. -/
  capacity : Nat
  deriving DecidableEq

def Full.message (e : Full) : String :=
  "membership filter is full (capacity " ++ toString e.capacity ++ ")"

/-- Adds a fingerprint.  A fingerprint added twice is held twice. -/
def insert (f : Filter) (fingerprint : UInt64) : Except Full Filter :=
  match f.stray with
  | some _ => .error ⟨f.capacity⟩
  | none =>
      let tag := tagOf fingerprint
      let i := f.home fingerprint
      let j := partner i tag
      if f.buckets.hasRoom i then
        .ok { f with buckets := f.buckets.put i tag, len := f.len + 1 }
      else if f.buckets.hasRoom j then
        .ok { f with buckets := f.buckets.put j tag, len := f.len + 1 }
      else
        let word := nextWord f.word
        let start := if word &&& 1 = 0 then i else j
        let w := walk maxMoves f.buckets word start tag
        .ok { f with buckets := w.buckets, len := f.len + 1, stray := w.stray, word := w.word }

/-- Whether the stray of a filter belongs to a tag and a bucket. -/
def strayIs (f : Filter) (i : Position f.bits) (tag : UInt8) : Bool :=
  match f.stray with
  | some s => s.tag == tag && (s.position == i || s.position == partner i tag)
  | none => false

/-- Whether a fingerprint may have been added.  `false` is certain. -/
def contains (f : Filter) (fingerprint : UInt64) : Bool :=
  let tag := tagOf fingerprint
  let i := f.home fingerprint
  f.strayIs i tag || f.buckets.holds i tag || f.buckets.holds (partner i tag) tag

/-- Puts the stray into one of its buckets, if there is room. -/
def settleStray (f : Filter) : Filter :=
  match f.stray with
  | none => f
  | some s =>
      let j := partner s.position s.tag
      if f.buckets.hasRoom s.position then
        { f with buckets := f.buckets.put s.position s.tag, stray := none }
      else if f.buckets.hasRoom j then
        { f with buckets := f.buckets.put j s.tag, stray := none }
      else f

/-- Takes away one copy of a fingerprint.  `none` where there is none to take. -/
def erase? (f : Filter) (fingerprint : UInt64) : Option Filter :=
  let tag := tagOf fingerprint
  let i := f.home fingerprint
  let j := partner i tag
  if f.buckets.holds i tag then
    some { f with buckets := f.buckets.take i tag, len := f.len - 1 }.settleStray
  else if f.buckets.holds j tag then
    some { f with buckets := f.buckets.take j tag, len := f.len - 1 }.settleStray
  else if f.strayIs i tag then
    some { f with stray := none, len := f.len - 1 }
  else none

/-- Takes away one copy of a fingerprint, if there is one. -/
def erase (f : Filter) (fingerprint : UInt64) : Filter :=
  (f.erase? fingerprint).getD f

/-- Takes away every fingerprint.  The generator goes on from where it is. -/
def clear (f : Filter) : Filter :=
  { f with buckets := .empty f.bits, len := 0, stray := none }

/-! ## Tests -/

example : (ofCapacity 0).places = 8 ∧ (ofCapacity 4).places = 8 ∧ (ofCapacity 8).places = 16 := by
  decide
example : (ofCapacity 100).places = 128 ∧ (ofCapacity 116).places = 256 := by decide

example :
    ((ofCapacity 4).insert 7).toOption.map (fun f => (f.contains 7, f.len, (f.erase 7).len))
      = some (true, 1, 0) := by decide +kernel

end Filter

end RecordStore
