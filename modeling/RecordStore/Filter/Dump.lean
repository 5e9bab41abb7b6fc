import RecordStore.Filter

/-!
# The dump of a filter

`Filter.dump` writes a filter down whole: the tags bucket by bucket, the mask
that chooses a bucket, the number of fingerprints, the capacity, the stray and
the word of the generator.  All numbers are decimal.  The names in the text are
those of its readers.
-/

namespace RecordStore

namespace Filter

/-- Items in square brackets, separated by a comma and a blank. -/
def bracketed (items : List String) : String :=
  "[" ++ ", ".intercalate items ++ "]"

def Bucket.dump (b : Bucket) : String :=
  bracketed (b.toList.map fun tag => toString tag.toNat)

/-- The stray, or its absence. -/
def Stray.dump {bits : Nat} : Option (Stray bits) → String
  | none => "None"
  | some s =>
      "Some(Victim \x7b index: " ++ toString s.position.val ++ ", tag: " ++
        toString s.tag.toNat ++ " \x7d)"

/-- A filter written down whole. -/
def dump (f : Filter) : String :=
  "CuckooFilter \x7b buckets: " ++ bracketed (f.buckets.toList.map Bucket.dump) ++
    ", mask: " ++ toString (bucketCount f.bits - 1) ++ ", len: " ++ toString f.len ++
    ", capacity: " ++ toString f.capacity ++ ", victim: " ++ Stray.dump f.stray ++
    ", kick_state: " ++ toString f.word.toNat ++ " \x7d"

end Filter

end RecordStore
