import Mathlib.Algebra.Order.Floor.Div
import Mathlib.Data.Nat.Log
import Mathlib.GroupTheory.GroupAction.Ring
import RecordStore.Cache.Config
import RecordStore.Proofs.Filter.Saturation

/-!
# The size of a filter

A filter for a capacity needs a quarter of the capacity in buckets, rounded up, and is to
fill at most nine tenths of its places.  It takes the least power of two that has the
buckets needed, and doubles it where the load would be too high.  This is the least power
of two that keeps to the load (`isLeast_bucketCount`): a smaller one has fewer buckets than
are needed, and a doubled one keeps to the load in any case (`sizeBits_le_iff`).

A machine finds the number with words of sixty-four bits.  `layout?` does so step by step
and gives up where a number does not fit into a word.  It gets through for capacities up to
the fifty-ninth power of two and for no others (`exists_layout`, `le_of_layout?`), and finds
what the arithmetic without bounds finds (`toNat_buckets`).  The capacity of a cache is below
the fifty-fifth power of two, whatever its budget.
-/

namespace RecordStore

namespace Filter

/-! ## Bits -/

theorem bitsFor_le_iff {n bits : Nat} : bitsFor n ≤ bits ↔ n ≤ bucketCount bits := by
  have hpos := bucketCount_pos bits
  simp only [bitsFor]
  split
  next h => exact iff_of_true (Nat.zero_le bits) (h.trans hpos)
  next h =>
    have hlog : (n - 1).log2 < bits ↔ n - 1 < bucketCount bits := Nat.log2_lt (by omega)
    omega

/-- So many bits give the least power of two from a number on. -/
theorem bucketCount_bitsFor (n : Nat) : bucketCount (bitsFor n) = 2 ^ Nat.clog 2 n := by
  have hclog : bitsFor n = Nat.clog 2 n :=
    eq_of_forall_ge_iff fun bits =>
      bitsFor_le_iff.trans (Nat.clog_le_iff_le_pow Nat.one_lt_two).symm
  rw [hclog]
  rfl

theorem bucketCount_succ (bits : Nat) : bucketCount (bits + 1) = bucketCount bits * 2 := rfl

theorem bucketCount_mono {m n : Nat} (h : m ≤ n) : bucketCount m ≤ bucketCount n :=
  Nat.pow_le_pow_right Nat.two_pos h

theorem sizeBits_eq (capacity : Nat) : sizeBits capacity =
    if bucketCount (bitsFor (capacity ⌈/⌉ 4)) * 90 < capacity ⌈/⌉ 4 * 100
    then bitsFor (capacity ⌈/⌉ 4) + 1 else bitsFor (capacity ⌈/⌉ 4) := rfl

/-- The bits are enough exactly where nine tenths of the places are. -/
theorem sizeBits_le_iff {capacity bits : Nat} :
    sizeBits capacity ≤ bits ↔ capacity ⌈/⌉ 4 * 100 ≤ bucketCount bits * 90 := by
  have hneeded : capacity ⌈/⌉ 4 ≤ bucketCount (bitsFor (capacity ⌈/⌉ 4)) :=
    bitsFor_le_iff.1 (Nat.le_refl _)
  rw [sizeBits_eq]
  generalize capacity ⌈/⌉ 4 = needed at hneeded ⊢
  constructor
  · intro h
    split at h
    next =>
      have hmono := bucketCount_mono h
      rw [bucketCount_succ] at hmono
      omega
    next =>
      have hmono := bucketCount_mono h
      omega
  · intro h
    have hbits : bitsFor needed ≤ bits := bitsFor_le_iff.2 (by omega)
    split
    next hload =>
      -- as many buckets as are needed would be too few
      refine Nat.lt_of_le_of_ne hbits fun heq => ?_
      rw [heq] at hload
      omega
    next => exact hbits

/-- The powers of two that keep to the load: the buckets needed are nine tenths at most. -/
def roomyCounts (capacity : Nat) : Set Nat :=
  {p | (∃ bits, p = 2 ^ bits) ∧ capacity ⌈/⌉ 4 * 100 ≤ p * 90}

theorem isLeast_bucketCount (capacity : Nat) :
    IsLeast (roomyCounts capacity) (bucketCount (sizeBits capacity)) := by
  refine ⟨⟨⟨sizeBits capacity, rfl⟩, sizeBits_le_iff.1 (Nat.le_refl _)⟩, ?_⟩
  rintro p ⟨⟨bits, rfl⟩, hload⟩
  exact bucketCount_mono (sizeBits_le_iff.2 hload)

/-! ## Words -/

/-- A number as a word, if it fits into one. -/
def word? (n : Nat) : Option UInt64 :=
  if n < UInt64.size then some (.ofNat n) else none

theorem word?_eq_some_iff {n : Nat} {w : UInt64} : word? n = some w ↔ w.toNat = n := by
  simp only [word?]
  split
  next h =>
    rw [Option.some.injEq, ← UInt64.toNat_inj, UInt64.toNat_ofNat_of_lt' h]
    exact eq_comm
  next h =>
    constructor
    · intro heq
      cases heq
    · intro heq
      exact absurd (heq ▸ w.toNat_lt) h

theorem exists_word {n : Nat} (h : n < UInt64.size) : ∃ w : UInt64, w.toNat = n :=
  ⟨.ofNat n, UInt64.toNat_ofNat_of_lt' h⟩

/-- The number of buckets, and the mask that chooses one of them. -/
structure Layout where
  buckets : UInt64
  mask : UInt64
  deriving DecidableEq

/-- Finds the layout for a capacity with words.  `none` where a number does not fit. -/
def layout? (capacity : Nat) : Option Layout := do
  let capacity ← word? (max 1 capacity)
  let needed ← word? (capacity.toNat ⌈/⌉ 4)
  let least ← word? (2 ^ Nat.clog 2 needed.toNat)
  let demand ← word? (needed.toNat * 100)
  let supply ← word? (least.toNat * 90)
  let buckets ← word? (if supply < demand then least.toNat <<< 1 else least.toNat)
  some ⟨buckets, buckets - 1⟩

section

variable {capacity : Nat} {l : Layout}

/-- The words that the steps come to. -/
theorem layout?_eq_some_iff : layout? capacity = some l ↔
    ∃ c needed least demand supply : UInt64, c.toNat = max 1 capacity ∧
      needed.toNat = c.toNat ⌈/⌉ 4 ∧ least.toNat = 2 ^ Nat.clog 2 needed.toNat ∧
      demand.toNat = needed.toNat * 100 ∧ supply.toNat = least.toNat * 90 ∧
      l.buckets.toNat = (if supply < demand then least.toNat <<< 1 else least.toNat) ∧
      l.mask = l.buckets - 1 := by
  simp only [layout?, Option.bind_eq_bind, Option.bind_eq_some_iff, word?_eq_some_iff,
    Option.some.injEq]
  constructor
  · rintro ⟨c, hc, needed, hneeded, least, hleast, demand, hdemand, supply, hsupply, buckets,
      hbuckets, rfl⟩
    exact ⟨c, needed, least, demand, supply, hc, hneeded, hleast, hdemand, hsupply, hbuckets, rfl⟩
  · rintro ⟨c, needed, least, demand, supply, hc, hneeded, hleast, hdemand, hsupply, hbuckets,
      hmask⟩
    refine ⟨c, hc, needed, hneeded, least, hleast, demand, hdemand, supply, hsupply, l.buckets,
      hbuckets, ?_⟩
    rw [← hmask]

/-- The words are compared as the numbers are. -/
theorem bucketCount_sizeBits {needed least demand supply : UInt64}
    (hneeded : needed.toNat = capacity ⌈/⌉ 4) (hleast : least.toNat = 2 ^ Nat.clog 2 needed.toNat)
    (hdemand : demand.toNat = needed.toNat * 100) (hsupply : supply.toNat = least.toNat * 90) :
    bucketCount (sizeBits capacity)
      = if supply < demand then least.toNat <<< 1 else least.toNat := by
  have hbits : bucketCount (bitsFor (capacity ⌈/⌉ 4)) = least.toNat := by
    rw [bucketCount_bitsFor, ← hneeded, hleast]
  have hload : supply < demand ↔ least.toNat * 90 < capacity ⌈/⌉ 4 * 100 := by
    rw [UInt64.lt_iff_toNat_lt, hsupply, hdemand, hneeded]
  rw [sizeBits_eq, apply_ite bucketCount, bucketCount_succ, hbits, Nat.shiftLeft_eq]
  exact if_congr hload.symm rfl rfl

/-- What is found with words is what is found with numbers. -/
theorem toNat_buckets (h : layout? capacity = some l) :
    l.buckets.toNat = bucketCount (sizeBits (max 1 capacity)) := by
  obtain ⟨c, needed, least, demand, supply, hc, hneeded, hleast, hdemand, hsupply, hbuckets, -⟩ :=
    layout?_eq_some_iff.1 h
  rw [hc] at hneeded
  rw [hbuckets, bucketCount_sizeBits hneeded hleast hdemand hsupply]

theorem toNat_mask (h : layout? capacity = some l) :
    l.mask.toNat = bucketCount (sizeBits (max 1 capacity)) - 1 := by
  obtain ⟨_, _, _, _, _, -, -, -, -, -, -, hmask⟩ := layout?_eq_some_iff.1 h
  have hone : (1 : UInt64) ≤ l.buckets := by
    rw [UInt64.le_iff_toNat_le, toNat_buckets h]
    exact bucketCount_pos _
  rw [hmask, UInt64.toNat_sub_of_le _ _ hone, toNat_buckets h]
  rfl

/-- The steps get through where the buckets needed are the fifty-seventh power of two at
most. -/
theorem exists_layout (h : capacity ≤ 2 ^ 59) : ∃ l, layout? capacity = some l := by
  have hsize : UInt64.size = 2 ^ 64 := rfl
  obtain ⟨c, hc⟩ := exists_word (n := max 1 capacity) (by omega)
  have hfew : c.toNat ⌈/⌉ 4 ≤ 2 ^ 57 := by
    rw [hc, Nat.ceilDiv_eq_add_pred_div]
    omega
  obtain ⟨needed, hneeded⟩ := exists_word (n := c.toNat ⌈/⌉ 4) (by omega)
  rw [← hneeded] at hfew
  have hsmall : 2 ^ Nat.clog 2 needed.toNat ≤ 2 ^ 57 :=
    Nat.pow_le_pow_right Nat.two_pos (Nat.clog_le_of_le_pow hfew)
  obtain ⟨least, hleast⟩ := exists_word (n := 2 ^ Nat.clog 2 needed.toNat) (by omega)
  rw [← hleast] at hsmall
  obtain ⟨demand, hdemand⟩ := exists_word (n := needed.toNat * 100) (by omega)
  obtain ⟨supply, hsupply⟩ := exists_word (n := least.toNat * 90) (by omega)
  obtain ⟨buckets, hbuckets⟩ := exists_word
    (n := if supply < demand then least.toNat <<< 1 else least.toNat) (by split <;> omega)
  exact ⟨⟨buckets, buckets - 1⟩, layout?_eq_some_iff.2 ⟨c, needed, least, demand, supply, hc,
    hneeded, hleast, hdemand, hsupply, hbuckets, rfl⟩⟩

/-- Beyond, nine tenths of the places do not fit into a word. -/
theorem le_of_layout? (h : layout? capacity = some l) : capacity ≤ 2 ^ 59 := by
  obtain ⟨c, needed, least, _, supply, hc, hneeded, hleast, -, hsupply, -⟩ :=
    layout?_eq_some_iff.1 h
  refine Nat.le_of_not_lt fun hlt => ?_
  have hmany : 2 ^ 57 < needed.toNat := by
    rw [hneeded, hc, Nat.ceilDiv_eq_add_pred_div]
    omega
  have hbits : 57 < Nat.clog 2 needed.toNat :=
    (Nat.lt_clog_iff_pow_lt Nat.one_lt_two).2 hmany
  have hlarge : 2 ^ 58 ≤ least.toNat := by
    rw [hleast]
    exact Nat.pow_le_pow_right Nat.two_pos hbits
  have hword := supply.toNat_lt
  omega

end

/-! ## Filters of a size -/

/-- How a filter for a capacity is laid out. -/
structure LaidOut (capacity : Nat) (l : Layout) (f : Filter) : Prop where
  /-- The number of buckets is the least power of two that keeps to the load. -/
  least : IsLeast (roomyCounts (max 1 capacity)) (bucketCount f.bits)
  buckets : l.buckets.toNat = bucketCount f.bits
  mask : l.mask.toNat = bucketCount f.bits - 1
  /-- What the mask leaves of a word is the position of a bucket. -/
  masked : ∀ w : UInt64, (w &&& l.mask).toNat < bucketCount f.bits
  /-- Both buckets of a fingerprint are chosen by the mask. -/
  home : ∀ a, (f.home a).val = (a &&& l.mask).toNat
  partner : ∀ (i : Position f.bits) tag, (Filter.partner i tag).val
    = ((.ofNat i.val ^^^ Fingerprint.avalanche tag.toUInt64) &&& l.mask).toNat
  capacity : f.capacity = max 1 capacity
  load : f.capacity * 100 ≤ f.places * 90
  places : f.places < UInt64.size

section

variable {capacity : Nat} {l : Layout}

theorem toNat_and_mask (h : layout? capacity = some l) (w : UInt64) :
    (w &&& l.mask).toNat = (Position.ofWord (ofCapacity capacity).bits w).val := by
  rw [UInt64.toNat_and, toNat_mask h, Position.ofWord_val]
  rfl

/-- Where the steps get through, fifty-eight bits are enough. -/
theorem bucketCount_ofCapacity_le (h : capacity ≤ 2 ^ 59) :
    bucketCount (ofCapacity capacity).bits ≤ 2 ^ 58 := by
  refine bucketCount_mono (n := 58) (sizeBits_le_iff.2 ?_)
  show max 1 capacity ⌈/⌉ 4 * 100 ≤ 2 ^ 58 * 90
  rw [Nat.ceilDiv_eq_add_pred_div]
  omega

theorem load_ofCapacity (capacity : Nat) :
    (ofCapacity capacity).capacity * 100 ≤ (ofCapacity capacity).places * 90 := by
  have hload := sizeBits_le_iff.1 (Nat.le_refl (sizeBits (max 1 capacity)))
  rw [Nat.ceilDiv_eq_add_pred_div] at hload
  show max 1 capacity * 100 ≤ bucketCount (sizeBits (max 1 capacity)) * 4 * 90
  omega

theorem laidOut_ofCapacity (h : layout? capacity = some l) :
    LaidOut capacity l (ofCapacity capacity) := by
  have hcount := bucketCount_ofCapacity_le (le_of_layout? h)
  have hsize : UInt64.size = 2 ^ 64 := rfl
  constructor
  case least => exact isLeast_bucketCount (max 1 capacity)
  case buckets => exact toNat_buckets h
  case mask => exact toNat_mask h
  case masked =>
    intro w
    rw [toNat_and_mask h]
    exact (Position.ofWord _ w).isLt
  case home => exact fun a => (toNat_and_mask h a).symm
  case partner =>
    intro i tag
    have hi : (UInt64.ofNat i.val).toNat = i.val :=
      UInt64.toNat_ofNat_of_lt' (by have hlt := i.isLt; omega)
    rw [partner_val_eq_and, UInt64.toNat_and, UInt64.toNat_xor, hi, toNat_mask h]
    rfl
  case capacity => rfl
  case load => exact load_ofCapacity capacity
  case places =>
    show bucketCount (ofCapacity capacity).bits * 4 < UInt64.size
    omega

end

/-! ## The filter of a cache -/

theorem maxEntries_lt {c : Cache.Config} (h : c.byteBudget < UInt64.size) :
    c.maxEntries < 2 ^ 55 := by
  have hsize : UInt64.size = 2 ^ 64 := rfl
  show max 1 (c.byteBudget / 953) < 2 ^ 55
  omega

/-- Wherever the steps get through, the filter is laid out as they find, with the least
number of buckets that keeps to the load.  They get through up to the fifty-ninth power of
two, and for the capacity of every cache. -/
theorem filters_sized :
    (∀ capacity l, layout? capacity = some l → LaidOut capacity l (ofCapacity capacity)) ∧
      (∀ capacity, (∃ l, layout? capacity = some l) ↔ capacity ≤ 2 ^ 59) ∧
      ∀ c : Cache.Config, c.byteBudget < UInt64.size → ∃ l, layout? c.maxEntries = some l := by
  refine ⟨fun _ _ => laidOut_ofCapacity, fun capacity => ⟨?_, exists_layout⟩, fun c h => ?_⟩
  · rintro ⟨l, hl⟩
    exact le_of_layout? hl
  · have hfew := maxEntries_lt h
    exact exists_layout (by omega)

/-- A capacity for which the load asks for twice the buckets that are needed, and the largest
cache. -/
theorem filters_sized_largest :
    layout? 116 = some ⟨64, 63⟩ ∧ LaidOut 116 ⟨64, 63⟩ (ofCapacity 116) ∧
      ({ byteBudget := 18446744073709551615 } : Cache.Config).byteBudget < UInt64.size ∧
      ∃ l, layout? ({ byteBudget := 18446744073709551615 } : Cache.Config).maxEntries
        = some l := by
  have hload : layout? 116 = some ⟨64, 63⟩ := by decide
  have hbudget : ({ byteBudget := 18446744073709551615 } : Cache.Config).byteBudget
      < UInt64.size := by decide
  exact ⟨hload, filters_sized.1 116 ⟨64, 63⟩ hload, hbudget, filters_sized.2.2 _ hbudget⟩

end Filter

end RecordStore
