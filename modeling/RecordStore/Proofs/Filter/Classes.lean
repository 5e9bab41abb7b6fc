import Mathlib.Algebra.BigOperators.Fin
import Mathlib.Algebra.Order.BigOperators.Group.Finset
import RecordStore.Filter

/-!
# What a filter counts

A tag can stand in its bucket or in the partner of it, and moves between the two.
So what a filter holds is counted over *regions*: sets of places that contain with
each place its partner, and never the tag zero.  Moving a tag does not change the
count of a region (`walk_count`), an insertion adds one to every region that the
fingerprint is in (`count_insert`), and a deletion takes one away
(`count_erase?`).

An insertion goes through in one of three ways (`Accepts`), and a deletion leaves the
capacity and the word of the generator alone (`erase?_frame`).

Two fingerprints are *alike* when they have the same tag and the same pair of
buckets.  The fingerprints that are alike to a given one make up a region, its
*class*, and a filter answers by the count of the class (`contains_iff`).
-/

namespace RecordStore

namespace Filter

/-! ## Partners -/

theorem Position.val_mod {bits : Nat} (i : Position bits) : i.val % 2 ^ bits = i.val :=
  Nat.mod_eq_of_lt i.isLt

theorem partner_val {bits : Nat} (i : Position bits) (tag : UInt8) :
    (partner i tag).val = i.val ^^^ (Fingerprint.avalanche tag.toUInt64).toNat % 2 ^ bits := by
  calc (partner i tag).val
      = (i.val ^^^ (Fingerprint.avalanche tag.toUInt64).toNat) % 2 ^ bits := rfl
    _ = i.val % 2 ^ bits ^^^ (Fingerprint.avalanche tag.toUInt64).toNat % 2 ^ bits :=
        Nat.xor_mod_two_pow
    _ = _ := by rw [i.val_mod]

/-- The partner of the partner of a bucket is the bucket. -/
@[simp] theorem partner_partner {bits : Nat} (i : Position bits) (tag : UInt8) :
    partner (partner i tag) tag = i := by
  apply Fin.ext
  rw [partner_val, partner_val, Nat.xor_assoc, Nat.xor_self, Nat.xor_zero]

theorem partner_eq_iff {bits : Nat} {i j : Position bits} {tag : UInt8} :
    partner i tag = j ↔ i = partner j tag := by
  constructor
  · rintro rfl
    rw [partner_partner]
  · rintro rfl
    rw [partner_partner]

theorem tagOf_ne_zero (fingerprint : UInt64) : tagOf fingerprint ≠ 0 := by
  simp only [tagOf]
  split
  · decide
  · assumption

/-! ## Regions -/

/-- A set of places for tags. -/
structure Region (bits : Nat) where
  /-- Whether a bucket with a tag in it belongs to the set. -/
  has : Position bits → UInt8 → Bool
  /-- A tag in the partner bucket belongs to the set as well. -/
  has_partner : ∀ i tag, has (partner i tag) tag = has i tag
  /-- A free place does not belong to the set. -/
  has_zero : ∀ i, has i 0 = false

/-- One for a place in a region, and zero for any other. -/
def Region.weight {bits : Nat} (r : Region bits) (i : Position bits) (tag : UInt8) : Nat :=
  if r.has i tag then 1 else 0

/-- The number of tags in a region. -/
def Buckets.count {bits : Nat} (b : Buckets bits) (r : Region bits) : Nat :=
  ∑ i : Position bits, (b.get i).countP (r.has i)

namespace Region

variable {bits : Nat} (r : Region bits)

@[simp] theorem weight_zero (i : Position bits) : r.weight i 0 = 0 := by
  simp [weight, r.has_zero]

@[simp] theorem weight_partner (i : Position bits) (tag : UInt8) :
    r.weight (partner i tag) tag = r.weight i tag := by
  simp [weight, r.has_partner]

theorem weight_le_countP {i : Position bits} {tag : UInt8} {x : Bucket} (h : tag ∈ x) :
    r.weight i tag ≤ x.countP (r.has i) := by
  simp only [weight]
  split
  next hr => exact Vector.countP_pos_iff.2 ⟨tag, h, hr⟩
  next => exact Nat.zero_le _

/-- Replacing one tag of a bucket exchanges its weight for that of the new one. -/
theorem countP_set (i : Position bits) (x : Bucket) (place : Fin 4) (tag : UInt8) :
    (x.set place tag).countP (r.has i) + r.weight i x[place]
      = x.countP (r.has i) + r.weight i tag := by
  have hold : r.weight i x[place] ≤ x.countP (r.has i) :=
    r.weight_le_countP (Vector.getElem_mem place.isLt)
  rw [Vector.countP_set place.isLt]
  show _ - r.weight i x[place] + r.weight i tag + _ = _
  omega

end Region

namespace Buckets

variable {bits : Nat}

/-- Where one bucket changes, and the tags in it change by one, the count does so too. -/
theorem count_change {b c : Buckets bits} {i : Position bits} {old new : UInt8} {r : Region bits}
    (hother : ∀ j, j ≠ i → c.get j = b.get j)
    (hi : (c.get i).countP (r.has i) + r.weight i old
      = (b.get i).countP (r.has i) + r.weight i new) :
    c.count r + r.weight i old = b.count r + r.weight i new := by
  have hrest : ∀ j ∈ (Finset.univ : Finset (Position bits)).erase i,
      (c.get j).countP (r.has j) = (b.get j).countP (r.has j) := by
    intro j hj
    rw [hother j (Finset.ne_of_mem_erase hj)]
  simp only [count]
  rw [← Finset.add_sum_erase _ _ (Finset.mem_univ i), Finset.sum_congr rfl hrest,
    ← Finset.add_sum_erase (a := i) _ _ (Finset.mem_univ i)]
  omega

/-- Exchanging a tag that a bucket holds moves its weight to the new one. -/
theorem count_exchange {b : Buckets bits} {i : Position bits} {old : UInt8}
    (h : b.holds i old = true) (r : Region bits) (new : UInt8) :
    (b.exchange i old new).count r + r.weight i old = b.count r + r.weight i new := by
  have hcontains : (b.get i).contains old = true := h
  have hold : r.weight i old ≤ (b.get i).countP (r.has i) :=
    r.weight_le_countP (Vector.contains_iff_mem.1 hcontains)
  have hi : (b.exchange i old new).get i = (b.get i).replace old new :=
    Vector.getElem_set_self i.isLt
  have hother : ∀ j, j ≠ i → (b.exchange i old new).get j = b.get j := by
    intro j hj
    exact Vector.getElem_set_ne i.isLt j.isLt fun e => hj (Fin.ext e.symm)
  refine count_change hother ?_
  rw [hi, Vector.countP_replace, if_pos hcontains]
  show _ + r.weight i new - r.weight i old + _ = _
  omega

theorem count_put {b : Buckets bits} {i : Position bits} (h : b.hasRoom i = true)
    (r : Region bits) (tag : UInt8) : (b.put i tag).count r = b.count r + r.weight i tag := by
  have hexchange := count_exchange h r tag
  simpa [put] using hexchange

theorem count_take {b : Buckets bits} {i : Position bits} {tag : UInt8}
    (h : b.holds i tag = true) (r : Region bits) :
    (b.take i tag).count r + r.weight i tag = b.count r := by
  have hexchange := count_exchange h r 0
  simpa [take] using hexchange

@[simp] theorem count_empty (r : Region bits) : (empty bits).count r = 0 := by
  simp only [count]
  refine Finset.sum_eq_zero fun i _ => ?_
  have hbucket : (empty bits).get i = Vector.replicate 4 0 := Vector.getElem_replicate i.isLt
  rw [hbucket, Vector.countP_replicate]
  simp [r.has_zero]

/-- A bucket that holds a tag of a region makes the count positive. -/
theorem count_pos_iff (b : Buckets bits) (r : Region bits) :
    0 < b.count r ↔ ∃ i tag, b.holds i tag = true ∧ r.has i tag = true := by
  simp only [count, holds, Vector.contains_iff_mem]
  constructor
  · intro h
    obtain ⟨i, -, hi⟩ := Finset.exists_ne_zero_of_sum_ne_zero (Nat.ne_of_gt h)
    obtain ⟨tag, hmem, htag⟩ := Vector.countP_pos_iff.1 (Nat.pos_of_ne_zero hi)
    exact ⟨i, tag, hmem, htag⟩
  · rintro ⟨i, tag, hmem, htag⟩
    have hi : 0 < (b.get i).countP (r.has i) := Vector.countP_pos_iff.2 ⟨tag, hmem, htag⟩
    exact Nat.lt_of_lt_of_le hi
      (Finset.single_le_sum (f := fun i => (b.get i).countP (r.has i)) (fun _ _ => Nat.zero_le _)
        (Finset.mem_univ i))

end Buckets

/-! ## Moving tags -/

/-- The weight of a stray, if there is one. -/
def Region.weightOf {bits : Nat} (r : Region bits) : Option (Stray bits) → Nat
  | none => 0
  | some s => r.weight s.position s.tag

theorem Region.weightOf_eq {bits : Nat} (r : Region bits) (stray : Option (Stray bits)) :
    r.weightOf stray = if stray.any fun s => r.has s.position s.tag then 1 else 0 := by
  cases stray <;> rfl

/-- Moving tags around loses none and adds only the tag in hand. -/
theorem walk_count {bits : Nat} (r : Region bits) (moves : Nat) (b : Buckets bits)
    (word : UInt64) (i : Position bits) (tag : UInt8) :
    (walk moves b word i tag).buckets.count r + r.weightOf (walk moves b word i tag).stray
      = b.count r + r.weight i tag := by
  -- trading the tag in hand for one of a bucket exchanges their weights
  have htrade : ∀ (b : Buckets bits) (i : Position bits) (tag : UInt8) (place : Fin 4),
      Buckets.count (b.set i (b[i].set place tag)) r + r.weight i b[i][place]
        = b.count r + r.weight i tag := by
    intro b i tag place
    have hi : Vector.get (b.set i (b[i].set place tag)) i = b[i].set place tag :=
      Vector.getElem_set_self i.isLt
    have hother : ∀ j, j ≠ i → Vector.get (b.set i (b[i].set place tag)) j = b.get j := by
      intro j hj
      exact Vector.getElem_set_ne i.isLt j.isLt fun e => hj (Fin.ext e.symm)
    refine Buckets.count_change hother ?_
    rw [hi]
    exact r.countP_set i b[i] place tag
  induction moves generalizing b word i tag with
  | zero => rfl
  | succ moves ih =>
      have ht := htrade b i tag ⟨(nextWord word).toNat % 4, Nat.mod_lt _ (by decide)⟩
      simp only [walk]
      split
      next hroom =>
        rw [Buckets.count_put hroom, Region.weightOf, r.weight_partner]
        omega
      next hfull =>
        rw [ih, r.weight_partner]
        omega

/-! ## Counts of a filter -/

/-- The number of tags that a filter has in a region, the stray included.  The region is
given for every number of bits. -/
def count (f : Filter) (r : (bits : Nat) → Region bits) : Nat :=
  f.buckets.count (r f.bits) + (r f.bits).weightOf f.stray

/-- One if a fingerprint is in a region, and zero otherwise. -/
def share (r : (bits : Nat) → Region bits) (bits : Nat) (fingerprint : UInt64) : Nat :=
  (r bits).weight (.ofWord bits fingerprint) (tagOf fingerprint)

variable {f g : Filter} {fingerprint : UInt64} {r : (bits : Nat) → Region bits}

@[simp] theorem count_ofCapacity (capacity : Nat) : (ofCapacity capacity).count r = 0 := by
  simp [count, ofCapacity, Region.weightOf]

@[simp] theorem count_clear : f.clear.count r = 0 := by
  simp [count, clear, Region.weightOf]

/-- An insertion goes through exactly when there is no stray. -/
theorem insert_eq_error_iff {e : Full} :
    f.insert fingerprint = .error e ↔ f.stray.isSome = true ∧ e = ⟨f.capacity⟩ := by
  cases hs : f.stray with
  | some s => simp [insert, hs, eq_comm]
  | none =>
      simp only [insert, hs]
      split
      · simp
      · split <;> simp

/-- The bucket in which an insertion begins to move tags. -/
def start (f : Filter) (a : UInt64) : Position f.bits :=
  if nextWord f.word &&& 1 = 0 then f.home a else partner (f.home a) (tagOf a)

/-- The filter after the moves of an insertion. -/
def afterWalk (f : Filter) (w : Walk f.bits) : Filter :=
  { f with buckets := w.buckets, len := f.len + 1, stray := w.stray, word := w.word }

/-- What an insertion that goes through leaves of a filter. -/
inductive Accepts (f : Filter) (a : UInt64) : Filter → Prop
  /-- The first bucket has room. -/
  | home (hroom : f.buckets.hasRoom (f.home a) = true) :
      Accepts f a { f with buckets := f.buckets.put (f.home a) (tagOf a), len := f.len + 1 }
  /-- Only the partner has room. -/
  | partner (hhome : f.buckets.hasRoom (f.home a) = false)
      (hroom : f.buckets.hasRoom (partner (f.home a) (tagOf a)) = true) :
      Accepts f a { f with
        buckets := f.buckets.put (partner (f.home a) (tagOf a)) (tagOf a), len := f.len + 1 }
  /-- Neither has room, and tags are moved. -/
  | moved (hhome : f.buckets.hasRoom (f.home a) = false)
      (hpartner : f.buckets.hasRoom (partner (f.home a) (tagOf a)) = false) :
      Accepts f a
        (f.afterWalk (walk maxMoves f.buckets (nextWord f.word) (f.start a) (tagOf a)))

theorem accepts_of_insert (h : f.insert fingerprint = .ok g) :
    f.stray = none ∧ f.Accepts fingerprint g := by
  simp only [insert] at h
  split at h
  next => cases h
  next hs =>
    refine ⟨hs, ?_⟩
    split at h
    next hroom =>
      cases h
      exact .home hroom
    next hhome =>
      split at h
      next hroom =>
        cases h
        exact .partner (Bool.eq_false_iff.2 hhome) hroom
      next hpartner =>
        cases h
        exact .moved (Bool.eq_false_iff.2 hhome) (Bool.eq_false_iff.2 hpartner)

theorem bits_insert (h : f.insert fingerprint = .ok g) : g.bits = f.bits := by
  cases (accepts_of_insert h).2 <;> rfl

/-- An insertion adds the fingerprint to the count of each of its regions. -/
theorem count_insert (h : f.insert fingerprint = .ok g) :
    g.count r = f.count r + share r f.bits fingerprint := by
  obtain ⟨hs, haccepts⟩ := accepts_of_insert h
  have hstray : (r f.bits).weightOf f.stray = 0 := by rw [hs]; rfl
  cases haccepts with
  | home hroom =>
      simp only [count, Buckets.count_put hroom, hstray]
      rfl
  | partner hhome hroom =>
      simp only [count, Buckets.count_put hroom, Region.weight_partner, hstray]
      rfl
  | moved hhome hpartner =>
      simp only [count, afterWalk, walk_count, hstray, start]
      split
      · rfl
      · rw [Region.weight_partner]
        rfl

/-- Putting the stray back into a bucket changes no count. -/
theorem count_settleStray : f.settleStray.count r = f.count r := by
  simp only [settleStray]
  split
  next => rfl
  next s hs =>
    split
    next hroom => simp [count, Buckets.count_put hroom, hs, Region.weightOf]
    next =>
      split
      next hroom => simp [count, Buckets.count_put hroom, hs, Region.weightOf]
      next => rfl

/-- Putting the stray back changes the buckets and the stray only. -/
theorem settleStray_frame (f : Filter) :
    ∃ b stray, f.settleStray = { f with buckets := b, stray := stray } := by
  simp only [settleStray]
  split
  · exact ⟨_, _, rfl⟩
  · split
    · exact ⟨_, _, rfl⟩
    · split
      · exact ⟨_, _, rfl⟩
      · exact ⟨_, _, rfl⟩

/-! ## Classes -/

/-- Whether two fingerprints have the same tag and the same pair of buckets. -/
def alike (bits : Nat) (a b : UInt64) : Bool :=
  tagOf b == tagOf a &&
    (Position.ofWord bits b == .ofWord bits a ||
      Position.ofWord bits b == partner (.ofWord bits a) (tagOf a))

/-- The bucket that a number chooses. -/
def Position.ofNat (bits n : Nat) : Position bits :=
  ⟨n % bucketCount bits, Nat.mod_lt _ (bucketCount_pos bits)⟩

theorem Position.ofNat_val {bits : Nat} (i : Position bits) : Position.ofNat bits i.val = i :=
  Fin.ext i.val_mod

/-- The places of a tag in the bucket that a number chooses, and in the partner of it. -/
def pairOf (n : Nat) (tag : UInt8) (htag : tag ≠ 0) (bits : Nat) : Region bits where
  has i t := t == tag && (i == .ofNat bits n || i == partner (.ofNat bits n) tag)
  has_partner i t := by
    by_cases ht : t = tag
    · subst ht
      refine Bool.eq_iff_iff.2 ?_
      simp only [beq_self_eq_true, Bool.true_and, Bool.or_eq_true, beq_iff_eq, partner_eq_iff,
        partner_partner]
      exact Or.comm
    · have hne : (t == tag) = false := beq_false_of_ne ht
      simp only [hne, Bool.false_and]
  has_zero i := by
    simp [htag.symm]

theorem has_pairOf {bits : Nat} (i j : Position bits) {tag : UInt8} (htag : tag ≠ 0) (t : UInt8) :
    (pairOf i.val tag htag bits).has j t = (t == tag && (j == i || j == partner i tag)) := by
  simp only [pairOf, Position.ofNat_val]

/-- The places of the fingerprints that are alike to a given one. -/
def classOf (fingerprint : UInt64) : (bits : Nat) → Region bits :=
  pairOf fingerprint.toNat (tagOf fingerprint) (tagOf_ne_zero fingerprint)

@[simp] theorem alike_self (bits : Nat) (a : UInt64) : alike bits a a = true := by
  simp [alike]

/-- The stray that a deletion looks for is one of the class of the fingerprint. -/
theorem strayIs_eq : f.strayIs (f.home fingerprint) (tagOf fingerprint)
    = (f.stray.any fun s => (classOf fingerprint f.bits).has s.position s.tag) := by
  simp only [strayIs]
  split
  next s hs => rw [hs]; rfl
  next hs => rw [hs]; rfl

theorem count_classOf_pos_iff : 0 < f.count (classOf fingerprint) ↔
    f.strayIs (f.home fingerprint) (tagOf fingerprint) = true ∨
      f.buckets.holds (f.home fingerprint) (tagOf fingerprint) = true ∨
      f.buckets.holds (partner (f.home fingerprint) (tagOf fingerprint)) (tagOf fingerprint)
        = true := by
  have hstray : 0 < (classOf fingerprint f.bits).weightOf f.stray ↔
      f.strayIs (f.home fingerprint) (tagOf fingerprint) = true := by
    rw [strayIs_eq, Region.weightOf_eq]
    split
    next h => simp [h]
    next h => simp [h]
  have hbuckets : 0 < f.buckets.count (classOf fingerprint f.bits) ↔
      f.buckets.holds (f.home fingerprint) (tagOf fingerprint) = true ∨
      f.buckets.holds (partner (f.home fingerprint) (tagOf fingerprint)) (tagOf fingerprint)
        = true := by
    rw [Buckets.count_pos_iff]
    constructor
    · rintro ⟨i, tag, hholds, hhas⟩
      simp only [classOf, pairOf, Bool.and_eq_true, Bool.or_eq_true, beq_iff_eq] at hhas
      obtain ⟨rfl, rfl | rfl⟩ := hhas
      · exact Or.inl hholds
      · exact Or.inr hholds
    · rintro (hholds | hholds)
      · exact ⟨_, _, hholds, by simp [classOf, pairOf, Position.ofNat, home, Position.ofWord]⟩
      · exact ⟨_, _, hholds, by simp [classOf, pairOf, Position.ofNat, home, Position.ofWord]⟩
  rw [count, Nat.add_pos_iff_pos_or_pos, hstray, hbuckets]
  exact Or.comm

/-- The number of copies of a tag in a bucket and its partner, the stray included. -/
def tagsAt (f : Filter) (i : Position f.bits) (tag : UInt8) : Nat :=
  ∑ j ∈ {i, partner i tag}, f.buckets[j].count tag + if f.strayIs i tag then 1 else 0

/-- The count of a pair of buckets is over the two buckets and the stray. -/
theorem count_pairOf (i : Position f.bits) {tag : UInt8} (htag : tag ≠ 0) :
    f.count (pairOf i.val tag htag) = f.tagsAt i tag := by
  have hbuckets : f.buckets.count (pairOf i.val tag htag f.bits)
      = ∑ j ∈ {i, partner i tag}, f.buckets[j].count tag := by
    rw [Buckets.count]
    refine (Finset.sum_subset (Finset.subset_univ {i, partner i tag}) ?_).symm.trans ?_
    · intro j _ hj
      simp only [Finset.mem_insert, Finset.mem_singleton, not_or] at hj
      refine Vector.countP_eq_zero.2 fun t _ => ?_
      simp [has_pairOf, hj.1, hj.2]
    · refine Finset.sum_congr rfl fun j hj => ?_
      simp only [Finset.mem_insert, Finset.mem_singleton] at hj
      rw [Vector.count_eq_countP]
      congr 1
      funext t
      rcases hj with rfl | rfl <;> simp [has_pairOf]
  have hstray : f.strayIs i tag
      = f.stray.any fun s => (pairOf i.val tag htag f.bits).has s.position s.tag := by
    simp only [strayIs, has_pairOf]
    split
    next s hs => rw [hs]; rfl
    next hs => rw [hs]; rfl
  rw [count, tagsAt, hbuckets, hstray, Region.weightOf_eq]

/-- A filter answers yes exactly to the fingerprints whose class has a tag. -/
theorem contains_iff : f.contains fingerprint = true ↔ 0 < f.count (classOf fingerprint) := by
  rw [count_classOf_pos_iff]
  simp only [contains, Bool.or_eq_true, or_assoc]

/-- Nothing is taken away exactly when the class has no tag. -/
theorem erase?_eq_none_iff :
    f.erase? fingerprint = none ↔ f.count (classOf fingerprint) = 0 := by
  rw [← not_iff_not, ← Ne.eq_def (f.count _), ← Nat.pos_iff_ne_zero, count_classOf_pos_iff]
  simp only [erase?]
  split
  next h => simp [h]
  next h =>
    split
    next h' => simp [h']
    next h' =>
      split
      next h'' => simp [h'']
      next h'' => simp [h, h', h'']

/-- A stray that is taken away for a fingerprint weighs as much as the fingerprint. -/
theorem weightOf_stray (h : f.strayIs (f.home fingerprint) (tagOf fingerprint) = true) :
    (r f.bits).weightOf f.stray = share r f.bits fingerprint := by
  simp only [strayIs] at h
  split at h
  next s hs =>
    simp only [Bool.and_eq_true, Bool.or_eq_true, beq_iff_eq] at h
    obtain ⟨htag, hpos⟩ := h
    rw [hs, Region.weightOf, htag]
    rcases hpos with hpos | hpos
    · rw [hpos]
      rfl
    · rw [hpos, Region.weight_partner]
      rfl
  next => cases h

/-- A deletion takes the fingerprint out of the count of each of its regions. -/
theorem count_erase? (h : f.erase? fingerprint = some g) :
    g.count r + share r f.bits fingerprint = f.count r := by
  simp only [erase?] at h
  split at h
  next hi =>
    cases h
    have ht := Buckets.count_take hi (r f.bits)
    rw [count_settleStray]
    simp only [count, share, home] at ht ⊢
    omega
  next =>
    split at h
    next hj =>
      cases h
      have ht := Buckets.count_take hj (r f.bits)
      rw [Region.weight_partner] at ht
      rw [count_settleStray]
      simp only [count, share, home] at ht ⊢
      omega
    next =>
      split at h
      next hs =>
        cases h
        rw [count, count, weightOf_stray hs]
        rfl
      next => cases h

/-- A deletion changes the buckets and the stray, and lowers the length by one. -/
theorem erase?_frame (h : f.erase? fingerprint = some g) :
    ∃ b stray, g = { f with buckets := b, stray := stray, len := f.len - 1 } := by
  have hsettled : ∀ b : Buckets f.bits, ∃ b' stray,
      { f with buckets := b, len := f.len - 1 }.settleStray
        = { f with buckets := b', stray := stray, len := f.len - 1 } :=
    fun b => settleStray_frame { f with buckets := b, len := f.len - 1 }
  simp only [erase?] at h
  split at h
  · cases h
    exact hsettled _
  · split at h
    · cases h
      exact hsettled _
    · split at h
      · cases h
        exact ⟨_, _, rfl⟩
      · cases h

theorem bits_erase? (h : f.erase? fingerprint = some g) : g.bits = f.bits := by
  obtain ⟨b, stray, rfl⟩ := erase?_frame h
  rfl

/-- Taking away a fingerprint whose class has a tag. -/
theorem count_erase (h : 0 < f.count (classOf fingerprint)) :
    (f.erase fingerprint).count r + share r f.bits fingerprint = f.count r := by
  cases he : f.erase? fingerprint with
  | none => exact absurd (erase?_eq_none_iff.1 he) (Nat.ne_of_gt h)
  | some g =>
      rw [erase, he]
      exact count_erase? he

theorem bits_erase : (f.erase fingerprint).bits = f.bits := by
  cases he : f.erase? fingerprint with
  | none => rw [erase, he]; rfl
  | some g =>
      rw [erase, he]
      exact bits_erase? he

end Filter

end RecordStore
