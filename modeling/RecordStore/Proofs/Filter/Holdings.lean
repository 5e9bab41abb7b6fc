import Mathlib.Algebra.BigOperators.Fin
import Mathlib.Algebra.Order.Ring.Int
import Mathlib.Data.Fintype.EquivFin
import RecordStore.Proofs.Filter.Classes
import RecordStore.Proofs.Runs

/-!
# A filter is a bounded bag of classes

A filter is asked one thing after the other, and every answer is noted in a log.
The log alone tells what the filter must hold: of every class, the insertions that
were accepted less the deletions that took something away, since the last clear
(`held`).  The filter holds exactly that (`Usage.Balanced`), after any requests and
whatever was moved, left over or put back on the way.

The classes are those of the relation `alike`.  A deletion may take away the tag of
another fingerprint of the class; only where every fingerprint is deleted no more
often than it was inserted does the bag of the classes say something of the single
fingerprint (`held_pos`).
-/

namespace RecordStore

namespace Filter

/-! ## The classes of fingerprints -/

theorem alike_iff {bits : Nat} {a b : UInt64} : alike bits a b = true ↔ tagOf b = tagOf a ∧
    (Position.ofWord bits b = .ofWord bits a ∨
      Position.ofWord bits b = partner (.ofWord bits a) (tagOf a)) := by
  simp [alike]

theorem alike_symm {bits : Nat} {a b : UInt64} (h : alike bits a b = true) :
    alike bits b a = true := by
  obtain ⟨htag, hplace⟩ := alike_iff.1 h
  rw [alike_iff, htag]
  refine ⟨rfl, hplace.imp Eq.symm fun hpartner => ?_⟩
  rw [hpartner, partner_partner]

theorem alike_trans {bits : Nat} {a b c : UInt64} (hab : alike bits a b = true)
    (hbc : alike bits b c = true) : alike bits a c = true := by
  obtain ⟨htag, hplace⟩ := alike_iff.1 hab
  obtain ⟨htag', hplace'⟩ := alike_iff.1 hbc
  rw [htag] at hplace'
  refine alike_iff.2 ⟨htag'.trans htag, ?_⟩
  rcases hplace with hplace | hplace
  · rwa [hplace] at hplace'
  · rw [hplace, partner_partner] at hplace'
    exact hplace'.symm

/-- Fingerprints that cannot be told apart. -/
def likeness (bits : Nat) : Setoid UInt64 where
  r a b := alike bits a b = true
  iseqv := ⟨alike_self bits, alike_symm, alike_trans⟩

/-- A class of fingerprints. -/
def Class (bits : Nat) := Quotient (likeness bits)

noncomputable instance : Fintype UInt64 :=
  Fintype.ofInjective UInt64.toFin fun _ _ => UInt64.toFin_inj.1

namespace Class

/-- The class of a fingerprint. -/
def of (bits : Nat) (fingerprint : UInt64) : Class bits :=
  Quotient.mk (likeness bits) fingerprint

theorem of_eq_iff {bits : Nat} {a b : UInt64} : of bits a = of bits b ↔ alike bits a b = true :=
  Quotient.eq

instance (bits : Nat) : DecidableEq (Class bits) :=
  have (a b : UInt64) : Decidable (likeness bits a b) := inferInstanceAs (Decidable (_ = true))
  inferInstanceAs (DecidableEq (Quotient (likeness bits)))

instance (bits : Nat) : Finite (Class bits) :=
  inferInstanceAs (Finite (Quotient (likeness bits)))

noncomputable instance (bits : Nat) : Fintype (Class bits) := Fintype.ofFinite _

end Class

theorem share_classOf (bits : Nat) (a b : UInt64) :
    share (classOf a) bits b = if Class.of bits a = Class.of bits b then 1 else 0 := by
  simp only [Class.of_eq_iff]
  rfl

/-! ## What a filter is asked -/

/-- Something asked of a filter. -/
inductive Request where
  | insert (fingerprint : UInt64)
  | contains (fingerprint : UInt64)
  | delete (fingerprint : UInt64)
  | clear
  deriving DecidableEq

/-- What a filter is after a request, and what it answers: whether an insertion was accepted,
whether the fingerprint may be there, whether a deletion took something away. -/
def perform (f : Filter) : Request → Filter × Bool
  | .insert a =>
      match f.insert a with
      | .ok g => (g, true)
      | .error _ => (f, false)
  | .contains a => (f, f.contains a)
  | .delete a =>
      match f.erase? a with
      | some g => (g, true)
      | none => (f, false)
  | .clear => (f.clear, true)

/-- A filter with what it was asked and answered, the last first. -/
structure Usage where
  filter : Filter
  log : List (Request × Bool)

/-- Asks for one thing more. -/
def Usage.ask (u : Usage) (request : Request) : Usage where
  filter := (u.filter.perform request).1
  log := (request, (u.filter.perform request).2) :: u.log

/-- A new filter that is asked one thing after the other. -/
def Usage.run (capacity : Nat) (requests : List Request) : Usage :=
  RecordStore.run Usage.ask ⟨ofCapacity capacity, []⟩ requests

/-! ## What the log tells -/

/-- The part of a log after the last clear. -/
def sinceClear (log : List (Request × Bool)) : List (Request × Bool) :=
  log.takeWhile fun e => e.1 != .clear

/-- How often a fingerprint was inserted since the last clear. -/
def inserted (log : List (Request × Bool)) (fingerprint : UInt64) : Nat :=
  (sinceClear log).countP (· == (.insert fingerprint, true))

/-- How often something was taken away for a fingerprint since the last clear. -/
def deleted (log : List (Request × Bool)) (fingerprint : UInt64) : Nat :=
  (sinceClear log).countP (· == (.delete fingerprint, true))

/-- Whether an entry of a log is an accepted insertion of a fingerprint of a class. -/
def isInsertion {bits : Nat} (c : Class bits) : Request × Bool → Bool
  | (.insert a, true) => c == .of bits a
  | _ => false

/-- Whether an entry of a log is a deletion that took something away for a fingerprint of
a class. -/
def isDeletion {bits : Nat} (c : Class bits) : Request × Bool → Bool
  | (.delete a, true) => c == .of bits a
  | _ => false

/-- The insertions of a class less its deletions, since the last clear. -/
def held {bits : Nat} (log : List (Request × Bool)) (c : Class bits) : Int :=
  (sinceClear log).countP (isInsertion c) - (sinceClear log).countP (isDeletion c)

section

variable {bits : Nat} {log : List (Request × Bool)} (c : Class bits) (a : UInt64)

@[simp] theorem held_nil : held [] c = 0 := rfl

theorem held_insert : held ((.insert a, true) :: log) c
    = held log c + if c = .of bits a then 1 else 0 := by
  by_cases hc : c = .of bits a
  · simp [held, sinceClear, isInsertion, isDeletion, hc]
    omega
  · simp [held, sinceClear, isInsertion, isDeletion, hc]

theorem held_delete : held ((.delete a, true) :: log) c
    = held log c - if c = .of bits a then 1 else 0 := by
  by_cases hc : c = .of bits a
  · simp [held, sinceClear, isInsertion, isDeletion, hc]
    omega
  · simp [held, sinceClear, isInsertion, isDeletion, hc]

@[simp] theorem held_refused : held ((.insert a, false) :: log) c = held log c := rfl

@[simp] theorem held_missed : held ((.delete a, false) :: log) c = held log c := rfl

@[simp] theorem held_asked (answer : Bool) :
    held ((.contains a, answer) :: log) c = held log c := by
  cases answer <;> rfl

@[simp] theorem held_cleared (answer : Bool) : held ((.clear, answer) :: log) c = 0 := by
  cases answer <;> rfl

end

/-! ## One fingerprint among those alike -/

section

variable {bits : Nat}

/-- Where the entries of a kind come one from each fingerprint, those of a class are the
entries of its fingerprints. -/
theorem countP_class {entry : UInt64 → Request × Bool} (hentry : Function.Injective entry)
    {c : Class bits} {p : Request × Bool → Bool}
    (hp : ∀ e, p e = true ↔ ∃ a, c = .of bits a ∧ e = entry a) (log : List (Request × Bool)) :
    log.countP p = ∑ a with c = Class.of bits a, log.countP (· == entry a) := by
  induction log with
  | nil => simp
  | cons e log ih =>
      simp only [List.countP_cons, Finset.sum_add_distrib, ih]
      congr 1
      by_cases he : p e = true
      · obtain ⟨a, ha, rfl⟩ := (hp e).1 he
        simp [he, hentry.eq_iff, ha]
      · rw [if_neg he]
        refine (Finset.sum_eq_zero fun a ha => if_neg fun heq => he ?_).symm
        exact (hp e).2 ⟨a, (Finset.mem_filter.1 ha).2, by simpa using heq⟩

/-- What is held of a class is what is held of its fingerprints together. -/
theorem held_eq_sum (log : List (Request × Bool)) (c : Class bits) :
    held log c = ∑ a with c = Class.of bits a, ((inserted log a : Int) - deleted log a) := by
  have hinsertion : ∀ e, isInsertion c e = true ↔
      ∃ a, c = .of bits a ∧ e = (.insert a, true) := by
    rintro ⟨request, answer⟩
    cases request <;> cases answer <;> simp [isInsertion]
  have hdeletion : ∀ e, isDeletion c e = true ↔
      ∃ a, c = .of bits a ∧ e = (.delete a, true) := by
    rintro ⟨request, answer⟩
    cases request <;> cases answer <;> simp [isDeletion]
  rw [held, countP_class (fun _ _ h => by simpa using h) hinsertion,
    countP_class (fun _ _ h => by simpa using h) hdeletion, Finset.sum_sub_distrib]
  simp only [Nat.cast_sum, inserted, deleted]

/-- A class is held if none of its fingerprints was deleted more often than inserted, and
one of them less often. -/
theorem held_pos {log : List (Request × Bool)} {a : UInt64}
    (hall : ∀ b, alike bits a b = true → deleted log b ≤ inserted log b)
    (ha : deleted log a < inserted log a) : 0 < held log (Class.of bits a) := by
  rw [held_eq_sum]
  refine Finset.sum_pos' (fun b hb => ?_) ⟨a, by simp, by omega⟩
  have hle := hall b (Class.of_eq_iff.1 (Finset.mem_filter.1 hb).2)
  omega

end

/-! ## What the filter holds -/

/-- All places with a tag. -/
def everything (bits : Nat) : Region bits where
  has _ tag := tag != 0
  has_partner _ _ := rfl
  has_zero _ := rfl

@[simp] theorem share_everything (bits : Nat) (a : UInt64) : share everything bits a = 1 :=
  if_pos (by simpa [everything] using tagOf_ne_zero a)

/-- There are no more tags than places, and the stray. -/
theorem count_le_places (f : Filter) (r : (bits : Nat) → Region bits) :
    f.count r ≤ f.places + 1 := by
  have hbuckets : f.buckets.count (r f.bits) ≤ f.places := by
    calc f.buckets.count (r f.bits)
        ≤ ∑ _i : Position f.bits, 4 := Finset.sum_le_sum fun i _ => Vector.countP_le_size
      _ = f.places := by simp [places]
  have hstray : (r f.bits).weightOf f.stray ≤ 1 := by
    rw [Region.weightOf_eq]
    split <;> omega
  rw [count]
  omega

theorem len_insert {f g : Filter} {a : UInt64} (h : f.insert a = .ok g) : g.len = f.len + 1 := by
  cases (accepts_of_insert h).2 <;> rfl

theorem len_erase? {f g : Filter} {a : UInt64} (h : f.erase? a = some g) :
    g.len = f.len - 1 := by
  obtain ⟨b, stray, rfl⟩ := erase?_frame h
  rfl

namespace Usage

/-- A filter holds what its log tells. -/
structure Balanced (bits : Nat) (u : Usage) : Prop where
  size : u.filter.bits = bits
  /-- The tags of a class, the stray included, are those that the log tells of. -/
  count : ∀ a, (u.filter.count (classOf a) : Int) = held u.log (.of bits a)
  len : u.filter.len = u.filter.count everything
  total : (u.filter.len : Int) = ∑ c : Class bits, held u.log c

section

variable {bits : Nat} {u : Usage} {g : Filter} {a : UInt64}

theorem balanced_ofCapacity (capacity : Nat) :
    Balanced (ofCapacity capacity).bits ⟨ofCapacity capacity, []⟩ where
  size := rfl
  count _ := by simp
  len := by
    rw [count_ofCapacity]
    rfl
  total := by
    simp only [held_nil, Finset.sum_const_zero]
    rfl

theorem Balanced.insert (h : Balanced bits u) (hg : u.filter.insert a = .ok g) :
    Balanced bits ⟨g, (.insert a, true) :: u.log⟩ where
  size := (bits_insert hg).trans h.size
  count b := by
    rw [count_insert hg, share_classOf, h.size, held_insert, Nat.cast_add, h.count b]
    simp
  len := by
    rw [len_insert hg, count_insert hg, share_everything, h.len]
  total := by
    simp only [held_insert, Finset.sum_add_distrib, Finset.sum_ite_eq', Finset.mem_univ, if_true]
    rw [← h.total, len_insert hg]
    simp

/-- A deletion that takes something away finds the length above zero. -/
theorem Balanced.len_pos (h : Balanced bits u) (hg : u.filter.erase? a = some g) :
    0 < u.filter.len := by
  have hcount := count_erase? (r := everything) hg
  rw [share_everything] at hcount
  rw [h.len]
  omega

theorem Balanced.delete (h : Balanced bits u) (hg : u.filter.erase? a = some g) :
    Balanced bits ⟨g, (.delete a, true) :: u.log⟩ where
  size := (bits_erase? hg).trans h.size
  count b := by
    have hcount := count_erase? (r := classOf b) hg
    rw [share_classOf, h.size] at hcount
    rw [held_delete, ← h.count b, ← hcount]
    simp
  len := by
    have hcount := count_erase? (r := everything) hg
    rw [share_everything, ← h.len] at hcount
    show g.len = g.count everything
    rw [len_erase? hg, ← hcount, Nat.add_sub_cancel]
  total := by
    have hpos := h.len_pos hg
    have hsum : ∑ c : Class bits, held ((.delete a, true) :: u.log) c
        = ∑ c : Class bits, held u.log c - 1 := by
      simp only [held_delete, Finset.sum_sub_distrib, Finset.sum_ite_eq', Finset.mem_univ,
        if_true]
    rw [hsum, ← h.total, len_erase? hg]
    omega

theorem Balanced.clear (h : Balanced bits u) (answer : Bool) :
    Balanced bits ⟨u.filter.clear, (.clear, answer) :: u.log⟩ where
  size := h.size
  count b := by simp
  len := by
    rw [count_clear]
    rfl
  total := by
    simp only [held_cleared, Finset.sum_const_zero]
    rfl

/-- Every request keeps the filter and the log in balance. -/
theorem Balanced.ask (h : Balanced bits u) (request : Request) :
    Balanced bits (u.ask request) := by
  cases request with
  | insert a =>
      simp only [Usage.ask, perform]
      split
      next g hg => exact h.insert hg
      next => exact ⟨h.size, by simpa using h.count, h.len, by simpa using h.total⟩
  | contains a => exact ⟨h.size, by simpa [Usage.ask, perform] using h.count, h.len,
      by simpa [Usage.ask, perform] using h.total⟩
  | delete a =>
      simp only [Usage.ask, perform]
      split
      next g hg => exact h.delete hg
      next => exact ⟨h.size, by simpa using h.count, h.len, by simpa using h.total⟩
  | clear => exact h.clear true

theorem balanced_run (capacity : Nat) (requests : List Request) :
    Balanced (ofCapacity capacity).bits (run capacity requests) :=
  run_keeps (fun _ request h => h.ask request) (balanced_ofCapacity capacity) requests

end

end Usage

/-- The number of tags of the class of a fingerprint, the stray included. -/
def tags (f : Filter) (fingerprint : UInt64) : Nat :=
  f.tagsAt (f.home fingerprint) (tagOf fingerprint)

theorem count_classOf (f : Filter) (a : UInt64) : f.count (classOf a) = f.tags a := by
  have hplaces : classOf a f.bits
      = pairOf (f.home a).val (tagOf a) (tagOf_ne_zero a) f.bits := by
    simp only [classOf, pairOf, Position.ofNat_val]
    rfl
  rw [tags, ← count_pairOf (f.home a) (tagOf_ne_zero a), count, count, hplaces]

theorem delete_answer (f : Filter) (a : UInt64) :
    (f.perform (.delete a)).2 = true ↔ 0 < f.count (classOf a) := by
  rw [Nat.pos_iff_ne_zero, ne_eq, ← erase?_eq_none_iff]
  simp only [perform]
  split
  next g hg => simp [hg]
  next hg => simp [hg]

namespace Usage

/-- The bag of classes that the log tells of is what the filter holds, what it answers by and
what it changes by. -/
structure Exact (bits : Nat) (u : Usage) : Prop where
  size : u.filter.bits = bits
  nonneg : ∀ c : Class bits, 0 ≤ held u.log c
  tags : ∀ a, (u.filter.tags a : Int) = held u.log (Class.of bits a)
  contains : ∀ a, u.filter.contains a = true ↔ 0 < held u.log (Class.of bits a)
  delete : ∀ a, (u.filter.perform (.delete a)).2 = true ↔ 0 < held u.log (Class.of bits a)
  /-- A deletion that takes something away lowers the class of the fingerprint by one, and no
  other.  The length was above zero. -/
  deleted : ∀ a, (u.filter.perform (.delete a)).2 = true →
    (∀ c : Class bits, held (u.ask (.delete a)).log c
      = held u.log c - if c = .of bits a then 1 else 0) ∧
    (∀ b, (u.ask (.delete a)).filter.tags b + (if alike bits a b = true then 1 else 0)
      = u.filter.tags b) ∧
    (u.ask (.delete a)).filter.len + 1 = u.filter.len
  /-- A deletion that takes nothing away changes nothing. -/
  missed : ∀ a, (u.filter.perform (.delete a)).2 = false →
    (u.ask (.delete a)).filter = u.filter ∧
      ∀ c : Class bits, held (u.ask (.delete a)).log c = held u.log c
  /-- A refused insertion changes nothing. -/
  refused : ∀ a e, u.filter.insert a = .error e →
    (u.ask (.insert a)).filter = u.filter ∧
      ∀ c : Class bits, held (u.ask (.insert a)).log c = held u.log c
  len : (u.filter.len : Int) = ∑ c : Class bits, held u.log c
  bound : u.filter.len ≤ u.filter.places + 1
  /-- Where no fingerprint of a class was deleted more often than inserted, each one that was
  deleted less often is found. -/
  found : ∀ a, (∀ b, alike bits a b = true → Filter.deleted u.log b ≤ inserted u.log b) →
    Filter.deleted u.log a < inserted u.log a → u.filter.contains a = true

theorem Balanced.contains_iff {bits : Nat} {u : Usage} (h : Balanced bits u) (a : UInt64) :
    u.filter.contains a = true ↔ 0 < held u.log (Class.of bits a) := by
  rw [Filter.contains_iff, ← h.count, Int.natCast_pos]

theorem Balanced.exact {bits : Nat} {u : Usage} (h : Balanced bits u) : Exact bits u where
  size := h.size
  nonneg := by
    rintro ⟨a⟩
    exact (Int.natCast_nonneg _).trans_eq (h.count a)
  tags a := by rw [← count_classOf, h.count]
  contains := h.contains_iff
  delete a := by rw [delete_answer, ← h.count, Int.natCast_pos]
  deleted a ha := by
    cases hg : u.filter.erase? a with
    | none => simp [perform, hg] at ha
    | some g =>
        have hask : u.ask (.delete a) = ⟨g, (.delete a, true) :: u.log⟩ := by
          simp [Usage.ask, perform, hg]
        rw [hask]
        refine ⟨fun c => held_delete c a, fun b => ?_, ?_⟩
        · have hcount := count_erase? (r := classOf b) hg
          simp only [share_classOf, Class.of_eq_iff, h.size, count_classOf] at hcount
          rw [← hcount]
          congr 1
          exact if_congr ⟨alike_symm, alike_symm⟩ rfl rfl
        · have hpos := h.len_pos hg
          show g.len + 1 = u.filter.len
          rw [len_erase? hg]
          omega
  missed a ha := by
    cases hg : u.filter.erase? a with
    | none => simp [Usage.ask, perform, hg]
    | some g => simp [perform, hg] at ha
  refused a e he := by simp [Usage.ask, perform, he]
  len := h.total
  bound := by
    rw [h.len]
    exact count_le_places u.filter everything
  found a hall ha := (h.contains_iff a).2 (held_pos hall ha)

end Usage

/-- After any requests, a filter is exactly the bounded bag of classes that its log tells of. -/
theorem run_exact (capacity : Nat) (requests : List Request) :
    (Usage.run capacity requests).Exact (ofCapacity capacity).bits :=
  (Usage.balanced_run capacity requests).exact

end Filter

end RecordStore
