import Mathlib.Data.Nat.Bitwise
import Mathlib.Data.UInt
import Mathlib.Order.Bounds.Basic
import Mathlib.Order.Interval.Set.OrdConnected
import RecordStore.Proofs.Prefixes

/-!
# The order of keys, said without comparing

Four things describe the order of keys (`Key.order_described`).

* Milestones are in the order of their numbers, and only the key of a number has that number.
* It is a strict total order.
* Hash keys come before index keys.  Two keys of one form are in the order in which their bytes
  stand in a dictionary: either one begins the other, or the first byte in which they differ decides
  (`Bytes.Precedes`).
* The keys of a form that begin with given bytes stand together, the key of just these bytes first.

For the numbers, a string is read as a number with the high byte first (`Bytes.number`).  Strings of
one length are in the order of these numbers.  The bytes of a word spell the word, and four bytes
are read as the number that they spell.
-/

namespace RecordStore

namespace Bytes

/-! ## Numbers -/

variable {as bs : Bytes}

/-- The number that bytes spell, the high byte first. -/
def number : Bytes → Nat
  | [] => 0
  | b :: bs => b.toNat * 256 ^ bs.length + number bs

theorem number_lt (bs : Bytes) : number bs < 256 ^ bs.length := by
  induction bs with
  | nil => exact Nat.one_pos
  | cons b bs ih =>
      have hbyte : b.toNat + 1 ≤ 256 := b.toNat_lt
      calc number (b :: bs) < b.toNat * 256 ^ bs.length + 256 ^ bs.length :=
            Nat.add_lt_add_left ih _
        _ = (b.toNat + 1) * 256 ^ bs.length := (Nat.succ_mul _ _).symm
        _ ≤ 256 * 256 ^ bs.length := Nat.mul_le_mul_right _ hbyte
        _ = 256 ^ (b :: bs).length := (Nat.pow_succ' ..).symm

/-- A smaller high byte makes the number smaller, whatever bytes follow. -/
theorem number_cons_lt {a b : UInt8} (hlength : as.length = bs.length) (h : a < b) :
    number (a :: as) < number (b :: bs) := by
  have hbyte : a.toNat + 1 ≤ b.toNat := UInt8.lt_iff_toNat_lt.1 h
  calc number (a :: as) < a.toNat * 256 ^ as.length + 256 ^ as.length :=
        Nat.add_lt_add_left (number_lt as) _
    _ = (a.toNat + 1) * 256 ^ bs.length := by rw [Nat.succ_mul, hlength]
    _ ≤ b.toNat * 256 ^ bs.length := Nat.mul_le_mul_right _ hbyte
    _ ≤ number (b :: bs) := Nat.le_add_right _ _

/-- Strings of one length are in the order of their numbers. -/
theorem compare_eq_compare_number (hlength : as.length = bs.length) :
    compare as bs = compare (number as) (number bs) := by
  induction as generalizing bs with
  | nil =>
      obtain rfl := List.eq_nil_of_length_eq_zero hlength.symm
      rfl
  | cons a as ih =>
      obtain ⟨b, bs, rfl⟩ := List.exists_cons_of_length_eq_add_one hlength.symm
      have htails : as.length = bs.length := Nat.succ.inj hlength
      rw [compare_cons_cons]
      cases hab : compare a b with
      | lt => exact (Nat.compare_eq_lt.2 (number_cons_lt htails (Std.compare_eq_lt.1 hab))).symm
      | gt =>
          have hless := number_cons_lt htails.symm (Std.compare_eq_gt.1 hab)
          exact (Nat.compare_eq_gt.2 hless).symm
      | eq =>
          obtain rfl := Std.LawfulEqOrd.eq_of_compare hab
          rw [number, number, htails]
          simp only [Nat.compare_eq_ite_lt, Nat.add_lt_add_iff_left]
          rw [← Nat.compare_eq_ite_lt]
          exact ih htails

/-- Strings of one length that spell the same number are the same. -/
theorem eq_of_number_eq (hlength : as.length = bs.length) (h : number as = number bs) :
    as = bs := by
  refine Std.LawfulEqOrd.eq_of_compare ?_
  rw [compare_eq_compare_number hlength, h]
  exact Std.ReflOrd.compare_self

/-! ## Words -/

/-- The bytes of a word spell the word. -/
theorem number_ofWord (n : UInt32) : number (ofWord n) = n.toNat := by
  have hn := n.toNat_lt
  simp only [ofWord, number, List.length_cons, List.length_nil, UInt32.toNat_toUInt8,
    UInt32.toNat_shiftRight, Nat.shiftRight_eq_div_pow, UInt32.reduceToNat, Nat.reduceMod,
    Nat.reducePow, Nat.reduceAdd]
  omega

/-- Words are in the order of their bytes. -/
theorem compare_ofWord (m n : UInt32) : compare (ofWord m) (ofWord n) = compare m n := by
  have hlength : (ofWord m).length = (ofWord n).length := rfl
  rw [compare_eq_compare_number hlength, number_ofWord, number_ofWord,
    UInt32.compare_eq_toNat_compare_toNat]

/-- A byte that is shifted over the bytes below it stands in front of them. -/
theorem shiftLeft_or_number (b : UInt8) (bs : Bytes) :
    b.toNat <<< (8 * bs.length) ||| number bs = number (b :: bs) := by
  have hpow : 256 ^ bs.length = 2 ^ (8 * bs.length) := Nat.pow_mul 2 8 bs.length ▸ rfl
  have hlow : number bs < 2 ^ (8 * bs.length) := hpow ▸ number_lt bs
  rw [← Nat.shiftLeft_add_eq_or_of_lt hlow, Nat.shiftLeft_eq, number, hpow]

/-- Four bytes are read as the number that they spell. -/
theorem toNat_word (a b c d : UInt8) :
    ((a.toUInt32 <<< 24) ||| (b.toUInt32 <<< 16) ||| (c.toUInt32 <<< 8) ||| d.toUInt32).toNat =
      number [a, b, c, d] := by
  -- nothing is shifted out of the word
  have hshift : ∀ {x : UInt8} {i : Nat}, i ≤ 24 → x.toNat <<< i % 4294967296 = x.toNat <<< i := by
    intro x i hi
    refine Nat.mod_eq_of_lt ?_
    rw [Nat.shiftLeft_eq]
    calc x.toNat * 2 ^ i < 256 * 2 ^ i := Nat.mul_lt_mul_of_pos_right x.toNat_lt (Nat.two_pow_pos i)
      _ ≤ 256 * 2 ^ 24 := Nat.mul_le_mul_left _ (Nat.pow_le_pow_right Nat.two_pos hi)
  have hlast : d.toNat = number [d] := (Nat.mul_one d.toNat).symm
  have hlow : c.toNat <<< 8 ||| number [d] = number [c, d] := shiftLeft_or_number c [d]
  have hmiddle : b.toNat <<< 16 ||| number [c, d] = number [b, c, d] := shiftLeft_or_number b [c, d]
  have hhigh : a.toNat <<< 24 ||| number [b, c, d] = number [a, b, c, d] :=
    shiftLeft_or_number a [b, c, d]
  simp only [UInt32.toNat_or, UInt32.toNat_shiftLeft, UInt8.toNat_toUInt32, UInt32.reduceToNat,
    Nat.reduceMod, Nat.reducePow, hshift, Nat.le_refl, Nat.reduceLeDiff, Nat.or_assoc]
  rw [hlast, hlow, hmiddle, hhigh]

/-- Only the bytes of a word are read as the word. -/
theorem toWord?_eq_some_iff {n : UInt32} : toWord? bs = some n ↔ bs = ofWord n := by
  constructor
  · intro h
    obtain ⟨a, b, c, d, rfl⟩ : ∃ a b c d, bs = [a, b, c, d] := by
      unfold toWord? at h
      split at h
      · exact ⟨_, _, _, _, rfl⟩
      · cases h
    have hnumber := congrArg UInt32.toNat (Option.some.inj h)
    rw [toNat_word] at hnumber
    exact eq_of_number_eq rfl (hnumber.trans (number_ofWord n).symm)
  · rintro rfl
    refine congrArg some (UInt32.toNat_inj.1 ?_)
    rw [toNat_word]
    exact number_ofWord n

/-! ## Dictionaries -/

/-- Whether a string stands before another one in a dictionary: it begins the other one, which is
longer, or its byte is the smaller one in the first place where they differ. -/
def Precedes (as bs : Bytes) : Prop :=
  (as <+: bs ∧ as ≠ bs) ∨ ∃ common a b, a < b ∧ common ++ [a] <+: as ∧ common ++ [b] <+: bs

theorem not_precedes_nil : ¬ Precedes as [] := by
  rintro (⟨hstart, hne⟩ | ⟨common, a, b, -, -, hb⟩)
  · exact hne (List.prefix_nil.1 hstart)
  · exact List.append_ne_nil_of_right_ne_nil common (List.cons_ne_nil b []) (List.prefix_nil.1 hb)

theorem nil_precedes (b : UInt8) (bs : Bytes) : Precedes [] (b :: bs) :=
  .inl ⟨List.nil_prefix, (List.cons_ne_nil b bs).symm⟩

theorem cons_precedes_cons {a b : UInt8} :
    Precedes (a :: as) (b :: bs) ↔ a < b ∨ a = b ∧ Precedes as bs := by
  constructor
  · rintro (⟨hstart, hne⟩ | ⟨_ | ⟨x, common⟩, y, z, hyz, hy, hz⟩)
    · obtain ⟨rfl, htail⟩ := List.cons_prefix_cons.1 hstart
      exact .inr ⟨rfl, .inl ⟨htail, fun h => hne (h ▸ rfl)⟩⟩
    · obtain ⟨rfl, -⟩ := List.cons_prefix_cons.1 hy
      obtain ⟨rfl, -⟩ := List.cons_prefix_cons.1 hz
      exact .inl hyz
    · obtain ⟨rfl, hy'⟩ := List.cons_prefix_cons.1 hy
      obtain ⟨rfl, hz'⟩ := List.cons_prefix_cons.1 hz
      exact .inr ⟨rfl, .inr ⟨common, y, z, hyz, hy', hz'⟩⟩
  · rintro (hab | ⟨rfl, ⟨hstart, hne⟩ | ⟨common, y, z, hyz, hy, hz⟩⟩)
    · exact .inr ⟨[], a, b, hab, List.cons_prefix_cons.2 ⟨rfl, List.nil_prefix⟩,
        List.cons_prefix_cons.2 ⟨rfl, List.nil_prefix⟩⟩
    · exact .inl ⟨List.cons_prefix_cons.2 ⟨rfl, hstart⟩, fun h => hne (List.cons.inj h).2⟩
    · exact .inr ⟨a :: common, y, z, hyz, List.cons_prefix_cons.2 ⟨rfl, hy⟩,
        List.cons_prefix_cons.2 ⟨rfl, hz⟩⟩

/-- Strings are compared as in a dictionary. -/
theorem compare_eq_lt_iff : compare as bs = .lt ↔ Precedes as bs := by
  induction as generalizing bs with
  | nil =>
      cases bs with
      | nil => exact ⟨fun h => absurd h (by decide), fun h => absurd h not_precedes_nil⟩
      | cons b bs => exact ⟨fun _ => nil_precedes b bs, fun _ => rfl⟩
  | cons a as ih =>
      cases bs with
      | nil => exact ⟨fun h => absurd h nofun, fun h => absurd h not_precedes_nil⟩
      | cons b bs =>
          rw [compare_cons_cons, cons_precedes_cons, ← ih, Ordering.then_eq_lt, Std.compare_eq_lt,
            Std.LawfulEqCmp.compare_eq_iff_eq]

end Bytes

namespace Key

/-- Hash keys come before index keys, and keys of one form are in the order of their bytes. -/
theorem lt_iff_precedes {a b : Key} :
    a < b ↔ a.form = .hash ∧ b.form = .index ∨ a.form = b.form ∧ a.bytes.Precedes b.bytes := by
  rw [lt_iff, compare_eq, Ordering.then_eq_lt, Std.LawfulEqCmp.compare_eq_iff_eq]
  refine or_congr ?_ (and_congr_right fun _ => Bytes.compare_eq_lt_iff)
  cases a.form <;> cases b.form <;> decide

/-- Only the key of a number has the number. -/
theorem asIndex_eq_some_iff {k : Key} {n : UInt32} : k.asIndex = some n ↔ k = index n := by
  obtain ⟨form, bytes⟩ := k
  cases form with
  | hash => exact ⟨fun h => absurd h nofun, fun h => absurd h nofun⟩
  | index =>
      exact Bytes.toWord?_eq_some_iff.trans ⟨congrArg (Key.mk .index), congrArg Key.bytes⟩

/-- The keys of a form that begin with given bytes. -/
def block (form : KeyForm) (start : Bytes) : Set Key :=
  {k | k.form = form ∧ k.startsWith start = true}

theorem mem_block {form : KeyForm} {start : Bytes} {k : Key} :
    k ∈ block form start ↔ (⟨form, start⟩ : Key).begins k = true := by
  rw [begins_iff, ← List.isPrefixOf_iff_prefix]
  rfl

/-- Milestones are in the order of their numbers, and only their keys have numbers.  Keys are in a
strict total order, by form first and then as in a dictionary.  The keys of a form that begin alike
stand together, the shortest of them first. -/
theorem order_described :
    (∀ a b, compare (index a) (index b) = compare a b) ∧
      (∀ (k : Key) n, k.asIndex = some n ↔ k = index n) ∧
      IsStrictTotalOrder Key (· < ·) ∧
      (∀ a b : Key, a < b ↔ a.form = .hash ∧ b.form = .index ∨
        a.form = b.form ∧ a.bytes.Precedes b.bytes) ∧
      ∀ form start, (block form start).OrdConnected ∧ IsLeast (block form start) ⟨form, start⟩ := by
  refine ⟨Bytes.compare_ofWord, fun k n => asIndex_eq_some_iff, inferInstance,
    fun a b => lt_iff_precedes, fun form start => ⟨⟨fun a ha b hb c hc => ?_⟩, ?_, fun k hk => ?_⟩⟩
  · rw [mem_block] at ha hb ⊢
    rcases hc.2.lt_or_eq with hlt | rfl
    · exact begins_of_lt ((le_of_begins ha).trans hc.1) hlt hb
    · exact hb
  · exact ⟨rfl, List.isPrefixOf_iff_prefix.2 (List.prefix_refl start)⟩
  · exact le_of_begins (mem_block.1 hk)

end Key

end RecordStore
