import Mathlib.Data.UInt
import RecordStore.Fingerprint
import RecordStore.Proofs.Shifts

/-!
# Fingerprints of short keys and of keys that are close

Keys of four bytes have different fingerprints in a table, whatever state the digest starts from.
So have milestones (`Fingerprint.index_fingerprints_injective`).  Keys of any length that differ in
one byte have different fingerprints, and so has one key in different tables and forms
(`Fingerprint.fingerprints_separate`).

The final mixing loses nothing (`avalanche_injective`): a fold undoes itself, and the multipliers
have inverses.  What is left is the absorbing of bytes.  A byte changes a state by less than 256.
So two states that absorbed different bytes are apart by `((d * p + e₁) * p + e₂) * p + e₃` when the
fourth byte is added, where `p` is the multiplier, `d` comes from the first bytes, and each `e` from
two later ones (`Apart.xor`, `Apart.mul`).

The multiplier is `435` and the fortieth power of two.  So the low forty bits of that number are
made of powers of `435` only, and these are too small to reach the fortieth power of two.  For the
number to vanish they have to vanish, and then the bits above them do not, unless `d` is zero
(`eq_zero_of_dvd_horner`).  So the first bytes are the same, and the others by induction.

For any number of bytes there is only this: a byte permutes the states, so states that are apart
once stay so (`absorb_left_injective`).
-/

namespace RecordStore

namespace Bytes

/-- The four bytes of a word tell the word. -/
theorem ofWord_injective : Function.Injective ofWord := by
  intro m n h
  have hbytes := congrArg (List.map UInt8.toNat) h
  simp only [ofWord, List.map_cons, List.map_nil, UInt32.toNat_toUInt8, UInt32.toNat_shiftRight,
    Nat.shiftRight_eq_div_pow, List.cons.injEq, and_true, UInt32.reduceToNat, Nat.reduceMod,
    Nat.reducePow] at hbytes
  have hm := m.toNat_lt
  have hn := n.toNat_lt
  refine UInt32.toNat_inj.1 ?_
  omega

end Bytes

namespace Fingerprint

variable {state x y : UInt64} {a b : UInt8} {bs cs : Bytes} {d : Int}

/-! ## The final mixing -/

theorem toBitVec_fold (h : UInt64) :
    (fold h).toBitVec = (Shift.down 64).combine 33 h.toBitVec := rfl

theorem fold_involutive : Function.Involutive fold := by
  intro h
  refine UInt64.toBitVec_inj.1 ?_
  rw [toBitVec_fold, toBitVec_fold]
  exact (Shift.down 64).involutive_combine (by decide) h.toBitVec

theorem avalanche_injective : Function.Injective avalanche := by
  have hfirst : IsUnit (0xff51afd7ed558ccd : UInt64) := .of_mul_eq_one 0x4f74430c22a54005 rfl
  have hsecond : IsUnit (0xc4ceb9fe1a85ec53 : UInt64) := .of_mul_eq_one 0x9cb4b2f8129337db rfl
  exact (fold_involutive.injective.comp hsecond.mul_left_injective).comp
    ((fold_involutive.injective.comp hfirst.mul_left_injective).comp fold_involutive.injective)

/-! ## States that went different ways -/

theorem isUnit_multiplier : IsUnit multiplier := .of_mul_eq_one 0xce965057aff6957b rfl

/-- The bytes above the lowest one stay when a byte is added to a state. -/
theorem toNat_xor_div (state : UInt64) (b : UInt8) :
    (state ^^^ b.toUInt64).toNat / 256 = state.toNat / 256 := by
  have hdiv : (state.toNat ^^^ b.toNat) / 256 = state.toNat / 256 ^^^ b.toNat / 256 :=
    Nat.xor_div_two_pow (n := 8)
  rw [UInt64.toNat_xor, UInt8.toNat_toUInt64, hdiv, Nat.div_eq_of_lt b.toNat_lt, Nat.xor_zero]

/-- How far two states are apart. -/
def Apart (d : Int) (x y : UInt64) : Prop :=
  (18446744073709551616 : Int) ∣ x.toNat - y.toNat - d

namespace Apart

/-- Different bytes bring a state apart by less than 256. -/
theorem of_xor (state : UInt64) (a b : UInt8) : ∃ d, -255 ≤ d ∧ d ≤ 255 ∧
    Apart d (state ^^^ a.toUInt64) (state ^^^ b.toUInt64) := by
  have ha := toNat_xor_div state a
  have hb := toNat_xor_div state b
  refine ⟨(state ^^^ a.toUInt64).toNat - (state ^^^ b.toUInt64).toNat, ?_, ?_, ?_⟩
  · omega
  · omega
  · rw [Apart, Int.sub_self]
    exact Int.dvd_zero _

/-- Bytes change how far two states are apart by little. -/
theorem xor (h : Apart d x y) (a b : UInt8) : ∃ e, -510 ≤ e ∧ e ≤ 510 ∧
    Apart (d + e) (x ^^^ a.toUInt64) (y ^^^ b.toUInt64) := by
  have ha := toNat_xor_div x a
  have hb := toNat_xor_div y b
  refine ⟨((x ^^^ a.toUInt64).toNat - x.toNat) - ((y ^^^ b.toUInt64).toNat - y.toNat), ?_, ?_, ?_⟩
  · omega
  · omega
  · rw [Apart] at h ⊢
    omega

theorem mul (h : Apart d x y) : Apart (d * 1099511628211) (x * multiplier) (y * multiplier) := by
  have hmultiplier : multiplier.toNat = 1099511628211 := rfl
  rw [Apart] at h ⊢
  rw [UInt64.toNat_mul, UInt64.toNat_mul, hmultiplier]
  omega

theorem dvd_of_eq (h : Apart d x y) (heq : x = y) : (18446744073709551616 : Int) ∣ d := by
  subst heq
  rw [Apart] at h
  omega

theorem eq_of_zero (h : Apart 0 x y) : x = y := by
  have hx := x.toNat_lt
  have hy := y.toNat_lt
  rw [Apart] at h
  refine UInt64.toNat_inj.1 ?_
  omega

end Apart

/-! ## Four bytes -/

/-- The powers of the multiplier are too far from each other for small factors to make them
cancel. -/
theorem eq_zero_of_dvd_horner {e₁ e₂ e₃ : Int} (hd : -255 ≤ d ∧ d ≤ 255) (h₁ : -510 ≤ e₁ ∧ e₁ ≤ 510)
    (h₂ : -510 ≤ e₂ ∧ e₂ ≤ 510) (h₃ : -510 ≤ e₃ ∧ e₃ ≤ 510)
    (h : (18446744073709551616 : Int) ∣
      ((d * 1099511628211 + e₁) * 1099511628211 + e₂) * 1099511628211 + e₃) : d = 0 := by
  have hlow : 82312875 * d + 189225 * e₁ + 435 * e₂ + e₃ = 0 := by omega
  have hhigh : (16777216 : Int) ∣ 567675 * d + 870 * e₁ + e₂ := by omega
  -- so `e₁` is about `-435 * d`, and the high bits are about `189225 * d`
  have hclose : -1 ≤ 435 * d + e₁ ∧ 435 * d + e₁ ≤ 1 := by omega
  have hsmall : -1 ≤ d ∧ d ≤ 1 := by omega
  have hzero : 567675 * d + 870 * e₁ + e₂ = 0 := by omega
  omega

/-- Strings of four bytes that bring a state to the same begin with the same byte. -/
theorem head_eq (hbs : bs.length = 3) (hcs : cs.length = 3)
    (h : absorb state (a :: bs) = absorb state (b :: cs)) : a = b := by
  obtain ⟨a₁, a₂, a₃, rfl⟩ := List.length_eq_three.1 hbs
  obtain ⟨b₁, b₂, b₃, rfl⟩ := List.length_eq_three.1 hcs
  obtain ⟨d, hd, hd', hapart⟩ := Apart.of_xor state a b
  obtain ⟨e₁, h₁, h₁', hapart₁⟩ := hapart.mul.xor a₁ b₁
  obtain ⟨e₂, h₂, h₂', hapart₂⟩ := hapart₁.mul.xor a₂ b₂
  obtain ⟨e₃, h₃, h₃', hapart₃⟩ := hapart₂.mul.xor a₃ b₃
  have hlast := hapart₃.dvd_of_eq (isUnit_multiplier.mul_left_injective h)
  obtain rfl : d = 0 :=
    eq_zero_of_dvd_horner ⟨hd, hd'⟩ ⟨h₁, h₁'⟩ ⟨h₂, h₂'⟩ ⟨h₃, h₃'⟩ hlast
  exact UInt8.toUInt64_inj.1 ((UInt64.xor_right_inj state).1 hapart.eq_of_zero)

theorem absorb_append (state : UInt64) (bs cs : Bytes) :
    absorb state (bs ++ cs) = absorb (absorb state bs) cs := List.foldl_append

/-- Strings of up to four bytes, all of one length, bring a state to different ones. -/
theorem absorb_injOn {n : Nat} (hn : n ≤ 4) (state : UInt64) :
    Set.InjOn (absorb state) {bs | bs.length = n} := by
  induction n generalizing state with
  | zero =>
      intro bs hbs cs hcs _
      rw [List.eq_nil_of_length_eq_zero hbs, List.eq_nil_of_length_eq_zero hcs]
  | succ n ih =>
      rintro (_ | ⟨a, bs⟩) hbs (_ | ⟨b, cs⟩) hcs h
      · rfl
      · cases hbs
      · cases hcs
      · have hbs' : bs.length = n := Nat.succ.inj hbs
        have hcs' : cs.length = n := Nat.succ.inj hcs
        -- the same bytes after both make four of them
        let more : Bytes := List.replicate (3 - n) 0
        have hmore : absorb state (a :: (bs ++ more)) = absorb state (b :: (cs ++ more)) := by
          rw [← List.cons_append, ← List.cons_append, absorb_append, absorb_append, h]
        have hlength : ∀ {l : Bytes}, l.length = n → (l ++ more).length = 3 := by
          intro l hl
          rw [List.length_append, List.length_replicate, hl]
          omega
        obtain rfl := head_eq (hlength hbs') (hlength hcs') hmore
        rw [ih (Nat.le_of_succ_le hn) (absorbByte state a) hbs' hcs' h]

/-- Different milestones have different fingerprints in every table, and so has any string of four
bytes, from whatever state the digest starts. -/
theorem index_fingerprints_injective :
    (∀ kind, Function.Injective fun n => ofId ⟨kind, .index n⟩) ∧
      ∀ state, Set.InjOn (fun bs => avalanche (absorb state bs)) {bs | bs.length = 4} := by
  have hfour : ∀ state, Set.InjOn (fun bs => avalanche (absorb state bs)) {bs | bs.length = 4} :=
    fun state => avalanche_injective.comp_injOn (absorb_injOn (Nat.le_refl 4) state)
  refine ⟨fun kind m n h => Bytes.ofWord_injective ?_, hfour⟩
  exact hfour (absorb basis [kind.code, KeyForm.index.tag]) rfl rfl h

/-! ## One byte among many -/

/-- A byte brings different states to different ones. -/
theorem absorbByte_left_injective (b : UInt8) : Function.Injective fun state =>
    absorbByte state b :=
  isUnit_multiplier.mul_left_injective.comp fun _ _ h => (UInt64.xor_left_inj b.toUInt64).1 h

/-- Different bytes bring a state to different ones. -/
theorem absorbByte_right_injective (state : UInt64) : Function.Injective (absorbByte state) := by
  intro a b h
  have hxor := isUnit_multiplier.mul_left_injective h
  exact UInt8.toUInt64_inj.1 ((UInt64.xor_right_inj state).1 hxor)

/-- States that are apart stay so, however many bytes both absorb. -/
theorem absorb_left_injective (bs : Bytes) : Function.Injective fun state => absorb state bs := by
  induction bs with
  | nil => exact Function.injective_id
  | cons b bs ih => exact ih.comp (absorbByte_left_injective b)

/-- Strings that differ in one place only bring a state to different ones. -/
theorem absorb_ne (hlength : bs.length = cs.length) (hone : ∃! i : Nat, bs[i]? ≠ cs[i]?) :
    absorb state bs ≠ absorb state cs := by
  induction bs generalizing cs state with
  | nil =>
      obtain rfl := List.eq_nil_of_length_eq_zero hlength.symm
      obtain ⟨i, hi, -⟩ := hone
      exact absurd rfl hi
  | cons a bs ih =>
      obtain ⟨b, cs, rfl⟩ := List.exists_cons_of_length_eq_add_one hlength.symm
      obtain ⟨i, hi, honly⟩ := hone
      have htails : ∀ j, bs[j]? ≠ cs[j]? → j + 1 = i := fun j hj => honly (j + 1) hj
      rcases eq_or_ne a b with rfl | hab
      · -- the place is in what follows
        cases i with
        | zero => exact absurd rfl hi
        | succ i =>
            have hrest : ∃! j : Nat, bs[j]? ≠ cs[j]? :=
              ⟨i, hi, fun j hj => Nat.succ.inj (htails j hj)⟩
            exact ih (Nat.succ.inj hlength) hrest
      · -- what follows is the same, so the states that the two bytes lead to stay apart
        have hhead : i = 0 := (honly 0 fun h => hab (Option.some.inj h)).symm
        have hrest : bs = cs := by
          refine List.ext_getElem? fun j => by_contra fun hj => ?_
          exact Nat.succ_ne_zero j ((htails j hj).trans hhead)
        subst hrest
        intro h
        exact hab (absorbByte_right_injective state (absorb_left_injective bs h))

/-- The same bytes have different fingerprints in different tables and forms, and bytes of one
length that differ in one place only have different ones in each table and form. -/
theorem fingerprints_separate :
    (∀ bytes, Function.Injective fun place : Kind × KeyForm => ofRaw place.1 place.2 bytes) ∧
      ∀ kind form (bs cs : Bytes), bs.length = cs.length → (∃! i : Nat, bs[i]? ≠ cs[i]?) →
        ofRaw kind form bs ≠ ofRaw kind form cs := by
  refine ⟨fun bytes => ?_, fun kind form bs cs hlength hone h => ?_⟩
  · rintro ⟨kind, form⟩ ⟨kind', form'⟩ h
    have hstart : absorb basis [kind.code, form.tag] = absorb basis [kind'.code, form'.tag] :=
      absorb_left_injective bytes (avalanche_injective h)
    have hcodes := absorb_injOn (n := 2) (by decide) basis rfl rfl hstart
    obtain ⟨hkind, hform⟩ := List.cons.inj hcodes
    rw [Kind.code_inj hkind, KeyForm.tag_inj (List.cons.inj hform).1]
  · exact absorb_ne hlength hone (avalanche_injective h)

/-- Bytes that differ in the middle, and one key in two tables. -/
theorem fingerprints_separate_middle :
    (∃! i : Nat, ([1, 2, 3] : Bytes)[i]? ≠ ([1, 9, 3] : Bytes)[i]?) ∧
      ofRaw .address .hash [1, 2, 3] ≠ ofRaw .address .hash [1, 9, 3] ∧
      ofRaw .address .hash [1, 2, 3] ≠ ofRaw .bundle .index [1, 2, 3] := by
  have hone : ∃! i : Nat, ([1, 2, 3] : Bytes)[i]? ≠ ([1, 9, 3] : Bytes)[i]? := by
    refine ⟨1, by decide, ?_⟩
    rintro (_ | _ | _ | i) hi
    · exact absurd rfl hi
    · rfl
    · exact absurd rfl hi
    · exact absurd rfl hi
  have hplaces : ((.address, .hash) : Kind × KeyForm) ≠ (.bundle, .index) := by decide
  have hinjective := fingerprints_separate.1 [1, 2, 3]
  refine ⟨hone, ?_, fun h => hplaces (hinjective h)⟩
  exact fingerprints_separate.2 .address .hash [1, 2, 3] [1, 9, 3] rfl hone

end Fingerprint

end RecordStore
