import Mathlib.Logic.Function.Basic

/-!
# Words combined with their own shifts

A word combined by exclusive or with a shifted copy of itself can be recovered, to
whichever side the copy is shifted (`Shift.bijective_combine`).

Combining twice at a distance is combining once at twice the distance: the two copies
in the middle are the same and cancel (`Shift.combine_combine`).  So the distance can be
doubled until it is the width of the word, where nothing of the copy is left.
-/

namespace RecordStore

/-- A side to which words are shifted. -/
structure Shift (width : Nat) where
  shifted : BitVec width → Nat → BitVec width
  shifted_xor : ∀ x y n, shifted (x ^^^ y) n = shifted x n ^^^ shifted y n
  shifted_add : ∀ x m n, shifted x (m + n) = shifted (shifted x m) n
  shifted_width : ∀ x n, width ≤ n → shifted x n = 0

namespace Shift

variable {width n : Nat}

/-- Towards the high bits. -/
def up (width : Nat) : Shift width where
  shifted x n := x <<< n
  shifted_xor := BitVec.shiftLeft_xor_distrib
  shifted_add := BitVec.shiftLeft_add
  shifted_width _ _ := BitVec.shiftLeft_eq_zero

/-- Towards the low bits. -/
def down (width : Nat) : Shift width where
  shifted x n := x >>> n
  shifted_xor := BitVec.ushiftRight_xor_distrib
  shifted_add := BitVec.shiftRight_add
  shifted_width _ _ := BitVec.ushiftRight_eq_zero

variable (s : Shift width)

/-- Combines a word with its copy at a distance. -/
def combine (n : Nat) (x : BitVec width) : BitVec width := x ^^^ s.shifted x n

theorem combine_combine (n : Nat) (x : BitVec width) :
    s.combine n (s.combine n x) = s.combine (n + n) x := by
  calc s.combine n (s.combine n x)
      = x ^^^ s.shifted x n ^^^ s.shifted (x ^^^ s.shifted x n) n := rfl
    _ = x ^^^ s.shifted x n ^^^ (s.shifted x n ^^^ s.shifted x (n + n)) := by
        rw [s.shifted_xor, s.shifted_add]
    _ = x ^^^ s.shifted x (n + n) := by
        rw [BitVec.xor_assoc, ← BitVec.xor_assoc (s.shifted x n), BitVec.xor_self,
          BitVec.zero_xor]

theorem combine_of_le (h : width ≤ n) (x : BitVec width) : s.combine n x = x := by
  rw [combine, s.shifted_width x n h]
  exact BitVec.xor_zero

/-- Half the width is far enough for combining to undo itself. -/
theorem involutive_combine (h : width ≤ n + n) : Function.Involutive (s.combine n) := by
  intro x
  rw [s.combine_combine, s.combine_of_le h]

/-- Combining loses nothing at any distance. -/
theorem bijective_combine (hn : 0 < n) : Function.Bijective (s.combine n) := by
  -- the room between the distance and the width shrinks as the distance is doubled
  induction hroom : width - n using Nat.strongRecOn generalizing n with
  | ind room ih =>
      by_cases hwide : width ≤ n + n
      · exact (s.involutive_combine hwide).bijective
      · have hdoubled : Function.Bijective (s.combine (n + n)) :=
          ih (width - (n + n)) (by omega) (by omega) rfl
        have htwice : s.combine n ∘ s.combine n = s.combine (n + n) :=
          funext (s.combine_combine n)
        rw [← htwice] at hdoubled
        exact ⟨hdoubled.injective.of_comp, hdoubled.surjective.of_comp⟩

end Shift

end RecordStore
