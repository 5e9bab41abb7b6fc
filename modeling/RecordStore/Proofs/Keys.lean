import Mathlib.Order.Compare
import Mathlib.Order.Defs.LinearOrder
import RecordStore.Key

/-!
# The order of keys

Keys are linearly ordered.
-/

namespace RecordStore

namespace Key

theorem le_iff {a b : Key} : a ≤ b ↔ (compare a b).isLE = true := Iff.rfl

theorem lt_iff {a b : Key} : a < b ↔ compare a b = .lt := Iff.rfl

instance : LinearOrder Key where
  le_refl a := by
    rw [le_iff, Std.ReflOrd.compare_self]
    rfl
  le_trans _ _ _ := Std.TransCmp.isLE_trans
  le_antisymm _ _ hab hba :=
    Std.LawfulEqCmp.compare_eq_iff_eq.1 (Std.OrientedCmp.isLE_antisymm hab hba)
  le_total a b := by
    rw [le_iff, le_iff, Std.OrientedOrd.eq_swap (a := b)]
    cases compare a b <;> decide
  lt_iff_le_not_ge a b := by
    rw [lt_iff, le_iff, le_iff, Std.OrientedOrd.eq_swap (a := b)]
    cases compare a b <;> decide
  toDecidableLE := inferInstance
  toDecidableLT := inferInstance
  toDecidableEq := inferInstance
  compare_eq_compareOfLessAndEq a b := by
    simp only [compareOfLessAndEq, lt_iff]
    cases h : compare a b with
    | lt => rfl
    | eq => rw [if_neg nofun, if_pos (Std.LawfulEqCmp.compare_eq_iff_eq.1 h)]
    | gt =>
        rw [if_neg nofun, if_neg]
        rintro rfl
        rw [Std.ReflOrd.compare_self] at h
        cases h

end Key

end RecordStore
