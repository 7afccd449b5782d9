import Mathlib

/-!
# The order of 32-bit integers

The order that `<=` and `<` give 32-bit two's complement integers, as an
instance for everything stated over a linear order.
-/

instance instLinearOrderInt32 : LinearOrder Int32 where
  le_refl := Int32.le_refl
  le_trans _ _ _ := Int32.le_trans
  le_antisymm _ _ := Int32.le_antisymm
  le_total := Int32.le_total
  lt_iff_le_not_ge a b := by
    rw [Int32.not_le]
    exact ⟨fun h => ⟨Int32.le_of_lt h, h⟩, And.right⟩
  toDecidableLE := inferInstance
  toDecidableEq := inferInstance
  toDecidableLT := inferInstance
  min_def a b := by
    rfl
  max_def a b := by
    rfl
  compare_eq_compareOfLessAndEq a b := by
    rfl
