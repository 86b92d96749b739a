import Mathlib.Order.Compare
import Mathlib.Tactic.Common

/-!
# Comparators

A comparator `cmp` orders its type strictly by `cmp a b = .lt`; the statement that `b` is not below
`a` is `cmp b a ≠ .lt`. The laws of a total order are restated for these two forms.
-/

set_option autoImplicit false

namespace AtomKV

namespace Compare

universe u

variable {α : Type u} {cmp : α → α → Ordering} [Std.TransCmp cmp] {a b c : α}

theorem lt_trans (h₁ : cmp a b = .lt) (h₂ : cmp b c = .lt) : cmp a c = .lt :=
  Std.TransCmp.lt_trans h₁ h₂

theorem not_lt_of_lt (h : cmp a b = .lt) : cmp b a ≠ .lt := by
  rw [Std.OrientedCmp.gt_of_lt h]
  decide

theorem irrefl (a : α) : cmp a a ≠ .lt := by
  have h : cmp a a = .eq := Std.ReflCmp.compare_self
  rw [h]
  decide

theorem isLE_of_not_lt (h : cmp b a ≠ .lt) : (cmp a b).isLE := by
  cases hab : cmp a b with
  | lt => rfl
  | eq => rfl
  | gt => exact absurd (Std.OrientedCmp.lt_of_gt hab) h

theorem lt_of_lt_of_le (h₁ : cmp a b = .lt) (h₂ : cmp c b ≠ .lt) : cmp a c = .lt :=
  Std.TransCmp.lt_of_lt_of_isLE h₁ (isLE_of_not_lt h₂)

theorem lt_of_le_of_lt (h₁ : cmp b a ≠ .lt) (h₂ : cmp b c = .lt) : cmp a c = .lt :=
  Std.TransCmp.lt_of_isLE_of_lt (isLE_of_not_lt h₁) h₂

theorem eq_of_not_lt [Std.LawfulEqCmp cmp] (h₁ : cmp a b ≠ .lt) (h₂ : cmp b a ≠ .lt) : a = b := by
  cases hab : cmp a b with
  | lt => exact absurd hab h₁
  | eq => exact Std.LawfulEqCmp.eq_of_compare hab
  | gt => exact absurd (Std.OrientedCmp.lt_of_gt hab) h₂

omit [Std.TransCmp cmp] in
theorem eq_iff [Std.LawfulEqCmp cmp] : cmp a b = .eq ↔ a = b :=
  ⟨Std.LawfulEqCmp.eq_of_compare, fun h => h ▸ Std.ReflCmp.compare_self⟩

end Compare

end AtomKV
