import Mathlib.Data.List.Basic
import Mathlib.Tactic.Common

/-!
# Lists at a position

A list with a position in it is written `l₁ ++ a :: l₂` with the position `l₁.length`. In this form
insertion, removal and replacement at the position are equations without index arithmetic.
-/

set_option autoImplicit false

namespace AtomKV

namespace ListAt

universe u v

variable {α : Type u} {β : Type v}

@[simp] theorem insertIdx_length (l₁ l₂ : List α) (a : α) :
    (l₁ ++ l₂).insertIdx l₁.length a = l₁ ++ a :: l₂ := by
  induction l₁ with
  | nil => simp
  | cons b l₁ ih => simpa using ih

@[simp] theorem eraseIdx_length (l₁ l₂ : List α) (a : α) :
    (l₁ ++ a :: l₂).eraseIdx l₁.length = l₁ ++ l₂ := by
  induction l₁ with
  | nil => simp
  | cons b l₁ ih => simpa using ih

@[simp] theorem modify_length (l₁ l₂ : List α) (a : α) (f : α → α) :
    (l₁ ++ a :: l₂).modify l₁.length f = l₁ ++ f a :: l₂ := by
  induction l₁ with
  | nil => rfl
  | cons b l₁ ih => simpa using ih

@[simp] theorem set_length (l₁ l₂ : List α) (a a' : α) :
    (l₁ ++ a :: l₂).set l₁.length a' = l₁ ++ a' :: l₂ := by
  rw [List.set_append_right _ _ (Nat.le_refl _), Nat.sub_self]
  rfl

/-- Insertion behind a position. -/
theorem insertIdx_length_succ (l₁ l₂ : List α) (a a' : α) :
    (l₁ ++ a :: l₂).insertIdx (l₁.length + 1) a' = l₁ ++ a :: a' :: l₂ := by
  have h := insertIdx_length (l₁ ++ [a]) l₂ a'
  simpa only [List.length_append, List.length_singleton, List.append_assoc, List.singleton_append]
    using h

/-- Removal behind a position. -/
theorem eraseIdx_length_succ (l₁ l₂ : List α) (a a' : α) :
    (l₁ ++ a :: a' :: l₂).eraseIdx (l₁.length + 1) = l₁ ++ a :: l₂ := by
  have h := eraseIdx_length (l₁ ++ [a]) l₂ a'
  simpa only [List.length_append, List.length_singleton, List.append_assoc, List.singleton_append]
    using h

/-- A list split at a position it has. -/
theorem exists_split {l : List α} {i : ℕ} {a : α} (h : l[i]? = some a) :
    ∃ l₁ l₂, l = l₁ ++ a :: l₂ ∧ l₁.length = i := by
  obtain ⟨hi, rfl⟩ := List.getElem?_eq_some_iff.1 h
  refine ⟨l.take i, l.drop (i + 1), ?_, by simp; omega⟩
  rw [List.getElem_cons_drop, List.take_append_drop]

/-- The same for a position below the length. -/
theorem exists_split_lt {l : List α} {i : ℕ} (h : i < l.length) :
    ∃ l₁ a l₂, l = l₁ ++ a :: l₂ ∧ l₁.length = i := by
  obtain ⟨l₁, l₂, hl, hi⟩ := exists_split (List.getElem?_eq_getElem h)
  exact ⟨l₁, _, l₂, hl, hi⟩

/-- A list split at a cut. -/
theorem exists_split_le {l : List α} {i : ℕ} (h : i ≤ l.length) :
    ∃ l₁ l₂, l = l₁ ++ l₂ ∧ l₁.length = i :=
  ⟨l.take i, l.drop i, (List.take_append_drop i l).symm, by simp; omega⟩

/-- A list whose image is split at a cut is itself split there. -/
theorem exists_split_of_map {f : α → β} {l : List α} {k₁ k₂ : List β} (h : l.map f = k₁ ++ k₂) :
    ∃ l₁ l₂, l = l₁ ++ l₂ ∧ l₁.map f = k₁ ∧ l₂.map f = k₂ ∧ l₁.length = k₁.length := by
  obtain ⟨l₁, l₂, hl, h₁, h₂⟩ := List.map_eq_append_iff.1 h
  exact ⟨l₁, l₂, hl, h₁, h₂, by rw [← h₁, List.length_map]⟩

end ListAt

end AtomKV
