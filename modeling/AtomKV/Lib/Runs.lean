import Mathlib.Algebra.BigOperators.Group.List.Basic
import Mathlib.Algebra.GroupWithZero.Nat
import Mathlib.Tactic.Common

/-!
# Counting the members of runs

A run `(start, length)` stands for the numbers `start, ..., start + length - 1`. `runCount r p` says
how often `p` is among them (once or not at all), `runsCount rs p` adds this up over a list of runs.
Statements about which numbers a list of runs covers, and how often, become equations between such
counts, which `omega` solves.
-/

set_option autoImplicit false

namespace AtomKV

/-- How often `p` occurs in the run `r`. -/
def runCount (r : ℕ × ℕ) (p : ℕ) : ℕ := if r.1 ≤ p ∧ p < r.1 + r.2 then 1 else 0

/-- How often `p` occurs in the runs `rs`. -/
def runsCount (rs : List (ℕ × ℕ)) (p : ℕ) : ℕ := (rs.map fun r => runCount r p).sum

theorem runCount_pos_iff (r : ℕ × ℕ) (p : ℕ) : 0 < runCount r p ↔ r.1 ≤ p ∧ p < r.1 + r.2 := by
  unfold runCount
  split <;> simp_all

theorem runCount_mk (a n p : ℕ) : runCount (a, n) p = if a ≤ p ∧ p < a + n then 1 else 0 := rfl

/-- A run splits at every inner point. -/
theorem runCount_add (a m n p : ℕ) :
    runCount (a, m + n) p = runCount (a, m) p + runCount (a + m, n) p := by
  simp only [runCount_mk]
  split_ifs <;> omega

@[simp] theorem runCount_zero (a p : ℕ) : runCount (a, 0) p = 0 := by
  simp only [runCount_mk]
  split_ifs <;> omega

@[simp] theorem runsCount_nil (p : ℕ) : runsCount [] p = 0 := rfl

@[simp] theorem runsCount_cons (r : ℕ × ℕ) (rs : List (ℕ × ℕ)) (p : ℕ) :
    runsCount (r :: rs) p = runCount r p + runsCount rs p := by
  simp [runsCount]

@[simp] theorem runsCount_append (rs ts : List (ℕ × ℕ)) (p : ℕ) :
    runsCount (rs ++ ts) p = runsCount rs p + runsCount ts p := by
  simp [runsCount]

theorem runCount_le_runsCount {r : ℕ × ℕ} {rs : List (ℕ × ℕ)} (h : r ∈ rs) (p : ℕ) :
    runCount r p ≤ runsCount rs p := by
  induction rs with
  | nil => simp at h
  | cons q qs ih =>
    rw [runsCount_cons]
    rcases List.mem_cons.1 h with rfl | h
    · omega
    · have := ih h
      omega

theorem runsCount_pos {rs : List (ℕ × ℕ)} {p : ℕ} (h : 0 < runsCount rs p) :
    ∃ r ∈ rs, r.1 ≤ p ∧ p < r.1 + r.2 := by
  induction rs with
  | nil => simp at h
  | cons q qs ih =>
    rw [runsCount_cons] at h
    by_cases hq : 0 < runCount q p
    · exact ⟨q, List.mem_cons_self, (runCount_pos_iff q p).1 hq⟩
    · obtain ⟨r, hr, hp⟩ := ih (by omega)
      exact ⟨r, List.mem_cons_of_mem q hr, hp⟩

/-- Splitting a list of runs by a prefix condition keeps the counts. -/
theorem runsCount_takeWhile_add_dropWhile (f : ℕ × ℕ → Bool) (rs : List (ℕ × ℕ)) (p : ℕ) :
    runsCount (rs.takeWhile f) p + runsCount (rs.dropWhile f) p = runsCount rs p := by
  rw [← runsCount_append, List.takeWhile_append_dropWhile]

/-- The last run of a list, split off. -/
theorem runsCount_dropLast_add {rs : List (ℕ × ℕ)} {r : ℕ × ℕ} (h : rs.getLast? = some r) (p : ℕ) :
    runsCount rs.dropLast p + runCount r p = runsCount rs p := by
  have hrs : rs.dropLast ++ [r] = rs := by
    obtain ⟨ys, rfl⟩ := List.getLast?_eq_some_iff.1 h
    simp
  conv_rhs => rw [← hrs]
  simp

end AtomKV
