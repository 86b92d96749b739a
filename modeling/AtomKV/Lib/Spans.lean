import Mathlib.Data.List.Basic
import Mathlib.Tactic.Common

/-!
# Spans in an address range

Records are put into a block of addresses from its end downwards. A span is a pair of its first
address and its length. `Laid top d spans` says that the spans lie between `d` and `top` and that no
two share an address. The rules cover what a store does: one more span below the lowest address,
spans that go or shrink in place, and all of them written anew without holes.
-/

set_option autoImplicit false

namespace AtomKV

namespace Spans

/-- Two spans without a common address. -/
def Apart (r r' : Nat × Nat) : Prop := r.1 + r.2 ≤ r'.1 ∨ r'.1 + r'.2 ≤ r.1

theorem Apart.symm {r r' : Nat × Nat} (h : Apart r r') : Apart r' r := Or.symm h

/-- The spans lie between `d` and `top`, and no two share an address. -/
structure Laid (top : Nat) (d : Int) (spans : List (Nat × Nat)) : Prop where
  inside : ∀ r ∈ spans, d ≤ r.1 ∧ r.1 + r.2 ≤ top
  apart : spans.Pairwise Apart

namespace Laid

variable {top n : Nat} {d d' : Int} {spans spans' l₁ l₂ : List (Nat × Nat)} {r r' : Nat × Nat}

theorem nil (top : Nat) (d : Int) : Laid top d [] := ⟨fun _ h => (List.not_mem_nil h).elim, .nil⟩

/-- Spans may go. -/
theorem sublist (h : Laid top d spans) (hs : spans'.Sublist spans) : Laid top d spans' :=
  ⟨fun r hr => h.inside r (hs.subset hr), h.apart.sublist hs⟩

/-- The order of the spans does not matter. -/
theorem perm (h : Laid top d spans) (hs : spans.Perm spans') : Laid top d spans' :=
  ⟨fun r hr => h.inside r (hs.mem_iff.2 hr), (hs.pairwise_iff Apart.symm).1 h.apart⟩

/-- A new span right below the lowest address in use. -/
theorem cons (h : Laid top d spans) (hr : (r.1 : Int) + r.2 ≤ d) (htop : d ≤ top) :
    Laid top r.1 (r :: spans) := by
  refine ⟨?_, List.pairwise_cons.2 ⟨?_, h.apart⟩⟩
  · intro r' hr'
    rcases List.mem_cons.1 hr' with rfl | hr'
    · exact ⟨Int.le_refl _, by omega⟩
    · have := h.inside r' hr'
      exact ⟨by omega, this.2⟩
  · intro r' hr'
    have := (h.inside r' hr').1
    exact .inl (by omega)

/-- The same between two parts of the list. -/
theorem insert (h : Laid top d (l₁ ++ l₂)) (hr : (r.1 : Int) + r.2 ≤ d) (htop : d ≤ top) :
    Laid top r.1 (l₁ ++ r :: l₂) :=
  (h.cons hr htop).perm List.perm_middle.symm

/-- A span on top of all others. -/
theorem consTop (h : Laid top d spans) (hd : d ≤ top) (n : Nat) :
    Laid (top + n) d ((top, n) :: spans) := by
  refine ⟨?_, List.pairwise_cons.2 ⟨?_, h.apart⟩⟩
  · intro r hr
    rcases List.mem_cons.1 hr with rfl | hr
    · exact ⟨hd, Nat.le_refl _⟩
    · have := h.inside r hr
      exact ⟨this.1, by omega⟩
  · intro r hr
    exact .inr (h.inside r hr).2

end Laid

end Spans

end AtomKV
