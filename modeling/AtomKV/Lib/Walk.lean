import AtomKV.Lib.Exec

/-!
# Walks

`for (; !done(x); x = step(x)) read(x)`: a loop that leaves the state alone. `Walk` says that the
loop ends and what it reads.
-/

set_option autoImplicit false

namespace AtomKV

namespace Exec

variable {σ ε ι α : Type}

/-- From `x` on the loop ends, and reads the values of the list one after the other. -/
inductive Walk (done : ι → Prop) (read : ι → Exec σ ε α) (step : ι → Exec σ ε ι)
    (s : σ) : ι → List α → Prop
  | done {x : ι} (h : done x) : Walk done read step s x []
  | step {x x' : ι} {a : α} {l : List α} (h : ¬ done x) (hread : read x s = (.ok a, s))
      (hstep : step x s = (.ok x', s)) (hrest : Walk done read step s x' l) :
        Walk done read step s x (a :: l)

namespace Walk

variable {done : ι → Prop} {read : ι → Exec σ ε α} {step : ι → Exec σ ε ι} {s : σ}
  {x : ι} {l l' : List α}

/-- What the loop passes. -/
theorem exists_done (h : Walk done read step s x l) {R : ι → Prop} (hx : R x)
    (hR : ∀ x x', R x → ¬ done x → step x s = (.ok x', s) → R x') : ∃ x', R x' ∧ done x' := by
  induction h with
  | done hd => exact ⟨_, hx, hd⟩
  | step hn _ hstep _ ih => exact ih (hR _ _ hx hn hstep)

end Walk

end Exec

end AtomKV
