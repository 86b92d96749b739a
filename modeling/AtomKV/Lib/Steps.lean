import Mathlib.Tactic.Common

/-!
# Runs of a machine

A machine is a partial step function: `step s e` is the state after the event `e`, or nothing where
`e` is not possible in `s`. `Along step C s es` says that every event of a run from `s` meets the
condition `C` in the state it comes to. An invariant that steps keep under the condition holds after
every run along it.
-/

set_option autoImplicit false

namespace AtomKV.Steps

variable {σ ε : Type} (step : σ → ε → Option σ)

/-- The state after the events, if all of them are possible. -/
def run : σ → List ε → Option σ
  | s, [] => some s
  | s, e :: es => match step s e with
    | some s' => run s' es
    | none => none

/-- Every event of the run meets the condition. -/
def Along (C : σ → ε → Prop) : σ → List ε → Prop
  | _, [] => True
  | s, e :: es => C s e ∧ ∀ s', step s e = some s' → Along C s' es

variable {step} {C D : σ → ε → Prop} {I J : σ → Prop} {s s' : σ} {es : List ε}

theorem run_cons {e : ε} {s₁ : σ} (h : step s e = some s₁) :
    run step s (e :: es) = run step s₁ es := by
  rw [run, h]

/-- The condition is about the states that the run comes to. -/
theorem along_of_take (h : ∀ k e s', es[k]? = some e → run step s (es.take k) = some s' → C s' e) :
    Along step C s es := by
  induction es generalizing s with
  | nil => exact True.intro
  | cons e es ih =>
    refine ⟨h 0 e s rfl rfl, fun s₁ hs₁ => ih fun k e' s' he' hs' => ?_⟩
    refine h (k + 1) e' s' he' ?_
    rw [List.take_succ_cons, run_cons hs₁]
    exact hs'

theorem Along.imp (h : Along step C s es) (himp : ∀ s e, C s e → D s e) : Along step D s es := by
  induction es generalizing s with
  | nil => exact True.intro
  | cons e es ih => exact ⟨himp s e h.1, fun s₁ hs₁ => ih (h.2 s₁ hs₁)⟩

theorem Along.and (h : Along step C s es) (h' : Along step D s es) :
    Along step (fun s e => C s e ∧ D s e) s es := by
  induction es generalizing s with
  | nil => exact True.intro
  | cons e es ih => exact ⟨⟨h.1, h'.1⟩, fun s₁ hs₁ => ih (h.2 s₁ hs₁) (h'.2 s₁ hs₁)⟩

/-- A part of a run meets the condition too. -/
theorem Along.take (h : Along step C s es) (k : ℕ) : Along step C s (es.take k) := by
  induction es generalizing s k with
  | nil =>
    rw [List.take_nil]
    exact h
  | cons e es ih =>
    cases k with
    | zero => exact True.intro
    | succ k => exact ⟨h.1, fun s₁ hs₁ => ih (h.2 s₁ hs₁) k⟩

/-- **Invariant rule.** -/
theorem invariant (hstep : ∀ s e s', I s → C s e → step s e = some s' → I s') (hs : I s)
    (halong : Along step C s es) (hrun : run step s es = some s') : I s' := by
  induction es generalizing s with
  | nil =>
    cases hrun
    exact hs
  | cons e es ih =>
    obtain ⟨hc, hrest⟩ := halong
    cases he : step s e with
    | none =>
      rw [run, he] at hrun
      cases hrun
    | some s₁ =>
      rw [run_cons he] at hrun
      exact ih (hstep s e s₁ hs hc he) (hrest s₁ he) hrun

/-- **Exact condition.** The condition `D` keeps the invariant, and is what makes the next state
good: then all states of a run are good exactly when its events meet `D`. -/
theorem states_iff_along (hgood : ∀ s, I s → J s)
    (hstep : ∀ s e s', I s → C s e ∧ D s e → step s e = some s' → I s')
    (hcond : ∀ s e s', I s → step s e = some s' → J s' → D s e) (hs : I s)
    (halong : Along step C s es) (hrun : run step s es = some s') :
    (∀ k t, run step s (es.take k) = some t → J t) ↔ Along step D s es := by
  constructor
  · intro hall
    induction es generalizing s with
    | nil => exact True.intro
    | cons e es ih =>
      refine ⟨?_, fun s₁ hs₁ => ?_⟩
      · cases he : step s e with
        | none =>
          rw [run, he] at hrun
          cases hrun
        | some s₁ => exact hcond s e s₁ hs he (hall 1 s₁ (run_cons he))
      · rw [run_cons hs₁] at hrun
        have hd := hcond s e s₁ hs hs₁ (hall 1 s₁ (run_cons hs₁))
        refine ih (hstep s e s₁ hs ⟨halong.1, hd⟩ hs₁) (halong.2 s₁ hs₁) hrun fun k t ht =>
          hall (k + 1) t ?_
        rw [List.take_succ_cons, run_cons hs₁]
        exact ht
  · intro hd k t ht
    exact hgood t (invariant hstep hs ((halong.and hd).take k) ht)

end AtomKV.Steps
