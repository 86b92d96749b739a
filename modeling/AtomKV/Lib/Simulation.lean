import AtomKV.Lib.Steps

/-!
# Simulation in lockstep

Two machines take the same events. `R` relates their states; the client keeps to what `A` asks in
the abstract states, and `C` is what the events meet in the concrete ones. Then the abstract machine
makes every run that the concrete one makes, the states stay related, and what is known of one event
in related states is known of every event of a run.
-/

set_option autoImplicit false

namespace AtomKV.Steps

variable {σ α ε : Type} {step : σ → ε → Option σ} {next : α → ε → Option α} {C : σ → ε → Prop}
  {A : α → ε → Prop} {R : σ → α → Prop} {Q : σ → α → ε → Prop} {s s' : σ} {a : α} {es : List ε}

instance Along.decidable [∀ s e, Decidable (C s e)] :
    (s : σ) → (es : List ε) → Decidable (Along step C s es)
  | _, [] => inferInstanceAs (Decidable True)
  | s, e :: es =>
      match h : step s e with
      | none => decidable_of_iff (C s e)
          ⟨fun hc => ⟨hc, fun s' hs' => by rw [h] at hs'; cases hs'⟩, And.left⟩
      | some s₁ =>
          have := Along.decidable s₁ es
          decidable_of_iff (C s e ∧ Along step C s₁ es)
            ⟨fun hc => ⟨hc.1, fun s' hs' => Option.some.inj (h.symm.trans hs') ▸ hc.2⟩,
              fun hc => ⟨hc.1, hc.2 s₁ h⟩⟩

/-- A run with at least one event. -/
theorem exists_of_run_cons {e : ε} (h : run step s (e :: es) = some s') : ∃ s₁, step s e = some s₁ ∧
    run step s₁ es = some s' := by
  cases he : step s e with
  | none =>
    rw [run, he] at h
    cases h
  | some s₁ =>
    rw [run_cons he] at h
    exact ⟨s₁, rfl, h⟩

/-- One run after another. -/
theorem run_append {s₁ : σ} {fs : List ε} (h : run step s es = some s₁) :
    run step s (es ++ fs) = run step s₁ fs := by
  induction es generalizing s with
  | nil =>
    obtain rfl := Option.some.inj h
    rfl
  | cons e es ih =>
    obtain ⟨s', hs', hrest⟩ := exists_of_run_cons h
    rw [List.cons_append, run_cons hs']
    exact ih hrest

theorem Along.append {s₁ : σ} {fs : List ε} (h : Along step C s es) (hrun : run step s es = some s₁)
    (h₁ : Along step C s₁ fs) : Along step C s (es ++ fs) := by
  induction es generalizing s with
  | nil =>
    obtain rfl := Option.some.inj hrun
    exact h₁
  | cons e es ih =>
    refine ⟨h.1, fun s' hs' => ?_⟩
    rw [run_cons hs'] at hrun
    exact ih (h.2 s' hs') hrun

theorem Along.imp_of_mem {D : σ → ε → Prop} (h : Along step C s es)
    (himp : ∀ s, ∀ e ∈ es, C s e → D s e) : Along step D s es := by
  induction es generalizing s with
  | nil => exact True.intro
  | cons e es ih =>
    refine ⟨himp s e List.mem_cons_self h.1, fun s₁ hs₁ => ?_⟩
    exact ih (h.2 s₁ hs₁) fun s e he => himp s e (List.mem_cons_of_mem _ he)

/-- **Simulation.** -/
theorem simulates (hstep : ∀ s a e s', R s a → C s e → A a e → step s e = some s' →
    ∃ a', next a e = some a' ∧ R s' a') (h : R s a) (halong : Along step C s es)
    (hclient : Along next A a es) (hrun : run step s es = some s') :
    ∃ a', run next a es = some a' ∧ R s' a' := by
  induction es generalizing s a with
  | nil =>
    cases hrun
    exact ⟨a, rfl, h⟩
  | cons e es ih =>
    obtain ⟨s₁, hs₁, hrest⟩ := exists_of_run_cons hrun
    obtain ⟨a₁, ha₁, h₁⟩ := hstep s a e s₁ h halong.1 hclient.1 hs₁
    rw [run_cons ha₁]
    exact ih h₁ (halong.2 s₁ hs₁) (hclient.2 a₁ ha₁) hrest

/-- **Every event of the run.** -/
theorem simulates_each (hstep : ∀ s a e s', R s a → C s e → A a e → step s e = some s' →
      ∃ a', next a e = some a' ∧ R s' a')
    (hevent : ∀ s a e s', R s a → C s e → A a e → step s e = some s' → Q s a e) (h : R s a)
    (halong : Along step C s es) (hclient : Along next A a es) (hrun : run step s es = some s')
    (k : ℕ) {e : ε} (he : es[k]? = some e) :
    ∃ t b, run step s (es.take k) = some t ∧ run next a (es.take k) = some b ∧ R t b ∧ Q t b e := by
  induction es generalizing s a k with
  | nil => cases he
  | cons e' es ih =>
    obtain ⟨s₁, hs₁, hrest⟩ := exists_of_run_cons hrun
    cases k with
    | zero =>
      obtain rfl := Option.some.inj he
      exact ⟨s, a, rfl, rfl, h, hevent s a e' s₁ h halong.1 hclient.1 hs₁⟩
    | succ k =>
      obtain ⟨a₁, ha₁, h₁⟩ := hstep s a e' s₁ h halong.1 hclient.1 hs₁
      rw [List.take_succ_cons, run_cons hs₁, run_cons ha₁]
      exact ih h₁ (halong.2 s₁ hs₁) (hclient.2 a₁ ha₁) hrest k he

end AtomKV.Steps
