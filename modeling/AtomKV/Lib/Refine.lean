import AtomKV.Lib.Exec

/-!
# Calls on an object and what it stands for

An object is driven by calls that return whether they were carried out. `Refines` says, for a list
of calls, that the object does to its state what a `Behaviour` does to an abstract value, call after
call: an accepted call is carried out, a refused one returns `false` and leaves the state as it was,
and in every state the object shows its value. `Avoids` says that no call of the run hits a bad
state. `refines_iff_avoids` is the rule that proves the first from the second: one invariant, one
step. `Tracks` says less: a value is computed along with the run, and the object shows it after
every call that returns.
-/

set_option autoImplicit false

namespace AtomKV

namespace Exec

variable {σ ε ι α : Type}

/-- Which calls are carried out, and what they make of a value. -/
structure Behaviour (ι α : Type) where
  accepts : α → ι → Prop
  next : α → ι → α → Prop

/-- The object follows the behaviour through the calls, as long as they are valid. -/
def Refines (run : ι → Exec σ ε Bool) (B : Behaviour ι α) (valid : ι → σ → Prop)
    (shows : α → σ → Prop) : List ι → α → σ → Prop
  | [], a, s => shows a s
  | i :: is, a, s => shows a s ∧ (valid i s →
      (B.accepts a i → ∃ s' a', run i s = (.ok true, s') ∧ B.next a i a' ∧
        Refines run B valid shows is a' s') ∧
      (¬ B.accepts a i → run i s = (.ok false, s) ∧ Refines run B valid shows is a s))

/-- No valid call of the run is made in a bad state. -/
def Avoids (run : ι → Exec σ ε Bool) (valid bad : ι → σ → Prop) : List ι → σ → Prop
  | [], _ => True
  | i :: is, s => valid i s → ¬ bad i s ∧ ∀ ok s', run i s = (.ok ok, s') →
      Avoids run valid bad is s'

/-- No call of the run is made in a bad state, valid or not. -/
def Clean (run : ι → Exec σ ε Bool) (bad : ι → σ → Prop) : List ι → σ → Prop
  | [], _ => True
  | i :: is, s => ¬ bad i s ∧ Clean run bad is (run i s).2

instance decidableClean (run : ι → Exec σ ε Bool)
    (bad : ι → σ → Prop) [∀ i s, Decidable (bad i s)] :
    ∀ (is : List ι) (s : σ), Decidable (Clean run bad is s)
  | [], _ => .isTrue trivial
  | _ :: is, s => @instDecidableAnd _ _ _ (decidableClean run bad is (run _ s).2)

theorem Clean.avoids {run : ι → Exec σ ε Bool} {valid bad : ι → σ → Prop} {is : List ι} {s : σ}
    (h : Clean run bad is s) : Avoids run valid bad is s := by
  induction is generalizing s with
  | nil => exact trivial
  | cons i is ih =>
    refine fun _ => ⟨h.1, fun ok s' hrun => ih ?_⟩
    have hrest := h.2
    rw [hrun] at hrest
    exact hrest

theorem Refines.shown {run : ι → Exec σ ε Bool} {B : Behaviour ι α} {valid : ι → σ → Prop}
    {shows : α → σ → Prop} {is : List ι} {a : α} {s : σ} (h : Refines run B valid shows is a s) :
      shows a s := by
  cases is with
  | nil => exact h
  | cons i is => exact h.1

/-- A valid call returns, and the run goes on from the state it leaves. -/
theorem Refines.next {run : ι → Exec σ ε Bool} {B : Behaviour ι α} {valid : ι → σ → Prop}
    {shows : α → σ → Prop} {i : ι} {is : List ι} {a : α} {s : σ}
    (h : Refines run B valid shows (i :: is) a s) (hvalid : valid i s) :
    (∃ ok, (run i s).1 = .ok ok) ∧ ∃ a', Refines run B valid shows is a' (run i s).2 := by
  obtain ⟨haccept, hrefuse⟩ := h.2 hvalid
  by_cases hacc : B.accepts a i
  · obtain ⟨s', a', hrun, -, hrest⟩ := haccept hacc
    rw [hrun]
    exact ⟨⟨true, rfl⟩, a', hrest⟩
  · obtain ⟨hrun, hrest⟩ := hrefuse hacc
    rw [hrun]
    exact ⟨⟨false, rfl⟩, a, hrest⟩

/-- **The rule for runs.** A state shows one value. The invariant `I` may depend on the calls still
to come. A call in a bad state raises an exception or leaves a state that shows no value; any other
call acts as the behaviour says and keeps the invariant. -/
theorem refines_iff_avoids {run : ι → Exec σ ε Bool} {B : Behaviour ι α} {valid bad : ι → σ → Prop}
    {shows : α → σ → Prop} (hone : ∀ a a' s, shows a s → shows a' s → a = a')
    (I : List ι → α → σ → Prop) (hshows : ∀ is a s, I is a s → shows a s)
    (hbad : ∀ i is a s, I (i :: is) a s → valid i s → bad i s →
      ∀ ok s' a', run i s = (.ok ok, s') → ¬ shows a' s')
    (hyes : ∀ i is a s, I (i :: is) a s → valid i s → ¬ bad i s → B.accepts a i →
      ∃ s' a', run i s = (.ok true, s') ∧ B.next a i a' ∧ I is a' s')
    (hno : ∀ i is a s, I (i :: is) a s → valid i s → ¬ bad i s → ¬ B.accepts a i →
      run i s = (.ok false, s) ∧ I is a s)
    (is : List ι) (a : α) (s : σ) (h : I is a s) :
    Refines run B valid shows is a s ↔ Avoids run valid bad is s := by
  induction is generalizing a s with
  | nil => exact ⟨fun _ => trivial, fun _ => hshows _ _ _ h⟩
  | cons i is ih =>
    constructor
    · rintro ⟨-, hstep⟩ hvalid
      obtain ⟨haccept, hrefuse⟩ := hstep hvalid
      have hnot : ¬ bad i s := by
        intro hspoiled
        by_cases hacc : B.accepts a i
        · obtain ⟨s₁, a₁, hrun, -, hrest⟩ := haccept hacc
          exact hbad i is a s h hvalid hspoiled true s₁ a₁ hrun hrest.shown
        · obtain ⟨hrun, hrest⟩ := hrefuse hacc
          exact hbad i is a s h hvalid hspoiled false s a hrun hrest.shown
      refine ⟨hnot, fun ok s' hrun => ?_⟩
      by_cases hacc : B.accepts a i
      · -- the invariant and the run speak of the same final state
        obtain ⟨s₁, a₁, hrun₁, hnext₁, hrest⟩ := haccept hacc
        obtain ⟨s₂, a₂, hrun₂, hnext₂, hinv⟩ := hyes i is a s h hvalid hnot hacc
        obtain rfl : s₁ = s' := (Prod.mk.inj (hrun₁.symm.trans hrun)).2
        obtain rfl : s₂ = s₁ := (Prod.mk.inj (hrun₂.symm.trans hrun₁)).2
        obtain rfl : a₁ = a₂ := hone _ _ _ hrest.shown (hshows _ _ _ hinv)
        exact (ih a₁ s₂ hinv).1 hrest
      · obtain ⟨hrun₁, hrest⟩ := hrefuse hacc
        obtain ⟨-, hinv⟩ := hno i is a s h hvalid hnot hacc
        obtain rfl : s = s' := (Prod.mk.inj (hrun₁.symm.trans hrun)).2
        exact (ih a s hinv).1 hrest
    · intro hclean
      refine ⟨hshows _ _ _ h, fun hvalid => ?_⟩
      obtain ⟨hnot, hrest⟩ := hclean hvalid
      refine ⟨fun hacc => ?_, fun hacc => ?_⟩
      · obtain ⟨s', a', hrun, hnext, hinv⟩ := hyes i is a s h hvalid hnot hacc
        exact ⟨s', a', hrun, hnext, (ih a' s' hinv).2 (hrest true s' hrun)⟩
      · obtain ⟨hrun, hinv⟩ := hno i is a s h hvalid hnot hacc
        exact ⟨hrun, (ih a s hinv).2 (hrest false s hrun)⟩

/-! ## A value computed along with the run -/

/-- After each call that returns, the object shows what `next` makes of the value; a call that
raises an exception leaves a sound state. -/
def Tracks (run : ι → Exec σ ε Bool) (valid : ι → σ → Prop) (next : α → ι → Bool → α)
    (shows : α → σ → Prop) (sound : σ → Prop) : List ι → α → σ → Prop
  | [], a, s => shows a s
  | i :: is, a, s => shows a s ∧ (valid i s →
      (∀ ok s', run i s = (.ok ok, s') → Tracks run valid next shows sound is (next a i ok) s') ∧
      ∀ err s', run i s = (.error err, s') → sound s')

section Tracks

variable {run : ι → Exec σ ε Bool} {valid bad : ι → σ → Prop} {next : α → ι → Bool → α}
  {shows : α → σ → Prop} {sound : σ → Prop} {is : List ι} {a : α} {s : σ}

theorem Tracks.shown (h : Tracks run valid next shows sound is a s) : shows a s := by
  cases is with
  | nil => exact h
  | cons i is => exact h.1

/-- **The rule for values along a run.** The invariant is kept by a call that returns, unless the
call is bad. -/
theorem Tracks.of_avoids (I : List ι → α → σ → Prop) (hshows : ∀ is a s, I is a s → shows a s)
    (hok : ∀ i is a s, I (i :: is) a s → valid i s → ¬ bad i s → ∀ ok s', run i s = (.ok ok, s') →
      I is (next a i ok) s')
    (herror : ∀ i is a s, I (i :: is) a s → valid i s → ¬ bad i s →
      ∀ err s', run i s = (.error err, s') → sound s')
    (is : List ι) (a : α) (s : σ) (h : I is a s) (hclean : Avoids run valid bad is s) :
    Tracks run valid next shows sound is a s := by
  induction is generalizing a s with
  | nil => exact hshows _ _ _ h
  | cons i is ih =>
    refine ⟨hshows _ _ _ h, fun hvalid => ?_⟩
    obtain ⟨hnot, hrest⟩ := hclean hvalid
    refine ⟨fun ok s' hrun => ?_, fun err s' hrun => ?_⟩
    · exact ih _ s' (hok i is a s h hvalid hnot ok s' hrun) (hrest ok s' hrun)
    · exact herror i is a s h hvalid hnot err s' hrun

/-- Where no call is bad, every run is clean. -/
theorem Avoids.of_never (h : ∀ i s, ¬ bad i s) (is : List ι) (s : σ) :
    Avoids run valid bad is s := by
  induction is generalizing s with
  | nil => trivial
  | cons i is ih => exact fun _ => ⟨h i s, fun _ s' _ => ih s'⟩

end Tracks

end Exec

end AtomKV
