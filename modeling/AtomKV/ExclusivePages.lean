import AtomKV.Rollback

/-!
# Exclusive ownership in whole runs

The runs of the allocator in which no call of `FreeToMap` steps back from `begin()`. In these, and
only in these, every state that is reached keeps the free runs, the pending runs and the owned runs
apart.
-/

set_option autoImplicit false

namespace AtomKV

namespace Pager

/-- When a run of the map follows directly, some run lies before. -/
def HasPredecessor (m : List PagePair) (pgid count : Nat) : Prop :=
  (∃ r ∈ m, r.1 = pgid + count) → ∃ r ∈ m, r.1 < pgid

instance (m : List PagePair) (pgid count : Nat) : Decidable (HasPredecessor m pgid count) :=
  inferInstanceAs (Decidable (_ → _))

section Calls

variable {m rs : List PagePair} {pgid count : Nat} {bound : ℕ}

theorem staysInside_iff (hm : Ascending m) (h : Takes m pgid count bound) :
    StaysInside m pgid count ↔ HasPredecessor m pgid count := by
  unfold StaysInside HasPredecessor
  rw [stepsBeforeBegin_iff hm h, not_and_not_right]
  constructor
  · rintro hinside ⟨r, hr, heq⟩
    obtain ⟨p, hp, hcovered⟩ := hinside (heq ▸ covered_of_mem hm hr)
    obtain ⟨q, hq, hlow, -⟩ := runsCount_pos hcovered
    exact ⟨q, hq, Nat.lt_of_le_of_lt hlow hp⟩
  · intro hpred hcovered
    have hbefore : (∃ r ∈ m, r.1 < pgid) → ∃ p < pgid, 0 < runsCount m p := by
      rintro ⟨r, hr, hlt⟩
      exact ⟨r.1, hlt, covered_of_mem hm hr⟩
    obtain ⟨r, hr, hlow, -⟩ := runsCount_pos hcovered
    rcases Nat.lt_or_ge r.1 pgid with hlt | hge
    · exact hbefore ⟨r, hr, hlt⟩
    · -- no run of the map starts inside of the freed one
      have hfree : ¬ r.1 < pgid + count := fun hlt => by
        have hin : 0 < runCount (pgid, count) r.1 := (runCount_pos_iff _ _).2 ⟨hge, hlt⟩
        have hhere := covered_of_mem hm hr
        have honce := h.once r.1
        omega
      exact hbefore (hpred ⟨r, hr, Nat.le_antisymm hlow (Nat.le_of_not_lt hfree)⟩)

theorem eachCall_staysInside_iff (hm : Ascending m) (h : Frees m rs bound)
    (hpos : ∀ r ∈ rs, 0 < r.2) : EachCall StaysInside m rs ↔ EachCall HasPredecessor m rs := by
  induction rs generalizing m with
  | nil => exact Iff.rfl
  | cons r rs ih =>
    obtain ⟨hr, hrest⟩ := List.forall_mem_cons.1 hpos
    apply and_congr (staysInside_iff hm h.takes)
    exact ih (hm.freeToMap h.takes hr) h.tail hrest

end Calls

end Pager

namespace Allocator

/-- A property of every state of a run. -/
def EveryState (Q : Allocator → Prop) (P : Nat) (s : Allocator) : List AllocatorEvent → Prop
  | [] => Q s
  | e :: es => Q s ∧
      match s.step P e with
      | some s' => s'.EveryState Q P es
      | none => True

section Run

variable {P : Nat} {s s' : Allocator}

/-- The ledger of the pages is right in every state, whatever the calls do. -/
theorem Inv.everyState {es : List AllocatorEvent} (hP : kPagePairSize ≤ P) (h : Inv s) :
    s.EveryState (fun s => s.Exclusive ∧ s.HandsOutFresh) P es := by
  induction es generalizing s with
  | nil => exact ⟨h.exclusive, h.handsOutFresh⟩
  | cons e es ih =>
    refine ⟨⟨h.exclusive, h.handsOutFresh⟩, ?_⟩
    cases hstep : s.step P e with
    | none => trivial
    | some s₁ => exact ih (step_inv hP h hstep)

theorem everyCall_staysInside_iff {es : List AllocatorEvent} (hP : kPagePairSize ≤ P) (h : Inv s)
    (hrun : s.run P es = some s') :
    s.EveryCall StaysInside P es ↔ s.EveryCall Pager.HasPredecessor P es := by
  induction es generalizing s with
  | nil => exact Iff.rfl
  | cons e es ih =>
    unfold run at hrun
    cases hstep : s.step P e with
    | none => simp [hstep] at hrun
    | some s₁ =>
      rw [hstep] at hrun
      obtain ⟨⟨bound, hfrees⟩, hpos, hasc, -, -⟩ := step_calls hP h hstep
      have hunfold : ∀ Q, s.EveryCall Q P (e :: es) ↔
          EachCall Q (s.calls P e).1 (s.calls P e).2 ∧ s₁.EveryCall Q P es := fun Q => by
        rw [EveryCall, hstep]
      rw [hunfold, hunfold]
      apply and_congr (Pager.eachCall_staysInside_iff hasc hfrees hpos)
      exact ih (step_inv hP h hstep) hrun

end Run

/-- **Exclusive ownership.** A run of transactions on a new database never steps back from
`begin()`, and in each of its states the free runs, the pending runs and the owned runs share no
page, lie between the meta pages and the end of the file, and the pager hands out only fresh
pages: exactly when in each call of `FreeToMap` a run that is followed by a free one has a free
one before it. -/
theorem run_exclusive_iff {P : Nat} (hP : kPagePairSize ≤ P) {es : List AllocatorEvent}
    {s : Allocator} (hrun : created.run P es = some s) : (created.EveryCall StaysInside P es ∧
        created.EveryState (fun s => s.Exclusive ∧ s.HandsOutFresh) P es) ↔
      created.EveryCall Pager.HasPredecessor P es := by
  rw [everyCall_staysInside_iff hP created_inv hrun]
  exact ⟨And.left, fun hcalls => ⟨hcalls, created_inv.everyState hP⟩⟩

/-! ## Two runs -/

/-- Three runs are freed in one transaction, the lowest first, and a later one takes all their pages
and rolls back. -/
def orderedRun : List AllocatorEvent :=
  [.update 0, .alloc 1, .alloc 2, .alloc 1, .free (2, 1), .free (5, 1), .free (3, 2), .commit true,
    .update 1, .commit true, .update 2, .commit true, .update 3, .alloc 4, .rollback false]

theorem run_exclusive_iff_orderedRun : ∃ s, created.run 4096 orderedRun = some s ∧
    created.EveryCall StaysInside 4096 orderedRun ∧
      created.EveryState (fun s => s.Exclusive ∧ s.HandsOutFresh) 4096 orderedRun := by
  obtain ⟨s, hs⟩ : ∃ s, created.run 4096 orderedRun = some s := ⟨_, rfl⟩
  have hcalls : created.EveryCall Pager.HasPredecessor 4096 orderedRun := by
    repeat' first | exact True.intro | refine ⟨by decide, ?_⟩
  exact ⟨s, hs, (run_exclusive_iff (by decide) hs).2 hcalls⟩

/-- A page is freed, and in the next transaction the one before it. No view is open, so that each
`Update` releases up to the transaction before the last. -/
def earlierPageRun : List AllocatorEvent :=
  [.update 0, .alloc 1, .alloc 1, .free (3, 1), .commit false, .update 1, .free (2, 1),
    .commit false, .update 2, .commit false, .update 3, .commit false, .update 4]

/-- **A step before `begin()`** in the `Release` of the last `Update`. -/
theorem not_run_exclusive : ∃ s, created.run 4096 earlierPageRun = some s ∧
    ¬ (created.EveryCall StaysInside 4096 earlierPageRun ∧
      created.EveryState (fun s => s.Exclusive ∧ s.HandsOutFresh) 4096 earlierPageRun) := by
  refine ⟨_, rfl, ?_⟩
  rintro ⟨hcalls, -⟩
  obtain ⟨hlast, -⟩ := hcalls.2.2.2.2.2.2.2.2.2.2.2.2.1
  exact hlast ⟨rfl, (3, 1), rfl, rfl⟩

end Allocator

end AtomKV
