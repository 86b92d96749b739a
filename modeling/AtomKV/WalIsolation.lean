import AtomKV.Isolation

/-!
# Isolation in the mode kWal

`CopyNeeded` lets a transaction write a page in place when the page was last modified after the
checkpoint and before the oldest view. Such a page can still belong to the last committed version.
Isolation holds in a run exactly when no Update finds one in a version in use.
-/

set_option autoImplicit false

namespace AtomKV

namespace Manager

variable {env : ManagerEnv} {s s' s₀ : Manager} {info : MetaInfo} {es : List ManagerEvent}

/-- **Isolation.** The pages that `CopyNeeded` lets the writer modify in place do not belong to a
version in use, and every version in use reads as it was committed. -/
structure IsolatesWal (env : ManagerEnv) (s : Manager) : Prop where
  copied : ∀ m, s.updateTx = some m → ∀ info, s.InUse info → ∀ p n,
    Reachable env.pageSize s.pager.pages info.userRoot p → s.pager.pages p = .node n →
      BTreeIterator.copyNeeded (env.tx s) m.txid n.lastModifiedTxid = true
  sees : ∀ info, s.InUse info →
    Sees env.reader ((s.image info).records env.pageSize) ((s.image info).reading s.pager)
  unwritten : ∀ info, s.InUse info → ∀ p, (s.image info).Holds env.pageSize p →
    s.pager.pages p = (s.image info).pages p

/-- An Update finds no page in a version in use that was last modified after the checkpoint and
before the oldest view. -/
def NoneExempt (env : ManagerEnv) (s : Manager) : ManagerEvent → Prop
  | .update => ∀ info, s.InUse info → ∀ p n, Reachable env.pageSize s.pager.pages info.userRoot p →
      s.pager.pages p = .node n →
      ¬ (s.persistedTxid < n.lastModifiedTxid ∧ n.lastModifiedTxid < s.oldestViewTxid)
  | _ => True

theorem Retains.reachable_iff (h : s.Retains env info) (p : Nat) :
    Reachable env.pageSize s.pager.pages info.userRoot p ↔ (s.image info).Holds env.pageSize p :=
  reachable_congr h.kept.pages p

theorem Retains.mustCopy_of_noneExempt (h : s.Retains env info) (huse : s.InUse info)
    (hnone : s.NoneExempt env .update) : (s.image info).MustCopy (s.nextTx env)
      (s.shared.txid + 1) := by
  intro p n hp hn
  have hstamp : n.lastModifiedTxid ≤ info.txid := h.kept.stamps p n hp hn
  have hold : info.txid ≤ s.shared.txid := h.kept.old
  refine (copyNeeded_old (Nat.lt_succ_of_le (hstamp.trans hold))).2 ?_
  exact hnone info huse p n ((h.reachable_iff p).2 hp) ((h.kept.pages p hp).trans hn)

theorem Isolating.isolatesWal (h : s.Isolating env) : s.IsolatesWal env where
  copied := fun m htx info huse p n hp hn => by
    have hretains := h.retains info huse
    have hholds := (hretains.reachable_iff p).1 hp
    exact hretains.kept.copied m htx p n hholds ((hretains.kept.pages p hholds).symm.trans hn)
  sees := fun info huse => (h.retains info huse).sees
  unwritten := fun info huse p hp => (h.retains info huse).kept.pages p hp

/-- What an Update lets the writer modify in place was exempt before. -/
theorem IsolatesWal.noneExempt (h : s'.IsolatesWal env) (hiso : s.Isolating env)
    (hstep : s.update = some s') : s.NoneExempt env .update := by
  obtain ⟨-, -, rfl⟩ := update_eq_some hstep
  intro info huse p n hp hn
  have hretains := hiso.retains info huse
  have hholds := (hretains.reachable_iff p).1 hp
  have hstamp : n.lastModifiedTxid ≤ info.txid :=
    hretains.kept.stamps p n hholds ((hretains.kept.pages p hholds).symm.trans hn)
  have hold : info.txid ≤ s.shared.txid := hretains.kept.old
  exact (copyNeeded_old (Nat.lt_succ_of_le (hstamp.trans hold))).1
    (h.copied _ rfl info huse p n hp hn)

/-- **Isolation in kWal.** In a run whose committed trees are well-formed and whose Commits
and RollBacks return, every state isolates exactly when no Update finds an exempt page in a
version in use. -/
theorem run_isolatesWal_iff (ok : env.reader.Ok) (hopen : s₀.Opened env)
    (halong : Steps.Along (step env) (fun s e => s.CommitsTree env e ∧ s.Returns env e) s₀ es)
    (hrun : Steps.run (step env) s₀ es = some s) :
    (∀ k s', Steps.run (step env) s₀ (es.take k) = some s' → s'.IsolatesWal env) ↔
      Steps.Along (step env) (NoneExempt env) s₀ es := by
  have hmin : 256 ≤ env.pageSize := ok.pageSize.min
  have hpair : kPagePairSize ≤ env.pageSize := Nat.le_trans (by decide) hmin
  have hpos : 0 < env.pageSize := Nat.lt_of_lt_of_le (by decide) hmin
  refine Steps.states_iff_along (I := Isolating env) (fun s hiso => hiso.isolatesWal) ?_ ?_
    hopen.isolating halong hrun
  -- A step from a state that isolates: the version that the writer starts from is not exempt.
  · rintro s e s' hiso ⟨⟨htree, hret⟩, hnone⟩ hstep
    refine hiso.step hpair hpos htree hret (fun he info huse => ?_) hstep
    subst he
    exact (hiso.retains info huse).mustCopy_of_noneExempt huse hnone
  -- In the other direction only `Update` says something, about the versions it found in use.
  · intro s e s' hiso hstep hgood
    cases e with
    | update => exact hgood.noneExempt hiso hstep
    | put key value => exact trivial
    | delete key => exact trivial
    | commit checkpointNeeded faults => exact trivial
    | rollBack checkpointNeeded faults => exact trivial
    | view => exact trivial
    | closeView i => exact trivial

/-! ## An exempt root -/

/-- A checkpoint, a commit with one record, a commit without a change, and a transaction that is
rolled back. -/
def exemptRoot : List ManagerEvent :=
  [.update, .commit true Faults.none, .update, .put [1] [2], .commit false Faults.none, .update,
    .commit false Faults.none, .update, .put [1] [3], .rollBack false Faults.none]

theorem exemptRoot_along : Steps.Along (step (smallManager .kWal))
    (fun s e => s.CommitsTree (smallManager .kWal) e ∧ s.Returns (smallManager .kWal) e)
      (newManager .kWal) exemptRoot := by
  refine Steps.along_of_take fun k e s' he hs' => ?_
  rcases k with _ | _ | _ | _ | _ | _ | _ | _ | _ | _ | k
  · obtain rfl := Option.some.inj he
    exact ⟨trivial, trivial⟩
  · obtain rfl := Option.some.inj he
    -- The first commit is of the empty tree.
    have hempty := leafState_eq hs' (p := 2)
      (u := ⟨some ⟨2, kPageInvalidId, kPageInvalidId, 0, 0, 2⟩, .raw [], [], []⟩)
        (by decide +kernel)
    exact ⟨commitsTree_of_empty (smallManager_ok _) hempty rfl _ _,
      returns_of_leaf (by decide) hempty (by decide) _⟩
  · obtain rfl := Option.some.inj he
    exact ⟨trivial, trivial⟩
  · obtain rfl := Option.some.inj he
    exact ⟨trivial, trivial⟩
  · obtain rfl := Option.some.inj he
    -- The second one writes page 2, the third one commits it unchanged.
    have hleaf := leafState_eq hs' (p := 2)
      (u := ⟨some ⟨3, 2, kPageInvalidId, 0, 0, 3⟩, .node ((NodeView.leaf 3 oneRecord).image 256),
        [], []⟩)
      (by decide +kernel)
    refine ⟨commitsTree_of_leaf (smallManager_ok _) hleaf rfl (by decide) (by decide) (by decide)
      once_oneRecord ?_ _ _, fun _ _ => returns_unsaved rfl _⟩
    exact fun _ hmem => absurd hmem List.not_mem_nil
  · obtain rfl := Option.some.inj he
    exact ⟨trivial, trivial⟩
  · obtain rfl := Option.some.inj he
    have hleaf := leafState_eq hs' (p := 2)
      (u := ⟨some ⟨3, 2, kPageInvalidId, 0, 0, 4⟩, .node ((NodeView.leaf 3 oneRecord).image 256),
        [], []⟩)
      (by decide +kernel)
    refine ⟨commitsTree_of_leaf (smallManager_ok _) hleaf rfl (by decide) (by decide) (by decide)
      once_oneRecord ?_ _ _, fun _ _ => returns_unsaved rfl _⟩
    exact fun _ hmem => absurd hmem List.not_mem_nil
  · obtain rfl := Option.some.inj he
    exact ⟨trivial, trivial⟩
  · obtain rfl := Option.some.inj he
    exact ⟨trivial, trivial⟩
  · obtain rfl := Option.some.inj he
    exact ⟨trivial, fun _ _ _ => returns_unsaved rfl _⟩
  · cases he

/-- The law for this run. -/
theorem run_isolatesWal_iff_exemptRoot :
    (∀ k s, newRun .kWal (exemptRoot.take k) = some s → s.IsolatesWal (smallManager .kWal)) ↔
      Steps.Along (step (smallManager .kWal)) (NoneExempt (smallManager .kWal))
        (newManager .kWal) exemptRoot := by
  have hsome : (newRun .kWal exemptRoot).isSome := by decide +kernel
  obtain ⟨s, hs⟩ := Option.isSome_iff_exists.1 hsome
  exact run_isolatesWal_iff (smallManager_ok _) (created_opened (smallManager_ok _) _)
    exemptRoot_along hs

/-- The version that was committed last before the rollback. -/
def lastCommit : MetaInfo := ⟨3, 2, kPageInvalidId, 0, 0, 4⟩

/-- **A rollback that does not undo.** The transaction has written the committed root page in place.
-/
theorem not_run_isolatesWal : ¬ ∀ (es : List ManagerEvent) (s : Manager),
    Steps.Along (step (smallManager .kWal))
      (fun s e => s.CommitsTree (smallManager .kWal) e ∧ s.Returns (smallManager .kWal) e)
        (newManager .kWal) es →
    newRun .kWal es = some s → s.IsolatesWal (smallManager .kWal) := by
  intro hall
  have hsome : (newRun .kWal exemptRoot).isSome := by decide +kernel
  obtain ⟨s, hs⟩ := Option.isSome_iff_exists.1 hsome
  have hshared : (newRun .kWal exemptRoot).map shared = some lastCommit := by decide +kernel
  have hpages : (newRun .kWal exemptRoot).map
      (fun s => decide (s.pager.pages 2 = (s.image lastCommit).pages 2)) =
      some false := by decide +kernel
  rw [hs] at hshared hpages
  have hroot : Image.Holds 256 (s.image lastCommit) 2 :=
    .inl (.root (show 2 ≠ kPageInvalidId by decide))
  have hsame := (hall exemptRoot s exemptRoot_along hs).unwritten lastCommit
    (.inr (Option.some.inj hshared).symm) 2 hroot
  exact absurd hsame (of_decide_eq_false (Option.some.inj hpages))

end Manager

end AtomKV
