import AtomKV.Isolation

/-!
# Isolation in the mode kUpdateInPlace

Every commit saves the meta, so the two meta pages hold the last commits. Their versions are kept as
those of the views are: what a transaction frees becomes free two commits later at the earliest.
-/

set_option autoImplicit false

namespace AtomKV

namespace Manager

variable {env : ManagerEnv} {s s' s₀ : Manager} {info : MetaInfo} {es : List ManagerEvent}

/-! ## The meta pages -/

/-- The meta is in one of the meta pages. -/
def OnFile (s : Manager) (info : MetaInfo) : Prop :=
  info = s.file.first.info ∨ info = s.file.second.info

/-- The versions of the meta pages are the last two. -/
structure Recent (env : ManagerEnv) (s : Manager) : Prop where
  persisted : s.persistedTxid = kTxInvalidId
  onFile : ∀ info, s.OnFile info → info.userRoot = kPageInvalidId ∨
    s.Retains env info ∧ s.shared.txid ≤ info.txid + 1
  saved : s.file.saved.info.userRoot = kPageInvalidId ∨ s.shared.txid ≤ s.file.saved.info.txid

theorem onFile_saved (s : Manager) : s.OnFile s.file.saved.info := by
  unfold OnFile MetaFile.saved
  split_ifs
  · exact .inl rfl
  · exact .inr rfl

/-- A page of one of the meta pages is overwritten, the other one was saved before. -/
theorem slots_save_switch {e : MetaEnv} {f : MetaFile}
    (h : info = (Meta.save e (Meta.switch f)).first.info ∨
      info = (Meta.save e (Meta.switch f)).second.info) :
    info = f.shared.info ∨ info = f.saved.info := by
  unfold Meta.save Meta.switch at h
  unfold MetaFile.saved
  by_cases hcur : f.curMetaIndex = 0
  · simp only [hcur, if_true, Nat.one_ne_zero, if_false] at h ⊢
    exact h.symm
  · simp only [hcur, if_false, if_true] at h ⊢
    exact h

/-- In this mode only a commit writes the meta. -/
theorem file_step (hmode : env.mode = .kUpdateInPlace) (hpair : kPagePairSize ≤ env.pageSize)
    (hsound : s.Sound) {e : ManagerEvent} (hret : s.Returns env e)
    (hstep : step env s e = some s') : s'.persistedTxid = s.persistedTxid ∧ (s'.file = s.file ∨
      (∃ checkpointNeeded faults, e = .commit checkpointNeeded faults) ∧
      s'.shared.txid = s.shared.txid + 1 ∧
        ∃ f, f.shared.info = s'.shared ∧ f.saved = s.file.saved ∧
          s'.file = Meta.save env.metaEnv (Meta.switch f)) := by
  -- only kWal makes checkpoints, so no event but a commit touches the file
  have hwal : ¬ env.mode = .kWal := by
    rw [hmode]
    decide
  cases e with
  | update =>
    obtain ⟨-, -, rfl⟩ := update_eq_some hstep
    exact ⟨rfl, .inl rfl⟩
  | put key value =>
    obtain ⟨T, u, -, -, rfl⟩ := work_eq_some hstep
    exact ⟨rfl, .inl rfl⟩
  | delete key =>
    obtain ⟨T, u, -, -, rfl⟩ := work_eq_some hstep
    exact ⟨rfl, .inl rfl⟩
  | commit checkpointNeeded faults =>
    obtain ⟨T, file, u, htx, -, rfl, hshared, hfile⟩ := commit_eq_some hpair hsound hret hstep
    obtain ⟨-, rfl⟩ := hfile.resolve_right fun hnot => hnot.1 (.inl hmode)
    refine ⟨if_neg fun hand => hwal hand.1,
      .inr ⟨⟨_, _, rfl⟩, ?_, Meta.reset T s.file, hshared.symm, rfl, rfl⟩⟩
    show (Meta.save env.metaEnv (Meta.switch (Meta.reset T s.file))).shared.info.txid =
      s.shared.txid + 1
    rw [hshared]
    exact (hsound.working T htx).txid
  | rollBack checkpointNeeded faults =>
    obtain ⟨T, file, u, -, -, rfl, -, hfile⟩ := rollBack_eq_some hpair hsound hret hstep
    obtain ⟨-, rfl⟩ := hfile.resolve_left fun hand => hwal hand.1.1
    exact ⟨if_neg fun hand => hwal hand.1, .inl rfl⟩
  | view =>
    obtain rfl := Option.some.inj hstep
    exact ⟨rfl, .inl rfl⟩
  | closeView i =>
    obtain ⟨v, m, -, -, rfl⟩ := closeView_eq_some hstep
    exact ⟨rfl, .inl rfl⟩

/-- In this mode every older page is copied. -/
theorem Retains.mustCopy (h : s.Retains env info) (hsound : s.Sound)
    (hpersisted : s.persistedTxid = kTxInvalidId) :
    (s.image info).MustCopy (s.nextTx env) (s.shared.txid + 1) := by
  intro p n hp hn
  have hstamp : n.lastModifiedTxid ≤ info.txid := h.kept.stamps p n hp hn
  have hold : info.txid ≤ s.shared.txid := h.kept.old
  exact copyNeeded_inPlace hpersisted (Nat.lt_succ_of_le (hstamp.trans hold)) hsound.valid

theorem Recent.step (hmode : env.mode = .kUpdateInPlace) (hpair : kPagePairSize ≤ env.pageSize)
    (hpos : 0 < env.pageSize) (h : s.Recent env) (hiso : s.Isolating env) {e : ManagerEvent}
    (htree : s.CommitsTree env e) (hret : s.Returns env e) (hstep : step env s e = some s') :
      s'.Recent env := by
  obtain ⟨hpersisted, hfile⟩ := file_step hmode hpair hiso.sound hret hstep
  have hcarried : ∀ info, s.OnFile info → info.userRoot = kPageInvalidId ∨ s'.Retains env info := by
    intro info hon
    refine (h.onFile info hon).imp_right ?_
    rintro ⟨hretains, hrecent⟩
    have hcopied := hretains.mustCopy hiso.sound h.persisted
    refine hretains.step hpair hpos hiso.sound hret (fun _ => hretains.outlasts ?_ hcopied) hstep
    exact hiso.sound.oldest_le_shared.trans hrecent
  rcases hfile with hfile | ⟨⟨checkpointNeeded, faults, rfl⟩, htxid, f, hf, hsaved, hfile⟩
  · -- the meta pages are as they were
    have hshared : s'.shared = s.shared := congrArg (fun f => f.shared.info) hfile
    refine ⟨hpersisted.trans h.persisted, fun info hon => ?_, ?_⟩
    · unfold OnFile at hon
      rw [hfile] at hon
      rcases hcarried info hon with hroot | hretains
      · exact .inl hroot
      · refine (h.onFile info hon).imp_right fun hold => ⟨hretains, ?_⟩
        rw [hshared]
        exact hold.2
    · rw [hfile, hshared]
      exact h.saved
  · -- the commit is in one page, the version saved before it in the other
    refine ⟨hpersisted.trans h.persisted, fun info hon => ?_, .inr ?_⟩
    · unfold OnFile at hon
      rw [hfile] at hon
      rcases slots_save_switch hon with rfl | rfl
      · rw [hf]
        exact .inr ⟨.of_commit hpair hiso.sound hret htree hstep, Nat.le_succ _⟩
      · rw [hsaved]
        rcases hcarried _ (onFile_saved s) with hroot | hretains
        · exact .inl hroot
        · refine h.saved.imp_right fun hle => ⟨hretains, ?_⟩
          rw [htxid]
          exact Nat.succ_le_succ hle
    · rw [hfile, saved_save_switch, hf]

/-! ## Runs -/

/-- **Isolation.** Every view sees the version it was opened on, and no page of a version in use, or
of a version that a meta page names, has been written or can be allocated. -/
structure IsolatesInPlace (env : ManagerEnv) (s : Manager) : Prop where
  views : ∀ info ∈ s.views, Sees env.reader ((s.image info).records env.pageSize)
    ((s.image info).reading s.pager)
  unwritten : ∀ info, s.InUse info ∨ s.OnFile info → ∀ p, (s.image info).Holds env.pageSize p →
    s.pager.pages p = (s.image info).pages p
  withheld : ∀ info, s.InUse info ∨ s.OnFile info → ∀ p, (s.image info).Holds env.pageSize p →
    s.Withheld p

/-- A database that was opened, with the last two commits in the meta pages. -/
structure OpenedInPlace (env : ManagerEnv) (s : Manager) : Prop extends s.Opened env where
  persisted : s.persistedTxid = kTxInvalidId
  onFile : ∀ info, s.OnFile info → info.userRoot = kPageInvalidId ∨ s.Stored env info ∧
    s.shared.txid ≤ info.txid + 1
  saved : s.file.saved.info.userRoot = kPageInvalidId ∨ s.shared.txid ≤ s.file.saved.info.txid

theorem Isolating.isolatesInPlace (h : s.Isolating env) (hrecent : s.Recent env) :
    s.IsolatesInPlace env := by
  have hall : ∀ info, s.InUse info ∨ s.OnFile info → ∀ p, (s.image info).Holds env.pageSize p →
      s.Retains env info := by
    rintro info (huse | hon) p hp
    · exact h.retains info huse
    · rcases hrecent.onFile info hon with hroot | ⟨hretains, -⟩
      · exact absurd hp (not_holds hroot)
      · exact hretains
  exact ⟨fun info hv => (h.retains info (.inl hv)).sees, fun info hinfo p hp =>
    (hall info hinfo p hp).kept.pages p hp, fun info hinfo p hp =>
      (hall info hinfo p hp).withheld hp⟩

/-- **Snapshot isolation.** In every run where the trees that are committed are well-formed, the
isolation holds in the state reached, as long as every Commit returns. -/
theorem run_isolatesInPlace (ok : env.reader.Ok) (hmode : env.mode = .kUpdateInPlace)
    (hopen : s₀.OpenedInPlace env)
    (halong : Steps.Along (step env) (fun s e => s.CommitsTree env e ∧ s.Returns env e) s₀ es)
    (hrun : Steps.run (step env) s₀ es = some s) : s.IsolatesInPlace env := by
  have hmin : 256 ≤ env.pageSize := ok.pageSize.min
  have hpair : kPagePairSize ≤ env.pageSize := Nat.le_trans (by decide) hmin
  have hpos : 0 < env.pageSize := Nat.lt_of_lt_of_le (by decide) hmin
  have hstart : s₀.Isolating env ∧ s₀.Recent env := by
    refine ⟨hopen.isolating, hopen.persisted, fun info hon => ?_, hopen.saved⟩
    exact (hopen.onFile info hon).imp_right fun hand => ⟨hand.1.retains hopen.toOpened, hand.2⟩
  have hend : s.Isolating env ∧ s.Recent env := by
    refine Steps.invariant (I := fun s => s.Isolating env ∧ s.Recent env) ?_ hstart halong hrun
    rintro s e s' ⟨hiso, hrecent⟩ ⟨htree, hret⟩ hstep
    refine ⟨hiso.step hpair hpos htree hret (fun _ info huse => ?_) hstep,
      hrecent.step hmode hpair hpos hiso htree hret hstep⟩
    exact (hiso.retains info huse).mustCopy hiso.sound hrecent.persisted
  exact hend.1.isolatesInPlace hend.2

theorem newManager_openedInPlace :
    (newManager .kUpdateInPlace).OpenedInPlace (smallManager .kUpdateInPlace) where
  toOpened := created_opened (smallManager_ok _) _
  persisted := rfl
  onFile := fun info hon => by
    left
    rcases hon with rfl | rfl
    · rfl
    · rfl
  saved := .inl rfl

/-- The meta of the transaction that puts one record into a new database. -/
def oneRecordInfo : MetaInfo := ⟨3, 2, kPageInvalidId, 0, 0, 2⟩

/-- A commit with one record; the first view is older. -/
def viewAndCommit : List ManagerEvent :=
  [.view, .update, .put [1] [2], .commit false Faults.none, .view]

/-- The first view sees nothing, and the second one the record. -/
theorem run_isolatesInPlace_viewAndCommit : ∃ s, newRun .kUpdateInPlace viewAndCommit = some s ∧
    s.IsolatesInPlace (smallManager .kUpdateInPlace) := by
  have hsome : (newRun .kUpdateInPlace viewAndCommit).isSome := by decide +kernel
  obtain ⟨s, hs⟩ := Option.isSome_iff_exists.1 hsome
  refine ⟨s, hs, run_isolatesInPlace (smallManager_ok _) rfl newManager_openedInPlace ?_ hs⟩
  refine Steps.along_of_take fun k e s' he hs' => ?_
  rcases k with _ | _ | _ | _ | _ | k
  · obtain rfl := Option.some.inj he
    exact ⟨trivial, trivial⟩
  · obtain rfl := Option.some.inj he
    exact ⟨trivial, trivial⟩
  · obtain rfl := Option.some.inj he
    exact ⟨trivial, trivial⟩
  · obtain rfl := Option.some.inj he
    have hleaf := leafState_eq hs' (p := 2)
      (u := ⟨some oneRecordInfo, .node ((NodeView.leaf 2 oneRecord).image 256), [], []⟩)
        (by decide +kernel)
    refine ⟨commitsTree_of_leaf (smallManager_ok _) hleaf rfl (by decide) (by decide) (by decide)
      once_oneRecord ?_ _ _, returns_of_leaf (by decide) hleaf (by decide) _⟩
    exact fun _ hmem => absurd hmem List.not_mem_nil
  · obtain rfl := Option.some.inj he
    exact ⟨trivial, trivial⟩
  · cases he

/-- A commit whose sync fails, the rollback, and a view. -/
def failedCommit : List ManagerEvent :=
  [.update, .put [1] [2], .commit false ⟨false, true, false, false⟩,
    .rollBack false Faults.none, .view]

theorem failedCommit_along :
    Steps.Along (step (smallManager .kUpdateInPlace)) (CommitsTree (smallManager .kUpdateInPlace))
    (newManager .kUpdateInPlace) failedCommit := by
  refine Steps.along_of_take fun k e s' he hs' => ?_
  rcases k with _ | _ | _ | _ | _ | k
  · obtain rfl := Option.some.inj he
    trivial
  · obtain rfl := Option.some.inj he
    trivial
  · obtain rfl := Option.some.inj he
    have hleaf := leafState_eq hs' (p := 2)
      (u := ⟨some oneRecordInfo, .node ((NodeView.leaf 2 oneRecord).image 256), [], []⟩)
        (by decide +kernel)
    refine commitsTree_of_leaf (smallManager_ok _) hleaf rfl (by decide) (by decide) (by decide)
      once_oneRecord ?_ _ _
    exact fun _ hmem => absurd hmem List.not_mem_nil
  · obtain rfl := Option.some.inj he
    trivial
  · obtain rfl := Option.some.inj he
    trivial
  · cases he

/-- What a view finds for the key of the record: whether the iterator is at the end. -/
def findsNothing (s : Manager) : Option Bool :=
  let v := s.image oneRecordInfo
  (BTree.get (smallManager .kUpdateInPlace).reader [1] (v.reading s.pager)).1.toOption.map
    fun iter => decide iter.isEnd

/-- **A view of what was rolled back.** Nothing was committed, and the view finds the record. -/
theorem not_run_isolatesInPlace : ¬ ∀ (es : List ManagerEvent) (s : Manager),
    Steps.Along (step (smallManager .kUpdateInPlace)) (CommitsTree (smallManager .kUpdateInPlace))
      (newManager .kUpdateInPlace) es →
    newRun .kUpdateInPlace es = some s → s.IsolatesInPlace (smallManager .kUpdateInPlace) := by
  intro hall
  have hsome : (newRun .kUpdateInPlace failedCommit).isSome := by decide +kernel
  obtain ⟨s, hs⟩ := Option.isSome_iff_exists.1 hsome
  have hview : (newRun .kUpdateInPlace failedCommit).map views = some [oneRecordInfo] := by
    decide +kernel
  have hrecords : (newRun .kUpdateInPlace failedCommit).map
      (fun s => (s.image oneRecordInfo).records 256) = some [] := by decide +kernel
  have hget : (newRun .kUpdateInPlace failedCommit).map findsNothing = some (some false) := by
    decide +kernel
  rw [hs] at hview hrecords hget
  have hmem : oneRecordInfo ∈ s.views := by
    rw [Option.some.inj hview]
    exact List.mem_singleton_self _
  have hsees := (hall failedCommit s failedCommit_along hs).views oneRecordInfo hmem
  obtain ⟨iter, hiter, -, hend⟩ := hsees.get [1]
  have hnone : (s.image oneRecordInfo).records 256 = [] := Option.some.inj hrecords
  have hisEnd : iter.isEnd := hend fun d hd => by
    have hd : d ∈ (s.image oneRecordInfo).records 256 := hd
    rw [hnone] at hd
    cases hd
  have hfound := Option.some.inj hget
  unfold findsNothing at hfound
  simp only [hiter, Except.toOption, Option.map_some, Option.some.injEq, decide_eq_false_iff_not]
    at hfound
  exact hfound hisEnd

end Manager

end AtomKV
