import AtomKV.Isolation

/-!
# The image of the checkpoint

In the mode kWal a meta is saved by a checkpoint only, and recovery starts from it. `Release` goes
by the oldest view and not by the checkpoint: the saved tree stays as long as no run that is due was
freed after the checkpoint and has a page of it. A checkpoint within a rollback saves the last
commit, with what the transaction has written in place.
-/

set_option autoImplicit false

namespace AtomKV

namespace Manager

variable {env : ManagerEnv} {s s' s₀ : Manager} {info : MetaInfo} {es : List ManagerEvent}

/-- **The image is intact.** No page of the tree whose meta was saved last has been written,
released or handed out. -/
structure ImageIntact (env : ManagerEnv) (s : Manager) : Prop where
  unwritten : ∀ p, s.savedImage.Holds env.pageSize p → s.pager.pages p = s.savedPages p
  withheld : ∀ p, s.savedImage.Holds env.pageSize p → s.Withheld p

/-! ## The condition -/

/-- The tree of the last commit is in the file, and no page of it is free, pending or allocated by
the open transaction. -/
structure CommittedTree (env : ManagerEnv) (s : Manager) : Prop extends s.InFile env s.shared where
  free : ∀ p, Reachable env.pageSize s.pager.pages s.shared.userRoot p →
    runsCount s.pager.freeMap p = 0
  drawn : ∀ p, Reachable env.pageSize s.pager.pages s.shared.userRoot p →
    runsCount s.pager.allocRecords p = 0
  pending : ∀ e ∈ s.pager.pendingMap, e.1 ≤ s.shared.txid → ∀ p,
    Reachable env.pageSize s.pager.pages s.shared.userRoot p → runsCount e.2 p = 0

/-- What an event must not do to the saved tree. -/
def KeepsImage (env : ManagerEnv) (s : Manager) : ManagerEvent → Prop
  /- No run that `Release` frees was freed after the checkpoint and has a page of the saved tree. -/
  | .update => ∀ e ∈ s.pager.pendingMap, s.file.saved.info.txid < e.1 →
      e.1 < s.oldestViewTxid - 1 →
      ∀ p, Reachable env.pageSize s.pager.pages s.file.saved.info.userRoot p → runsCount e.2 p = 0
  | .commit true _ => ∀ info, s.updateTx = some info → ∃ t, Tidy env.reader t (s.txState info)
  | .rollBack true _ => s.CommittedTree env
  | _ => True

/-! ## The invariant -/

/-- The saved tree is kept, and its pages are not exempt from copying. -/
structure SavedKept (env : ManagerEnv) (s : Manager) : Prop where
  ok : s.savedImage.Ok env
  kept : s.savedImage.Kept env s
  persisted : s.file.saved.info.txid ≤ s.persistedTxid

/-- The invariant of a run; a meta without a root has no tree. -/
structure Checkpointed (env : ManagerEnv) (s : Manager) : Prop where
  sound : s.Sound
  saved : s.file.saved.info.userRoot = kPageInvalidId ∨ s.SavedKept env

/-- An Update that meets the condition. -/
theorem SavedKept.outlasts (h : s.SavedKept env) (hkeeps : s.KeepsImage env .update) :
    s.savedImage.Outlasts env s where
  due := fun e he hdue r hr => by
    by_cases hold : e.1 ≤ s.file.saved.info.txid
    · exact h.kept.pending e he hold r hr
    · refine avoids_of_runsCount (fun p hp => ?_) hr
      refine hkeeps e he (Nat.not_le.1 hold) (by omega) p ?_
      exact (reachable_congr h.kept.pages p).2 hp
  copied := fun p n hp hn => by
    have hstamp : n.lastModifiedTxid ≤ s.file.saved.info.txid := h.kept.stamps p n hp hn
    have hold : s.file.saved.info.txid ≤ s.shared.txid := h.kept.old
    refine (copyNeeded_old (Nat.lt_succ_of_le (hstamp.trans hold))).2 fun hexempt => ?_
    exact absurd (hstamp.trans h.persisted) (Nat.not_le.2 hexempt.1)

/-- The tree that a rollback saves. -/
theorem CommittedTree.kept {checkpointNeeded : Bool} {faults : Faults} (h : s.CommittedTree env)
    (hpair : kPagePairSize ≤ env.pageSize) (hsound : s.Sound)
    (hret : s.Returns env (.rollBack checkpointNeeded faults))
    (hstep : s.rollBack env checkpointNeeded faults = some s') :
    (⟨s.shared, s.pager.pages⟩ : Image).Kept env s' := by
  obtain ⟨T, file, u, htx, hu, rfl, hshared, -⟩ := rollBack_eq_some hpair hsound hret hstep
  have hworking := hsound.working T htx
  have hclear : ∀ r ∈ s.pager.freeMap, Clear (Image.Holds env.pageSize ⟨s.shared, s.pager.pages⟩)
      s.shared.pageCount r :=
    fun r hr => ⟨hsound.free r hr, avoids_of_runsCount h.free hr⟩
  -- What the transaction has drawn was not in use, and it goes back to the free map.
  obtain ⟨hfree, hdrawn⟩ := hu.draws.clear hclear
  have hmap : u.pager.pendingMap = s.pager.pendingMap := hu.draws.pendingMap_eq
  have hback : ∀ r ∈ (u.pager.rollback T.txid).freeMap,
      Clear (Image.Holds env.pageSize ⟨s.shared, s.pager.pages⟩) s.shared.pageCount r := by
    refine Pager.rollback_clear hsound.lt hfree (fun r hr => (hdrawn r hr).elim (fun hr => ?_) id) _
    exact ⟨hworking.drawn r hr, avoids_of_runsCount h.drawn hr⟩
  have hs : (s.after env ⟨file, { u with pager := u.pager.rollback T.txid }⟩).shared = s.shared :=
    hshared
  refine ⟨fun p hp => ?_, fun p hp => hs ▸ h.inFile p hp, h.stamps, hs ▸ Nat.le_refl _,
    fun r hr => (hback r hr).avoids, fun e he hle r hr => ?_, fun hopen => ?_,
      fun _ htx' => by cases htx'⟩
  · exact hu.pages p (Nat.lt_of_lt_of_le (h.inFile p hp) hworking.grown) (h.free p hp)
  · exact avoids_of_runsCount (h.pending e (hmap ▸ (List.mem_filter.1 he).1) hle) hr
  · cases hopen

/-! ## The steps -/

/-- What a checkpoint leaves of the file. -/
theorem curMetaIndex_save_switch (e : MetaEnv) (f : MetaFile) :
    (Meta.save e (Meta.switch f)).curMetaIndex ≠ f.curMetaIndex := by
  unfold Meta.save Meta.switch
  by_cases hcur : f.curMetaIndex = 0
  · simp [hcur]
  · simp [hcur, Ne.symm hcur]

/-- After a checkpoint. -/
theorem after_checkpoint (hmode : env.mode = .kWal) {f : MetaFile}
    (hf : f.curMetaIndex = s.file.curMetaIndex) (u : TxState) :
    let s' := s.after env ⟨Meta.save env.metaEnv (Meta.switch f), u⟩
    s'.savedImage = ⟨f.shared.info, s.pager.pages⟩ ∧ s'.persistedTxid = f.shared.info.txid := by
  have hcur : (Meta.save env.metaEnv (Meta.switch f)).curMetaIndex ≠ s.file.curMetaIndex :=
    hf ▸ curMetaIndex_save_switch _ _
  unfold after savedImage
  simp only [if_pos hcur, if_pos (And.intro hmode hcur), saved_save_switch,
    shared_save_switch, and_self]

/-- After a call without a checkpoint. -/
theorem after_same (env : ManagerEnv) {file : MetaFile}
    (hf : file.curMetaIndex = s.file.curMetaIndex) (u : TxState) : let s' := s.after env ⟨file, u⟩
    s'.savedPages = s.savedPages ∧ s'.persistedTxid = s.persistedTxid := by
  unfold after
  simp only [hf, ne_eq, not_true_eq_false, and_false, if_false, and_self]

/-- An event without a checkpoint. -/
theorem SavedKept.step (hpair : kPagePairSize ≤ env.pageSize) (hpos : 0 < env.pageSize)
    (hsound : s.Sound) (h : s.SavedKept env) {e : ManagerEvent} (hret : s.Returns env e)
    (hkeeps : s.KeepsImage env e) (hsaved : s'.file.saved = s.file.saved)
    (hpages : s'.savedPages = s.savedPages) (hpersisted : s'.persistedTxid = s.persistedTxid)
    (hstep : Manager.step env s e = some s') : s'.SavedKept env := by
  have himage : s'.savedImage = s.savedImage := by
    unfold savedImage
    rw [hsaved, hpages]
  have hkept := h.kept.step hpair hpos hsound h.ok hret (fun he => by
    subst he
    exact h.outlasts hkeeps) hstep
  refine ⟨himage ▸ h.ok, himage ▸ hkept, ?_⟩
  rw [hsaved, hpersisted]
  exact h.persisted

theorem Checkpointed.step (hmode : env.mode = .kWal) (hpair : kPagePairSize ≤ env.pageSize)
    (hpos : 0 < env.pageSize) (h : s.Checkpointed env) {e : ManagerEvent}
    (hpending : s.CommitsInFile e) (hret : s.Returns env e)
    (hkeeps : s.KeepsImage env e) (hstep : step env s e = some s') : s'.Checkpointed env := by
  refine ⟨h.sound.step hpair hpos hpending hret hstep, ?_⟩
  have hsame : s'.file.saved = s.file.saved → s'.savedPages = s.savedPages →
      s'.persistedTxid = s.persistedTxid → s'.file.saved.info.userRoot = kPageInvalidId ∨
        s'.SavedKept env := by
    intro hsaved hpages hpersisted
    rw [hsaved]
    exact h.saved.imp_right fun hk => hk.step hpair hpos h.sound hret hkeeps
      hsaved hpages hpersisted hstep
  cases e with
  | update =>
    obtain ⟨-, -, rfl⟩ := update_eq_some hstep
    exact hsame rfl rfl rfl
  | put key value =>
    obtain ⟨T, u, -, -, rfl⟩ := work_eq_some hstep
    exact hsame rfl rfl rfl
  | delete key =>
    obtain ⟨T, u, -, -, rfl⟩ := work_eq_some hstep
    exact hsame rfl rfl rfl
  | commit checkpointNeeded faults =>
    have hcommit : s.commit env checkpointNeeded faults = some s' := hstep
    obtain ⟨T, file, u, htx, -, heq, -, hfile⟩ := commit_eq_some hpair h.sound hret hcommit
    rcases hfile with ⟨hsaves, rfl⟩ | ⟨hsaves, rfl⟩
    · -- the transaction's tree is saved
      obtain rfl : checkpointNeeded = true := hsaves.resolve_left fun hplace => by
        have hplace : env.mode = .kUpdateInPlace := hplace
        rw [hmode] at hplace
        cases hplace
      obtain ⟨t, ht⟩ := hkeeps T htx
      have hkept := Image.Kept.of_commit hpair h.sound hret htx ht hcommit
      obtain ⟨himage, hpersisted⟩ := after_checkpoint (f := Meta.reset T s.file) hmode rfl u
      have himage : s'.savedImage = ⟨T, s.pager.pages⟩ := by
        rw [heq]
        exact himage
      refine .inr ⟨himage ▸ .of_tidy ht, himage ▸ hkept, ?_⟩
      have hinfo : s'.file.saved.info = T := congrArg Image.info himage
      have hpersisted : s'.persistedTxid = T.txid := by
        rw [heq]
        exact hpersisted
      rw [hinfo, hpersisted]
    · obtain ⟨hpages, hpersisted⟩ :=
        after_same (s := s) env (Eq.refl (Meta.reset T s.file).curMetaIndex) u
      subst heq
      exact hsame rfl hpages hpersisted
  | rollBack checkpointNeeded faults =>
    have hrollBack : s.rollBack env checkpointNeeded faults = some s' := hstep
    obtain ⟨T, file, u, htx, -, heq, -, hfile⟩ := rollBack_eq_some hpair h.sound hret hrollBack
    rcases hfile with ⟨⟨-, rfl⟩, rfl⟩ | ⟨-, rfl⟩
    · -- the last commit is saved, as it is now
      have htree : s.CommittedTree env := hkeeps
      have hkept := htree.kept hpair h.sound hret hrollBack
      obtain ⟨himage, hpersisted⟩ :=
        after_checkpoint (f := s.file) hmode rfl { u with pager := u.pager.rollback T.txid }
      have himage : s'.savedImage = ⟨s.shared, s.pager.pages⟩ := by
        rw [heq]
        exact himage
      refine .inr ⟨himage ▸ htree.ok, himage ▸ hkept, ?_⟩
      have hinfo : s'.file.saved.info = s.shared := congrArg Image.info himage
      have hpersisted : s'.persistedTxid = s.shared.txid := by
        rw [heq]
        exact hpersisted
      rw [hinfo, hpersisted]
    · obtain ⟨hpages, hpersisted⟩ := after_same (s := s) env (Eq.refl s.file.curMetaIndex)
        { u with pager := u.pager.rollback T.txid }
      subst heq
      exact hsame rfl hpages hpersisted
  | view =>
    obtain rfl := Option.some.inj hstep
    exact hsame rfl rfl rfl
  | closeView i =>
    obtain ⟨v, m, -, -, rfl⟩ := closeView_eq_some hstep
    exact hsame rfl rfl rfl

/-! ## Runs -/

/-- A database that was opened; its saved meta names a tree in the file. -/
structure OpenedWal (env : ManagerEnv) (s : Manager) : Prop extends s.Opened env where
  saved : s.file.saved.info.userRoot = kPageInvalidId ∨ s.InFile env s.file.saved.info ∧
    s.savedPages = s.pager.pages ∧ s.file.saved.info.txid ≤ s.persistedTxid

theorem OpenedWal.checkpointed (h : s.OpenedWal env) : s.Checkpointed env where
  sound := h.sound
  saved := h.saved.imp_right fun hand => by
    obtain ⟨hin, hpages, hpersisted⟩ := hand
    have himage : s.savedImage = ⟨s.file.saved.info, s.pager.pages⟩ := by
      unfold savedImage
      rw [hpages]
    exact ⟨himage ▸ hin.ok, himage ▸ h.toOpened.kept hin, hpersisted⟩

theorem Checkpointed.imageIntact (h : s.Checkpointed env) : s.ImageIntact env := by
  have hkept : ∀ p, s.savedImage.Holds env.pageSize p → s.SavedKept env := by
    intro p hp
    rcases h.saved with hroot | hkept
    · exact absurd hp (not_holds hroot)
    · exact hkept
  refine ⟨fun p hp => (hkept p hp).kept.pages p hp,
    fun p hp => ⟨(hkept p hp).kept.inFile p hp, ?_, fun hopen => ?_⟩⟩
  · exact runsCount_of_avoids (hkept p hp).kept.free hp
  · exact runsCount_of_avoids ((hkept p hp).kept.drawn hopen) hp

/-- The record of a checkpoint, and one that is put after it. -/
def twoRecords : List Entry := [⟨[1], [2], false, 0⟩, ⟨[2], [3], false, 0⟩]

/-- A checkpoint with one record, a commit that copies the root page, and a commit without a change.
-/
def copiedRoot : List ManagerEvent :=
  [.update, .put [1] [2], .commit true Faults.none, .update, .put [2] [3],
    .commit false Faults.none, .update, .commit false Faults.none]

/-- Another commit without a change, and the next transaction. -/
def releasedRoot : List ManagerEvent := copiedRoot ++ [.update, .commit false Faults.none, .update]

/-- The root is page 3, and page 2 was freed when it was copied. -/
theorem once_twoRecords (q : Nat) :
    [3].count q + (if 4 ≤ q then 1 else 0) + Pager.pendingCount [(3, [(2, 1)])] q ≤ 1 := by
  rw [List.count_singleton, Pager.pendingCount_cons, runsCount_cons, runsCount_nil, runCount_mk,
    Pager.pendingCount_nil]
  simp only [beq_iff_eq]
  split_ifs <;> omega

theorem pendingIn_twoRecords : Pager.PendingIn [(3, [(2, 1)])] 4 := by
  intro e he r hr
  rw [List.mem_singleton.1 he] at hr
  rw [List.mem_singleton.1 hr]
  decide

theorem releasedRoot_along : Steps.Along (step (smallManager .kWal))
    (fun s e => s.CommitsTree (smallManager .kWal) e ∧ s.Returns (smallManager .kWal) e)
      (newManager .kWal)
    releasedRoot := by
  -- the tree of the transactions 3, 4 and 5
  have hcopied : ∀ (txid : Nat) {k : ℕ} {s' : Manager}, newRun .kWal (releasedRoot.take k) =
      some s' → (newRun .kWal (releasedRoot.take k)).map (leafState 3) =
        some ⟨some ⟨4, 3, kPageInvalidId, 0, 0, txid⟩,
        .node ((NodeView.leaf 3 twoRecords).image 256), [], [(3, [(2, 1)])]⟩ →
      s'.CommitsTree (smallManager .kWal) (.commit false Faults.none) ∧
        s'.Returns (smallManager .kWal) (.commit false Faults.none) := by
    intro txid k s' hs' hfacts
    exact ⟨commitsTree_of_leaf (smallManager_ok _) (leafState_eq hs' hfacts) rfl (by decide)
      (by decide) (by decide) once_twoRecords pendingIn_twoRecords _ _,
        fun _ _ => returns_unsaved rfl _⟩
  refine Steps.along_of_take fun k e s' he hs' => ?_
  rcases k with _ | _ | _ | _ | _ | _ | _ | _ | _ | _ | _ | k
  · obtain rfl := Option.some.inj he
    exact ⟨trivial, trivial⟩
  · obtain rfl := Option.some.inj he
    exact ⟨trivial, trivial⟩
  · obtain rfl := Option.some.inj he
    have hleaf := leafState_eq hs' (p := 2)
      (u := ⟨some ⟨3, 2, kPageInvalidId, 0, 0, 2⟩, .node ((NodeView.leaf 2 oneRecord).image 256),
        [], []⟩)
      (by decide +kernel)
    refine ⟨commitsTree_of_leaf (smallManager_ok _) hleaf rfl (by decide) (by decide) (by decide)
      once_oneRecord ?_ _ _, returns_of_leaf (by decide) hleaf (by decide) _⟩
    exact fun _ hmem => absurd hmem List.not_mem_nil
  · obtain rfl := Option.some.inj he
    exact ⟨trivial, trivial⟩
  · obtain rfl := Option.some.inj he
    exact ⟨trivial, trivial⟩
  · obtain rfl := Option.some.inj he
    exact hcopied 3 hs' (by decide +kernel)
  · obtain rfl := Option.some.inj he
    exact ⟨trivial, trivial⟩
  · obtain rfl := Option.some.inj he
    exact hcopied 4 hs' (by decide +kernel)
  · obtain rfl := Option.some.inj he
    exact ⟨trivial, trivial⟩
  · obtain rfl := Option.some.inj he
    exact hcopied 5 hs' (by decide +kernel)
  · obtain rfl := Option.some.inj he
    exact ⟨trivial, trivial⟩
  · cases he

end Manager

end AtomKV
