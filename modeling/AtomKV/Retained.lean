import AtomKV.ManagerSteps

/-!
# Versions that are retained

A version is kept as long as its pages are as they were, `Alloc` does not hand them out, and the
writer has to copy them before it writes. What a step needs for that: a release must not be ahead of
the version, and the page stamps must make `CopyNeeded` true when a transaction begins.
-/

set_option autoImplicit false

namespace AtomKV

namespace Image

variable {env : ManagerEnv} {V : Image} {s s' : Manager} {info : MetaInfo}

/-- The version is a tree, and its overflow pages are no nodes. -/
structure Ok (env : ManagerEnv) (V : Image) : Prop where
  shows : ∃ t, Shows env.reader t V.state ∧ t.RootFull
  plain : ∀ p n, V.Holds env.pageSize p → V.pages p = .node n → Visits V.pages V.info.userRoot p

/-- No page of the version may be written in place by the transaction `txid`. -/
def MustCopy (e : Env) (V : Image) (txid : Nat) : Prop :=
  ∀ p n, V.Holds e.pageSize p → V.pages p = .node n →
    BTreeIterator.copyNeeded e txid n.lastModifiedTxid = true

/-- The version is there, and stays there. -/
structure Kept (env : ManagerEnv) (V : Image) (s : Manager) : Prop where
  pages : ∀ p, V.Holds env.pageSize p → s.pager.pages p = V.pages p
  inFile : ∀ p, V.Holds env.pageSize p → p < s.shared.pageCount
  stamps : ∀ p n, V.Holds env.pageSize p → V.pages p = .node n → n.lastModifiedTxid ≤ V.info.txid
  old : V.info.txid ≤ s.shared.txid
  free : ∀ r ∈ s.pager.freeMap, Avoids (V.Holds env.pageSize) r
  /-- What was freed up to the commit of the version does not belong to it. -/
  pending : ∀ e ∈ s.pager.pendingMap, e.1 ≤ V.info.txid → ∀ r ∈ e.2, Avoids (V.Holds env.pageSize) r
  drawn : s.updateTx.isSome → ∀ r ∈ s.pager.allocRecords, Avoids (V.Holds env.pageSize) r
  copied : ∀ info, s.updateTx = some info → V.MustCopy (env.tx s) info.txid

/-! ## Put and Delete -/

/-- The children of a page of the version belong to the version. -/
theorem Ok.closed (h : V.Ok env) {p : Nat} {n : Node} (hp : V.Holds env.pageSize p)
    (hn : V.pages p = .node n) (hleaf : n.isLeaf = false) :
      ∀ c ∈ n.kids, V.Holds env.pageSize c := by
  intro c hc
  obtain ⟨t, hshows, -⟩ := h.shows
  have hvisits := h.plain p n hp hn
  obtain ⟨v, hv⟩ := hshows.visits (p := p) hvisits
  obtain ⟨n', hrep, -, hpage, -⟩ := hshows.readable.read hv
  obtain rfl : n = n' := Page.node.inj (hn.symm.trans hpage)
  refine .inl (.child hvisits hn ?_)
  have hbranch : n.isBranch = true := by
    rw [hrep.isLeaf_eq] at hleaf
    rw [hrep.isBranch_eq]
    cases hkids : v.kids with
    | none =>
      rw [hkids] at hleaf
      cases hleaf
    | some kids => rfl
  unfold Node.subtrees
  rw [if_pos hbranch]
  exact hc

/-- The version as the pages that the writer must leave alone. -/
def guard (env : ManagerEnv) (V : Image) (s : Manager) (hok : V.Ok env)
    (hcopied : V.MustCopy (env.tx s) (s.shared.txid + 1)) : Guard (env.tx s) where
  keep := V.Holds env.pageSize
  pages := V.pages
  txid := s.shared.txid + 1
  maps := s.writing
  need := hcopied
  closed := fun _ _ hp hn hleaf => hok.closed hp hn hleaf

theorem Kept.work (h : V.Kept env s) (hok : V.Ok env) (hsound : s.Sound) {α : Type} {x : TxM α}
    (hx : s.Guarding env x) (hstep : s.work x = some s') : V.Kept env s' := by
  obtain ⟨info, u, htx, hu, rfl⟩ := Manager.work_eq_some hstep
  have hworking := hsound.working info htx
  have hcopied := h.copied info htx
  rw [hworking.txid] at hcopied
  have hstart : Guarded (V.guard env s hok hcopied) (s.txState info) := by
    refine ⟨hworking.txid, h.pages, h.free, h.drawn (by rw [htx]; rfl), fun p hp => ?_,
      hsound.stamps, hsound.writing htx⟩
    exact Nat.lt_of_lt_of_le (h.inFile p hp) hworking.grown
  have hend : Guarded (V.guard env s hok hcopied) u := hu ▸ (hx _ _ hstart).1
  have hmaps : s.Writing u := hend.maps
  refine ⟨hend.pages, h.inFile, h.stamps, h.old, hend.free, fun e he hle => ?_,
    fun _ => hend.records, fun info' htx' => ?_⟩
  · rcases hmaps.pending e he with heq | he
    · have := h.old
      omega
    · exact h.pending e he hle
  · obtain rfl := Option.some.inj htx'
    have htxid : u.metaStruct.txid = s.shared.txid + 1 := hmaps.txid
    show V.MustCopy (env.tx s) u.metaStruct.txid
    rw [htxid]
    exact hcopied

/-! ## Update -/

/-- The release does not reach the version, and its pages have to be copied. -/
theorem Kept.update (h : V.Kept env s) (hsound : s.Sound)
    (hdue : ∀ e ∈ s.pager.pendingMap, e.1 + 1 < s.oldestViewTxid →
      ∀ r ∈ e.2, Avoids (V.Holds env.pageSize) r)
    (hcopied : V.MustCopy (s.nextTx env) (s.shared.txid + 1)) (hstep : s.update = some s') :
      V.Kept env s' := by
  obtain ⟨hidle, hvalid, rfl⟩ := Manager.update_eq_some hstep
  have hold := hsound.oldest_le_shared
  have hfree : ∀ r ∈ (s.pager.release (s.oldestViewTxid - 1)).freeMap,
      Clear (V.Holds env.pageSize) s.shared.pageCount r := by
    refine Pager.release_clear hsound.lt (fun r hr => ⟨hsound.free r hr, h.free r hr⟩)
      fun e he hlt r hr => ?_
    exact ⟨hsound.pending e he (by omega) r hr, hdue e he (by omega) r hr⟩
  refine ⟨h.pages, h.inFile, h.stamps, h.old, fun r hr => (hfree r hr).avoids, fun e he => ?_,
    fun _ r hr => ?_, fun info htx => ?_⟩
  · exact h.pending e ((List.dropWhile_sublist _).subset he)
  · cases hr
  · obtain rfl := Option.some.inj htx
    exact hcopied

/-! ## Commit and RollBack -/

section Ends

variable {checkpointNeeded : Bool} {faults : Faults}

/-- The pages of the version outlive a list that is saved. -/
theorem Kept.settled (h : V.Kept env s) (hsound : s.Sound) (htx : s.updateTx = some info)
    {u : TxState} (hu : Settled (s.txState info) u) {p : Nat} (hp : V.Holds env.pageSize p) :
      u.pager.pages p = V.pages p := by
  have hgrown := (hsound.working info htx).grown
  exact (hu.pages p (Nat.lt_of_lt_of_le (h.inFile p hp) hgrown)
    (runsCount_of_avoids h.free hp)).trans (h.pages p hp)

theorem Kept.clear (h : V.Kept env s) (hsound : s.Sound) :
    ∀ r ∈ s.pager.freeMap, Clear (V.Holds env.pageSize) s.shared.pageCount r :=
  fun r hr => ⟨hsound.free r hr, h.free r hr⟩

theorem Kept.commit (hP : kPagePairSize ≤ env.pageSize) (h : V.Kept env s) (hsound : s.Sound)
    (hret : s.Returns env (.commit checkpointNeeded faults))
    (hstep : s.commit env checkpointNeeded faults = some s') : V.Kept env s' := by
  obtain ⟨info, file, u, htx, hu, rfl, hshared, -⟩ := Manager.commit_eq_some hP hsound hret hstep
  have hworking := hsound.working info htx
  subst hshared
  obtain ⟨hfree, -⟩ := hu.draws.clear (h.clear hsound)
  have hmap : u.pager.pendingMap = s.pager.pendingMap := hu.draws.pendingMap_eq
  refine ⟨fun p hp => h.settled hsound htx hu hp,
    fun p hp => Nat.lt_of_lt_of_le (h.inFile p hp) hworking.grown, h.stamps,
    ?_, fun r hr => (hfree r hr).avoids, fun e he => h.pending e (hmap ▸ he), fun hopen => ?_,
      fun _ htx' => by cases htx'⟩
  · show V.info.txid ≤ file.shared.info.txid
    rw [hworking.txid]
    exact h.old.trans (Nat.le_succ _)
  · cases hopen

theorem Kept.rollBack (hP : kPagePairSize ≤ env.pageSize) (h : V.Kept env s) (hsound : s.Sound)
    (hret : s.Returns env (.rollBack checkpointNeeded faults))
    (hstep : s.rollBack env checkpointNeeded faults = some s') : V.Kept env s' := by
  obtain ⟨info, file, u, htx, hu, rfl, hshared, -⟩ := Manager.rollBack_eq_some hP hsound hret hstep
  have hworking := hsound.working info htx
  obtain ⟨hfree, hdrawn⟩ := hu.draws.clear (h.clear hsound)
  have hmap : u.pager.pendingMap = s.pager.pendingMap := hu.draws.pendingMap_eq
  -- what was drawn goes back, and none of it is the version's
  have hback : ∀ r ∈ (u.pager.rollback info.txid).freeMap, Clear (V.Holds env.pageSize)
      s.shared.pageCount r := by
    refine Pager.rollback_clear hsound.lt hfree (fun r hr => (hdrawn r hr).elim (fun hr => ?_) id) _
    exact ⟨hworking.drawn r hr, h.drawn (by rw [htx]; rfl) r hr⟩
  have hs : (s.after env ⟨file, { u with pager := u.pager.rollback info.txid }⟩).shared =
    s.shared := hshared
  refine ⟨fun p hp => h.settled hsound htx hu hp, fun p hp => hs ▸ h.inFile p hp, h.stamps,
    hs ▸ h.old, fun r hr => (hback r hr).avoids, fun e he => ?_, fun hopen => ?_,
      fun _ htx' => by cases htx'⟩
  · exact h.pending e (hmap ▸ (List.mem_filter.1 he).1)
  · cases hopen

end Ends

/-! ## A new version -/

/-- The version of a transaction that commits. -/
theorem Ok.of_tidy {t : Shape} (h : Tidy env.reader t (s.txState info)) :
    (⟨info, s.pager.pages⟩ : Image).Ok env where
  shows := ⟨t, h.shows.congr rfl fun _ _ => rfl, h.full⟩
  plain := h.plain

theorem Kept.of_commit {checkpointNeeded : Bool} {faults : Faults}
    (hP : kPagePairSize ≤ env.pageSize) (hsound : s.Sound)
    (hret : s.Returns env (.commit checkpointNeeded faults)) {t : Shape}
    (htx : s.updateTx = some info) (h : Tidy env.reader t (s.txState info))
    (hstep : s.commit env checkpointNeeded faults = some s') :
    (⟨info, s.pager.pages⟩ : Image).Kept env s' := by
  obtain ⟨info', file, u, htx', hu, rfl, hshared, -⟩ := Manager.commit_eq_some hP hsound hret hstep
  obtain rfl : info = info' := Option.some.inj (htx.symm.trans htx')
  -- a page of the committed tree is inside of the file, and neither free nor pending
  have huse : ∀ p, Image.Holds env.pageSize ⟨info, s.pager.pages⟩ p → p < info.pageCount ∧
      runsCount s.pager.freeMap p = 0 ∧ Pager.pendingCount s.pager.pendingMap p = 0 :=
        fun p hp => h.inUse hp
  have hclear : ∀ r ∈ s.pager.freeMap, Clear (Image.Holds env.pageSize ⟨info, s.pager.pages⟩)
      info.pageCount r :=
    fun r hr => ⟨(hsound.free r hr).trans (hsound.working info htx).grown,
      avoids_of_runsCount (fun p hp => (huse p hp).2.1) hr⟩
  -- SaveFreeList draws from the free map only, so it does not touch these pages
  obtain ⟨hfree, -⟩ := hu.draws.clear hclear
  have hmap : u.pager.pendingMap = s.pager.pendingMap := hu.draws.pendingMap_eq
  refine ⟨fun p hp => hu.pages p (huse p hp).1 (huse p hp).2.1, fun p hp => ?_, fun p n _ hn => ?_,
    ?_, fun r hr => (hfree r hr).avoids, fun e he _ r hr => ?_, fun hopen => ?_,
      fun _ htx' => by cases htx'⟩
  · show p < file.shared.info.pageCount
    rw [hshared]
    exact (huse p hp).1
  · have hstamp := hsound.stamps p n hn
    rw [← (hsound.working info htx).txid] at hstamp
    exact hstamp
  · show info.txid ≤ file.shared.info.txid
    rw [hshared]
  · refine avoids_of_runsCount (fun p hp => ?_) hr
    exact Nat.eq_zero_of_le_zero
      ((Pager.runsCount_le_pendingCount (hmap ▸ he) p).trans (Nat.le_of_eq (huse p hp).2.2))
  · cases hopen

/-! ## Views -/

theorem Kept.view (h : V.Kept env s) : V.Kept env s.view :=
  ⟨h.pages, h.inFile, h.stamps, h.old, h.free, h.pending, h.drawn, h.copied⟩

theorem Kept.closeView (h : V.Kept env s) {i : Nat} (hstep : s.closeView i = some s') :
    V.Kept env s' := by
  obtain ⟨info, m, -, -, rfl⟩ := Manager.closeView_eq_some hstep
  exact ⟨h.pages, h.inFile, h.stamps, h.old, h.free, h.pending, h.drawn, h.copied⟩

/-! ## Every step -/

/-- An Update leaves the version alone: what becomes free does not belong to it, and its pages
will be copied. -/
structure Outlasts (env : ManagerEnv) (V : Image) (s : Manager) : Prop where
  due : ∀ e ∈ s.pager.pendingMap, e.1 + 1 < s.oldestViewTxid →
    ∀ r ∈ e.2, Avoids (V.Holds env.pageSize) r
  copied : V.MustCopy (s.nextTx env) (s.shared.txid + 1)

theorem Kept.step (hpair : kPagePairSize ≤ env.pageSize) (hpos : 0 < env.pageSize)
    (hsound : s.Sound) (hok : V.Ok env) (h : V.Kept env s) {e : ManagerEvent}
    (hret : s.Returns env e) (hupdate : e = .update → V.Outlasts env s)
    (hstep : Manager.step env s e = some s') : V.Kept env s' := by
  cases e with
  | update => exact h.update hsound (hupdate rfl).due (hupdate rfl).copied hstep
  | put key value => exact h.work hok hsound (Manager.guarding_put hpos key value false) hstep
  | delete key => exact h.work hok hsound (Manager.guarding_delete hpos key) hstep
  | commit checkpointNeeded faults => exact h.commit hpair hsound hret hstep
  | rollBack checkpointNeeded faults => exact h.rollBack hpair hsound hret hstep
  | view =>
    obtain rfl := Option.some.inj hstep
    exact h.view
  | closeView i => exact h.closeView hstep

end Image

end AtomKV
