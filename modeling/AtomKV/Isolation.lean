import AtomKV.Lib.Steps
import AtomKV.Retained

/-!
# Snapshot isolation

The versions in use are those of the open views and the last committed one. They are kept by every
step: a transaction copies their pages, a release ends before the oldest view, and a commit adds a
version of its own.
-/

set_option autoImplicit false

namespace AtomKV

namespace Manager

variable {env : ManagerEnv} {s s' : Manager} {info : MetaInfo}

/-- The meta of an open view, or of the last commit. -/
def InUse (s : Manager) (info : MetaInfo) : Prop := info ∈ s.views ∨ info = s.shared

/-- The version is a tree, and it is kept. -/
structure Retains (env : ManagerEnv) (s : Manager) (info : MetaInfo) : Prop where
  ok : (s.image info).Ok env
  kept : (s.image info).Kept env s

/-- The invariant of the manager. -/
structure Isolating (env : ManagerEnv) (s : Manager) : Prop where
  sound : s.Sound
  retains : ∀ info, s.InUse info → s.Retains env info

/-- The tree of a transaction that commits is well-formed. -/
def CommitsTree (env : ManagerEnv) (s : Manager) : ManagerEvent → Prop
  | .commit _ _ => ∀ info, s.updateTx = some info → ∃ t, Tidy env.reader t (s.txState info)
  | _ => True

theorem CommitsTree.pendingIn {e : ManagerEvent} (h : s.CommitsTree env e) : s.CommitsInFile e := by
  cases e with
  | commit checkpointNeeded faults =>
    intro T htx
    obtain ⟨t, ht⟩ := h T htx
    exact ht.pendingIn
  | update => trivial
  | put key value => trivial
  | delete key => trivial
  | rollBack checkpointNeeded faults => trivial
  | view => trivial
  | closeView i => trivial

theorem Sound.oldest_le (h : s.Sound) (huse : s.InUse info) : s.oldestViewTxid ≤ info.txid := by
  rcases huse with hv | rfl
  · exact h.oldest_le_view hv
  · exact h.oldest_le_shared

/-- What a release gives back was freed before the version. -/
theorem Retains.outlasts (h : s.Retains env info) (hold : s.oldestViewTxid ≤ info.txid + 1)
    (hcopied : (s.image info).MustCopy (s.nextTx env) (s.shared.txid + 1)) :
      (s.image info).Outlasts env s where
  due := fun e he hlt => by
    refine h.kept.pending e he ?_
    show e.1 ≤ info.txid
    omega
  copied := hcopied

/-- A commit adds a version and changes none. -/
theorem image_step (hpair : kPagePairSize ≤ env.pageSize) (hsound : s.Sound) {e : ManagerEvent}
    (hret : s.Returns env e) (hold : info.txid ≤ s.shared.txid) (hstep : step env s e = some s') :
      s'.image info = s.image info := by
  cases e with
  | update =>
    obtain ⟨-, -, rfl⟩ := update_eq_some hstep
    rfl
  | put key value =>
    obtain ⟨T, u, -, -, rfl⟩ := work_eq_some hstep
    rfl
  | delete key =>
    obtain ⟨T, u, -, -, rfl⟩ := work_eq_some hstep
    rfl
  | commit checkpointNeeded faults =>
    obtain ⟨T, file, u, htx, -, rfl, -, -⟩ := commit_eq_some hpair hsound hret hstep
    -- the commit records its pages under a new txid, which no older version has
    have hne : info.txid ≠ T.txid := by
      rw [(hsound.working T htx).txid]
      omega
    show Image.mk info (Function.update s.history T.txid s.pager.pages info.txid) = _
    rw [Function.update_of_ne hne]
    rfl
  | rollBack checkpointNeeded faults =>
    obtain ⟨T, file, u, -, -, rfl, -, -⟩ := rollBack_eq_some hpair hsound hret hstep
    rfl
  | view =>
    obtain rfl := Option.some.inj hstep
    rfl
  | closeView i =>
    obtain ⟨v, m, -, -, rfl⟩ := closeView_eq_some hstep
    rfl

theorem Retains.step (hpair : kPagePairSize ≤ env.pageSize) (hpos : 0 < env.pageSize)
    (hsound : s.Sound) (h : s.Retains env info) {e : ManagerEvent} (hret : s.Returns env e)
    (hupdate : e = .update → (s.image info).Outlasts env s) (hstep : step env s e = some s') :
      s'.Retains env info := by
  have himage := image_step hpair hsound hret h.kept.old hstep
  have hkept := h.kept.step hpair hpos hsound h.ok hret hupdate hstep
  exact ⟨himage ▸ h.ok, himage ▸ hkept⟩

/-- The version of the transaction that commits. -/
theorem Retains.of_commit {checkpointNeeded : Bool} {faults : Faults}
    (hP : kPagePairSize ≤ env.pageSize) (hsound : s.Sound)
    (hret : s.Returns env (.commit checkpointNeeded faults))
    (htree : s.CommitsTree env (.commit checkpointNeeded faults))
    (hstep : s.commit env checkpointNeeded faults = some s') : s'.Retains env s'.shared := by
  obtain ⟨T, file, u, htx, -, heq, hfile, -⟩ := commit_eq_some hP hsound hret hstep
  obtain ⟨t, ht⟩ := htree T htx
  have hkept := Image.Kept.of_commit hP hsound hret htx ht hstep
  have hshared : s'.shared = T := by
    rw [heq]
    exact hfile
  have himage : s'.image T = ⟨T, s.pager.pages⟩ := by
    rw [heq]
    show Image.mk T (Function.update s.history T.txid s.pager.pages T.txid) = _
    rw [Function.update_self]
  rw [hshared]
  exact ⟨himage ▸ .of_tidy ht, himage ▸ hkept⟩

/-- Only a commit and a new view bring a version into use, and it is the one in shared memory. -/
theorem inUse_step (hpair : kPagePairSize ≤ env.pageSize) (hsound : s.Sound) {e : ManagerEvent}
    (hret : s.Returns env e) (hstep : step env s e = some s') (huse : s'.InUse info) :
    s.InUse info ∨ info = s'.shared ∧ ∃ checkpointNeeded faults,
      e = .commit checkpointNeeded faults := by
  cases e with
  | update =>
    obtain ⟨-, -, rfl⟩ := update_eq_some hstep
    exact .inl huse
  | put key value =>
    obtain ⟨T, u, -, -, rfl⟩ := work_eq_some hstep
    exact .inl huse
  | delete key =>
    obtain ⟨T, u, -, -, rfl⟩ := work_eq_some hstep
    exact .inl huse
  | commit checkpointNeeded faults =>
    obtain ⟨T, file, u, -, -, rfl, -, -⟩ := commit_eq_some hpair hsound hret hstep
    rcases huse with hv | heq
    · exact .inl (.inl hv)
    · exact .inr ⟨heq, _, _, rfl⟩
  | rollBack checkpointNeeded faults =>
    obtain ⟨T, file, u, -, -, rfl, hshared, -⟩ := rollBack_eq_some hpair hsound hret hstep
    rcases huse with hv | heq
    · exact .inl (.inl hv)
    · exact .inl (.inr (heq.trans hshared))
  | view =>
    obtain rfl := Option.some.inj hstep
    rcases huse with hv | heq
    · rcases List.mem_append.1 hv with hv | hv
      · exact .inl (.inl hv)
      · exact .inl (.inr (List.mem_singleton.1 hv))
    · exact .inl (.inr heq)
  | closeView i =>
    obtain ⟨v, m, -, -, rfl⟩ := closeView_eq_some hstep
    exact .inl (huse.imp_left fun hv => (List.eraseIdx_sublist _ _).subset hv)

/-- The invariant is kept where each Update must copy the versions in use. -/
theorem Isolating.step (hpair : kPagePairSize ≤ env.pageSize) (hpos : 0 < env.pageSize)
    (h : s.Isolating env) {e : ManagerEvent} (htree : s.CommitsTree env e) (hret : s.Returns env e)
    (hcopied : e = .update → ∀ info, s.InUse info →
      (s.image info).MustCopy (s.nextTx env) (s.shared.txid + 1))
    (hstep : step env s e = some s') : s'.Isolating env where
  sound := h.sound.step hpair hpos htree.pendingIn hret hstep
  retains := fun info huse => by
    rcases inUse_step hpair h.sound hret hstep huse
      with hbefore | ⟨rfl, checkpointNeeded, faults, rfl⟩
    · have hretains := h.retains info hbefore
      refine hretains.step hpair hpos h.sound hret
        (fun he => hretains.outlasts ?_ (hcopied he info hbefore)) hstep
      exact (h.sound.oldest_le hbefore).trans (Nat.le_succ _)
    · exact .of_commit hpair h.sound hret htree hstep

/-! ## What the invariant says -/

/-- The pages of the version are as they were at its commit. -/
theorem Retains.sees (h : s.Retains env info) :
    Sees env.reader ((s.image info).records env.pageSize) ((s.image info).reading s.pager) := by
  obtain ⟨t, hshows, hfull⟩ := h.ok.shows
  have hnow : Shows env.reader t ((s.image info).reading s.pager) := hshows.congr rfl h.kept.pages
  have hrecords : (s.image info).records env.pageSize = t.contents := hshows.snapshot_eq
  rw [hrecords]
  exact hnow.sees hfull

theorem Retains.withheld (h : s.Retains env info) {p : Nat}
    (hp : (s.image info).Holds env.pageSize p) : s.Withheld p where
  inFile := h.kept.inFile p hp
  free := runsCount_of_avoids h.kept.free hp
  drawn := fun hopen => runsCount_of_avoids (h.kept.drawn hopen) hp

/-- No page belongs to a version without a root. -/
theorem not_holds {V : Image} {P p : Nat} (h : V.info.userRoot = kPageInvalidId) :
    ¬ V.Holds P p := by
  have hvisits : ∀ q, ¬ Visits V.pages V.info.userRoot q := by
    intro q hq
    induction hq with
    | root hroot => exact hroot h
    | child _ _ _ ih => exact ih
  rintro (hp | ⟨q, n, slot, hq, -⟩)
  · exact hvisits p hp
  · exact hvisits q hq

/-! ## Opening the database -/

/-- The pages of the file hold a tree below the root, and it is not younger than its meta. -/
structure InFile (env : ManagerEnv) (s : Manager) (info : MetaInfo) : Prop where
  old : info.txid ≤ s.shared.txid
  shows : ∃ t, Shows env.reader t ⟨s.pager, info, info.userRoot⟩ ∧ t.RootFull
  plain : ∀ p n, Reachable env.pageSize s.pager.pages info.userRoot p → s.pager.pages p = .node n →
    Visits s.pager.pages info.userRoot p
  inFile : ∀ p, Reachable env.pageSize s.pager.pages info.userRoot p → p < s.shared.pageCount
  stamps : ∀ p n, Reachable env.pageSize s.pager.pages info.userRoot p → s.pager.pages p = .node n →
    n.lastModifiedTxid ≤ info.txid

/-- The version is the tree in the file. -/
structure Stored (env : ManagerEnv) (s : Manager) (info : MetaInfo) :
    Prop extends s.InFile env info where
  pages : s.history info.txid = s.pager.pages

/-- The state after the database was opened. The saved free list is never found again, so no
page is free. -/
structure Opened (env : ManagerEnv) (s : Manager) : Prop where
  idle : s.updateTx = none
  views : s.views = []
  viewTxMap : s.viewTxMap = []
  freeMap : s.pager.freeMap = []
  pendingMap : s.pager.pendingMap = []
  valid : s.shared.txid < kTxInvalidId
  lt : s.shared.pageCount < 4294967296
  noList : s.shared.freeListPgid = kPageInvalidId
  stamps : ∀ p n, s.pager.pages p = .node n → n.lastModifiedTxid ≤ s.shared.txid + 1
  stored : s.Stored env s.shared

theorem Opened.sound (h : s.Opened env) : s.Sound where
  valid := h.valid
  lt := h.lt
  noList := h.noList
  free := fun r hr => by
    rw [h.freeMap] at hr
    cases hr
  pending := fun e he => by
    rw [h.pendingMap] at he
    cases he
  dated := fun e he => by
    rw [h.pendingMap] at he
    cases he
  stamps := h.stamps
  registered := by
    rw [h.views, h.viewTxMap]
    exact ⟨List.Pairwise.nil, fun _ he => (List.not_mem_nil he).elim, fun _ => rfl⟩
  older := fun info hv => by
    rw [h.views] at hv
    cases hv
  working := fun info htx => by
    rw [h.idle] at htx
    cases htx

theorem InFile.ok (h : s.InFile env info) : (⟨info, s.pager.pages⟩ : Image).Ok env where
  shows := by
    obtain ⟨t, hshows, hfull⟩ := h.shows
    exact ⟨t, hshows.congr rfl fun _ _ => rfl, hfull⟩
  plain := h.plain

/-- When nothing is free or pending, what is in the file is kept. -/
theorem Opened.kept (h : s.Opened env) (hin : s.InFile env info) :
    (⟨info, s.pager.pages⟩ : Image).Kept env s := by
  refine ⟨fun _ _ => rfl, hin.inFile, hin.stamps, hin.old, fun r hr => ?_, fun e he => ?_,
    fun hopen => ?_, fun T htx => ?_⟩
  · rw [h.freeMap] at hr
    cases hr
  · rw [h.pendingMap] at he
    cases he
  · rw [h.idle] at hopen
    cases hopen
  · rw [h.idle] at htx
    cases htx

theorem Stored.retains (h : s.Opened env) (hstored : s.Stored env info) : s.Retains env info := by
  have himage : s.image info = ⟨info, s.pager.pages⟩ := by
    unfold image
    rw [hstored.pages]
  exact ⟨himage ▸ hstored.ok, himage ▸ h.kept hstored.toInFile⟩

theorem Opened.isolating (h : s.Opened env) : s.Isolating env where
  sound := h.sound
  retains := fun info huse => by
    rcases huse with hv | rfl
    · rw [h.views] at hv
      cases hv
    · exact h.stored.retains h

/-- A new database holds the empty tree. -/
theorem created_opened (ok : env.reader.Ok) (f : MetaFile) : (created env f).Opened env where
  idle := rfl
  views := rfl
  viewTxMap := rfl
  freeMap := rfl
  pendingMap := rfl
  valid := by
    show 1 < kTxInvalidId
    decide
  lt := by
    show 2 < 4294967296
    decide
  noList := rfl
  stamps := fun p n hn => by cases hn
  stored :=
    { pages := rfl
      old := Nat.le_refl _
      shows := ⟨.empty, .of_empty ok rfl, trivial⟩
      plain := fun p n _ hn => by cases hn
      inFile :=
        fun p hp => absurd hp (not_holds (V := ⟨(created env f).shared, fun _ => .raw []⟩) rfl)
      stamps := fun p n _ hn => by cases hn }

/-- An environment with the smallest page size. -/
def smallManager (mode : DbMode) : ManagerEnv := ⟨256, byteOrder, mode, fun _ _ _ info => info.txid⟩

theorem smallManager_ok (mode : DbMode) : (smallManager mode).reader.Ok :=
  ⟨smallEnv_ok.pageSize, smallEnv_ok.trans,
  smallEnv_ok.lawfulEq⟩

/-- A new database; its meta pages were never written before. -/
def newManager (mode : DbMode) : Manager :=
  let blank : MetaStruct := ⟨0, 0, 0, Meta.initInfo 0, 0⟩
  created (smallManager mode) ⟨blank, blank, blank, 0⟩

/-- A run from a new database. -/
def newRun (mode : DbMode) (es : List ManagerEvent) : Option Manager :=
  Steps.run (step (smallManager mode)) (newManager mode) es

/-- An open transaction, one page and the maps of the pager. -/
structure LeafState where
  updateTx : Option MetaInfo
  page : Page
  freeMap : List PagePair
  pendingMap : List (Nat × List PagePair)
  deriving DecidableEq

def leafState (p : Nat) (s : Manager) : LeafState :=
  ⟨s.updateTx, s.pager.pages p, s.pager.freeMap, s.pager.pendingMap⟩

theorem leafState_eq {mode : DbMode} {es : List ManagerEvent} (hrun : newRun mode es = some s)
    {p : Nat} {u : LeafState} (h : (newRun mode es).map (leafState p) = some u) :
      s.leafState p = u := by
  rw [hrun] at h
  exact Option.some.inj h

/-- A leaf with one record. -/
def oneRecord : List Entry := [⟨[1], [2], false, 0⟩]

theorem once_oneRecord (q : Nat) :
    [2].count q + (if 3 ≤ q then 1 else 0) + Pager.pendingCount [] q ≤ 1 := by
  show [2].count q + (if 3 ≤ q then 1 else 0) + 0 ≤ 1
  rw [List.count_singleton]
  simp only [beq_iff_eq]
  split_ifs <;> omega

/-- A transaction that has no tree commits. -/
theorem commitsTree_of_empty (ok : env.reader.Ok) {p : Nat} {page : Page}
    (hs : s.leafState p = ⟨some info, page, [], []⟩)
    (hroot : info.userRoot = kPageInvalidId) (checkpointNeeded : Bool) (faults : Faults) :
    s.CommitsTree env (.commit checkpointNeeded faults) := by
  obtain ⟨htx, -, hfree, hpending⟩ := LeafState.mk.inj hs
  intro info' htx'
  obtain rfl := Option.some.inj (htx.symm.trans htx')
  refine ⟨_, Tidy.of_empty ok hroot (fun q => ?_) ?_⟩
  · unfold availCount
    show (runsCount s.pager.freeMap q + if info.pageCount ≤ q then 1 else 0) +
      Pager.pendingCount s.pager.pendingMap q ≤ 1
    rw [hfree, hpending, runsCount_nil, Nat.zero_add]
    split_ifs
    · exact Nat.le_refl 1
    · exact Nat.zero_le 1
  · show Pager.PendingIn s.pager.pendingMap info.pageCount
    rw [hpending]
    exact fun _ hmem => absurd hmem List.not_mem_nil

/-- A transaction whose tree is a root leaf commits. -/
theorem commitsTree_of_leaf (ok : env.reader.Ok) {p T : Nat} {es : List Entry}
    {pending : List (Nat × List PagePair)}
    (hs : s.leafState p = ⟨some info, .node ((NodeView.leaf T es).image env.pageSize), [], pending⟩)
    (hroot : info.userRoot = p) (hlays : (NodeView.leaf T es).Lays env.pageSize)
    (hord : (Tree.leaf p T es).Ordered env.comparator) (hlt : p < kPageMaxCount) (honce :
      ∀ q, [p].count q + (if info.pageCount ≤ q then 1 else 0) + Pager.pendingCount pending q ≤ 1)
    (hin : Pager.PendingIn pending info.pageCount) (checkpointNeeded : Bool) (faults : Faults) :
    s.CommitsTree env (.commit checkpointNeeded faults) := by
  obtain ⟨htx, hpage, hfree, hpending⟩ := LeafState.mk.inj hs
  intro info' htx'
  obtain rfl := Option.some.inj (htx.symm.trans htx')
  refine ⟨_, Tidy.of_leaf ok hlays hord hroot hlt hpage (fun q => ?_) ?_⟩
  · have hq := honce q
    unfold availCount
    show _ + (runsCount s.pager.freeMap q + if info.pageCount ≤ q then 1 else 0) +
      Pager.pendingCount s.pager.pendingMap q ≤ 1
    rw [hfree, hpending, runsCount_nil, Nat.zero_add]
    exact hq
  · show Pager.PendingIn s.pager.pendingMap info.pageCount
    rw [hpending]
    exact hin

/-- Without a checkpoint there is nothing to save. -/
theorem returns_unsaved (hmode : env.mode = .kWal) (u : TxState) :
    (env.commitEnv false).Returns Faults.none u := by
  refine ⟨fun _ => rfl, fun _ h => (by cases h), fun hsaves => ?_⟩
  rcases hsaves with hplace | hneeded
  · have hplace : env.mode = .kUpdateInPlace := hplace
    rw [hmode] at hplace
    cases hplace
  · cases hneeded

/-- A commit with nothing to list returns. -/
theorem returns_of_leaf (hP : kPagePairSize ≤ env.pageSize) {p : Nat} {page : Page}
    (hs : s.leafState p = ⟨some info, page, [], []⟩) (hlt : info.pageCount < 4294967296)
    (checkpointNeeded : Bool) : s.Returns env (.commit checkpointNeeded Faults.none) := by
  obtain ⟨htx, -, hfree, hpending⟩ := LeafState.mk.inj hs
  intro info' htx'
  obtain rfl := Option.some.inj (htx.symm.trans htx')
  have hlisted : s.pager.listed = 0 := by
    unfold Pager.listed
    rw [hfree, hpending]
    rfl
  have hpages : Pager.listPages env.pageSize s.pager = 0 := by
    refine (Pager.listPages_eq_zero_iff hP _).2 ?_
    unfold Pager.pairCount
    rw [hfree, hpending]
    rfl
  refine ⟨fun _ => rfl, fun _ _ => rfl, fun _ => ⟨?_, .inr ⟨rfl, ?_⟩, rfl⟩⟩
  · show s.pager.listed < 4294967296
    rw [hlisted]
    decide
  · show info.pageCount + Pager.listPages env.pageSize s.pager < 4294967296
    rw [hpages]
    exact hlt

end Manager

end AtomKV
