import AtomKV.Reclaim
import AtomKV.TreeGuard
import AtomKV.ViewMap

/-!
# The steps of the transaction manager

What an event leaves of the manager's state, and what holds of the state whatever the versions are:
the runs that are free or pending lie in the file, the pending runs belong to transactions that have
begun, and the map of the views counts them.
-/

set_option autoImplicit false

namespace AtomKV

/-! ## Calls that return -/

/-- `SaveFreeList` and `WriteAllDirtyPages` return: the list finds room, and no callee throws. -/
structure CanPersist (P : Nat) (faults : Faults) (s : TxState) : Prop where
  few : s.pager.listed < 4294967296
  room : (Pager.allocFromMap (Pager.listPages P s.pager) s.pager.freeMap).isSome ∨
    faults.remmap = false ∧ s.metaStruct.pageCount + Pager.listPages P s.pager < 4294967296
  sync : faults.sync = false

theorem persistPages_returns {env : CommitEnv} {faults : Faults} {d : Database}
    (h : CanPersist env.metaEnv.pageSize faults d.tx)
    (hlist : d.tx.metaStruct.freeListPgid = kPageInvalidId) :
    ∃ d', persistPages env faults d = (.ok (), d') := by
  obtain ⟨-, hroom, hsync⟩ := h
  have hsave : ∃ u, Pager.saveFreeListFaulty env.metaEnv.pageSize faults.remmap d.tx =
      (.ok (), u) := by
    unfold Pager.saveFreeListFaulty
    rw [Exec.bind_of_ok (Pager.freeSavedList_of_invalid hlist), Exec.read_bind]
    cases hmap : Pager.allocFromMap (Pager.listPages env.metaEnv.pageSize d.tx.pager)
      d.tx.pager.freeMap with
    | some q =>
      rw [if_neg (by simp)]
      exact ⟨_, Pager.writeFreeList_of_some hmap⟩
    | none =>
      -- the list grows the file, so Remmap must not throw and the page count must not wrap
      rw [hmap] at hroom
      obtain ⟨hremmap, hlt⟩ := hroom.resolve_left (by simp)
      rw [if_neg (by simp [hremmap])]
      refine ⟨_, Pager.writeFreeList_of_none hmap ?_⟩
      rw [u32_of_lt hlt]
      exact Nat.not_lt.2 (Nat.le_add_right _ _)
  obtain ⟨u, hu⟩ := hsave
  refine ⟨{ d with tx := u }, ?_⟩
  have hlisted : onTx (Pager.saveFreeListFaulty env.metaEnv.pageSize faults.remmap) d =
      (.ok (), { d with tx := u }) := by
    unfold onTx
    rw [hu]
  unfold persistPages
  rw [Exec.bind_of_ok hlisted, failing, hsync]
  rfl

/-- A commit, or a rollback that saves, has what it needs to return. -/
structure CommitEnv.Returns (env : CommitEnv) (faults : Faults) (s : TxState) : Prop where
  append : env.mode = .kWal → faults.append = false
  reopen : env.mode = .kWal → env.checkpointNeeded = true → faults.reopen = false
  persist : env.Saves → CanPersist env.metaEnv.pageSize faults s

section Returns

variable {env : CommitEnv} {faults : Faults} {d : Database}

theorem checkpoint_returns (h : CanPersist env.metaEnv.pageSize faults d.tx)
    (hlist : d.tx.metaStruct.freeListPgid = kPageInvalidId) (hreopen : faults.reopen = false)
    (happend : faults.append = false) : ∃ d', checkpoint env faults d = (.ok (), d') := by
  obtain ⟨d₁, h₁⟩ := persistPages_returns h hlist
  unfold checkpoint
  rw [Exec.bind_of_ok h₁, hreopen, happend]
  exact ⟨_, rfl⟩

theorem commit_returns (h : env.Returns faults d.tx)
    (hlist : d.tx.metaStruct.freeListPgid = kPageInvalidId) :
    ∃ d', TxManager.commit env faults d = (.ok (), d') := by
  unfold TxManager.commit
  rw [Exec.change_bind]
  cases hmode : env.mode with
  | kUpdateInPlace =>
    have hpersist := h.persist (.inl hmode)
    obtain ⟨d₁, h₁⟩ :=
      persistPages_returns (d := ⟨Meta.reset d.tx.metaStruct d.file, d.tx⟩) hpersist hlist
    simp only
    rw [Exec.bind_of_ok h₁]
    exact ⟨_, rfl⟩
  | kWal =>
    have happend := h.append hmode
    simp only [happend]
    by_cases hneeded : env.checkpointNeeded = true
    · simp only [hneeded, if_true]
      exact checkpoint_returns (d := ⟨Meta.reset d.tx.metaStruct d.file, d.tx⟩)
        (h.persist (.inr hneeded)) hlist (h.reopen hmode hneeded) happend
    · simp only [if_neg hneeded]
      exact ⟨_, rfl⟩

theorem rollBack_returns (h : env.mode = .kWal → env.Returns faults d.tx)
    (hlist : d.tx.metaStruct.freeListPgid = kPageInvalidId) :
      ∃ d', TxManager.rollBack env faults d = (.ok (), d') := by
  have hlog : ∃ d₁, TxManager.logRollBack env faults d = (.ok (), d₁) := by
    unfold TxManager.logRollBack
    cases hmode : env.mode with
    | kUpdateInPlace => exact ⟨_, rfl⟩
    | kWal =>
      have hreturns := h hmode
      have happend := hreturns.append hmode
      simp only [happend]
      by_cases hneeded : env.checkpointNeeded = true
      · simp only [hneeded, if_true]
        exact checkpoint_returns (hreturns.persist (.inr hneeded)) hlist
          (hreturns.reopen hmode hneeded) happend
      · simp only [if_neg hneeded]
        exact ⟨_, rfl⟩
  obtain ⟨d₁, h₁⟩ := hlog
  unfold TxManager.rollBack
  rw [Exec.bind_of_ok h₁]
  exact ⟨_, rfl⟩

end Returns

/-! ## The state -/

namespace Manager

variable {env : ManagerEnv} {s s' : Manager} {info : MetaInfo}

/-- The open transaction: what it has allocated so far is behind the committed file, or was free. -/
structure Working (s : Manager) (info : MetaInfo) : Prop where
  txid : info.txid = s.shared.txid + 1
  valid : info.txid < kTxInvalidId
  grown : s.shared.pageCount ≤ info.pageCount
  lt : info.pageCount < 4294967296
  noList : info.freeListPgid = kPageInvalidId
  drawn : ∀ r ∈ s.pager.allocRecords, r.1 + r.2 ≤ s.shared.pageCount

/-- What holds whatever the versions are. -/
structure Sound (s : Manager) : Prop where
  valid : s.shared.txid < kTxInvalidId
  lt : s.shared.pageCount < 4294967296
  noList : s.shared.freeListPgid = kPageInvalidId
  free : ∀ r ∈ s.pager.freeMap, r.1 + r.2 ≤ s.shared.pageCount
  pending : ∀ e ∈ s.pager.pendingMap, e.1 ≤ s.shared.txid →
    ∀ r ∈ e.2, r.1 + r.2 ≤ s.shared.pageCount
  /-- A run is pending for a committed transaction, or for the open one. -/
  dated : ∀ e ∈ s.pager.pendingMap, e.1 ≤ s.shared.txid ∨ ∃ info, s.updateTx = some info ∧
    e.1 = info.txid
  stamps : ∀ p n, s.pager.pages p = .node n → n.lastModifiedTxid ≤ s.shared.txid + 1
  registered : Registered s.views s.viewTxMap
  older : ∀ info ∈ s.views, info.txid ≤ s.shared.txid
  working : ∀ info, s.updateTx = some info → s.Working info

theorem Sound.oldest_le_view (h : s.Sound) (hv : info ∈ s.views) :
    s.oldestViewTxid ≤ info.txid := by
  have hreg := h.registered
  unfold oldestViewTxid
  cases hm : s.viewTxMap with
  | nil =>
    -- an open view is counted
    rw [hm] at hreg
    have hpos : 0 < (s.views.map MetaInfo.txid).count info.txid :=
      List.count_pos_iff.2 (List.mem_map_of_mem hv)
    rw [hreg.counted] at hpos
    exact absurd hpos (Nat.lt_irrefl _)
  | cons e m =>
    rw [hm] at hreg
    exact hreg.first_le hv

theorem Sound.oldest_le_shared (h : s.Sound) : s.oldestViewTxid ≤ s.shared.txid := by
  have hreg := h.registered
  unfold oldestViewTxid
  cases hm : s.viewTxMap with
  | nil => exact Nat.le_refl _
  | cons e m =>
    rw [hm] at hreg
    obtain ⟨info, hv, heq⟩ := hreg.exists_first
    simp only
    rw [← heq]
    exact h.older info hv

/-! ## Update -/

theorem update_eq_some (h : s.update = some s') :
    s.updateTx = none ∧ s.shared.txid + 1 ≠ kTxInvalidId ∧ s' = { s with
      updateTx := some { s.shared with txid := s.shared.txid + 1 }
      minViewTxid := s.oldestViewTxid
      pager := s.pager.release (s.oldestViewTxid - 1) } := by
  unfold update at h
  cases htx : s.updateTx with
  | some info =>
    rw [htx] at h
    cases h
  | none =>
    simp only [htx] at h
    split_ifs at h with hvalid
    exact ⟨rfl, hvalid, (Option.some.inj h).symm⟩

theorem Sound.update (h : s.Sound) (hstep : s.update = some s') : s'.Sound := by
  obtain ⟨hidle, hvalid, rfl⟩ := update_eq_some hstep
  have hold := h.oldest_le_shared
  have hpending : ∀ e ∈ (s.pager.release (s.oldestViewTxid - 1)).pendingMap, e ∈
      s.pager.pendingMap := fun e he =>
    (List.dropWhile_sublist _).subset he
  refine ⟨h.valid, h.lt, h.noList, ?_, fun e he => h.pending e (hpending e he), fun e he => ?_,
    h.stamps, h.registered, h.older, fun info hinfo => ?_⟩
  · have hclear : ∀ r ∈ (s.pager.release (s.oldestViewTxid - 1)).freeMap, Clear (fun _ => False)
        s.shared.pageCount r :=
      Pager.release_clear h.lt (fun r hr => .of_inFile (h.free r hr)) fun e he hdue r hr =>
        .of_inFile (h.pending e he (by omega) r hr)
    exact fun r hr => (hclear r hr).inFile
  · refine .inl ?_
    rcases h.dated e (hpending e he) with hle | ⟨info, htx, -⟩
    · exact hle
    · exact absurd (hidle.symm.trans htx) (by simp)
  · obtain rfl := Option.some.inj hinfo
    refine ⟨rfl, ?_, Nat.le_refl _, h.lt, h.noList, fun r hr => by cases hr⟩
    exact Nat.lt_of_le_of_ne h.valid hvalid

/-! ## Put and Delete -/

/-- The state of a transaction that has begun in `s`: entries of other transactions in the pending
map are as they were. -/
structure Writing (s : Manager) (u : TxState) : Prop where
  txid : u.metaStruct.txid = s.shared.txid + 1
  grown : s.shared.pageCount ≤ u.metaStruct.pageCount
  lt : u.metaStruct.pageCount < 4294967296
  noList : u.metaStruct.freeListPgid = kPageInvalidId
  free : ∀ r ∈ u.pager.freeMap, r.1 + r.2 ≤ s.shared.pageCount
  drawn : ∀ r ∈ u.pager.allocRecords, r.1 + r.2 ≤ s.shared.pageCount
  pending : ∀ e ∈ u.pager.pendingMap, e.1 = s.shared.txid + 1 ∨ e ∈ s.pager.pendingMap

theorem Writing.congr {u u' : TxState} (root : Nat)
    (hinfo : u'.metaStruct = { u.metaStruct with userRoot := root })
    (hfree : u'.pager.freeMap = u.pager.freeMap)
    (hpending : u'.pager.pendingMap = u.pager.pendingMap)
    (hdrawn : u'.pager.allocRecords = u.pager.allocRecords) (h : s.Writing u) : s.Writing u' where
  txid := hinfo ▸ h.txid
  grown := hinfo ▸ h.grown
  lt := hinfo ▸ h.lt
  noList := hinfo ▸ h.noList
  free := hfree ▸ h.free
  drawn := hdrawn ▸ h.drawn
  pending := hpending ▸ h.pending

theorem Writing.alloc (count : Nat) (u : TxState) (h : s.Writing u) :
    s.Writing (Pager.alloc count u).2 := by
  cases hmap : Pager.allocFromMap count u.pager.freeMap with
  | some q =>
    obtain ⟨pgid, freeMap⟩ := q
    rw [Pager.alloc_of_some hmap]
    obtain ⟨hrun, hrest⟩ := Pager.allocFromMap_in hmap h.free
    refine ⟨h.txid, h.grown, h.lt, h.noList, hrest, fun r hr => ?_, h.pending⟩
    rcases List.mem_append.1 hr with hr | hr
    · exact h.drawn r hr
    · rw [List.mem_singleton.1 hr]
      exact hrun
  | none =>
    by_cases hroom : u32 (u.metaStruct.pageCount + count) < u.metaStruct.pageCount
    · obtain ⟨e, he⟩ := Pager.alloc_raises hmap hroom
      rw [he]
      exact h
    · rw [Pager.alloc_of_none hmap hroom]
      refine ⟨h.txid, h.grown.trans (Nat.not_lt.1 hroom), ?_, h.noList, h.free, h.drawn, h.pending⟩
      exact Nat.mod_lt _ (by decide)

theorem Writing.free_pages (pgid count : Nat) (u : TxState) (h : s.Writing u) :
    s.Writing (Pager.free pgid count u).2 := by
  by_cases hpgid : pgid ≠ kPageInvalidId
  · rw [Pager.free_of_ne hpgid]
    refine ⟨h.txid, h.grown, h.lt, h.noList, h.free, h.drawn, fun e he => ?_⟩
    rcases Pager.mem_addPending he with heq | he
    · exact .inl (heq.trans h.txid)
    · exact h.pending e he
  · unfold Pager.free assert
    rw [Exec.require_bind_not hpgid]
    exact h

/-- What the calls of a transaction keep of the maps. -/
def writing (s : Manager) : MapsInv where
  holds := s.Writing
  congr := Writing.congr
  alloc := Writing.alloc
  free := Writing.free_pages

theorem Sound.writing (h : s.Sound) (htx : s.updateTx = some info) :
    s.Writing (s.txState info) := by
  obtain ⟨htxid, -, hgrown, hlt, hlist, hdrawn⟩ := h.working info htx
  refine ⟨htxid, hgrown, hlt, hlist, h.free, hdrawn, fun e he => ?_⟩
  rcases h.dated e he with hle | ⟨info', htx', -⟩
  · exact .inr he
  · exact .inr he

/-- Nothing is guarded but the maps. -/
def mapsGuard (e : Env) (s : Manager) : Guard e where
  keep := fun _ => False
  pages := fun _ => .raw []
  txid := s.shared.txid + 1
  maps := s.writing
  need := fun _ _ hp => absurd hp not_false
  closed := fun _ _ hp => absurd hp not_false

theorem work_eq_some {α : Type} {x : TxM α} (h : s.work x = some s') :
    ∃ info u, s.updateTx = some info ∧ u = (x (s.txState info)).2 ∧
      s' = { s with
        pager := u.pager, updateTx := some { u.metaStruct with userRoot := u.rootPgid } } := by
  unfold work at h
  cases htx : s.updateTx with
  | none =>
    rw [htx] at h
    cases h
  | some info =>
    rw [htx] at h
    exact ⟨info, _, rfl, rfl, (Option.some.inj h).symm⟩

/-- A call that leaves the pages of every guard alone. -/
abbrev Guarding (env : ManagerEnv) (s : Manager) {α : Type} (x : TxM α) : Prop :=
  ∀ G : Guard (env.tx s), G.Kept x fun _ => True

theorem guarding_put (hP : 0 < env.pageSize) (key value : Bytes) (b : Bool) :
    s.Guarding env (BTree.put (env.tx s) key value b) :=
  fun _ => Kept.put hP key value b

theorem guarding_delete (hP : 0 < env.pageSize) (key : Bytes) :
    s.Guarding env (BTree.delete (env.tx s) key) :=
  fun _ => Kept.delete hP key

theorem Sound.work (h : s.Sound) {α : Type} {x : TxM α} (hx : s.Guarding env x)
    (hstep : s.work x = some s') : s'.Sound := by
  obtain ⟨info, u, htx, hu, rfl⟩ := work_eq_some hstep
  have hstart : Guarded (s.mapsGuard (env.tx s)) (s.txState info) := by
    refine ⟨(h.working info htx).txid, fun _ hp => absurd hp not_false, fun _ _ _ _ _ hp => hp,
      fun _ _ _ _ _ hp => hp, fun _ hp => absurd hp not_false, h.stamps, h.writing htx⟩
  have hend : Guarded (s.mapsGuard (env.tx s)) u := hu ▸ (hx _ _ hstart).1
  have hmaps : s.Writing u := hend.maps
  refine ⟨h.valid, h.lt, h.noList, hmaps.free, fun e he hle => ?_, fun e he => ?_, hend.stamps,
    h.registered, h.older, fun info' hinfo => ?_⟩
  · have hle' : e.1 ≤ s.shared.txid := hle
    rcases hmaps.pending e he with heq | he
    · omega
    · exact h.pending e he hle
  · rcases hmaps.pending e he with heq | he
    · exact .inr ⟨_, rfl, heq.trans hmaps.txid.symm⟩
    · refine (h.dated e he).imp_right ?_
      rintro ⟨info', htx', heq⟩
      refine ⟨_, rfl, heq.trans ?_⟩
      rw [(h.working info' htx').txid]
      exact hmaps.txid.symm
  · obtain rfl := Option.some.inj hinfo
    have hvalid := (h.working info htx).valid
    rw [(h.working info htx).txid, ← hmaps.txid] at hvalid
    exact ⟨hmaps.txid, hvalid, hmaps.grown, hmaps.lt, hmaps.noList, hmaps.drawn⟩

/-! ## Commit and RollBack -/

/-- What a Commit or a RollBack calls returns. In the mode kUpdateInPlace a RollBack calls nothing
that may throw. -/
def Returns (env : ManagerEnv) (s : Manager) : ManagerEvent → Prop
  | .commit checkpointNeeded faults => ∀ info, s.updateTx = some info →
      (env.commitEnv checkpointNeeded).Returns faults (s.txState info)
  | .rollBack checkpointNeeded faults => ∀ info, s.updateTx = some info → env.mode = .kWal →
      (env.commitEnv checkpointNeeded).Returns faults (s.txState info)
  | _ => True

theorem Sound.canSave (h : s.Sound) (htx : s.updateTx = some info)
    (hfew : s.pager.listed < 4294967296) : CanSave (s.txState info) where
  lt := (h.working info htx).lt
  freeIn := fun r hr => (h.free r hr).trans (h.working info htx).grown
  recordsIn := fun r hr => ((h.working info htx).drawn r hr).trans (h.working info htx).grown
  few := hfew

theorem Sound.settled (hP : kPagePairSize ≤ env.pageSize) (h : s.Sound)
    (htx : s.updateTx = some info) {remmap : Bool}
    (hfew : s.pager.listed < 4294967296) {u : TxState}
    (hlist : Pager.saveFreeListFaulty env.pageSize remmap (s.txState info) = (.ok (), u)) :
    Settled (s.txState info) u :=
  .writeFreeList hP (h.canSave htx hfew)
    (saveFreeListFaulty_eq_ok (h.working info htx).noList hlist)

section Ends

variable {checkpointNeeded : Bool} {faults : Faults}

/-- A commit publishes the transaction's meta, and saves it or not. -/
theorem commit_eq_some (hP : kPagePairSize ≤ env.pageSize) (h : s.Sound)
    (hret : s.Returns env (.commit checkpointNeeded faults))
    (hstep : s.commit env checkpointNeeded faults = some s') :
    ∃ info file u, s.updateTx = some info ∧ Settled (s.txState info) u ∧
      s' = { s.after env ⟨file, u⟩ with
        updateTx := none, history := Function.update s.history info.txid s.pager.pages } ∧
        file.shared.info = info ∧
      ((env.commitEnv checkpointNeeded).Saves ∧
        file = Meta.save env.metaEnv (Meta.switch (Meta.reset info s.file)) ∨
        ¬ (env.commitEnv checkpointNeeded).Saves ∧ file = Meta.reset info s.file) := by
  unfold commit at hstep
  cases htx : s.updateTx with
  | none =>
    rw [htx] at hstep
    cases hstep
  | some info =>
    have hret := hret info htx
    obtain ⟨⟨file, u⟩, hd⟩ :=
      commit_returns (d := ⟨s.file, s.txState info⟩) hret (h.working info htx).noList
    simp only [htx, hd] at hstep
    have hend := (Option.some.inj hstep).symm
    by_cases hsaves : (env.commitEnv checkpointNeeded).Saves
    · obtain ⟨hlist, hfile⟩ := commit_saves_eq_ok hsaves hd
      have hsettled := h.settled hP htx (hret.persist hsaves).few hlist
      refine ⟨info, file, u, rfl, hsettled, hend, ?_, .inl ⟨hsaves, hfile⟩⟩
      obtain rfl : file = _ := hfile
      exact shared_save_switch _ _
    · obtain ⟨rfl, rfl⟩ := Database.mk.inj (commit_eq_ok_of_not_saves hsaves hd)
      exact ⟨info, _, _, rfl, .refl _, hend, rfl, .inr ⟨hsaves, rfl⟩⟩

/-- A rollback gives back what was allocated; a checkpoint before it saves the shared meta. -/
theorem rollBack_eq_some (hP : kPagePairSize ≤ env.pageSize) (h : s.Sound)
    (hret : s.Returns env (.rollBack checkpointNeeded faults))
    (hstep : s.rollBack env checkpointNeeded faults = some s') :
    ∃ info file u, s.updateTx = some info ∧ Settled (s.txState info) u ∧
      s' =
        { s.after env ⟨file, { u with pager := u.pager.rollback info.txid }⟩ with updateTx :=
          none } ∧
      file.shared.info = s.shared ∧
      ((env.mode = .kWal ∧ checkpointNeeded = true) ∧
        file = Meta.save env.metaEnv (Meta.switch s.file) ∨
        ¬ (env.mode = .kWal ∧ checkpointNeeded = true) ∧ file = s.file) := by
  unfold rollBack at hstep
  cases htx : s.updateTx with
  | none =>
    rw [htx] at hstep
    cases hstep
  | some info =>
    have hret : (env.commitEnv checkpointNeeded).mode = .kWal →
        (env.commitEnv checkpointNeeded).Returns faults (s.txState info) := hret info htx
    obtain ⟨⟨file, v⟩, hd⟩ :=
      rollBack_returns (d := ⟨s.file, s.txState info⟩) hret (h.working info htx).noList
    simp only [htx, hd] at hstep
    have hend := (Option.some.inj hstep).symm
    by_cases hsaves : (env.commitEnv checkpointNeeded).mode = .kWal ∧
        (env.commitEnv checkpointNeeded).checkpointNeeded = true
    -- the rollback makes the checkpoint of its own
    · obtain ⟨u, hlist, hfile, hv⟩ := rollBack_saves_eq_ok hsaves.1 hsaves.2 hd
      have hsettled := h.settled hP htx ((hret hsaves.1).persist (.inr hsaves.2)).few hlist
      refine ⟨info, file, u, rfl, hsettled, ?_, ?_, .inl ⟨hsaves, hfile⟩⟩
      · obtain rfl : v = _ := hv
        rw [hsettled.txid] at hend
        exact hend
      · obtain rfl : file = _ := hfile
        exact shared_save_switch _ _
    · obtain ⟨hfile, hv⟩ := rollBack_eq_ok hsaves hd
      refine ⟨info, file, s.txState info, rfl, .refl _, ?_, congrArg (fun f => f.shared.info) hfile,
        .inr ⟨hsaves, hfile⟩⟩
      obtain rfl : v = _ := hv
      exact hend

theorem Sound.commit (hP : kPagePairSize ≤ env.pageSize) (h : s.Sound)
    (hret : s.Returns env (.commit checkpointNeeded faults))
    (hpending : ∀ info, s.updateTx = some info → Pager.PendingIn s.pager.pendingMap info.pageCount)
    (hstep : s.commit env checkpointNeeded faults = some s') : s'.Sound := by
  obtain ⟨info, file, u, htx, hsettled, rfl, hshared, -⟩ := commit_eq_some hP h hret hstep
  obtain ⟨htxid, hvalid, hgrown, hlt, hlist, hdrawn⟩ := h.working info htx
  obtain ⟨hfree, -⟩ := hsettled.inFile h.free hdrawn
  have hmap : u.pager.pendingMap = s.pager.pendingMap := hsettled.draws.pendingMap_eq
  subst hshared
  refine ⟨hvalid, hlt, hlist, fun r hr => (hfree r hr).trans hgrown, fun e he _ => ?_,
    fun e he => .inl ?_, fun p n hn => ?_, h.registered, fun v hv => ?_,
      fun _ hinfo => by cases hinfo⟩
  · exact hpending _ htx e (hmap ▸ he)
  · have he : e ∈ s.pager.pendingMap := hmap ▸ he
    show e.1 ≤ file.shared.info.txid
    rcases h.dated e he with hle | ⟨info', htx', heq⟩
    · omega
    · rw [heq, Option.some.inj (htx'.symm.trans htx)]
  · have := h.stamps p n (hsettled.nodes p n hn)
    show n.lastModifiedTxid ≤ file.shared.info.txid + 1
    omega
  · have := h.older v hv
    show v.txid ≤ file.shared.info.txid
    omega

theorem Sound.rollBack (hP : kPagePairSize ≤ env.pageSize) (h : s.Sound)
    (hret : s.Returns env (.rollBack checkpointNeeded faults))
    (hstep : s.rollBack env checkpointNeeded faults = some s') : s'.Sound := by
  obtain ⟨info, file, u, htx, hsettled, rfl, hshared, -⟩ := rollBack_eq_some hP h hret hstep
  obtain ⟨htxid, hvalid, hgrown, hlt, hlist, hdrawn⟩ := h.working info htx
  obtain ⟨hfree, hdrawn⟩ := hsettled.inFile h.free hdrawn
  have hmap : u.pager.pendingMap = s.pager.pendingMap := hsettled.draws.pendingMap_eq
  have hkept : ∀ e ∈ (u.pager.rollback info.txid).pendingMap, e ∈ s.pager.pendingMap ∧
      e.1 ≠ info.txid := fun e he => by
    obtain ⟨hmem, hne⟩ := List.mem_filter.1 he
    exact ⟨hmap ▸ hmem, by simpa using hne⟩
  have hback : ∀ r ∈ (u.pager.rollback info.txid).freeMap, Clear (fun _ => False)
      s.shared.pageCount r :=
    Pager.rollback_clear h.lt (fun r hr => .of_inFile (hfree r hr))
      (fun r hr => .of_inFile (hdrawn r hr)) _
  have hs : (s.after env ⟨file, { u with pager := u.pager.rollback info.txid }⟩).shared =
    s.shared := hshared
  refine ⟨hs ▸ h.valid, hs ▸ h.lt, hs ▸ h.noList, fun r hr => ?_, fun e he hle => ?_,
    fun e he => .inl ?_, fun p n hn => ?_, h.registered, hs ▸ h.older,
      fun _ hinfo => by cases hinfo⟩
  · exact hs ▸ (hback r hr).inFile
  · exact hs ▸ h.pending e (hkept e he).1 (hs ▸ hle)
  · rcases h.dated e (hkept e he).1 with hle | ⟨info', htx', heq⟩
    · exact hs ▸ hle
    · rw [Option.some.inj (htx'.symm.trans htx)] at heq
      exact absurd heq (hkept e he).2
  · exact hs ▸ h.stamps p n (hsettled.nodes p n hn)

end Ends

/-! ## Views -/

theorem Sound.view (h : s.Sound) : s.view.Sound := by
  refine ⟨h.valid, h.lt, h.noList, h.free, h.pending, h.dated, h.stamps, h.registered.add s.shared,
    fun info hv => ?_, fun info htx => ?_⟩
  · rcases List.mem_append.1 hv with hv | hv
    · exact h.older info hv
    · rw [List.mem_singleton.1 hv]
      exact Nat.le_refl _
  · obtain ⟨h1, h2, h3, h4, h5, h6⟩ := h.working info htx
    exact ⟨h1, h2, h3, h4, h5, h6⟩

theorem closeView_eq_some {i : Nat} (h : s.closeView i = some s') :
    ∃ info m, s.views[i]? = some info ∧ removeView info.txid s.viewTxMap = some m ∧
      s' = { s with viewTxMap := m, views := s.views.eraseIdx i } := by
  unfold closeView at h
  obtain ⟨info, hi, h⟩ := Option.bind_eq_some_iff.1 h
  obtain ⟨m, hm, h⟩ := Option.bind_eq_some_iff.1 h
  exact ⟨info, m, hi, hm, (Option.some.inj h).symm⟩

theorem Sound.closeView (h : s.Sound) {i : Nat} (hstep : s.closeView i = some s') : s'.Sound := by
  obtain ⟨info, m, hi, hm, rfl⟩ := closeView_eq_some hstep
  refine ⟨h.valid, h.lt, h.noList, h.free, h.pending, h.dated, h.stamps, h.registered.remove hi hm,
    fun v hv => ?_, fun v htx => ?_⟩
  · exact h.older v ((List.eraseIdx_sublist _ _).subset hv)
  · obtain ⟨h1, h2, h3, h4, h5, h6⟩ := h.working v htx
    exact ⟨h1, h2, h3, h4, h5, h6⟩

/-! ## Every step -/

/-- The runs that a transaction has freed when it commits are in its file. -/
def CommitsInFile (s : Manager) : ManagerEvent → Prop
  | .commit _ _ => ∀ info, s.updateTx = some info →
      Pager.PendingIn s.pager.pendingMap info.pageCount
  | _ => True

theorem Sound.step (hpair : kPagePairSize ≤ env.pageSize) (hpos : 0 < env.pageSize) (h : s.Sound)
    {e : ManagerEvent} (hpending : s.CommitsInFile e) (hret : s.Returns env e)
    (hstep : Manager.step env s e = some s') : s'.Sound := by
  cases e with
  | update => exact h.update hstep
  | put key value => exact h.work (guarding_put hpos key value false) hstep
  | delete key => exact h.work (guarding_delete hpos key) hstep
  | commit checkpointNeeded faults => exact h.commit hpair hret hpending hstep
  | rollBack checkpointNeeded faults => exact h.rollBack hpair hret hstep
  | view =>
    obtain rfl := Option.some.inj hstep
    exact h.view
  | closeView i => exact h.closeView hstep

end Manager

end AtomKV
