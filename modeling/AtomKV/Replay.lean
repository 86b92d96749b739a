import AtomKV.LogFormat
import AtomKV.SnapshotStore

/-!
# Recovery on the trees

`Logger::Recover` on the log of a run makes the calls of the run on the user bucket, in transactions
of its own. As long as these return, it goes through the states of a transaction manager without
views that makes the same calls, step by step. So what is known of the manager is known of the
recovered database: the store with snapshots says what it contains.
-/

set_option autoImplicit false

namespace AtomKV

/-! ## The log of a run -/

namespace ManagerEvent

/-- What an event appends to the log. -/
def logCall : ManagerEvent → Option LogCall
  | update => some .begin
  | put key value => some (.bucket (.put kUserRootBucketId key value false))
  | delete key => some (.bucket (.delete kUserRootBucketId key))
  | commit _ _ => some .commit
  | rollBack _ _ => some .rollback
  | view => none
  | closeView _ => none

/-- How many transactions the event commits. -/
def commits : ManagerEvent → ℕ
  | commit _ _ => 1
  | _ => 0

theorem commits_le_one (e : ManagerEvent) : e.commits ≤ 1 := by
  cases e with
  | commit checkpointNeeded faults => exact Nat.le_refl 1
  | update => exact Nat.zero_le 1
  | put key value => exact Nat.zero_le 1
  | delete key => exact Nat.zero_le 1
  | rollBack checkpointNeeded faults => exact Nat.zero_le 1
  | view => exact Nat.zero_le 1
  | closeView i => exact Nat.zero_le 1

def records (e : ManagerEvent) : List Bytes := e.logCall.toList.flatMap LogCall.records

/-- The event without what is not in the log: nothing fails, and no checkpoint is made. -/
def replayed : ManagerEvent → ManagerEvent
  | commit _ _ => commit false Faults.none
  | rollBack _ _ => rollBack false Faults.none
  | e => e

end ManagerEvent

/-- The log of a run that began when the meta had the id `txid`. -/
def runLog (txid : ℕ) (es : List ManagerEvent) : List Bytes :=
  Logger.appendWalTxIdLog txid ++ es.flatMap ManagerEvent.records

/-- The events whose records are among the first `n` ones. -/
def survivingEvents : ℕ → List ManagerEvent → List ManagerEvent
  | _, [] => []
  | n, e :: es => if e.records.length ≤ n then e :: survivingEvents (n - e.records.length) es
      else []

/-- The manager where `DB::Open` calls `Recover`. -/
def Manager.reopened (file : MetaFile) (pager : Pager) : Manager where
  file := file
  pager := pager
  updateTx := none
  viewTxMap := []
  minViewTxid := file.shared.info.txid
  persistedTxid := kTxInvalidId
  views := []
  history := fun _ => pager.pages
  savedPages := pager.pages

/-- What the tree code reads in `Recover`; `persisted_txid_` has not been set. -/
def ManagerEnv.recovery (env : ManagerEnv) : DbEnv :=
  ⟨⟨env.pageSize, env.comparator, 0, kTxInvalidId⟩, .kWal⟩

/-! ## What is in the file -/

/-- The version whose meta `DB::Open` loads is a tree that stands for the dictionary. -/
structure Image.Opens (env : ManagerEnv) (V : Image) (m : Dictionary) : Prop where
  ok : V.Ok env
  stands : V.Stands env m
  inFile : ∀ p, V.Holds env.pageSize p → p < V.info.pageCount
  stamps : ∀ p n, V.Holds env.pageSize p → V.pages p = .node n → n.lastModifiedTxid ≤ V.info.txid
  noList : V.info.freeListPgid = kPageInvalidId
  positive : 0 < V.info.txid
  valid : V.info.txid < kTxInvalidId
  ge : 2 ≤ V.info.pageCount
  room : V.info.pageCount ≤ kPageMaxCount

/-- The file has the pages of the version, and any bytes in the other ones. -/
structure Image.Left (env : ManagerEnv) (V : Image) (disk : Nat → Page) : Prop where
  held : ∀ p, V.Holds env.pageSize p → disk p = V.pages p
  other : ∀ p, ¬ V.Holds env.pageSize p → ∃ bytes, disk p = .raw bytes

section Opens

variable {env : ManagerEnv} {V : Image} {m : Dictionary} {pages : Nat → Page}

/-- Only the pages of the version matter. -/
theorem Image.Opens.congr (h : V.Opens env m)
    (hpages : ∀ p, V.Holds env.pageSize p → pages p = V.pages p) :
    (⟨V.info, pages⟩ : Image).Opens env m := by
  have hholds : ∀ p, (⟨V.info, pages⟩ : Image).Holds env.pageSize p → V.Holds env.pageSize p :=
    fun p =>
    (reachable_congr hpages p).1
  have hnode : ∀ {p n}, (⟨V.info, pages⟩ : Image).Holds env.pageSize p → pages p = .node n →
      V.pages p = .node n :=
    fun hp hn => (hpages _ (hholds _ hp)).symm.trans hn
  refine ⟨⟨?_, fun p n hp hn => ?_⟩, ?_, fun p hp => h.inFile p (hholds p hp),
    fun p n hp hn => h.stamps p n (hholds p hp) (hnode hp hn), h.noList, h.positive,
      h.valid, h.ge, h.room⟩
  · obtain ⟨t, hshows, hfull⟩ := h.ok.shows
    exact ⟨t, hshows.congr rfl hpages, hfull⟩
  · exact Visits.congr (fun q hq => hpages q (.inl hq)) (h.ok.plain p n (hholds p hp) (hnode hp hn))
  · obtain ⟨t, hshows, hrest⟩ := h.stands
    exact ⟨t, hshows.congr rfl hpages, hrest⟩

theorem Image.Opens.begins (h : V.Opens env m) (hleft : V.Left env pages) {file : MetaFile}
    (hfile : file.shared.info = V.info) :
      (Manager.reopened file ⟨pages, [], [], []⟩).Begins env m := by
  obtain ⟨info, old⟩ := V
  obtain rfl : file.shared.info = info := hfile
  have hnow := h.congr hleft.held
  -- a page that reads as a node is one of the version, as the others hold raw bytes
  have hheld : ∀ {p n}, pages p = .node n →
      (⟨file.shared.info, pages⟩ : Image).Holds env.pageSize p := by
    intro p n hn
    apply (reachable_congr hleft.held p).2
    by_contra hnot
    obtain ⟨bytes, hraw⟩ := hleft.other p hnot
    rw [hn] at hraw
    cases hraw
  have hstored : (Manager.reopened file ⟨pages, [], [], []⟩).Stored env file.shared.info :=
    { pages := rfl
      old := Nat.le_refl _
      shows := by
        obtain ⟨t, hshows, hfull⟩ := hnow.ok.shows
        exact ⟨t, hshows.congr rfl fun _ _ => rfl, hfull⟩
      plain := hnow.ok.plain
      inFile := hnow.inFile
      stamps := hnow.stamps }
  exact
    { idle := rfl
      views := rfl
      viewTxMap := rfl
      freeMap := rfl
      pendingMap := rfl
      valid := h.valid
      lt := Nat.lt_of_le_of_lt h.room (by decide)
      noList := h.noList
      stamps := fun p n hn => (hnow.stamps p n (hheld hn) hn).trans (Nat.le_succ _)
      stored := hstored
      stands := hnow.stands
      ge := h.ge
      room := h.room }

/-- A file without a tree. -/
theorem Image.opens_empty (ok : env.reader.Ok) {info : MetaInfo}
    (hroot : info.userRoot = kPageInvalidId) (noList : info.freeListPgid = kPageInvalidId)
    (positive : 0 < info.txid) (valid : info.txid < kTxInvalidId)
    (ge : 2 ≤ info.pageCount) (room : info.pageCount ≤ kPageMaxCount) :
    (⟨info, pages⟩ : Image).Opens env fun _ => none := by
  have hnone : ∀ p, ¬ (⟨info, pages⟩ : Image).Holds env.pageSize p := fun p =>
    Manager.not_holds hroot
  refine ⟨⟨⟨.empty, .of_empty ok hroot, trivial⟩, fun p n hp => absurd hp (hnone p)⟩, ?_,
    fun p hp => absurd hp (hnone p), fun p n hp => absurd hp (hnone p), noList,
      positive, valid, ge, room⟩
  exact ⟨.empty, .of_empty ok hroot, trivial, fun x hx => absurd hx List.not_mem_nil, fun _ => rfl,
    fun p => Nat.zero_le _⟩

end Opens

/-! ## One state of both -/

/-- `Recover` and the manager are in the same state; `file` is what `Meta::Load` has left. -/
structure Replays (file : MetaFile) (s : Recovering) (t : Manager) : Prop where
  file : t.file = Meta.reset s.metaStruct file
  pager : t.pager = s.pager
  minViewTxid : t.minViewTxid = s.minViewTxid
  persisted : t.persistedTxid = kTxInvalidId
  viewTxMap : t.viewTxMap = []
  tx : s.updateTx = t.updateTx.map fun info => TxImpl.init info true
  open_iff : s.currentTx = t.updateTx.isSome
  init : s.init = true
  positive : 0 < t.shared.txid

namespace Replays

variable {env : ManagerEnv} {file : MetaFile} {s s' : Recovering} {t t' : Manager} {info : MetaInfo}

theorem shared (h : Replays file s t) : t.shared = s.metaStruct := by
  unfold Manager.shared
  rw [h.file]
  rfl

theorem tx_open (h : Replays file s t) (htx : t.updateTx = some info) :
    s.updateTx = some (TxImpl.init info true) := by
  rw [h.tx, htx]
  rfl

theorem tx_idle (h : Replays file s t) (hidle : t.updateTx = none) : s.updateTx = none := by
  rw [h.tx, hidle]
  rfl

theorem current_open (h : Replays file s t) (htx : t.updateTx = some info) :
    s.currentTx = true := by
  rw [h.open_iff, htx]
  rfl

theorem current_idle (h : Replays file s t) (hidle : t.updateTx = none) : s.currentTx = false := by
  rw [h.open_iff, hidle]
  rfl

/-- The tree code reads the same. -/
theorem treeEnv_eq (h : Replays file s t) : (s.treeEnv env.recovery).toEnv = env.tx t := by
  show Env.mk env.pageSize env.comparator s.minViewTxid kTxInvalidId =
    Env.mk env.pageSize env.comparator t.minViewTxid t.persistedTxid
  rw [h.minViewTxid, h.persisted]

/-! ## The steps -/

/-- The tree of the user bucket in a write transaction without sub-buckets. -/
theorem onTree_user {α : Type} (x : TxM α) (pager : Pager) (info : MetaInfo)
    (log : List BucketLog) :
    Bucket.onTree kUserRootBucketId x ⟨pager, none, log, [], TxImpl.init info true⟩ =
      ((x ⟨pager, info, info.userRoot⟩).1, ⟨(x ⟨pager, info, info.userRoot⟩).2.pager, none, log, [],
        TxImpl.init { (x ⟨pager, info, info.userRoot⟩).2.metaStruct with
          userRoot := (x ⟨pager, info, info.userRoot⟩).2.rootPgid } true⟩) :=
  rfl

/-- A call that returns. -/
theorem call_of_run {x : DbM Unit} {tx : TxImpl} {d : Db} (htx : s.updateTx = some tx)
    (hrun : x (s.database tx) = (.ok (), d)) :
    s.call x = .ok { s with pager := d.pager, updateTx := some d.tx } := by
  unfold Recovering.call
  simp only [htx, hrun]

/-- `TxManager::Update`. -/
theorem begins (h : Replays file s t) (hsound : t.Sound) (hstep : t.update = some t') :
    ∃ s', s.step env.recovery .begin = .ok (s', false) ∧ Replays file s' t' := by
  obtain ⟨hidle, hne, rfl⟩ := Manager.update_eq_some hstep
  have hpositive := h.positive
  have hvalid := hsound.valid
  have hbound : t.shared.txid + 1 < kTxInvalidId := Nat.lt_of_le_of_ne hvalid hne
  have hmax : kTxInvalidId = 18446744073709551615 := rfl
  -- the sums in 64 bits do not wrap, as the id stays below kTxInvalidId
  have hnext : u64 (s.metaStruct.txid + 1) = t.shared.txid + 1 := by
    rw [← h.shared]
    unfold u64
    omega
  have hdue : u64 (s.metaStruct.txid - 1) = t.oldestViewTxid - 1 := by
    unfold Manager.oldestViewTxid
    rw [h.viewTxMap, ← h.shared]
    show u64 _ = t.shared.txid - 1
    unfold u64
    omega
  -- no view is open during recovery, so the cut-off of Release is one below the current version
  have hupdate : s.update = .ok { s with
      pager := s.pager.release (t.oldestViewTxid - 1)
      minViewTxid := t.shared.txid
      updateTx := some (TxImpl.init { t.shared with txid := t.shared.txid + 1 } true)
      currentTx := true } := by
    unfold Recovering.update
    rw [h.tx_idle hidle, hnext, hdue, ← h.shared]
    simp [hne]
  have hstep' : s.step env.recovery .begin = s.update.map fun t => (t, false) := by
    unfold Recovering.step
    simp only [h.init, h.current_idle hidle, not_true_eq_false, if_false, Bool.false_eq_true]
  rw [hupdate] at hstep'
  refine ⟨_, hstep', ⟨h.file, ?_, ?_, h.persisted, h.viewTxMap, rfl, rfl, h.init, hpositive⟩⟩
  · show t.pager.release (t.oldestViewTxid - 1) = s.pager.release (t.oldestViewTxid - 1)
    rw [h.pager]
  · show t.oldestViewTxid = t.shared.txid
    unfold Manager.oldestViewTxid
    rw [h.viewTxMap]

/-- A call on the tree of the user bucket, in whatever form it is replayed. -/
theorem works (env : ManagerEnv) {α : Type} {x : TxM α} {y : DbM Unit} {a : α}
    (h : Replays file s t) (record : BucketLog) (hstep : t.work x = some t')
    (hanswer : ∀ info, t.updateTx = some info → (x (t.txState info)).1 = .ok a)
    (hy : ∀ d d', (do
      Bucket.appendLog env.recovery record
      Bucket.onTree kUserRootBucketId x) d = (.ok a, d') → y d = (.ok (), d')) :
    ∃ s', s.call y = .ok s' ∧ Replays file s' t' := by
  obtain ⟨info, u, htx, hu, rfl⟩ := Manager.work_eq_some hstep
  have hx : x (t.txState info) = (.ok a, u) := Prod.ext (hanswer info htx) hu.symm
  have hrun : (do
      Bucket.appendLog env.recovery record
      Bucket.onTree kUserRootBucketId x) (s.database (TxImpl.init info true)) =
      (.ok a,
        ⟨u.pager, none, [record], [],
          TxImpl.init { u.metaStruct with userRoot := u.rootPgid } true⟩) := by
    show Bucket.onTree kUserRootBucketId x ⟨s.pager, none, [record], [], TxImpl.init info true⟩ = _
    rw [← h.pager, onTree_user]
    show ((x (t.txState info)).1, Db.mk (x (t.txState info)).2.pager _ _ _ (TxImpl.init
      { (x (t.txState info)).2.metaStruct with userRoot := (x (t.txState info)).2.rootPgid }
        true)) = _
    rw [hx]
  refine ⟨_, call_of_run (h.tx_open htx) (hy _ _ hrun),
    ⟨h.file, rfl, h.minViewTxid, h.persisted, h.viewTxMap, rfl, ?_, h.init, h.positive⟩⟩
  show s.currentTx = true
  exact h.current_open htx

/-- `Put` on the user bucket. -/
theorem puts {key value : Bytes} (h : Replays file s t)
    (hstep : t.work (BTree.put (env.tx t) key value false) = some t')
    (hanswer : ∀ info, t.updateTx = some info →
      (BTree.put (env.tx t) key value false (t.txState info)).1 = .ok ()) :
    ∃ s', s.step env.recovery (.bucket (.put kUserRootBucketId key value false)) = .ok (s', false) ∧
      Replays file s' t' := by
  obtain ⟨s', hcall, h'⟩ := h.works env (.put kUserRootBucketId key value false)
    (y := Recovering.replay (s.treeEnv env.recovery) (.put kUserRootBucketId key value false))
      hstep hanswer (by
    intro d d' hd
    rw [← h.treeEnv_eq] at hd
    exact hd)
  refine ⟨s', ?_, h'⟩
  unfold Recovering.step
  simp only [h.init, not_true_eq_false, if_false, hcall]
  rfl

/-- `Delete` on the user bucket. -/
theorem deletes {key : Bytes} {a : Bool} (h : Replays file s t)
    (hstep : t.work (BTree.delete (env.tx t) key) = some t')
    (hanswer : ∀ info, t.updateTx = some info →
      (BTree.delete (env.tx t) key (t.txState info)).1 = .ok a) :
    ∃ s', s.step env.recovery (.bucket (.delete kUserRootBucketId key)) = .ok (s', false) ∧
      Replays file s' t' := by
  obtain ⟨s', hcall, h'⟩ := h.works env (.delete kUserRootBucketId key)
    (y := Recovering.replay (s.treeEnv env.recovery) (.delete kUserRootBucketId key))
      hstep hanswer (by
    intro d d' hd
    rw [← h.treeEnv_eq] at hd
    exact Exec.bind_of_ok hd)
  refine ⟨s', ?_, h'⟩
  unfold Recovering.step
  simp only [h.init, not_true_eq_false, if_false, hcall]
  rfl

/-- A call on the user bucket that was cut off. -/
theorem cuts (h : Replays file s t) (htx : t.updateTx = some info) :
    s.step env.recovery (.cut kUserRootBucketId) = .ok (s, true) := by
  have hcall : s.call (do let _ ← Bucket.atSubBucket kUserRootBucketId) = .ok s := by
    rw [call_of_run (x := do let _ ← Bucket.atSubBucket kUserRootBucketId) (h.tx_open htx)
      (d := s.database (TxImpl.init info true)) rfl]
    show Except.ok { s with updateTx := some (TxImpl.init info true) } = _
    rw [← h.tx_open htx]
  unfold Recovering.step
  simp only [h.init, not_true_eq_false, if_false, hcall]
  rfl

/-- `UpdateTx::Commit`: there are no sub-buckets to write back. -/
theorem commits (h : Replays file s t) (hmode : env.mode = .kWal) (htx : t.updateTx = some info)
    (hpositive : 0 < info.txid) : ∃ s' t', s.step env.recovery .commit = .ok (s', false) ∧
      t.commit env false Faults.none = some t' ∧ Replays file s' t' := by
  have hrun : Bucket.writeBack (s.treeEnv env.recovery) (s.database (TxImpl.init info true)) =
      (.ok (), s.database (TxImpl.init info true)) := rfl
  have hcall := call_of_run (h.tx_open htx) hrun
  have hstep : s.step env.recovery .commit =
      .ok ({ s with metaStruct := info, updateTx := none, currentTx := false }, false) := by
    unfold Recovering.step
    simp only [h.init, h.current_open htx, not_true_eq_false, if_false, hcall]
    rfl
  have hrun' : TxManager.commit (env.commitEnv false) Faults.none ⟨t.file, t.txState info⟩ =
      (.ok (), ⟨Meta.reset info t.file, t.txState info⟩) := by
    unfold TxManager.commit
    rw [show (env.commitEnv false).mode = .kWal from hmode]
    rfl
  have hcommit : t.commit env false Faults.none =
      some { t.after env ⟨Meta.reset info t.file, t.txState info⟩ with
      updateTx := none
      history := Function.update t.history info.txid t.pager.pages } := by
    unfold Manager.commit
    simp only [htx, hrun']
  refine ⟨_, _, hstep, hcommit,
    ⟨?_, h.pager, h.minViewTxid, ?_, h.viewTxMap, rfl, rfl, h.init, hpositive⟩⟩
  · show Meta.reset info t.file = _
    rw [h.file]
    rfl
  · exact (if_neg fun hsaved => hsaved.2 rfl).trans h.persisted

/-- `UpdateTx::RollBack`. -/
theorem rollsBack (h : Replays file s t) (hmode : env.mode = .kWal) (htx : t.updateTx = some info) :
    ∃ s' t', s.rollBack = .ok s' ∧ t.rollBack env false Faults.none = some t' ∧ Replays file s' t' ∧
      t'.updateTx = none := by
  have hroll : s.rollBack = .ok { s with
      pager := s.pager.rollback info.txid, updateTx := none, currentTx := false } := by
    unfold Recovering.rollBack
    simp only [h.tx_open htx]
    rfl
  have hrun' : TxManager.rollBack (env.commitEnv false) Faults.none ⟨t.file, t.txState info⟩ =
      (.ok (), ⟨t.file, { t.txState info with pager := t.pager.rollback info.txid }⟩) := by
    unfold TxManager.rollBack TxManager.logRollBack
    rw [show (env.commitEnv false).mode = .kWal from hmode]
    rfl
  have hrollBack : t.rollBack env false Faults.none = some { t.after env
      ⟨t.file, { t.txState info with pager := t.pager.rollback info.txid }⟩
        with updateTx := none } := by
    unfold Manager.rollBack
    simp only [htx, hrun']
  refine ⟨_, _, hroll, hrollBack,
    ⟨h.file, ?_, h.minViewTxid, ?_, h.viewTxMap, rfl, rfl, h.init, h.positive⟩, rfl⟩
  · show t.pager.rollback info.txid = s.pager.rollback info.txid
    rw [h.pager]
  · exact (if_neg fun hsaved => hsaved.2 rfl).trans h.persisted

end Replays

/-! ## The store -/

namespace SnapshotStore

/-- The store without its views. -/
def unviewed (a : SnapshotStore) : SnapshotStore := { a with views := [] }

variable {a a' : SnapshotStore} {e : ManagerEvent}

/-- What is not in the log changes the views only. -/
theorem unviewed_step (ha : a.step e = some a') (he : e.logCall = none) :
    a'.unviewed = a.unviewed := by
  cases e with
  | view =>
    obtain rfl := Option.some.inj ha
    rfl
  | closeView i =>
    unfold step at ha
    simp only at ha
    split_ifs at ha
    obtain rfl := Option.some.inj ha
    rfl
  | update => cases he
  | put key value => cases he
  | delete key => cases he
  | commit checkpointNeeded faults => cases he
  | rollBack checkpointNeeded faults => cases he

/-- What is in the log does not look at the views. -/
theorem step_unviewed (ha : a.step e = some a') (he : e.logCall.isSome) :
    a.unviewed.step e = some a'.unviewed := by
  have hwriter : ∀ {f g : Dictionary → SnapshotStore}, a.working.map f = some a' →
      (∀ m, g m = (f m).unviewed) → a.unviewed.working.map g = some a'.unviewed := by
    intro f g hf hg
    obtain ⟨m, hm, rfl⟩ := Option.map_eq_some_iff.1 hf
    rw [← hg m]
    show a.working.map g = _
    rw [hm]
    rfl
  cases e with
  | update =>
    unfold step at ha ⊢
    simp only at ha
    split_ifs at ha with hopen
    obtain rfl := Option.some.inj ha
    exact if_neg hopen
  | put key value => exact hwriter ha fun m => rfl
  | delete key => exact hwriter ha fun m => rfl
  | commit checkpointNeeded faults => exact hwriter ha fun m => rfl
  | rollBack checkpointNeeded faults => exact hwriter ha fun m => rfl
  | view => cases he
  | closeView i => cases he

theorem idle_of_update (ha : a.step .update = some a') : a.working = none := by
  unfold step at ha
  simp only at ha
  split_ifs at ha with hopen
  exact Option.not_isSome_iff_eq_none.1 hopen

theorem permits_unviewed {P : ℕ} (h : a.Permits P e) : a.unviewed.Permits P e := by
  cases e with
  | update => trivial
  | put key value => exact h
  | delete key => exact h
  | commit checkpointNeeded faults => trivial
  | rollBack checkpointNeeded faults => trivial
  | view => trivial
  | closeView i => trivial

/-- The store does not see how a Commit or a RollBack goes. -/
theorem step_replayed (a : SnapshotStore) (e : ManagerEvent) : a.step e.replayed = a.step e := by
  cases e <;> rfl

theorem permits_replayed {P : ℕ} (h : a.Permits P e) : a.Permits P e.replayed := by
  cases e with
  | update => trivial
  | put key value => exact h
  | delete key => exact h
  | commit checkpointNeeded faults => trivial
  | rollBack checkpointNeeded faults => trivial
  | view => trivial
  | closeView i => trivial

end SnapshotStore

/-! ## Replaying the events -/

theorem Manager.exists_update {t : Manager} (hidle : t.updateTx = none)
    (hvalid : t.shared.txid + 1 ≠ kTxInvalidId) : ∃ t', t.update = some t' := by
  unfold Manager.update
  simp only [hidle, if_neg hvalid]
  exact ⟨_, rfl⟩

/-- A call finds the transaction open. -/
theorem Manager.exists_work {t : Manager} {info : MetaInfo} {α : Type} {x : TxM α}
    (htx : t.updateTx = some info) : ∃ t', t.work x = some t' := by
  unfold Manager.work
  rw [htx]
  exact ⟨_, rfl⟩

/-- What an event does to the shared meta. -/
theorem Manager.shared_step {env : ManagerEnv} {t t' : Manager} {e : ManagerEvent}
    (hpair : kPagePairSize ≤ env.pageSize) (hsound : t.Sound) (hret : t.Returns env e)
    (hstep : t.step env e = some t') :
    t'.shared.txid = t.shared.txid + e.commits ∧ (e.commits = 0 → t'.shared = t.shared) ∧
      t.shared.pageCount ≤ t'.shared.pageCount := by
  have hsame : e.commits = 0 → t'.shared = t.shared →
      t'.shared.txid = t.shared.txid + e.commits ∧ (e.commits = 0 → t'.shared = t.shared) ∧
        t.shared.pageCount ≤ t'.shared.pageCount := by
    intro hnone hshared
    rw [hnone, hshared]
    exact ⟨rfl, fun _ => rfl, Nat.le_refl _⟩
  cases e with
  | commit checkpointNeeded faults =>
    obtain ⟨info, file, u, htx, -, heq, hfile, -⟩ := Manager.commit_eq_some hpair hsound hret hstep
    have hshared : t'.shared = info := by
      rw [heq]
      exact hfile
    have hworking := hsound.working info htx
    rw [hshared]
    exact ⟨hworking.txid, fun h => absurd h Nat.one_ne_zero, hworking.grown⟩
  | rollBack checkpointNeeded faults =>
    obtain ⟨info, file, u, -, -, heq, hfile, -⟩ := Manager.rollBack_eq_some hpair hsound hret hstep
    apply hsame rfl
    rw [heq]
    exact hfile
  | update =>
    obtain ⟨-, -, rfl⟩ := Manager.update_eq_some hstep
    exact hsame rfl rfl
  | put key value =>
    obtain ⟨info, u, -, -, rfl⟩ := Manager.work_eq_some hstep
    exact hsame rfl rfl
  | delete key =>
    obtain ⟨info, u, -, -, rfl⟩ := Manager.work_eq_some hstep
    exact hsame rfl rfl
  | view =>
    obtain rfl := Option.some.inj hstep
    exact hsame rfl rfl
  | closeView i =>
    obtain ⟨info, map, -, -, rfl⟩ := Manager.closeView_eq_some hstep
    exact hsame rfl rfl

/-- `Recover` has come to a state of the store, and can replay `n` more events. -/
structure Follows (env : ManagerEnv) (file : MetaFile) (n : ℕ) (s : Recovering) (t : Manager)
    (a : SnapshotStore) : Prop where
  replays : Replays file s t
  serves : t.Serves env a
  pages : t.HasPages (n * callRoom)
  ids : t.shared.txid + n < kTxInvalidId

namespace Follows

variable {env : ManagerEnv} {file : MetaFile} {n : ℕ} {s s' : Recovering} {t t' : Manager}
  {a a' : SnapshotStore} {e : ManagerEvent}

/-- The event of the manager. -/
theorem returns (hmode : env.mode = .kWal) (t : Manager) (e : ManagerEvent) :
    t.Returns env e.replayed := by
  cases e with
  | commit checkpointNeeded faults => exact fun info _ => Manager.returns_unsaved hmode _
  | rollBack checkpointNeeded faults => exact fun info _ _ => Manager.returns_unsaved hmode _
  | update => trivial
  | put key value => trivial
  | delete key => trivial
  | view => trivial
  | closeView i => trivial

/-- What the event leaves, whatever `Recover` does: nothing is exempt from copying before the
first checkpoint. -/
theorem serves_step (ok : env.reader.Ok) (hmode : env.mode = .kWal)
    (hpersisted : t.persistedTxid = kTxInvalidId)
    (h : t.Serves env a) (hroom : t.HasRoom e.replayed) (hclient : a.Permits env.pageSize e)
    (hstep : t.step env e.replayed = some t') :
    (∃ a', a.step e = some a' ∧ t'.Serves env a') ∧ t.Answers env a e.replayed := by
  have hvalid := h.isolating.sound.valid
  have hnone : t.oldestViewTxid ≤ t.persistedTxid + 1 := by
    rw [hpersisted]
    exact Nat.le_trans h.isolating.sound.oldest_le_shared (Nat.le_succ_of_le hvalid.le)
  rw [← SnapshotStore.step_replayed]
  apply h.step ok (returns hmode t e) hroom (SnapshotStore.permits_replayed hclient) _ hstep
  intro _ info huse
  exact (h.isolating.retains info huse).mustCopy_of_noneExempt huse
    (Manager.noneExempt_of_le hnone .update)

/-- The transaction is open in both machines. -/
theorem open_of_map (h : Follows env file n s t a) {f : Dictionary → SnapshotStore}
    (hf : a.working.map f = some a') : ∃ info, t.updateTx = some info := by
  obtain ⟨m, hm, -⟩ := Option.map_eq_some_iff.1 hf
  cases htx : t.updateTx with
  | some info => exact ⟨info, rfl⟩
  | none =>
    rw [h.serves.idle htx] at hm
    cases hm

/-- An event that is in the log. -/
theorem step {c : LogCall} (ok : env.reader.Ok) (hmode : env.mode = .kWal)
    (h : Follows env file (n + 1) s t a.unviewed)
    (hclient : a.Permits env.pageSize e) (ha : a.step e = some a') (hc : e.logCall = some c) :
    ∃ s' t', s.step env.recovery c = .ok (s', false) ∧ Follows env file n s' t' a'.unviewed := by
  have hclient' := SnapshotStore.permits_unviewed hclient
  have ha' := SnapshotStore.step_unviewed ha (hc ▸ rfl)
  have hmin : 256 ≤ env.pageSize := ok.pageSize.min
  have hpair : kPagePairSize ≤ env.pageSize := Nat.le_trans (by decide) hmin
  have hpages : t.HasPages (n * callRoom + callRoom) := Nat.succ_mul n callRoom ▸ h.pages
  -- it is enough that `Recover` and the manager make the step
  have hboth : (∃ s' t', s.step env.recovery c = .ok (s', false) ∧ t.step env e.replayed = some t' ∧
      Replays file s' t') → ∃ s' t', s.step env.recovery c = .ok (s', false) ∧
        Follows env file n s' t' a'.unviewed := by
    rintro ⟨s', t', hs', ht', hreplays⟩
    obtain ⟨⟨b, hb, hserves⟩, -⟩ :=
      serves_step ok hmode h.replays.persisted h.serves (hpages.hasRoom _) hclient' ht'
    obtain rfl := Option.some.inj (hb.symm.trans ha')
    have hret := returns hmode t e
    have htxid := (Manager.shared_step hpair h.serves.isolating.sound hret ht').1
    have hone := e.replayed.commits_le_one
    have hids := h.ids
    exact ⟨s', t', hs', hreplays, hserves, hpages.step hpair h.serves hret
      (SnapshotStore.permits_replayed hclient') ht', by omega⟩
  apply hboth
  cases e with
  | update =>
    obtain rfl := Option.some.inj hc
    have hidle : t.updateTx = none := by
      cases htx : t.updateTx with
      | none => rfl
      | some info =>
        obtain ⟨m, hm, -⟩ := h.serves.works htx
        rw [SnapshotStore.idle_of_update ha'] at hm
        cases hm
    have hids := h.ids
    obtain ⟨t', ht'⟩ := Manager.exists_update hidle (show t.shared.txid + 1 ≠ kTxInvalidId by omega)
    obtain ⟨s', hs', hreplays⟩ := h.replays.begins h.serves.isolating.sound ht'
    exact ⟨s', t', hs', ht', hreplays⟩
  | put key value =>
    obtain rfl := Option.some.inj hc
    obtain ⟨info, htx⟩ := h.open_of_map ha'
    obtain ⟨t', ht'⟩ := Manager.exists_work (x := BTree.put (env.tx t) key value false) htx
    obtain ⟨-, hanswers⟩ := serves_step (e := .put key value) ok hmode h.replays.persisted h.serves
      (hpages.hasRoom _) hclient' ht'
    obtain ⟨s', hs', hreplays⟩ := h.replays.puts ht' hanswers
    exact ⟨s', t', hs', ht', hreplays⟩
  | delete key =>
    obtain rfl := Option.some.inj hc
    obtain ⟨info, htx⟩ := h.open_of_map ha'
    obtain ⟨m, hm, -⟩ := h.serves.works htx
    obtain ⟨t', ht'⟩ := Manager.exists_work (x := BTree.delete (env.tx t) key) htx
    obtain ⟨-, hanswers⟩ := serves_step (e := .delete key) ok hmode h.replays.persisted h.serves
      (hpages.hasRoom _) hclient' ht'
    obtain ⟨s', hs', hreplays⟩ := h.replays.deletes ht' fun info htx => hanswers info m htx hm
    exact ⟨s', t', hs', ht', hreplays⟩
  | commit checkpointNeeded faults =>
    obtain rfl := Option.some.inj hc
    obtain ⟨info, htx⟩ := h.open_of_map ha'
    have hpos : 0 < info.txid := by
      rw [(h.serves.isolating.sound.working info htx).txid]
      exact Nat.succ_pos _
    exact h.replays.commits hmode htx hpos
  | rollBack checkpointNeeded faults =>
    obtain rfl := Option.some.inj hc
    obtain ⟨info, htx⟩ := h.open_of_map ha'
    obtain ⟨s', t', hs', ht', hreplays, -⟩ := h.replays.rollsBack hmode htx
    refine ⟨s', t', ?_, ht', hreplays⟩
    unfold Recovering.step
    simp only [h.replays.init, h.replays.current_open htx, not_true_eq_false, if_false, hs']
    rfl
  | view => cases hc
  | closeView i => cases hc

theorem mono {k : ℕ} (h : Follows env file n s t a) (hk : k ≤ n) : Follows env file k s t a where
  replays := h.replays
  serves := h.serves
  pages := ⟨Nat.le_trans (Nat.add_le_add_left (Nat.mul_le_mul_right _ hk) _) h.pages.shared,
    fun info htx => Nat.le_trans (Nat.add_le_add_left (Nat.mul_le_mul_right _ hk) _)
      (h.pages.writer info htx)⟩
  ids := Nat.lt_of_le_of_lt (Nat.add_le_add_left hk _) h.ids

/-- A call that is cut off. -/
theorem cut {c : LogCall} (h : Follows env file n s t a.unviewed) (ha : a.step e = some a')
    (hc : e.logCall = some c) {k : ℕ} (hpos : k ≠ 0) (hk : k < c.records.length) :
      s.step env.recovery c.cutOff = .ok (s, true) := by
  have hone : ∀ {c' : LogCall}, c'.records.length = 1 → c ≠ c' := by
    rintro c' hlen rfl
    omega
  have ha' := SnapshotStore.step_unviewed ha (hc ▸ rfl)
  cases e with
  | put key value =>
    obtain rfl := Option.some.inj hc
    obtain ⟨info, htx⟩ := h.open_of_map ha'
    exact h.replays.cuts htx
  | delete key =>
    obtain rfl := Option.some.inj hc
    obtain ⟨info, htx⟩ := h.open_of_map ha'
    exact h.replays.cuts htx
  | update => exact absurd (Option.some.inj hc).symm (hone rfl)
  | commit checkpointNeeded faults => exact absurd (Option.some.inj hc).symm (hone rfl)
  | rollBack checkpointNeeded faults => exact absurd (Option.some.inj hc).symm (hone rfl)
  | view => cases hc
  | closeView i => cases hc

theorem asRead_logCall {c : LogCall} (hc : e.logCall = some c) : c.asRead = c := by
  cases e with
  | update => exact Option.some.inj hc ▸ rfl
  | put key value => exact Option.some.inj hc ▸ rfl
  | delete key => exact Option.some.inj hc ▸ rfl
  | commit checkpointNeeded faults => exact Option.some.inj hc ▸ rfl
  | rollBack checkpointNeeded faults => exact Option.some.inj hc ▸ rfl
  | view => cases hc
  | closeView i => cases hc

/-- **The loop of `Recover`.** -/
theorem loop (ok : env.reader.Ok) (hmode : env.mode = .kWal) {es : List ManagerEvent}
    (h : Follows env file es.length s t a.unviewed)
    (hclient : Steps.Along SnapshotStore.step (SnapshotStore.Permits env.pageSize) a es)
    (hrun : Steps.run SnapshotStore.step a es = some a') (k : ℕ) :
    ∃ s' t' b, s.loop env.recovery (survivingCalls k (es.filterMap ManagerEvent.logCall)) = .ok s' ∧
      Steps.run SnapshotStore.step a (survivingEvents k es) = some b ∧
      Follows env file 0 s' t' b.unviewed := by
  induction es generalizing s t a k with
  | nil => exact ⟨s, t, a, rfl, rfl, h⟩
  | cons e es ih =>
    obtain ⟨a₁, ha₁, hrest⟩ := Steps.exists_of_run_cons hrun
    have hclient₁ := hclient.2 a₁ ha₁
    cases hc : e.logCall with
    | none =>
      -- the event leaves no record
      have hlen : e.records.length = 0 := by
        unfold ManagerEvent.records
        rw [hc]
        rfl
      have h₁ : Follows env file es.length s t a₁.unviewed := by
        rw [SnapshotStore.unviewed_step ha₁ hc]
        exact h.mono (Nat.le_succ _)
      obtain ⟨s', t', b, hloop, hb, hend⟩ := ih h₁ hclient₁ hrest k
      refine ⟨s', t', b, ?_, ?_, hend⟩
      · rw [List.filterMap_cons_none hc]
        exact hloop
      · rw [survivingEvents, hlen, if_pos (Nat.zero_le k), Nat.sub_zero, Steps.run_cons ha₁]
        exact hb
    | some c =>
      have hlen : e.records.length = c.records.length := by
        unfold ManagerEvent.records
        rw [hc]
        simp
      rw [List.filterMap_cons_some hc, survivingCalls, survivingEvents, hlen]
      by_cases hall : c.records.length ≤ k
      · -- the records of the event are all there
        obtain ⟨s₁, t₁, hs₁, h₁⟩ := h.step ok hmode hclient.1 ha₁ hc
        obtain ⟨s', t', b, hloop, hb, hend⟩ := ih h₁ hclient₁ hrest (k - c.records.length)
        refine ⟨s', t', b, ?_, ?_, hend⟩
        · rw [if_pos hall, asRead_logCall hc, Recovering.loop, hs₁]
          exact hloop
        · rw [if_pos hall, Steps.run_cons ha₁]
          exact hb
      · refine ⟨s, t, a, ?_, ?_, h.mono (Nat.zero_le _)⟩
        · rw [if_neg hall]
          by_cases hzero : k = 0
          · rw [if_pos hzero]
            rfl
          · rw [if_neg hzero, Recovering.loop, h.cut ha₁ hc hzero (Nat.lt_of_not_le hall)]
        · rw [if_neg hall]
          rfl

/-- What is done when the loop ends: the transaction that is still open is rolled back. -/
theorem settle (ok : env.reader.Ok) (hmode : env.mode = .kWal)
    (h : Follows env file n s t a.unviewed) :
    ∃ s' t', (if s.currentTx then s.rollBack else return s) = .ok s' ∧ Replays file s' t' ∧
      t'.updateTx = none ∧ t'.Serves env (.opened a.committed) := by
  cases htx : t.updateTx with
  | none =>
    have hserves := h.serves
    have hworking := hserves.idle htx
    refine ⟨s, t, ?_, h.replays, htx, ?_⟩
    · rw [if_neg (by rw [h.replays.current_idle htx]; exact Bool.false_ne_true)]
      rfl
    · have heq : a.unviewed = .opened a.committed := by
        show SnapshotStore.mk a.committed a.working [] = ⟨a.committed, none, []⟩
        rw [show a.working = none from hworking]
      exact heq ▸ hserves
  | some info =>
    obtain ⟨s', t', hs', ht', hreplays, hidle⟩ := h.replays.rollsBack hmode htx
    obtain ⟨m, hm, -⟩ := h.serves.works htx
    obtain ⟨⟨b, hb, hserves⟩, -⟩ :=
      serves_step (e := .rollBack false Faults.none) ok hmode h.replays.persisted h.serves
      trivial trivial ht'
    have hb : a.unviewed.working.map (fun _ => { a.unviewed with working := none }) = some b := hb
    rw [hm] at hb
    obtain rfl := Option.some.inj hb
    refine ⟨s', t', ?_, hreplays, hidle, hserves⟩
    rw [if_pos (h.replays.current_open htx)]
    exact hs'

end Follows

/-! ## The whole log -/

theorem written_logCall {e : ManagerEvent} {c : LogCall} (hc : e.logCall = some c) : c.Written := by
  cases e with
  | update => exact Option.some.inj hc ▸ trivial
  | put key value => exact Option.some.inj hc ▸ (by decide : kUserRootBucketId < 4294967296)
  | delete key => exact Option.some.inj hc ▸ (by decide : kUserRootBucketId < 4294967296)
  | commit checkpointNeeded faults => exact Option.some.inj hc ▸ trivial
  | rollBack checkpointNeeded faults => exact Option.some.inj hc ▸ trivial
  | view => cases hc
  | closeView i => cases hc

theorem runLog_eq (txid : ℕ) (es : List ManagerEvent) :
    runLog txid es = (LogCall.walTxId txid :: es.filterMap ManagerEvent.logCall).flatMap
      LogCall.records := by
  rw [List.flatMap_cons, runLog]
  congr 1
  rw [List.filterMap_eq_flatMap_toList, List.flatMap_assoc]
  rfl

/-- What `Recover` reads when the log of a run ends after `n` records. -/
theorem readCalls_runLog {txid : ℕ} (htxid : txid < 18446744073709551616) (es : List ManagerEvent)
    (n : ℕ) :
    readCalls ((runLog txid es).take n) =
      if n = 0 then [] else .walTxId txid ::
        survivingCalls (n - 1) (es.filterMap ManagerEvent.logCall) := by
  rw [runLog_eq, readCalls_take]
  · have hone : (LogCall.walTxId txid).records.length = 1 := rfl
    rw [survivingCalls, hone]
    by_cases hzero : n = 0
    · subst hzero
      rfl
    · rw [if_pos (Nat.one_le_iff_ne_zero.2 hzero), if_neg hzero]
      rfl
  · intro c hc
    rcases List.mem_cons.1 hc with rfl | hc
    · exact htxid
    · obtain ⟨e, -, he⟩ := List.mem_filterMap.1 hc
      exact written_logCall he

/-- The manager when `DB::Open` has recovered the database; `file` is what `Meta::Load` has left. -/
structure Recovering.OpenedAs (file : MetaFile) (s : Recovering) (t : Manager) : Prop where
  idle : s.updateTx = none ∧ s.currentTx = false ∧ t.updateTx = none
  metas : t.file = Meta.reset s.metaStruct file
  pager : t.pager = s.pager
  minViewTxid : t.minViewTxid = s.minViewTxid
  persisted : t.persistedTxid = kTxInvalidId
  views : t.views = [] ∧ t.viewTxMap = []

theorem Replays.openedAs {file : MetaFile} {s : Recovering} {t : Manager} {env : ManagerEnv}
    {m : Dictionary} (h : Replays file s t) (hidle : t.updateTx = none)
    (hserves : t.Serves env (.opened m)) : s.OpenedAs file t where
  idle := ⟨h.tx_idle hidle, h.current_idle hidle, hidle⟩
  metas := h.file
  pager := h.pager
  minViewTxid := h.minViewTxid
  persisted := h.persisted
  views := ⟨List.length_eq_zero_iff.1 hserves.count.symm, h.viewTxMap⟩

section Recover

variable {env : ManagerEnv} {V : Image} {file : MetaFile} {disk : Nat → Page} {m : Dictionary}
  {a : SnapshotStore} {txid : ℕ} {es : List ManagerEvent}

/-- What `Recover` does with the log of a run: its first record says whether the log is old. -/
theorem recover_runLog (env : DbEnv) (info : MetaInfo) (pager : Pager)
    (htxid : txid < 18446744073709551616) (es : List ManagerEvent) (n : ℕ) :
    (Recovering.start info pager).recover env ((runLog txid es).take n) =
      if n = 0 then .ok (Recovering.start info pager)
      else if txid < info.txid then .ok { Recovering.start info pager with init := true }
      else do
        let t ← Recovering.loop env { Recovering.start info pager with init := true }
          (survivingCalls (n - 1) (es.filterMap ManagerEvent.logCall))
        if t.currentTx then t.rollBack else return t := by
  unfold Recovering.recover
  rw [readCalls_runLog htxid]
  by_cases hzero : n = 0
  · rw [if_pos hzero, if_pos hzero]
    rfl
  · rw [if_neg hzero, if_neg hzero]
    have hfirst : (Recovering.start info pager).step env (.walTxId txid) =
        .ok ({ Recovering.start info pager with init := true }, decide (txid < info.txid)) := rfl
    by_cases hold : txid < info.txid
    · rw [if_pos hold, Recovering.loop, hfirst, decide_eq_true hold]
      rfl
    · rw [if_neg hold, Recovering.loop, hfirst, decide_eq_false hold]

/-- A log that is older than the meta is not replayed. -/
theorem recover_old (ok : env.reader.Ok) (hopens : V.Opens env m) (hleft : V.Left env disk)
    (hfile : file.shared.info = V.info) (hold : txid < V.info.txid)
    (es : List ManagerEvent) (n : ℕ) :
    ∃ s t, (Recovering.start V.info ⟨disk, [], [], []⟩).recover env.recovery
      ((runLog txid es).take n) = .ok s ∧ s.OpenedAs file t ∧ t.IsStore env m := by
  have hserves := (hopens.begins hleft hfile).serves
  have hvalid : V.info.txid < 18446744073709551615 := hopens.valid
  rw [recover_runLog env.recovery _ _ (by omega) es n, if_pos hold]
  obtain ⟨info, pages⟩ := V
  obtain rfl : file.shared.info = info := hfile
  by_cases hzero : n = 0
  · rw [if_pos hzero]
    exact ⟨_, Manager.reopened file ⟨disk, [], [], []⟩, rfl,
      ⟨⟨rfl, rfl, rfl⟩, rfl, rfl, rfl, rfl, rfl, rfl⟩, hserves.isStore ok⟩
  · rw [if_neg hzero]
    exact ⟨_, Manager.reopened file ⟨disk, [], [], []⟩, rfl,
      ⟨⟨rfl, rfl, rfl⟩, rfl, rfl, rfl, rfl, rfl, rfl⟩, hserves.isStore ok⟩

/-- **Recovery of the contents.** The version whose meta is loaded stands for `m`, and the log is
that of a run from `m`. However much of the log is left, and whatever is in the other pages of the
file, `Recover` returns, and the database is a store with what the surviving records have committed.
A log that is older than the meta is not replayed. -/
theorem recover_restores (ok : env.reader.Ok) (hmode : env.mode = .kWal)
    (htxid : txid < 18446744073709551616) (hopens : V.Opens env m) (hleft : V.Left env disk)
    (hfile : file.shared.info = V.info)
    (hclient : Steps.Along SnapshotStore.step (SnapshotStore.Permits env.pageSize) (.opened m) es)
    (hrun : Steps.run SnapshotStore.step (.opened m) es = some a)
    (hpages : V.info.pageCount + es.length * callRoom ≤ kPageMaxCount)
    (hids : V.info.txid + es.length < kTxInvalidId) (n : ℕ) :
    ∃ s t b, (Recovering.start V.info ⟨disk, [], [], []⟩).recover env.recovery
      ((runLog txid es).take n) = .ok s ∧ Steps.run SnapshotStore.step (.opened m)
        (if txid < V.info.txid then [] else survivingEvents (n - 1) es) = some b ∧
        s.OpenedAs file t ∧ t.IsStore env b.committed := by
  by_cases hold : txid < V.info.txid
  · -- the meta was saved after the log had been begun
    rw [if_pos hold]
    obtain ⟨s, t, hs, hopened, hstore⟩ := recover_old ok hopens hleft hfile hold es n
    exact ⟨s, t, .opened m, hs, rfl, hopened, hstore⟩
  · have hserves := (hopens.begins hleft hfile).serves
    rw [if_neg hold, recover_runLog env.recovery _ _ htxid es n, if_neg hold]
    obtain ⟨info, pages⟩ := V
    obtain rfl : file.shared.info = info := hfile
    let s₁ : Recovering :=
      { Recovering.start file.shared.info ⟨disk, [], [], []⟩ with init := true }
    let t₁ : Manager := Manager.reopened file ⟨disk, [], [], []⟩
    have hreplays : Replays file s₁ t₁ := ⟨rfl, rfl, rfl, rfl, rfl, rfl, rfl, rfl, hopens.positive⟩
    have hfollows : Follows env file es.length s₁ t₁ (SnapshotStore.opened m).unviewed :=
      ⟨hreplays, hserves, ⟨hpages, fun info htx => by cases htx⟩, hids⟩
    obtain ⟨s, t, b, hloop, hb, hend⟩ := hfollows.loop ok hmode hclient hrun (n - 1)
    obtain ⟨s', t', hs', hreplays', hidle, hserves'⟩ := hend.settle ok hmode
    have hopened := hreplays'.openedAs hidle hserves'
    by_cases hzero : n = 0
    · -- no record was replayed
      rw [if_pos hzero]
      rw [hzero, survivingCalls_zero fun c hc => ?_] at hloop
      · obtain rfl : s₁ = s := Except.ok.inj hloop
        obtain rfl : s₁ = s' := Except.ok.inj hs'
        exact ⟨_, t', b, rfl, hb,
          ⟨hopened.idle, hopened.metas, hopened.pager, hopened.minViewTxid, hopened.persisted,
          hopened.views⟩, hserves'.isStore ok⟩
      · obtain ⟨e, -, he⟩ := List.mem_filterMap.1 hc
        exact written_logCall he
    · rw [if_neg hzero, hloop]
      exact ⟨s', t', b, hs', hb, hopened, hserves'.isStore ok⟩

end Recover

/-- Two transactions and a view. -/
def twoCommits : List ManagerEvent :=
  [.update, .put [1] [2], .commit false Faults.none, .view, .closeView 0, .update, .put [3] [4],
    .commit false Faults.none]

/-- The meta of an empty file. -/
def emptyImage : Image := ⟨Meta.initInfo 2, fun _ => .raw []⟩

/-- The log ends within the second Put: the record of its value is missing. -/
theorem recover_restores_cutPut : ∃ s t b,
    (Recovering.start emptyImage.info ⟨fun _ => .raw [], [], [], []⟩).recover
      (Manager.smallManager .kWal).recovery ((runLog 2 twoCommits).take 9) = .ok s ∧
      Steps.run SnapshotStore.step (.opened fun _ => none)
        (if 2 < emptyImage.info.txid then [] else survivingEvents (9 - 1) twoCommits) = some b ∧
        s.OpenedAs ⟨⟨0, 0, 0, emptyImage.info, 0⟩, ⟨0, 0, 0, emptyImage.info, 0⟩,
          ⟨0, 0, 0, emptyImage.info, 0⟩, 0⟩ t ∧
          t.IsStore (Manager.smallManager .kWal) b.committed := by
  have hopens : emptyImage.Opens (Manager.smallManager .kWal) fun _ => none :=
    Image.opens_empty (Manager.smallManager_ok _) rfl rfl (by decide) (by decide)
      (by decide) (by decide)
  have hleft : emptyImage.Left (Manager.smallManager .kWal) fun _ => .raw [] :=
    ⟨fun p hp => absurd hp (Manager.not_holds rfl), fun p _ => ⟨[], rfl⟩⟩
  have hsome : (Steps.run SnapshotStore.step (.opened fun _ => none) twoCommits).isSome := by
    decide +kernel
  obtain ⟨a, ha⟩ := Option.isSome_iff_exists.1 hsome
  exact recover_restores (Manager.smallManager_ok _) rfl (by decide) hopens hleft rfl
    (by decide +kernel) ha (by decide) (by decide) 9

end AtomKV
