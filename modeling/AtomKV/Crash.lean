import AtomKV.CheckpointImage
import AtomKV.Recovery
import AtomKV.Replay

/-!
# What survives a crash

The transaction manager in the mode kWal with its log file, and what may be in the database file
when the process is killed: of a page of the saved version any content that it has had since the
file was synced, and of other pages any bytes. `DurableStore` says what the clients may rely on: the
dictionary of the last checkpoint, and what the surviving records of the log have committed since.
As long as no page of the saved version is released, this is what `DB::Open` recovers, and the
database goes on as a store with it.
-/

set_option autoImplicit false

namespace AtomKV

/-! ## The machine with its files -/

structure Logged where
  manager : Manager
  /-- The records of the log file. -/
  log : List Bytes
  /-- The pages after each event since the database file was synced. -/
  versions : List (Nat → Page)
  /-- A checkpoint has saved the meta, and not yet emptied the log. -/
  saved : Bool

inductive LoggedEvent where
  | call (e : ManagerEvent)
  /-- The end of a checkpoint: `Logger::Reset` and `AppendWalTxIdLog`. -/
  | resetLog

namespace Logged

/-- A database that was opened without a log. -/
def opened (file : MetaFile) (pager : Pager) : Logged where
  manager := Manager.reopened file pager
  log := Logger.appendWalTxIdLog file.shared.info.txid
  versions := [pager.pages]
  saved := false

/-- An event appends its records. A checkpoint syncs the pages and saves the meta, which goes into
the other page. -/
def step (env : ManagerEnv) (s : Logged) : LoggedEvent → Option Logged
  | .call e =>
      if s.saved then none
      else (s.manager.step env e).map fun t =>
        if t.file.curMetaIndex = s.manager.file.curMetaIndex then
          ⟨t, s.log ++ e.records, t.pager.pages :: s.versions, false⟩
        else ⟨t, s.log ++ e.records, [t.pager.pages], true⟩
  | .resetLog =>
      if s.saved then some
        { s with log := Logger.appendWalTxIdLog s.manager.shared.txid, saved := false } else none

/-- What the file may hold after a crash. -/
structure Leaves (env : ManagerEnv) (s : Logged) (disk : Nat → Page) : Prop where
  held : ∀ p, s.manager.savedImage.Holds env.pageSize p → ∃ v ∈ s.versions, disk p = v p
  other : ∀ p, ¬ s.manager.savedImage.Holds env.pageSize p → ∃ bytes, disk p = .raw bytes

/-- What is asked of an event: that its callees return and find room, that no Update finds a page in
a version in use that it may write in place, and that none releases a page of the saved version. -/
def Supplied (env : ManagerEnv) (s : Logged) : LoggedEvent → Prop
  | .call e => s.manager.Supplied env e ∧ s.manager.NoneExempt env e ∧
      (e = .update → s.manager.KeepsImage env .update)
  | .resetLog => True

end Logged

/-! ## What the clients rely on -/

/-- The event makes a checkpoint. -/
def ManagerEvent.checkpoints : ManagerEvent → Bool
  | .commit checkpointNeeded _ => checkpointNeeded
  | .rollBack checkpointNeeded _ => checkpointNeeded
  | _ => false

structure DurableStore where
  store : SnapshotStore
  /-- What was committed at the last checkpoint. -/
  saved : Dictionary
  /-- The events since, without those of the views. -/
  since : List ManagerEvent

/-- Views leave no record in the log. -/
def addEvent (es : List ManagerEvent) (e : ManagerEvent) : List ManagerEvent :=
  if e.logCall.isSome then es ++ [e] else es

namespace DurableStore

def opened (m : Dictionary) : DurableStore := ⟨.opened m, m, []⟩

def step (d : DurableStore) : LoggedEvent → Option DurableStore
  | .call e => (d.store.step e).map fun a =>
      if e.checkpoints then ⟨a, a.committed, []⟩ else ⟨a, d.saved, addEvent d.since e⟩
  | .resetLog => some d

def Permits (P : ℕ) (d : DurableStore) : LoggedEvent → Prop
  | .call e => d.store.Permits P e
  | .resetLog => True

/-- The dictionary after a crash that leaves `n` records of the log. -/
def afterCrash (d : DurableStore) (n : ℕ) : Option Dictionary :=
  (Steps.run SnapshotStore.step (.opened d.saved) (survivingEvents (n - 1) d.since)).map
    SnapshotStore.committed

end DurableStore

/-! ## What an event does to the meta pages -/

namespace Manager

variable {env : ManagerEnv} {s s' : Manager} {e : ManagerEvent}

/-- Without a checkpoint only the meta in shared memory changes. -/
theorem unsaved_step (hmode : env.mode = .kWal) (hpair : kPagePairSize ≤ env.pageSize)
    (hsound : s.Sound) (hret : s.Returns env e) (hquiet : e.checkpoints = false)
    (hstep : Manager.step env s e = some s') :
    s'.file = Meta.reset s'.shared s.file ∧ s'.savedPages = s.savedPages ∧
    s'.persistedTxid = s.persistedTxid := by
  have hsame : s'.file = s.file → s'.savedPages = s.savedPages →
      s'.persistedTxid = s.persistedTxid → s'.file = Meta.reset s'.shared s.file ∧ s'.savedPages =
        s.savedPages ∧ s'.persistedTxid = s.persistedTxid := by
    intro hfile hpages hpersisted
    refine ⟨?_, hpages, hpersisted⟩
    unfold shared
    rw [hfile]
    rfl
  cases e with
  | update =>
    obtain ⟨-, -, rfl⟩ := update_eq_some hstep
    exact hsame rfl rfl rfl
  | put key value =>
    obtain ⟨info, u, -, -, rfl⟩ := work_eq_some hstep
    exact hsame rfl rfl rfl
  | delete key =>
    obtain ⟨info, u, -, -, rfl⟩ := work_eq_some hstep
    exact hsame rfl rfl rfl
  | commit checkpointNeeded faults =>
    obtain rfl : checkpointNeeded = false := hquiet
    obtain ⟨info, file, u, -, -, heq, hshared, hfile⟩ := commit_eq_some hpair hsound hret hstep
    -- In `kWal` a commit saves the meta at a checkpoint only.
    have hnot : ¬ (env.commitEnv false).Saves := by
      rintro (hplace | hneeded)
      · have hplace : env.mode = .kUpdateInPlace := hplace
        rw [hmode] at hplace
        cases hplace
      · cases hneeded
    obtain ⟨-, rfl⟩ := hfile.resolve_left fun hsaves => hnot hsaves.1
    obtain ⟨hpages, hpersisted⟩ :=
      after_same (s := s) env (Eq.refl (Meta.reset info s.file).curMetaIndex) u
    subst heq
    exact ⟨rfl, hpages, hpersisted⟩
  | rollBack checkpointNeeded faults =>
    obtain rfl : checkpointNeeded = false := hquiet
    obtain ⟨info, file, u, -, -, heq, hshared, hfile⟩ := rollBack_eq_some hpair hsound hret hstep
    obtain ⟨-, rfl⟩ := hfile.resolve_left fun hsaves => Bool.false_ne_true hsaves.1.2
    obtain ⟨hpages, hpersisted⟩ := after_same (s := s) env (Eq.refl s.file.curMetaIndex)
      { u with pager := u.pager.rollback info.txid }
    subst heq
    exact hsame rfl hpages hpersisted
  | view =>
    obtain rfl := Option.some.inj hstep
    exact hsame rfl rfl rfl
  | closeView i =>
    obtain ⟨info, map, -, -, rfl⟩ := closeView_eq_some hstep
    exact hsame rfl rfl rfl

/-- A checkpoint saves the shared meta in the other page; the pages are those of the
transaction that ends. -/
theorem checkpoint_step (hmode : env.mode = .kWal) (hpair : kPagePairSize ≤ env.pageSize)
    (hsound : s.Sound) (hret : s.Returns env e) (hsaves : e.checkpoints = true)
    (hstep : Manager.step env s e = some s') :
    s'.file = Meta.save env.metaEnv (Meta.switch (Meta.reset s'.shared s.file)) ∧
      s'.savedImage = ⟨s'.shared, s.pager.pages⟩ ∧ s'.persistedTxid = s'.shared.txid ∧
      s'.updateTx = none := by
  cases e with
  | commit checkpointNeeded faults =>
    obtain rfl : checkpointNeeded = true := hsaves
    obtain ⟨info, file, u, -, -, heq, hshared, hfile⟩ := commit_eq_some hpair hsound hret hstep
    obtain ⟨-, rfl⟩ := hfile.resolve_right fun hnot => hnot.1 (.inr rfl)
    obtain ⟨himage, hpersisted⟩ :=
      after_checkpoint (s := s) (f := Meta.reset info s.file) hmode rfl u
    have hinfo : s'.shared = info := by
      rw [heq]
      exact hshared
    rw [hinfo]
    subst heq
    exact ⟨rfl, himage, hpersisted, rfl⟩
  | rollBack checkpointNeeded faults =>
    obtain rfl : checkpointNeeded = true := hsaves
    obtain ⟨info, file, u, -, -, heq, hshared, hfile⟩ := rollBack_eq_some hpair hsound hret hstep
    obtain ⟨-, rfl⟩ := hfile.resolve_right fun hnot => hnot.1 ⟨hmode, rfl⟩
    obtain ⟨himage, hpersisted⟩ := after_checkpoint (s := s) (f := s.file) hmode rfl
      { u with pager := u.pager.rollback info.txid }
    have hinfo : s'.shared = s.shared := by
      rw [heq]
      exact hshared
    rw [hinfo]
    subst heq
    exact ⟨rfl, himage, hpersisted, rfl⟩
  | update => cases hsaves
  | put key value => cases hsaves
  | delete key => cases hsaves
  | view => cases hsaves
  | closeView i => cases hsaves

end Manager

/-! ## The page that is loaded -/

/-- The page that was written last is the one that `Load` prefers, or the other one has the same
meta. -/
def MetaFile.Newest (f : MetaFile) : Prop :=
  f.curMetaIndex = 0 ∧ f.second.info.txid ≤ f.first.info.txid ∨
    f.curMetaIndex = 1 ∧ (f.first.info.txid < f.second.info.txid ∨ f.first.info = f.second.info)

namespace MetaFile

variable {env : MetaEnv} {f f' : MetaFile}

/-- What `Load` has found. -/
theorem newest_of_load (hpages : WalDb.PagesOk env f) (hload : Meta.load env f = .ok f') :
    f'.Newest ∧ f'.saved.info = f'.shared.info ∧ WalDb.PagesOk env f' := by
  obtain ⟨h1, h2, -, h4, h5⟩ := hpages
  by_cases hlt : f.first.info.txid < f.second.info.txid
  · rw [Meta.load_second h2 h5 h1 (.inl hlt)] at hload
    obtain rfl := Except.ok.inj hload
    exact ⟨.inr ⟨rfl, .inl hlt⟩, rfl, h1, h2, h2, h4, h5⟩
  · rw [Meta.load_first h1 h4 (.inl (Nat.not_lt.1 hlt))] at hload
    obtain rfl := Except.ok.inj hload
    exact ⟨.inl ⟨rfl, Nat.not_lt.1 hlt⟩, rfl, h1, h2, h1, h4, h5⟩

/-- `Load` finds the meta that was saved last. -/
theorem Newest.load (h : f.Newest) (hpages : WalDb.PagesOk env f) :
    ∃ f', Meta.load env f = .ok f' ∧ f'.shared.info = f.saved.info := by
  obtain ⟨h1, h2, -, h4, h5⟩ := hpages
  unfold saved
  rcases h with ⟨hcur, hle⟩ | ⟨hcur, hlt | hsame⟩
  · refine ⟨_, Meta.load_first h1 h4 (.inl hle), ?_⟩
    rw [hcur]
    rfl
  · refine ⟨_, Meta.load_second h2 h5 h1 (.inl hlt), ?_⟩
    rw [hcur]
    rfl
  · refine ⟨_, Meta.load_first h1 h4 (.inl (hsame ▸ Nat.le_refl _)), ?_⟩
    rw [hcur]
    exact hsame

/-- A checkpoint saves a newer meta, or the same one once more. -/
theorem Newest.save (h : f.Newest) (hle : f.saved.info.txid ≤ f.shared.info.txid)
    (hsame : f.saved.info.txid = f.shared.info.txid → f.shared.info = f.saved.info) :
    (Meta.save env (Meta.switch f)).Newest := by
  unfold saved at hle hsame
  rcases h with ⟨hcur, -⟩ | ⟨hcur, -⟩
  · rw [hcur] at hle hsame
    refine .inr ⟨?_, ?_⟩
    · unfold Meta.save Meta.switch
      simp [hcur]
    · unfold Meta.save Meta.switch
      simp only [hcur, if_true, Nat.one_ne_zero, if_false]
      rcases Nat.lt_or_eq_of_le hle with hlt | heq
      · exact .inl hlt
      · exact .inr (hsame heq).symm
  · rw [hcur] at hle
    refine .inl ⟨?_, ?_⟩
    · unfold Meta.save Meta.switch
      simp [hcur]
    · unfold Meta.save Meta.switch
      simp only [hcur, Nat.one_ne_zero, if_false, if_true]
      exact hle

end MetaFile

/-! ## Lists of events -/

/-- How many transactions the events commit. -/
def commitsOf (es : List ManagerEvent) : ℕ := (es.map ManagerEvent.commits).sum

/-- What is not in the log has no records and commits nothing. -/
theorem ManagerEvent.quiet_of_none {e : ManagerEvent} (he : e.logCall = none) :
    e.records = [] ∧ e.commits = 0 ∧ e.checkpoints = false := by
  cases e with
  | view => exact ⟨rfl, rfl, rfl⟩
  | closeView i => exact ⟨rfl, rfl, rfl⟩
  | update => cases he
  | put key value => cases he
  | delete key => cases he
  | commit checkpointNeeded faults => cases he
  | rollBack checkpointNeeded faults => cases he

theorem commitsOf_append (es fs : List ManagerEvent) :
    commitsOf (es ++ fs) = commitsOf es + commitsOf fs := by
  unfold commitsOf
  rw [List.map_append, List.sum_append]

theorem commitsOf_addEvent (es : List ManagerEvent) (e : ManagerEvent) :
    commitsOf (addEvent es e) = commitsOf es + e.commits := by
  unfold addEvent
  cases hc : e.logCall with
  | none =>
    rw [(ManagerEvent.quiet_of_none hc).2.1]
    rfl
  | some c => exact commitsOf_append es [e]

theorem runLog_addEvent (txid : ℕ) (es : List ManagerEvent) (e : ManagerEvent) :
    runLog txid (addEvent es e) = runLog txid es ++ e.records := by
  unfold addEvent runLog
  cases hc : e.logCall with
  | none =>
    rw [(ManagerEvent.quiet_of_none hc).1, List.append_nil]
    rfl
  | some c => simp

/-- The surviving events are a prefix. -/
theorem survivingEvents_prefix (es : List ManagerEvent) : ∀ n, survivingEvents n es <+: es := by
  induction es with
  | nil =>
    intro n
    exact List.prefix_refl []
  | cons e es ih =>
    intro n
    rw [survivingEvents]
    by_cases hall : e.records.length ≤ n
    · rw [if_pos hall]
      exact List.cons_prefix_cons.2 ⟨rfl, ih _⟩
    · rw [if_neg hall]
      exact List.nil_prefix

theorem SnapshotStore.committed_step {a a' : SnapshotStore} {e : ManagerEvent}
    (ha : a.step e = some a') (he : e.commits = 0) : a'.committed = a.committed := by
  have hwriter : ∀ {f : Dictionary → SnapshotStore}, a.working.map f = some a' →
      (∀ m, (f m).committed = a.committed) → a'.committed = a.committed := by
    intro f hf hg
    obtain ⟨m, -, rfl⟩ := Option.map_eq_some_iff.1 hf
    exact hg m
  cases e with
  | put key value => exact hwriter ha fun m => rfl
  | delete key => exact hwriter ha fun m => rfl
  | rollBack checkpointNeeded faults => exact hwriter ha fun m => rfl
  | commit checkpointNeeded faults => cases he
  | update =>
    unfold step at ha
    simp only at ha
    split_ifs at ha
    obtain rfl := Option.some.inj ha
    rfl
  | view =>
    obtain rfl := Option.some.inj ha
    rfl
  | closeView i =>
    unfold step at ha
    simp only at ha
    split_ifs at ha
    obtain rfl := Option.some.inj ha
    rfl

/-- A run without a commit. -/
theorem SnapshotStore.committed_of_run {a b : SnapshotStore} {es : List ManagerEvent}
    (hzero : commitsOf es = 0) (hrun : Steps.run SnapshotStore.step a es = some b) :
      b.committed = a.committed := by
  induction es generalizing a with
  | nil =>
    obtain rfl := Option.some.inj hrun
    rfl
  | cons e es ih =>
    have hsum : e.commits + commitsOf es = 0 := hzero
    obtain ⟨a₁, ha₁, hrest⟩ := Steps.exists_of_run_cons hrun
    rw [ih (by omega) hrest]
    exact committed_step ha₁ (by omega)

/-! ## The version that is saved -/

namespace Manager

variable {env : ManagerEnv} {s s' : Manager} {a : SnapshotStore} {e : ManagerEvent}

/-- The last commit could be loaded. -/
theorem Serves.opens (h : s.Serves env a) (hge : 2 ≤ s.shared.pageCount)
    (hpositive : 0 < s.shared.txid) : (s.image s.shared).Opens env a.committed := by
  have hsound := h.isolating.sound
  obtain ⟨hok, hkept⟩ := h.isolating.retains s.shared (.inr rfl)
  exact ⟨hok, h.committed, hkept.inFile, hkept.stamps, hsound.noList, hpositive,
    hsound.valid, hge, h.tallied.room⟩

/-- What a checkpoint saves is the last commit. -/
theorem Serves.saved_checkpoint (hpair : kPagePairSize ≤ env.pageSize) (h : s.Serves env a)
    (hret : s.Returns env e) (hsaves : e.checkpoints = true)
    (hstep : Manager.step env s e = some s') (p : Nat)
    (hp : (s'.image s'.shared).Holds env.pageSize p) :
      s.pager.pages p = (s'.image s'.shared).pages p := by
  have hsound := h.isolating.sound
  cases e with
  | commit checkpointNeeded faults =>
    obtain ⟨info, file, u, -, -, heq, hshared, -⟩ := commit_eq_some hpair hsound hret hstep
    have hinfo : s'.shared = info := by
      rw [heq]
      exact hshared
    rw [hinfo, heq]
    show s.pager.pages p = Function.update s.history info.txid s.pager.pages info.txid p
    rw [Function.update_self]
  | rollBack checkpointNeeded faults =>
    have hinfo : s'.shared = s.shared := by
      obtain ⟨info, file, u, -, -, heq, hshared, -⟩ := rollBack_eq_some hpair hsound hret hstep
      rw [heq]
      exact hshared
    have himage := image_step hpair hsound hret (Nat.le_refl s.shared.txid) hstep
    rw [hinfo, himage] at hp ⊢
    exact (h.isolating.retains s.shared (.inr rfl)).kept.pages p hp
  | update => cases hsaves
  | put key value => cases hsaves
  | delete key => cases hsaves
  | view => cases hsaves
  | closeView i => cases hsaves

end Manager

/-- Only the pages of the version matter. -/
theorem Image.Kept.congr {env : ManagerEnv} {s : Manager} {V : Image} {pages : Nat → Page}
    (h : V.Kept env s) (hpages : ∀ p, V.Holds env.pageSize p → pages p = V.pages p) :
      (⟨V.info, pages⟩ : Image).Kept env s := by
  have hholds : ∀ p, (⟨V.info, pages⟩ : Image).Holds env.pageSize p → V.Holds env.pageSize p :=
    fun p =>
    (reachable_congr hpages p).1
  have hnode : ∀ {p n}, (⟨V.info, pages⟩ : Image).Holds env.pageSize p → pages p = .node n →
      V.pages p = .node n :=
    fun hp hn => (hpages _ (hholds _ hp)).symm.trans hn
  exact
    { pages := fun p hp => (h.pages p (hholds p hp)).trans (hpages p (hholds p hp)).symm
      inFile := fun p hp => h.inFile p (hholds p hp)
      stamps := fun p n hp hn => h.stamps p n (hholds p hp) (hnode hp hn)
      old := h.old
      free := fun r hr p hlow hhigh hp => h.free r hr p hlow hhigh (hholds p hp)
      pending := fun e he hle r hr p hlow hhigh hp => h.pending e he hle r hr
        p hlow hhigh (hholds p hp)
      drawn := fun hopen r hr p hlow hhigh hp => h.drawn hopen r hr p hlow hhigh (hholds p hp)
      copied := fun info htx p n hp hn => h.copied info htx p n (hholds p hp) (hnode hp hn) }

/-! ## Both machines -/

/-- The log of the time before the checkpoint that has just saved the meta: older than the meta, or
without a commit. -/
structure OldLog (env : ManagerEnv) (txid : ℕ) (m : Dictionary) (log : List Bytes) : Prop where
  run : ∃ w es, log = runLog w es ∧ (∀ e ∈ es, e.logCall.isSome) ∧
    (w < txid ∨ w = txid ∧ commitsOf es = 0 ∧
      Steps.Along SnapshotStore.step (SnapshotStore.Permits env.pageSize) (.opened m) es ∧
      ∃ a, Steps.run SnapshotStore.step (.opened m) es = some a)

namespace Logged

/-- The clients may rely on `d`. -/
structure Serves (env : ManagerEnv) (s : Logged) (d : DurableStore) : Prop where
  serves : s.manager.Serves env d.store
  pages : WalDb.PagesOk env.metaEnv s.manager.file
  newest : s.manager.file.Newest
  opens : s.manager.savedImage.Opens env d.saved
  kept : s.manager.SavedKept env
  versions : ∀ v ∈ s.versions, ∀ p, s.manager.savedImage.Holds env.pageSize p →
    v p = s.manager.savedPages p
  ge : 2 ≤ s.manager.shared.pageCount
  txid : s.manager.shared.txid = s.manager.file.saved.info.txid + commitsOf d.since
  same : commitsOf d.since = 0 → s.manager.shared = s.manager.file.saved.info
  logged : ∀ e ∈ d.since, e.logCall.isSome
  permitted : Steps.Along SnapshotStore.step (SnapshotStore.Permits env.pageSize)
    (.opened d.saved) d.since
  since : Steps.run SnapshotStore.step (.opened d.saved) d.since = some d.store.unviewed
  log : s.saved = false → s.log = runLog s.manager.file.saved.info.txid d.since
  oldLog : s.saved = true → d.since = [] ∧ OldLog env s.manager.file.saved.info.txid d.saved s.log

variable {env : ManagerEnv} {s s' : Logged} {d : DurableStore} {t : Manager} {a : SnapshotStore}
  {e : ManagerEvent}

/-- The events since the checkpoint and one more. -/
theorem Serves.since_step (h : s.Serves env d) (hclient : d.store.Permits env.pageSize e)
    (ha : d.store.step e = some a) : (∀ e' ∈ addEvent d.since e, e'.logCall.isSome) ∧
      Steps.Along SnapshotStore.step (SnapshotStore.Permits env.pageSize) (.opened d.saved)
        (addEvent d.since e) ∧ Steps.run SnapshotStore.step (.opened d.saved) (addEvent d.since e) =
          some a.unviewed := by
  unfold addEvent
  cases hc : e.logCall with
  | none =>
    rw [SnapshotStore.unviewed_step ha hc]
    exact ⟨h.logged, h.permitted, h.since⟩
  | some c =>
    have hlogged : e.logCall.isSome := hc ▸ rfl
    refine ⟨fun e' he' => ?_, ?_, ?_⟩
    · rcases List.mem_append.1 he' with he' | he'
      · exact h.logged e' he'
      · obtain rfl := List.mem_singleton.1 he'
        exact hlogged
    · exact h.permitted.append h.since ⟨SnapshotStore.permits_unviewed hclient, fun _ _ => trivial⟩
    · show Steps.run SnapshotStore.step (.opened d.saved) (d.since ++ [e]) = _
      rw [Steps.run_append h.since, Steps.run_cons (SnapshotStore.step_unviewed ha hlogged)]
      rfl

/-- The conditions that a step without a checkpoint keeps the saved version under. -/
theorem Supplied.keepsImage (h : s.Supplied env (.call e)) (hquiet : e.checkpoints = false) :
    s.manager.KeepsImage env e := by
  cases e with
  | update => exact h.2.2 rfl
  | put key value => trivial
  | delete key => trivial
  | commit checkpointNeeded faults =>
    obtain rfl : checkpointNeeded = false := hquiet
    trivial
  | rollBack checkpointNeeded faults =>
    obtain rfl : checkpointNeeded = false := hquiet
    trivial
  | view => trivial
  | closeView i => trivial

/-- An event without a checkpoint. -/
theorem Serves.quiet (hmode : env.mode = .kWal) (hpair : kPagePairSize ≤ env.pageSize)
    (hpos : 0 < env.pageSize) (h : s.Serves env d) (hsaved : s.saved = false)
    (hsupplied : s.Supplied env (.call e)) (hclient : d.store.Permits env.pageSize e)
    (hquiet : e.checkpoints = false) (ha : d.store.step e = some a)
    (hserves : t.Serves env a) (hstep : s.manager.step env e = some t) :
    (Logged.mk t (s.log ++ e.records) (t.pager.pages :: s.versions) false).Serves env
      ⟨a, d.saved, addEvent d.since e⟩ := by
  have hsound := h.serves.isolating.sound
  have hret : s.manager.Returns env e := hsupplied.1.1
  obtain ⟨hfile, hpages, hpersisted⟩ := Manager.unsaved_step hmode hpair hsound hret hquiet hstep
  obtain ⟨htxid, hsame, hgrown⟩ := Manager.shared_step hpair hsound hret hstep
  have hsavedInfo : t.file.saved = s.manager.file.saved := by
    rw [hfile]
    rfl
  have himage : t.savedImage = s.manager.savedImage := by
    unfold Manager.savedImage
    rw [hsavedInfo, hpages]
  have hkept := h.kept.step hpair hpos hsound hret (hsupplied.keepsImage hquiet) hsavedInfo
    hpages hpersisted hstep
  obtain ⟨hlogged, hpermitted, hsince⟩ := h.since_step hclient ha
  have hcommits := commitsOf_addEvent d.since e
  refine
    { serves := hserves
      pages := ?_
      newest := ?_
      opens := himage ▸ h.opens
      kept := hkept
      versions := ?_
      ge := Nat.le_trans h.ge hgrown
      txid := ?_
      same := fun hzero => ?_
      logged := hlogged
      permitted := hpermitted
      since := hsince
      log := fun _ => ?_
      oldLog := fun hs => by cases hs }
  -- Only the meta in shared memory is new, and it carries the same header fields.
  · have hold := h.pages
    rw [hfile]
    exact ⟨hold.first, hold.second,
      ⟨hold.shared.sign, hold.shared.pageSize, hold.shared.minVersion⟩, hold.firstComplete,
      hold.secondComplete⟩
  · rw [hfile]
    exact h.newest
  -- The pages after the event are one version more that a crash may leave behind.
  · intro v hv p hp
    rcases List.mem_cons.1 hv with rfl | hv
    · exact hkept.kept.pages p hp
    · rw [himage] at hp
      rw [hpages]
      exact h.versions v hv p hp
  · rw [htxid, h.txid, hsavedInfo, hcommits, Nat.add_assoc]
  -- Without a commit since the checkpoint the shared meta is still the saved one.
  · have hzero : commitsOf (addEvent d.since e) = 0 := hzero
    rw [hsavedInfo, hsame (by omega)]
    exact h.same (by omega)
  · rw [hsavedInfo, runLog_addEvent, h.log hsaved]

/-- A checkpoint. -/
theorem Serves.checkpoint (hmode : env.mode = .kWal) (hpair : kPagePairSize ≤ env.pageSize)
    (h : s.Serves env d) (hsaved : s.saved = false) (hsupplied : s.Supplied env (.call e))
    (hclient : d.store.Permits env.pageSize e) (hsaves : e.checkpoints = true)
    (ha : d.store.step e = some a) (hserves : t.Serves env a)
    (hstep : s.manager.step env e = some t) :
    (Logged.mk t (s.log ++ e.records) [t.pager.pages] true).Serves env ⟨a, a.committed, []⟩ := by
  have hsound := h.serves.isolating.sound
  have hret : s.manager.Returns env e := hsupplied.1.1
  obtain ⟨hfile, himage, hpersisted, hidle⟩ :=
    Manager.checkpoint_step hmode hpair hsound hret hsaves hstep
  obtain ⟨htxid, hsame, hgrown⟩ := Manager.shared_step hpair hsound hret hstep
  have hagree := h.serves.saved_checkpoint hpair hret hsaves hstep
  have hinfo : t.file.saved.info = t.shared := congrArg Image.info himage
  have hge : 2 ≤ t.shared.pageCount := Nat.le_trans h.ge hgrown
  -- `Opens` asks for a transaction id above that of a new file, and commits only raise it.
  have hpositive : 0 < t.shared.txid := by
    have hold := h.opens.positive
    have hshared := h.txid
    have hinfo : s.manager.savedImage.info = s.manager.file.saved.info := rfl
    rw [hinfo] at hold
    omega
  have hopens : t.savedImage.Opens env a.committed :=
    himage ▸ (hserves.opens hge hpositive).congr hagree
  have hkept : t.savedImage.Kept env t :=
    himage ▸ (hserves.isolating.retains t.shared (.inr rfl)).kept.congr hagree
  obtain ⟨hlogged, hpermitted, hsince⟩ := h.since_step hclient ha
  have hcommits := commitsOf_addEvent d.since e
  have hsum : t.shared.txid = s.manager.file.saved.info.txid + commitsOf (addEvent d.since e) := by
    rw [htxid, h.txid, hcommits, Nat.add_assoc]
  have hworking : a.working = none := hserves.idle hidle
  refine
    { serves := hserves
      pages := ?_
      newest := ?_
      opens := hopens
      kept := ⟨hopens.ok, hkept, ?_⟩
      versions := ?_
      ge := hge
      txid := ?_
      same := fun _ => hinfo.symm
      logged := fun e he => by cases he
      permitted := trivial
      since := ?_
      log := fun hs => by cases hs
      oldLog := fun _ =>
        ⟨rfl, s.manager.file.saved.info.txid, addEvent d.since e, ?_, hlogged, ?_⟩ }
  · have hold := h.pages
    rw [hfile]
    exact WalDb.PagesOk.save
      ⟨hold.first, hold.second, ⟨hold.shared.sign, hold.shared.pageSize, hold.shared.minVersion⟩,
      hold.firstComplete, hold.secondComplete⟩
  · rw [hfile]
    have hnewest : (Meta.reset t.shared s.manager.file).Newest := h.newest
    refine hnewest.save ?_ fun heq => ?_
    · show s.manager.file.saved.info.txid ≤ t.shared.txid
      omega
    · have heq : s.manager.file.saved.info.txid = t.shared.txid := heq
      show t.shared = s.manager.file.saved.info
      rw [hsame (by omega)]
      exact h.same (by omega)
  · rw [hinfo, hpersisted]
  -- The checkpoint has synced the pages: a crash can leave no others behind.
  · intro v hv p hp
    obtain rfl := List.mem_singleton.1 hv
    exact hkept.pages p hp
  · rw [hinfo]
    rfl
  · show some (SnapshotStore.opened a.committed) = some (SnapshotStore.mk a.committed a.working [])
    rw [hworking]
    rfl
  · rw [runLog_addEvent, h.log hsaved]
  · rw [hinfo]
    -- An old log is skipped for its transaction id; without a commit the ids are equal, and it
    -- replays to the same contents.
    by_cases hzero : commitsOf (addEvent d.since e) = 0
    · have hcommitted : a.committed = d.saved := SnapshotStore.committed_of_run hzero hsince
      rw [hcommitted]
      exact .inr ⟨by omega, hzero, hpermitted, _, hsince⟩
    · exact .inl (by omega)

/-- The log of the next epoch. -/
theorem Serves.resetLog (h : s.Serves env d) (hsaved : s.saved = true) : Logged.Serves env
      { s with log := Logger.appendWalTxIdLog s.manager.shared.txid, saved := false } d := by
  obtain ⟨hsince, -⟩ := h.oldLog hsaved
  have htxid := h.txid
  rw [hsince] at htxid
  refine ⟨h.serves, h.pages, h.newest, h.opens, h.kept, h.versions, h.ge, h.txid, h.same, h.logged,
    h.permitted, h.since, fun _ => ?_, fun hs => by cases hs⟩
  show Logger.appendWalTxIdLog s.manager.shared.txid = _
  rw [hsince, htxid]
  rfl

/-- Every event. -/
theorem Serves.step (ok : env.reader.Ok) (hmode : env.mode = .kWal) (h : s.Serves env d)
    {e : LoggedEvent} (hsupplied : s.Supplied env e) (hclient : d.Permits env.pageSize e)
    (hstep : Logged.step env s e = some s') : ∃ d', d.step e = some d' ∧ s'.Serves env d' := by
  have hmin : 256 ≤ env.pageSize := ok.pageSize.min
  have hpair : kPagePairSize ≤ env.pageSize := Nat.le_trans (by decide) hmin
  have hpos : 0 < env.pageSize := Nat.lt_of_lt_of_le (by decide) hmin
  cases e with
  | resetLog =>
    unfold Logged.step at hstep
    simp only at hstep
    split_ifs at hstep with hsaved
    obtain rfl := Option.some.inj hstep
    exact ⟨d, rfl, h.resetLog hsaved⟩
  | call e =>
    unfold Logged.step at hstep
    simp only at hstep
    split_ifs at hstep with hsaved
    obtain ⟨t, ht, rfl⟩ := Option.map_eq_some_iff.1 hstep
    have hsaved : s.saved = false := Bool.not_eq_true _ ▸ hsaved
    have hstands := hsupplied.1
    have hnone := hsupplied.2.1
    have hsound := h.serves.isolating.sound
    -- The store in memory makes the same step; no page of a version in use is exempt from copying.
    obtain ⟨⟨a, ha, hserves⟩, -⟩ := h.serves.step ok hstands.1 hstands.2 hclient
      (fun he info huse => (h.serves.isolating.retains info huse).mustCopy_of_noneExempt
        huse (he ▸ hnone)) ht
    have hcalled : d.step (.call e) =
        some
          (if e.checkpoints then ⟨a, a.committed, []⟩ else ⟨a, d.saved, addEvent d.since e⟩) := by
      unfold DurableStore.step
      simp only [ha]
      rfl
    rw [hcalled]
    -- A checkpoint starts a new epoch of the log, and the current meta page says that it was made.
    cases hsaves : e.checkpoints with
    | false =>
      have hfile := (Manager.unsaved_step hmode hpair hsound hstands.1 hsaves ht).1
      have hcur : t.file.curMetaIndex = s.manager.file.curMetaIndex := by
        rw [hfile]
        rfl
      rw [if_pos hcur]
      exact ⟨_, rfl, h.quiet hmode hpair hpos hsaved hsupplied hclient hsaves ha hserves ht⟩
    | true =>
      have hfile := (Manager.checkpoint_step hmode hpair hsound hstands.1 hsaves ht).1
      have hcur : t.file.curMetaIndex ≠ s.manager.file.curMetaIndex := by
        rw [hfile]
        exact Manager.curMetaIndex_save_switch env.metaEnv (Meta.reset t.shared s.manager.file)
      rw [if_neg hcur]
      exact ⟨_, rfl, h.checkpoint hmode hpair hsaved hsupplied hclient hsaves ha hserves ht⟩

/-! ## The crash -/

theorem length_le_runLog {w : ℕ} {es : List ManagerEvent} (hes : ∀ e ∈ es, e.logCall.isSome) :
    es.length ≤ (runLog w es).length := by
  induction es with
  | nil => exact Nat.zero_le _
  | cons e es ih =>
    obtain ⟨he, hes⟩ := List.forall_mem_cons.1 hes
    have hpos : 0 < e.records.length := by
      obtain ⟨c, hc⟩ := Option.isSome_iff_exists.1 he
      have hrecords := (written_logCall hc).records_pos
      unfold ManagerEvent.records
      rw [hc]
      simpa using hrecords
    have hrest := ih hes
    unfold runLog at hrest ⊢
    rw [List.flatMap_cons, List.length_append, List.length_append, List.length_cons]
    rw [List.length_append] at hrest
    omega

/-- All events survive with all records. -/
theorem survivingEvents_all {es : List ManagerEvent} :
    ∀ {n : ℕ}, (es.flatMap ManagerEvent.records).length ≤ n → survivingEvents n es = es := by
  induction es with
  | nil =>
    intro n _
    rfl
  | cons e es ih =>
    intro n hn
    rw [List.flatMap_cons, List.length_append] at hn
    rw [survivingEvents, if_pos (by omega), ih (by omega)]

/-- Nothing that was committed is lost when the whole log is left. -/
theorem Serves.afterCrash_all (h : s.Serves env d) {n : ℕ} (hn : s.log.length ≤ n) :
    d.afterCrash n = some d.store.committed := by
  have hall : survivingEvents (n - 1) d.since = d.since := by
    cases hsaved : s.saved with
    | true =>
      rw [(h.oldLog hsaved).1]
      rfl
    | false =>
      apply survivingEvents_all
      rw [h.log hsaved] at hn
      have hone : (Logger.appendWalTxIdLog s.manager.file.saved.info.txid).length = 1 := rfl
      unfold runLog at hn
      rw [List.length_append, hone] at hn
      omega
  unfold DurableStore.afterCrash
  rw [hall, h.since]
  rfl

/-- What may be in the file has the saved version. -/
theorem Serves.left {disk : Nat → Page} (h : s.Serves env d) (hleaves : s.Leaves env disk) :
    s.manager.savedImage.Left env disk := by
  refine ⟨fun p hp => ?_, hleaves.other⟩
  obtain ⟨v, hv, hdisk⟩ := hleaves.held p hp
  exact hdisk.trans (h.versions v hv p hp)

/-- What `DB::Open` recovers. -/
theorem Serves.recover {disk : Nat → Page} {file : MetaFile} (ok : env.reader.Ok)
    (hmode : env.mode = .kWal) (h : s.Serves env d) (hleaves : s.Leaves env disk)
    (hfile : file.shared.info = s.manager.file.saved.info)
    (hpages : s.manager.file.saved.info.pageCount + s.log.length * callRoom ≤ kPageMaxCount)
    (hids : s.manager.file.saved.info.txid + s.log.length < kTxInvalidId) (n : ℕ) :
    ∃ r t m', (Recovering.start file.shared.info ⟨disk, [], [], []⟩).recover env.recovery
      (s.log.take n) = .ok r ∧ d.afterCrash n = some m' ∧ r.OpenedAs file t ∧ t.IsStore env m' := by
  have hleft := h.left hleaves
  have hmax : kTxInvalidId = 18446744073709551615 := rfl
  have hfits : ∀ {es : List ManagerEvent} {w : ℕ}, (∀ e ∈ es, e.logCall.isSome) →
      s.log = runLog w es →
      s.manager.file.saved.info.pageCount + es.length * callRoom ≤ kPageMaxCount ∧
        s.manager.file.saved.info.txid + es.length < kTxInvalidId := by
    intro es w hes hlog
    have hlength : es.length ≤ s.log.length := hlog ▸ length_le_runLog hes
    exact ⟨Nat.le_trans (Nat.add_le_add_left (Nat.mul_le_mul_right _ hlength) _) hpages, by omega⟩
  have htxid : s.manager.file.saved.info.txid < 18446744073709551616 := by omega
  have hcurrent : ¬ s.manager.file.saved.info.txid < s.manager.savedImage.info.txid :=
    Nat.lt_irrefl _
  rw [hfile]
  cases hsaved : s.saved with
  | false =>
    have hlog := h.log hsaved
    obtain ⟨hpages', hids'⟩ := hfits h.logged hlog
    obtain ⟨r, t, b, hr, hb, hopened, hstore⟩ :=
      recover_restores (V := s.manager.savedImage) ok hmode htxid h.opens
      hleft hfile h.permitted h.since hpages' hids' n
    rw [if_neg hcurrent] at hb
    refine ⟨r, t, b.committed, hlog ▸ hr, ?_, hopened, hstore⟩
    unfold DurableStore.afterCrash
    rw [hb]
    rfl
  | true =>
    obtain ⟨hsince, w, es, hlog, hlogged, hold⟩ := h.oldLog hsaved
    have hafter : d.afterCrash n = some d.saved := by
      unfold DurableStore.afterCrash
      rw [hsince]
      rfl
    rcases hold with hlt | ⟨rfl, hzero, hclient, a', hrun⟩
    · obtain ⟨r, t, hr, hopened, hstore⟩ :=
        recover_old (V := s.manager.savedImage) ok h.opens hleft hfile hlt es n
      exact ⟨r, t, d.saved, hlog ▸ hr, hafter, hopened, hstore⟩
    · -- nothing was committed since that log was begun
      obtain ⟨hpages', hids'⟩ := hfits hlogged hlog
      obtain ⟨r, t, b, hr, hb, hopened, hstore⟩ :=
        recover_restores (V := s.manager.savedImage) ok hmode htxid h.opens
        hleft hfile hclient hrun hpages' hids' n
      rw [if_neg hcurrent] at hb
      have hnone : commitsOf (survivingEvents (n - 1) es) = 0 := by
        obtain ⟨rest, hrest⟩ := survivingEvents_prefix es (n - 1)
        rw [← hrest, commitsOf_append] at hzero
        omega
      have hsame : b.committed = d.saved := SnapshotStore.committed_of_run hnone hb
      exact ⟨r, t, d.saved, hlog ▸ hr, hafter, hopened, hsame ▸ hstore⟩

/-! ## Runs -/

/-- A database that `DB::Open` has found without a log. -/
theorem opened_serves {V : Image} {f file : MetaFile} {disk : Nat → Page} {m : Dictionary}
    (hpages : WalDb.PagesOk env.metaEnv f) (hload : Meta.load env.metaEnv f = .ok file)
    (hopens : V.Opens env m) (hleft : V.Left env disk) (hfile : file.shared.info = V.info) :
    (Logged.opened file ⟨disk, [], [], []⟩).Serves env (.opened m) := by
  obtain ⟨hnewest, hsaved, hpages'⟩ := MetaFile.newest_of_load hpages hload
  have hbegins := hopens.begins hleft hfile
  obtain ⟨info, old⟩ := V
  obtain rfl : file.shared.info = info := hfile
  let t : Manager := Manager.reopened file ⟨disk, [], [], []⟩
  have himage : t.savedImage = ⟨file.shared.info, disk⟩ := by
    show Image.mk file.saved.info disk = _
    rw [hsaved]
  have hnow := hopens.congr hleft.held
  have hkept : t.savedImage.Kept env t := himage ▸ hbegins.toOpened.kept hbegins.stored.toInFile
  refine
    { serves := hbegins.serves
      pages := hpages'
      newest := hnewest
      opens := himage ▸ hnow
      kept := ⟨himage ▸ hnow.ok, hkept, ?_⟩
      versions := fun v hv p _ => ?_
      ge := hopens.ge
      txid := congrArg MetaInfo.txid hsaved.symm
      same := fun _ => hsaved.symm
      logged := fun e he => by cases he
      permitted := trivial
      since := rfl
      log := fun _ => ?_
      oldLog := fun hs => by cases hs }
  · have hvalid : file.shared.info.txid < kTxInvalidId := hopens.valid
    show file.saved.info.txid ≤ kTxInvalidId
    rw [hsaved]
    exact hvalid.le
  -- the opened pages are the only version since the sync
  · obtain rfl := List.mem_singleton.1 hv
    rfl
  -- the log has its WalTxId record and no call
  · show Logger.appendWalTxIdLog file.shared.info.txid = runLog file.saved.info.txid []
    rw [hsaved]
    rfl

/-- **Durability.** A database in the mode kWal is opened without a log and runs, with checkpoints,
until it is killed. Whatever is left of the log, and whatever was written of the pages, `DB::Open`
finds the meta of the last checkpoint and recovers what the surviving records have committed since,
and all that was committed when no record is lost. -/
theorem crash_recovers {V : Image} {f file : MetaFile} {disk₀ disk : Nat → Page} {m : Dictionary}
    {es : List LoggedEvent} (ok : env.reader.Ok) (hmode : env.mode = .kWal)
    (hmetas : WalDb.PagesOk env.metaEnv f) (hload : Meta.load env.metaEnv f = .ok file)
    (hopens : V.Opens env m) (hleft : V.Left env disk₀) (hfile : file.shared.info = V.info)
    (halong : Steps.Along (Logged.step env) (Supplied env) (.opened file ⟨disk₀, [], [], []⟩) es)
    (hclient : Steps.Along DurableStore.step (DurableStore.Permits env.pageSize) (.opened m) es)
    (hrun : Steps.run (Logged.step env) (.opened file ⟨disk₀, [], [], []⟩) es = some s)
    (hleaves : s.Leaves env disk)
    (hpages : s.manager.file.saved.info.pageCount + s.log.length * callRoom ≤ kPageMaxCount)
    (hids : s.manager.file.saved.info.txid + s.log.length < kTxInvalidId) (n : ℕ) :
    ∃ d file' r t m', Steps.run DurableStore.step (.opened m) es = some d ∧
      Meta.load env.metaEnv s.manager.file = .ok file' ∧
      (Recovering.start file'.shared.info ⟨disk, [], [], []⟩).recover env.recovery (s.log.take n) =
        .ok r ∧
      d.afterCrash n = some m' ∧ (s.log.length ≤ n → m' = d.store.committed) ∧ r.OpenedAs file' t ∧
      t.IsStore env m' := by
  have hnext : ∀ s d e s', Logged.Serves env s d → Supplied env s e →
      DurableStore.Permits env.pageSize d e → Logged.step env s e = some s' →
        ∃ d', DurableStore.step d e = some d' ∧ Logged.Serves env s' d' :=
    fun s d e s' h hsupplied hpermits hs' => h.step ok hmode hsupplied hpermits hs'
  obtain ⟨d, hd, hserves⟩ :=
    Steps.simulates hnext (opened_serves hmetas hload hopens hleft hfile) halong hclient hrun
  obtain ⟨file', hload', hinfo⟩ := hserves.newest.load hserves.pages
  obtain ⟨r, t, m', hr, hm', hopened, hstore⟩ :=
    hserves.recover ok hmode hleaves hinfo hpages hids n
  refine ⟨d, file', r, t, m', hd, hload', hr, hm', fun hn => ?_, hopened, hstore⟩
  exact Option.some.inj (hm'.symm.trans (hserves.afterCrash_all hn))

/-! ## A view that pins the checkpoint -/

/-- There is a view that is not younger than the last checkpoint. -/
def Pinned (env : ManagerEnv) (s : Logged) : LoggedEvent → Prop
  | .call e => s.manager.Supplied env e ∧ s.manager.oldestViewTxid ≤ s.manager.persistedTxid + 1 ∧
      s.manager.oldestViewTxid ≤ s.manager.file.saved.info.txid + 1
  | .resetLog => True

instance (s : Logged) (e : LoggedEvent) : Decidable (s.Pinned env e) :=
  match e with
  | .call _ => inferInstanceAs (Decidable (_ ∧ _ ∧ _))
  | .resetLog => inferInstanceAs (Decidable True)

/-- Then nothing is exempt from copying, and no run that an Update releases was freed after
the checkpoint. -/
theorem Pinned.supplied {e : LoggedEvent} (h : s.Pinned env e) : s.Supplied env e := by
  cases e with
  | resetLog => trivial
  | call e =>
    obtain ⟨hsupplied, hpersisted, hsaved⟩ := h
    refine ⟨hsupplied, Manager.noneExempt_of_le hpersisted e, fun _ e' _ hnew hdue p _ => ?_⟩
    omega

/-- A crash leaves some file. -/
theorem Leaves.exists {v : Nat → Page} (hv : v ∈ s.versions) : ∃ disk, s.Leaves env disk := by
  classical
  refine ⟨fun p => if s.manager.savedImage.Holds env.pageSize p then v p else .raw [],
    fun p hp => ⟨v, hv, if_pos hp⟩, fun p hp => ⟨[], if_neg hp⟩⟩

end Logged

instance (P : ℕ) (d : DurableStore) (e : LoggedEvent) : Decidable (d.Permits P e) :=
  match e with
  | .call e => inferInstanceAs (Decidable (d.store.Permits P e))
  | .resetLog => inferInstanceAs (Decidable True)

/-- A new file, as it is opened the next time. -/
def loadedFile : MetaFile :=
  let blank : MetaStruct := ⟨0, 0, 0, Meta.initInfo 0, 0⟩
  let file := Meta.init (Manager.smallManager .kWal).metaEnv ⟨blank, blank, blank, 0⟩
  { file with curMetaIndex := 0, shared := file.first }

def emptyLogged : Logged := .opened loadedFile ⟨fun _ => .raw [], [], [], []⟩

/-- A checkpoint, a commit, and a transaction that is open when the process is killed. -/
def killedRun : List LoggedEvent :=
  Manager.growMapping.map .call ++
    [.call .view, .call .update, .call (.put [1] [2]), .call (.commit true Faults.none),
    .resetLog, .call .update, .call (.put [3] [4]), .call (.commit false Faults.none),
      .call .update,
    .call (.put [1] [6])]

theorem crash_recovers_killedRun : ∃ s disk,
    Steps.run (Logged.step (Manager.smallManager .kWal)) emptyLogged killedRun = some s ∧
      s.Leaves (Manager.smallManager .kWal) disk ∧ ∃ d file' r t m',
        Steps.run DurableStore.step (.opened fun _ => none) killedRun = some d ∧
          Meta.load (Manager.smallManager .kWal).metaEnv s.manager.file = .ok file' ∧
          (Recovering.start file'.shared.info ⟨disk, [], [], []⟩).recover
            (Manager.smallManager .kWal).recovery (s.log.take 9) = .ok r ∧
          d.afterCrash 9 = some m' ∧ (s.log.length ≤ 9 → m' = d.store.committed) ∧
          r.OpenedAs file' t ∧
            t.IsStore (Manager.smallManager .kWal) m' := by
  have hrun : (Steps.run (Logged.step (Manager.smallManager .kWal)) emptyLogged killedRun).map
      (fun s =>
      (decide (s.manager.file.saved.info.pageCount + s.log.length * callRoom ≤ kPageMaxCount),
        decide (s.manager.file.saved.info.txid + s.log.length < kTxInvalidId), s.versions.length)) =
          some (true, true, 6) := by decide +kernel
  obtain ⟨s, hs, hfacts⟩ := Option.map_eq_some_iff.1 hrun
  obtain ⟨hpages, hrest⟩ := Prod.mk.inj hfacts
  obtain ⟨hids, hversions⟩ := Prod.mk.inj hrest
  obtain ⟨v, hv⟩ := List.exists_mem_of_length_pos (hversions ▸ (by decide : 0 < 6))
  obtain ⟨disk, hleaves⟩ : ∃ disk, s.Leaves (Manager.smallManager .kWal) disk :=
    Logged.Leaves.exists hv
  have hmetas : WalDb.PagesOk (Manager.smallManager .kWal).metaEnv loadedFile :=
    ⟨⟨rfl, rfl, rfl⟩, ⟨rfl, rfl, rfl⟩, ⟨rfl, rfl, rfl⟩, rfl, rfl⟩
  have hopens : (⟨loadedFile.shared.info, fun _ => .raw []⟩ : Image).Opens
      (Manager.smallManager .kWal) fun _ => none :=
    Image.opens_empty (Manager.smallManager_ok _) rfl rfl (by decide) (by decide)
      (by decide) (by decide)
  have hleft : (⟨loadedFile.shared.info, fun _ => .raw []⟩ : Image).Left
      (Manager.smallManager .kWal) fun _ => .raw [] :=
    ⟨fun p hp => absurd hp (Manager.not_holds rfl), fun p _ => ⟨[], rfl⟩⟩
  have halong : Steps.Along (Logged.step (Manager.smallManager .kWal))
      (Logged.Pinned (Manager.smallManager .kWal)) emptyLogged killedRun := by decide +kernel
  exact ⟨s, disk, hs, hleaves, Logged.crash_recovers (Manager.smallManager_ok _) rfl hmetas rfl
    hopens hleft rfl (halong.imp fun s e h => h.supplied) (by decide +kernel) hs hleaves
      (of_decide_eq_true hpages)
    (of_decide_eq_true hids) 9⟩

end AtomKV
