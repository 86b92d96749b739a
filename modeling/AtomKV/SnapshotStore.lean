import AtomKV.InPlaceIsolation
import AtomKV.WalIsolation
import AtomKV.Lib.Simulation
import AtomKV.Tallies
import AtomKV.WriterTree

/-!
# The database as a store with snapshots

What the database is for: a committed dictionary, a writer that works on a copy of it and publishes
or drops the copy, and views that keep the dictionary as it was when they were opened.
`SnapshotStore` is this machine, in the same events as the transaction manager. `Serves` relates
the two, and every event keeps it, for slim records and as long as every Update must copy the
versions in use.
-/

set_option autoImplicit false

namespace AtomKV

/-! ## The abstract machine -/

structure SnapshotStore where
  committed : Dictionary
  /-- What the open write transaction works on. -/
  working : Option Dictionary
  views : List Dictionary

namespace SnapshotStore

/-- The store when the database has been opened. -/
def opened (m : Dictionary) : SnapshotStore := ⟨m, none, []⟩

/-- An event; the arguments that say how a Commit or a RollBack goes do not matter. -/
def step (a : SnapshotStore) : ManagerEvent → Option SnapshotStore
  | .update => if a.working.isSome then none else some { a with working := some a.committed }
  | .put key value => a.working.map fun m =>
    { a with working := some (Function.update m key (some (value, false))) }
  | .delete key => a.working.map fun m => { a with working := some (Function.update m key none) }
  | .commit _ _ => a.working.map fun m => { a with committed := m, working := none }
  | .rollBack _ _ => a.working.map fun _ => { a with working := none }
  | .view => some { a with views := a.views ++ [a.committed] }
  | .closeView i => if i < a.views.length then some { a with views := a.views.eraseIdx i } else none

/-- What the writer may do: a slim record, over an old one only a value that is not longer, and no
delete of a bucket. -/
def Permits (P : ℕ) (a : SnapshotStore) : ManagerEvent → Prop
  | .put key value => ∀ m ∈ a.working, m.Accepts P key value false
  | .delete key => ∀ m ∈ a.working, m.Releases key
  | _ => True

instance (P : ℕ) (a : SnapshotStore) (e : ManagerEvent) : Decidable (a.Permits P e) :=
  match e with
  | .put key value => inferInstanceAs (Decidable (∀ m ∈ a.working, m.Accepts P key value false))
  | .delete key => inferInstanceAs (Decidable (∀ m ∈ a.working, m.Releases key))
  | .update => inferInstanceAs (Decidable True)
  | .commit _ _ => inferInstanceAs (Decidable True)
  | .rollBack _ _ => inferInstanceAs (Decidable True)
  | .view => inferInstanceAs (Decidable True)
  | .closeView _ => inferInstanceAs (Decidable True)

end SnapshotStore


namespace Manager

variable {env : ManagerEnv} {s s' s₀ : Manager} {info : MetaInfo} {m : Dictionary}
  {a : SnapshotStore} {e : ManagerEvent} {es : List ManagerEvent}

/-! ## The two machines -/

/-- The transaction works on a tree that stands for the dictionary. -/
def Works (env : ManagerEnv) (s : Manager) (info : MetaInfo) (m : Dictionary) : Prop :=
  ∃ Γ : Scope, Γ.env = env.tx s ∧ HoldsMap Γ 0 m 0 (s.txState info)

/-- The version of a view is the dictionary. -/
def Keeps (env : ManagerEnv) (s : Manager) (info : MetaInfo) (m : Dictionary) : Prop :=
  m.Lists ((s.image info).records env.pageSize)

/-- The manager is in a state of the store. -/
structure Serves (env : ManagerEnv) (s : Manager) (a : SnapshotStore) : Prop where
  isolating : s.Isolating env
  tallied : s.Tallied
  committed : (s.image s.shared).Stands env a.committed
  working : Option.Rel (s.Works env) s.updateTx a.working
  count : a.views.length = s.views.length
  views : ∀ (i : Nat) info m, s.views[i]? = some info → a.views[i]? = some m → s.Keeps env info m

/-- A call of the writer finds room in the file. -/
def HasRoom (s : Manager) : ManagerEvent → Prop
  | .put _ _ => ∀ info, s.updateTx = some info → info.pageCount + callRoom ≤ kPageMaxCount
  | .delete _ => ∀ info, s.updateTx = some info → info.pageCount + callRoom ≤ kPageMaxCount
  | _ => True

/-- What the calls of the writer return. -/
def Answers (env : ManagerEnv) (s : Manager) (a : SnapshotStore) : ManagerEvent → Prop
  | .put key value => ∀ info, s.updateTx = some info →
      (BTree.put (env.tx s) key value false (s.txState info)).1 = .ok ()
  | .delete key => ∀ info m, s.updateTx = some info → a.working = some m →
      (BTree.delete (env.tx s) key (s.txState info)).1 = .ok (m key).isSome
  | _ => True

/-- The writer and the store have a transaction, or neither has. -/
theorem Serves.idle (h : s.Serves env a) (hidle : s.updateTx = none) : a.working = none := by
  have hworking := h.working
  rw [hidle] at hworking
  cases hm : a.working with
  | none => rfl
  | some m =>
    rw [hm] at hworking
    cases hworking

theorem Serves.works (h : s.Serves env a) (htx : s.updateTx = some info) :
    ∃ m, a.working = some m ∧ s.Works env info m := by
  have hworking := h.working
  rw [htx] at hworking
  cases hm : a.working with
  | none =>
    rw [hm] at hworking
    cases hworking
  | some m =>
    rw [hm] at hworking
    cases hworking with
    | some hworks => exact ⟨m, rfl, hworks⟩

/-- The versions of the views stay. -/
theorem Serves.views_step (hpair : kPagePairSize ≤ env.pageSize) (h : s.Serves env a)
    (hret : s.Returns env e) (hstep : step env s e = some s') (i : Nat) (info : MetaInfo)
    (m : Dictionary) (hi : s.views[i]? = some info)
    (hm : a.views[i]? = some m) : s'.Keeps env info m := by
  have hsound := h.isolating.sound
  have himage := image_step hpair hsound hret (hsound.older info (List.mem_of_getElem? hi)) hstep
  have hkeeps := h.views i info m hi hm
  unfold Keeps at hkeeps ⊢
  rw [himage]
  exact hkeeps

/-- What is committed is tidy. -/
theorem Serves.commitsTree (ok : env.reader.Ok) (h : s.Serves env a) (e : ManagerEvent) :
    s.CommitsTree env e := by
  cases e with
  | commit checkpointNeeded faults =>
    intro info htx
    obtain ⟨m, -, Γ, henv, hmap⟩ := h.works htx
    exact (hmap.commits ok henv).1
  | update => trivial
  | put key value => trivial
  | delete key => trivial
  | rollBack checkpointNeeded faults => trivial
  | view => trivial
  | closeView i => trivial

/-! ## Update -/

theorem Serves.begins (ok : env.reader.Ok) (h : s.Serves env a) (hstep : s.update = some s')
    (hiso : s'.Isolating env) (htallied : s'.Tallied) (htx : s'.updateTx = some info) :
      s'.Works env info a.committed := by
  have hsound := h.isolating.sound
  have hothers := hsound.othersPending_begun hstep
  have hpending := fun e (he : e ∈ s'.pager.pendingMap) => hsound.pending_begun hstep he
  obtain ⟨t, hshows, hfull, hslim, hm, hpages⟩ := h.committed
  obtain ⟨hidle, -, rfl⟩ := update_eq_some hstep
  obtain rfl := Option.some.inj htx
  have hkept := (hiso.retains s.shared (.inr rfl)).kept
  -- the version is in the file, under the meta of the transaction
  have hkept' : Shows env.reader t ⟨s.pager.release (s.oldestViewTxid - 1),
      { s.shared with txid := s.shared.txid + 1 }, s.shared.userRoot⟩ :=
        hshows.congr rfl hkept.pages
  have hnow : Shows (env.tx { s with
        updateTx := some { s.shared with txid := s.shared.txid + 1 }
        minViewTxid := s.oldestViewTxid
        pager := s.pager.release (s.oldestViewTxid - 1) }) t
      ⟨s.pager.release (s.oldestViewTxid - 1), { s.shared with txid := s.shared.txid + 1 },
        s.shared.userRoot⟩ :=
    hkept'.of_env ⟨ok.pageSize, ok.trans, ok.lawfulEq⟩ rfl rfl
  refine hnow.holdsMap hfull hslim hm (fun p => ?_) ⟨hiso.sound.free, (fun r hr => by cases hr),
    fun e he r hr => ?_, htallied.sorted⟩ htallied.room
  · have hp := htallied.once p
    rw [hothers, drawn_open rfl] at hp
    have htree := hpages p
    show objsCount env.pageSize t.objs p +
      (runsCount (s.pager.release (s.oldestViewTxid - 1)).freeMap p +
      if s.shared.pageCount ≤ p then 1 else 0) +
        Pager.pendingCount (s.pager.release (s.oldestViewTxid - 1)).pendingMap p ≤ _
    have hp : runsCount (s.pager.release (s.oldestViewTxid - 1)).freeMap p + 0 +
      (if s.shared.pageCount ≤ p then 1 else 0) +
        Pager.pendingCount (s.pager.release (s.oldestViewTxid - 1)).pendingMap p ≤
          if 2 ≤ p then 1 else 0 := hp
    rcases Nat.eq_zero_or_pos (objsCount env.pageSize t.objs p) with hnone | hpos
    · omega
    · -- a page of the version is not in the maps
      have hholds : (s.image s.shared).Holds env.pageSize p := hshows.reachable_of_count hpos
      have hfree : runsCount (s.pager.release (s.oldestViewTxid - 1)).freeMap p = 0 :=
        runsCount_of_avoids hkept.free hholds
      have hlt : p < s.shared.pageCount := hkept.inFile p hholds
      have hdue : Pager.pendingCount (s.pager.release (s.oldestViewTxid - 1)).pendingMap p = 0 := by
        rw [← Pager.runsCount_pendingRuns]
        refine runsCount_of_avoids (fun r hr => ?_) hholds
        obtain ⟨e, he, hr⟩ := List.mem_flatMap.1 hr
        exact hkept.pending e he (hpending e he).2 r hr
      rw [hfree, hdue, if_neg (Nat.not_le.2 hlt)]
      exact htree
  · obtain ⟨hmem, hle⟩ := hpending e he
    exact hsound.pending e hmem hle r hr

/-! ## Put and Delete -/

/-- The scope of a transaction whose tree has another root. -/
def withRoot (Γ : Scope) (root : Nat) : Scope :=
  { Γ with txMeta := { Γ.txMeta with userRoot := root } }

/-- The root page moves into the meta. -/
theorem holdsMap_saveRoot {Γ : Scope} {b : ℕ} {u : TxState} (h : HoldsMap Γ b m 0 u) :
    HoldsMap (withRoot Γ u.rootPgid) b m 0
      ⟨u.pager, { u.metaStruct with userRoot := u.rootPgid }, u.rootPgid⟩ := by
  obtain ⟨t, G, hG, hwf, hslim, hm⟩ := h
  have hown := hwf.own
  have hinfo : { u.metaStruct with userRoot := u.rootPgid } =
      { (withRoot Γ u.rootPgid).txMeta with pageCount := u.metaStruct.pageCount } := by
    rw [hown.info]
    rfl
  exact ⟨t, G, hG,
    ⟨⟨hown.rep, hown.count, hown.kept, hown.pending, hown.drawn, hown.freeIn,
      hown.drawnIn, hown.pendingIn,
    hown.sorted, hinfo, hown.grown, hown.room, hown.root⟩, hwf.ordered, hwf.full, hwf.safe⟩,
      hslim, hm⟩

/-- What the transaction works on after a call. -/
theorem works_of_run {α : Type} {x : TxM α} {r : Except Err α} {u : TxState} {Γ : Scope} {b : ℕ}
    (henv : Γ.env = env.tx s) (hrun : x (s.txState info) = (r, u)) (hmap : HoldsMap Γ b m 0 u)
    (htx : s.updateTx = some info) (hstep : s.work x = some s') :
    ∃ info', s'.updateTx = some info' ∧ s'.Works env info' m ∧
      info'.pageCount + b ≤ kPageMaxCount := by
  obtain ⟨info', u', htx', hu, rfl⟩ := work_eq_some hstep
  obtain rfl := Option.some.inj (htx.symm.trans htx')
  rw [hrun] at hu
  obtain rfl : u' = u := hu
  refine ⟨_, rfl,
    ⟨withRoot Γ u'.rootPgid, henv, (holdsMap_saveRoot hmap).room_mono (Nat.zero_le b)⟩, ?_⟩
  obtain ⟨t, G, -, hwf, -, -⟩ := hmap
  exact hwf.own.room

theorem Works.with_room {b : ℕ} (h : s.Works env info m)
    (hroom : info.pageCount + b ≤ kPageMaxCount) :
    ∃ Γ : Scope, Γ.env = env.tx s ∧ HoldsMap Γ b m 0 (s.txState info) := by
  obtain ⟨Γ, henv, t, G, hG, hwf, hrest⟩ := h
  exact ⟨Γ, henv, t, G, hG, hwf.with_room hroom, hrest⟩

theorem Works.put {b : ℕ} {key value : Bytes} (h : s.Works env info m)
    (htx : s.updateTx = some info) (hroom : info.pageCount + (b + callRoom) ≤ kPageMaxCount)
    (haccept : m.Accepts env.pageSize key value false)
    (hstep : s.work (BTree.put (env.tx s) key value false) = some s') :
    (BTree.put (env.tx s) key value false (s.txState info)).1 = .ok () ∧
      ∃ info', s'.updateTx = some info' ∧
        s'.Works env info' (Function.update m key (some (value, false))) ∧
        info'.pageCount + b ≤ kPageMaxCount := by
  obtain ⟨Γ, henv, hmap⟩ := h.with_room hroom
  have hP : Γ.P = env.pageSize := congrArg Env.pageSize henv
  obtain ⟨u, hrun, hend⟩ := hmap.put (show m.Accepts Γ.P key value false from hP ▸ haccept)
  rw [henv] at hrun
  exact ⟨congrArg Prod.fst hrun, works_of_run henv hrun hend htx hstep⟩

theorem Works.delete {b : ℕ} {key : Bytes} (h : s.Works env info m) (htx : s.updateTx = some info)
    (hroom : info.pageCount + (b + callRoom) ≤ kPageMaxCount) (hrelease : m.Releases key)
    (hstep : s.work (BTree.delete (env.tx s) key) = some s') :
    (BTree.delete (env.tx s) key (s.txState info)).1 = .ok (m key).isSome ∧
      ∃ info', s'.updateTx = some info' ∧ s'.Works env info' (Function.update m key none) ∧
        info'.pageCount + b ≤ kPageMaxCount := by
  obtain ⟨Γ, henv, hmap⟩ := h.with_room hroom
  obtain ⟨u, hrun, hend⟩ := hmap.delete hrelease
  rw [henv] at hrun
  exact ⟨congrArg Prod.fst hrun, works_of_run henv hrun hend htx hstep⟩

/-- A call of the writer changes nothing else. -/
theorem Serves.work (hpair : kPagePairSize ≤ env.pageSize) (h : s.Serves env a)
    (hiso : s'.Isolating env) (hret : s.Returns env e) (hevent : step env s e = some s') {α : Type}
    {x : TxM α} (hx : s.Guarding env x) (hstep : s.work x = some s') {m' : Dictionary}
    (hworks : ∃ info', s'.updateTx = some info' ∧ s'.Works env info' m' ∧
      info'.pageCount + 0 ≤ kPageMaxCount) :
    s'.Serves env { a with working := some m' } := by
  have htallied := h.tallied.work h.isolating.sound hx hstep
  have hviews := h.views_step hpair hret hevent
  obtain ⟨info', htx', hworks, -⟩ := hworks
  obtain ⟨info, u, -, -, rfl⟩ := work_eq_some hstep
  refine ⟨hiso, htallied, h.committed, ?_, h.count, hviews⟩
  show Option.Rel _ _ (some m')
  rw [htx']
  exact .some hworks

/-! ## Commit and RollBack -/

theorem Serves.commit {checkpointNeeded : Bool} {faults : Faults} (ok : env.reader.Ok)
    (hpair : kPagePairSize ≤ env.pageSize) (h : s.Serves env a) (hiso : s'.Isolating env)
    (hret : s.Returns env (.commit checkpointNeeded faults))
    (hstep : s.commit env checkpointNeeded faults = some s')
    (hworking : a.working = some m) : s'.Serves env { a with committed := m, working := none } := by
  have hsound := h.isolating.sound
  have hviews := h.views_step hpair hret hstep
  -- the working copy of the machine is what the tree of the transaction stands for
  have hworks : ∀ info, s.updateTx = some info → s.Works env info m := fun info htx => by
    obtain ⟨m', hm', hworks⟩ := h.works htx
    obtain rfl := Option.some.inj (hworking.symm.trans hm')
    exact hworks
  have htallied := h.tallied.commit hpair hsound hret (fun info htx => by
    obtain ⟨Γ, henv, t, G, -, hwf, -⟩ := hworks info htx
    refine ⟨hwf.own.room, fun p => ?_⟩
    have hp := hwf.own.count p
    have hpending : Pager.pendingCount (s.txState info).pager.pendingMap p = Pager.pendingCount
      s.pager.pendingMap p := rfl
    omega) hstep
  obtain ⟨info, file, u, htx, -, heq, hshared, -⟩ := commit_eq_some hpair hsound hret hstep
  obtain ⟨Γ, henv, hmap⟩ := hworks info htx
  have hinfo : s'.shared = info := by
    rw [heq]
    exact hshared
  -- the pages at the commit are kept as the image of the new version
  have himage : s'.image info = ⟨info, s.pager.pages⟩ := by
    rw [heq]
    show Image.mk info (Function.update s.history info.txid s.pager.pages info.txid) = _
    rw [Function.update_self]
  refine ⟨hiso, htallied, ?_, ?_, ?_, ?_⟩
  · rw [hinfo, himage]
    exact (hmap.commits ok henv).2
  · rw [heq]
    exact .none
  · rw [heq]
    exact h.count
  · intro i info' m' hi hm'
    rw [heq] at hi
    exact hviews i info' m' hi hm'

theorem Serves.rollBack {checkpointNeeded : Bool} {faults : Faults}
    (hpair : kPagePairSize ≤ env.pageSize) (h : s.Serves env a) (hiso : s'.Isolating env)
    (hret : s.Returns env (.rollBack checkpointNeeded faults))
    (hstep : s.rollBack env checkpointNeeded faults = some s') :
      s'.Serves env { a with working := none } := by
  have hsound := h.isolating.sound
  have hviews := h.views_step hpair hret hstep
  have htallied := h.tallied.rollBack hpair hsound hret hstep
  have himage := image_step hpair hsound hret (Nat.le_refl s.shared.txid) hstep
  obtain ⟨info, file, u, htx, -, heq, hshared, -⟩ := rollBack_eq_some hpair hsound hret hstep
  have hinfo : s'.shared = s.shared := by
    rw [heq]
    exact hshared
  refine ⟨hiso, htallied, ?_, ?_, ?_, ?_⟩
  · rw [hinfo, himage]
    exact h.committed
  · rw [heq]
    exact .none
  · rw [heq]
    exact h.count
  · intro i info' m' hi hm'
    rw [heq] at hi
    exact hviews i info' m' hi hm'

/-! ## Views -/

theorem Serves.view (h : s.Serves env a) (hiso : s.view.Isolating env) :
    s.view.Serves env { a with views := a.views ++ [a.committed] } := by
  refine ⟨hiso, ⟨h.tallied.once, h.tallied.sorted, h.tallied.room⟩, h.committed, h.working, ?_,
    fun i info m hi hm => ?_⟩
  · show (a.views ++ [a.committed]).length = (s.views ++ [s.shared]).length
    rw [List.length_append, List.length_append, h.count]
    rfl
  · have hi : (s.views ++ [s.shared])[i]? = some info := hi
    have hm : (a.views ++ [a.committed])[i]? = some m := hm
    by_cases hlt : i < s.views.length
    · rw [List.getElem?_append_left hlt] at hi
      rw [List.getElem?_append_left (h.count ▸ hlt)] at hm
      exact h.views i info m hi hm
    · rw [List.getElem?_append_right (Nat.not_lt.1 hlt)] at hi
      rw [List.getElem?_append_right (h.count ▸ Nat.not_lt.1 hlt), h.count] at hm
      obtain rfl := List.mem_singleton.1 (List.mem_of_getElem? hi)
      obtain rfl := List.mem_singleton.1 (List.mem_of_getElem? hm)
      exact h.committed.lists

theorem Serves.closeView {i : Nat} (h : s.Serves env a) (hiso : s'.Isolating env)
    (hstep : s.closeView i = some s') :
    i < a.views.length ∧ s'.Serves env { a with views := a.views.eraseIdx i } := by
  obtain ⟨info, map, hi, -, rfl⟩ := closeView_eq_some hstep
  have hlt : i < s.views.length := (List.getElem?_eq_some_iff.1 hi).1
  have hlt' : i < a.views.length := h.count.symm ▸ hlt
  refine ⟨hlt', hiso, ⟨h.tallied.once, h.tallied.sorted, h.tallied.room⟩, h.committed, h.working,
    ?_, fun j info m hj hm => ?_⟩
  · show (a.views.eraseIdx i).length = (s.views.eraseIdx i).length
    rw [List.length_eraseIdx_of_lt hlt, List.length_eraseIdx_of_lt hlt', h.count]
  · have hj : (s.views.eraseIdx i)[j]? = some info := hj
    have hm : (a.views.eraseIdx i)[j]? = some m := hm
    rw [List.getElem?_eraseIdx] at hj hm
    by_cases hji : j < i
    · rw [if_pos hji] at hj hm
      exact h.views j info m hj hm
    · rw [if_neg hji] at hj hm
      exact h.views (j + 1) info m hj hm

/-! ## Every event -/

theorem Serves.step (ok : env.reader.Ok) (h : s.Serves env a) (hret : s.Returns env e)
    (hroom : s.HasRoom e) (hclient : a.Permits env.pageSize e)
    (hcopied : e = .update → ∀ info, s.InUse info →
      (s.image info).MustCopy (s.nextTx env) (s.shared.txid + 1))
    (hstep : Manager.step env s e = some s') : (∃ a', a.step e = some a' ∧ s'.Serves env a') ∧
    s.Answers env a e := by
  have hmin : 256 ≤ env.pageSize := ok.pageSize.min
  have hpair : kPagePairSize ≤ env.pageSize := Nat.le_trans (by decide) hmin
  have hpos : 0 < env.pageSize := Nat.lt_of_lt_of_le (by decide) hmin
  have hsound := h.isolating.sound
  -- What no event breaks was settled before; here each event is matched with the store's own.
  have hiso := h.isolating.step hpair hpos (h.commitsTree ok e) hret hcopied hstep
  cases e with
  | update =>
    have htallied := h.tallied.update hsound hstep
    have hworks := fun info (htx : s'.updateTx = some info) => h.begins ok hstep hiso htallied htx
    obtain ⟨hidle, -, heq⟩ := update_eq_some hstep
    have hnone := h.idle hidle
    refine ⟨⟨{ a with working := some a.committed }, ?_, hiso, htallied, ?_, ?_, ?_, ?_⟩, trivial⟩
    · unfold SnapshotStore.step
      rw [hnone]
      rfl
    · rw [heq]
      exact h.committed
    · have htx : s'.updateTx = some { s.shared with txid := s.shared.txid + 1 } := by rw [heq]
      rw [htx]
      exact .some (hworks _ htx)
    · rw [heq]
      exact h.count
    · intro i info m hi hm
      refine h.views_step hpair hret (e := .update) hstep i info m ?_ hm
      rw [heq] at hi
      exact hi
  | put key value =>
    obtain ⟨info, -, htx, -, -⟩ := work_eq_some hstep
    obtain ⟨m, hm, hworks⟩ := h.works htx
    -- The event may take the room of one call, and none of it is left over.
    have hroom' : ∀ info, s.updateTx = some info → info.pageCount + (0 + callRoom) ≤
      kPageMaxCount := hroom
    obtain ⟨hanswer, hworks'⟩ := hworks.put htx (b := 0) (hroom' info htx) (hclient m hm) hstep
    refine ⟨⟨{ a with working := some (Function.update m key (some (value, false))) }, ?_, ?_⟩,
      fun info' htx' => ?_⟩
    · unfold SnapshotStore.step
      rw [hm]
      rfl
    · exact h.work hpair hiso hret hstep (guarding_put hpos key value false) hstep hworks'
    · obtain rfl := Option.some.inj (htx.symm.trans htx')
      exact hanswer
  | delete key =>
    obtain ⟨info, -, htx, -, -⟩ := work_eq_some hstep
    obtain ⟨m, hm, hworks⟩ := h.works htx
    have hroom' : ∀ info, s.updateTx = some info → info.pageCount + (0 + callRoom) ≤
      kPageMaxCount := hroom
    obtain ⟨hanswer, hworks'⟩ := hworks.delete htx (b := 0) (hroom' info htx) (hclient m hm) hstep
    refine ⟨⟨{ a with working := some (Function.update m key none) }, ?_, ?_⟩,
      fun info' m' htx' hm' => ?_⟩
    · unfold SnapshotStore.step
      rw [hm]
      rfl
    · exact h.work hpair hiso hret hstep (guarding_delete hpos key) hstep hworks'
    · obtain rfl := Option.some.inj (htx.symm.trans htx')
      obtain rfl := Option.some.inj (hm.symm.trans hm')
      exact hanswer
  | commit checkpointNeeded faults =>
    obtain ⟨info, -, -, htx, -⟩ := commit_eq_some hpair hsound hret hstep
    obtain ⟨m, hm, -⟩ := h.works htx
    refine ⟨⟨{ a with committed := m, working := none }, ?_, h.commit ok hpair hiso hret hstep hm⟩,
      trivial⟩
    unfold SnapshotStore.step
    rw [hm]
    rfl
  | rollBack checkpointNeeded faults =>
    obtain ⟨info, -, -, htx, -⟩ := rollBack_eq_some hpair hsound hret hstep
    obtain ⟨m, hm, -⟩ := h.works htx
    refine ⟨⟨{ a with working := none }, ?_, h.rollBack hpair hiso hret hstep⟩, trivial⟩
    unfold SnapshotStore.step
    rw [hm]
    rfl
  | view =>
    obtain rfl := Option.some.inj hstep
    exact ⟨⟨_, rfl, h.view hiso⟩, trivial⟩
  | closeView i =>
    obtain ⟨hlt, hserves⟩ := h.closeView hiso hstep
    exact ⟨⟨_, if_pos hlt, hserves⟩, trivial⟩

/-! ## Room -/

/-- There are `b` pages left for the committed version, and for the writer. -/
structure HasPages (b : ℕ) (s : Manager) : Prop where
  shared : s.shared.pageCount + b ≤ kPageMaxCount
  writer : ∀ info, s.updateTx = some info → info.pageCount + b ≤ kPageMaxCount

theorem HasPages.hasRoom {b : ℕ} (h : s.HasPages (b + callRoom)) (e : ManagerEvent) :
    s.HasRoom e := by
  have hwriter : ∀ info, s.updateTx = some info → info.pageCount + callRoom ≤ kPageMaxCount :=
    fun info htx =>
    Nat.le_trans (Nat.add_le_add_left (Nat.le_add_left callRoom b) _) (h.writer info htx)
  cases e with
  | put key value => exact hwriter
  | delete key => exact hwriter
  | update => trivial
  | commit checkpointNeeded faults => trivial
  | rollBack checkpointNeeded faults => trivial
  | view => trivial
  | closeView i => trivial

/-- The version of the writer after a call. -/
theorem HasPages.work {b : ℕ} {α : Type} {x : TxM α} (h : s.HasPages (b + callRoom))
    (hstep : s.work x = some s') {m' : Dictionary}
    (hworks : ∃ info', s'.updateTx = some info' ∧ s'.Works env info' m' ∧
      info'.pageCount + b ≤ kPageMaxCount) :
    s'.HasPages b := by
  obtain ⟨info', htx', -, hpages⟩ := hworks
  refine ⟨?_, fun info htx => ?_⟩
  · obtain ⟨info, u, -, -, rfl⟩ := work_eq_some hstep
    exact Nat.le_trans (Nat.add_le_add_left (Nat.le_add_right b callRoom) _) h.shared
  · obtain rfl := Option.some.inj (htx'.symm.trans htx)
    exact hpages

/-- No event takes more pages than a call. -/
theorem HasPages.step {b : ℕ} (hpair : kPagePairSize ≤ env.pageSize)
    (hpages : s.HasPages (b + callRoom)) (h : s.Serves env a) (hret : s.Returns env e)
    (hclient : a.Permits env.pageSize e) (hstep : Manager.step env s e = some s') :
      s'.HasPages b := by
  have hsound := h.isolating.sound
  -- No event but a call of the writer takes a page, so the smaller bound is kept by all others.
  have hless : s.HasPages b :=
    ⟨Nat.le_trans (Nat.add_le_add_left (Nat.le_add_right b callRoom) _) hpages.shared,
    fun info htx => Nat.le_trans (Nat.add_le_add_left (Nat.le_add_right b callRoom) _)
      (hpages.writer info htx)⟩
  cases e with
  | update =>
    obtain ⟨-, -, rfl⟩ := update_eq_some hstep
    refine ⟨hless.shared, fun info htx => ?_⟩
    obtain rfl := Option.some.inj htx
    exact hless.shared
  | put key value =>
    obtain ⟨info, -, htx, -, -⟩ := work_eq_some hstep
    obtain ⟨m, hm, hworks⟩ := h.works htx
    exact hpages.work hstep (hworks.put htx (hpages.writer info htx) (hclient m hm) hstep).2
  | delete key =>
    obtain ⟨info, -, htx, -, -⟩ := work_eq_some hstep
    obtain ⟨m, hm, hworks⟩ := h.works htx
    exact hpages.work hstep (hworks.delete htx (hpages.writer info htx) (hclient m hm) hstep).2
  | commit checkpointNeeded faults =>
    obtain ⟨info, file, u, htx, -, heq, hshared, -⟩ := commit_eq_some hpair hsound hret hstep
    have hinfo : s'.shared = info := by
      rw [heq]
      exact hshared
    refine ⟨hinfo ▸ hless.writer info htx, fun info' htx' => ?_⟩
    rw [heq] at htx'
    cases htx'
  | rollBack checkpointNeeded faults =>
    obtain ⟨info, file, u, htx, -, heq, hshared, -⟩ := rollBack_eq_some hpair hsound hret hstep
    have hinfo : s'.shared = s.shared := by
      rw [heq]
      exact hshared
    refine ⟨hinfo ▸ hless.shared, fun info' htx' => ?_⟩
    rw [heq] at htx'
    cases htx'
  | view =>
    obtain rfl := Option.some.inj hstep
    exact ⟨hless.shared, hless.writer⟩
  | closeView i =>
    obtain ⟨info, map, -, -, rfl⟩ := closeView_eq_some hstep
    exact ⟨hless.shared, hless.writer⟩

/-! ## What the clients see -/

/-- Lookups and iterations under the meta are those of the dictionary. -/
def Sights (e : Env) (s : Manager) (info : MetaInfo) (m : Dictionary) : Prop :=
  ∃ l, m.Lists l ∧ Sees e l (s.txState info)

/-- The clients see what the store says. -/
structure Agrees (env : ManagerEnv) (s : Manager) (a : SnapshotStore) : Prop where
  /-- A view that is opened now. -/
  committed : s.Sights env.reader s.shared a.committed
  working : Option.Rel (s.Sights (env.tx s)) s.updateTx a.working
  count : a.views.length = s.views.length
  views : ∀ (i : Nat) info m, s.views[i]? = some info → a.views[i]? = some m →
    s.Sights env.reader info m

theorem Works.sights (h : s.Works env info m) : s.Sights (env.tx s) info m := by
  obtain ⟨Γ, henv, hmap⟩ := h
  obtain ⟨l, hl, hsees⟩ := hmap.sees
  exact ⟨l, hl, henv ▸ hsees⟩

theorem Serves.agrees (h : s.Serves env a) : s.Agrees env a where
  committed := ⟨_, h.committed.lists, (h.isolating.retains s.shared (.inr rfl)).sees⟩
  working := by
    cases htx : s.updateTx with
    | none =>
      rw [h.idle htx]
      exact .none
    | some info =>
      obtain ⟨m, hm, hworks⟩ := h.works htx
      rw [hm]
      exact .some hworks.sights
  count := h.count
  views := fun i info m hi hm =>
    ⟨_, h.views i info m hi hm, (h.isolating.retains info (.inl (List.mem_of_getElem? hi))).sees⟩

/-! ## Runs -/

/-- The committed version stands for the dictionary, and its file has the two meta pages. -/
structure Begins (env : ManagerEnv) (s : Manager) (m : Dictionary) : Prop extends s.Opened env where
  stands : (s.image s.shared).Stands env m
  ge : 2 ≤ s.shared.pageCount
  room : s.shared.pageCount ≤ kPageMaxCount

theorem Begins.serves (h : s₀.Begins env m) : s₀.Serves env (.opened m) := by
  refine ⟨h.toOpened.isolating, ⟨fun p => ?_, ?_, h.room⟩, h.stands, ?_,
    ?_, fun i info m hi _ => ?_⟩
  · have hge := h.ge
    rw [drawn_idle h.idle, h.toOpened.sound.othersPending_eq h.idle, h.freeMap, h.pendingMap]
    show 0 + 0 + (if s₀.shared.pageCount ≤ p then 1 else 0) + 0 ≤ _
    split_ifs <;> omega
  · rw [h.pendingMap]
    exact List.Pairwise.nil
  · rw [h.idle]
    exact .none
  · rw [h.views]
    rfl
  · rw [h.views] at hi
    cases hi

/-- What is asked of the environment of an event: its callees return, and there is room. -/
def Supplied (env : ManagerEnv) (s : Manager) (e : ManagerEvent) : Prop :=
  s.Returns env e ∧ s.HasRoom e

/-- A run, where the invariant `K` and the condition `C` make every Update copy the versions in use.
-/
theorem run_agrees_of (ok : env.reader.Ok) {K : Manager → Prop} {C : Manager → ManagerEvent → Prop}
    (hsupplied : ∀ s e, C s e → s.Supplied env e)
    (hcopied : ∀ s, s.Isolating env → K s → C s .update → ∀ info, s.InUse info →
      (s.image info).MustCopy (s.nextTx env) (s.shared.txid + 1))
    (hkept : ∀ s e s', s.Isolating env → K s → s.CommitsTree env e → C s e →
      Manager.step env s e = some s' → K s')
    (hserves : s₀.Serves env (.opened m)) (hK : K s₀)
    (halong : Steps.Along (Manager.step env) C s₀ es)
    (hclient : Steps.Along SnapshotStore.step (SnapshotStore.Permits env.pageSize) (.opened m) es)
    (hrun : Steps.run (Manager.step env) s₀ es = some s) :
    (∃ a, Steps.run SnapshotStore.step (.opened m) es = some a ∧ s.Agrees env a) ∧
      ∀ (k : Nat) e, es[k]? = some e → ∃ t b, Steps.run (Manager.step env) s₀ (es.take k) = some t ∧
        Steps.run SnapshotStore.step (.opened m) (es.take k) = some b ∧ t.Agrees env b ∧
        t.Answers env b e := by
  -- one step: the simulation, the invariant `K` that the mode needs, and the answer
  have hstep : ∀ s a e s', s.Serves env a ∧ K s → C s e → a.Permits env.pageSize e →
      Manager.step env s e = some s' → (∃ a', a.step e = some a' ∧ s'.Serves env a' ∧ K s') ∧
        s.Answers env a e := by
    rintro s a e s' ⟨hserves, hkeep⟩ hc hpermits hs'
    obtain ⟨hret, hroom⟩ := hsupplied s e hc
    obtain ⟨⟨a', ha', hserves'⟩, hanswers⟩ := hserves.step ok hret hroom hpermits
      (fun he => hcopied s hserves.isolating hkeep (he ▸ hc)) hs'
    exact ⟨⟨a', ha', hserves',
      hkept s e s' hserves.isolating hkeep (hserves.commitsTree ok e) hc hs'⟩, hanswers⟩
  have hnext := fun s a e s' hR hC hA hs' => (hstep s a e s' hR hC hA hs').1
  have hstart : s₀.Serves env (.opened m) ∧ K s₀ := ⟨hserves, hK⟩
  constructor
  · obtain ⟨a, ha, hend, -⟩ := Steps.simulates hnext hstart halong hclient hrun
    exact ⟨a, ha, hend.agrees⟩
  · intro k e he
    obtain ⟨t, b, ht, hb, ⟨hserves, -⟩, hanswers⟩ :=
      Steps.simulates_each (Q := fun s a e => s.Answers env a e) hnext
      (fun s a e s' hR hC hA hs' => (hstep s a e s' hR hC hA hs').2) hstart halong hclient hrun k he
    exact ⟨t, b, ht, hb, hserves.agrees, hanswers⟩

/-- **The database is a store with snapshots**, in the mode kUpdateInPlace. -/
theorem run_agrees_inPlace (ok : env.reader.Ok) (hmode : env.mode = .kUpdateInPlace)
    (hopen : s₀.OpenedInPlace env) (hbegins : s₀.Begins env m)
    (halong : Steps.Along (Manager.step env) (Supplied env) s₀ es)
    (hclient : Steps.Along SnapshotStore.step (SnapshotStore.Permits env.pageSize) (.opened m) es)
    (hrun : Steps.run (Manager.step env) s₀ es = some s) :
    (∃ a, Steps.run SnapshotStore.step (.opened m) es = some a ∧ s.Agrees env a) ∧
      ∀ (k : Nat) e, es[k]? = some e → ∃ t b, Steps.run (Manager.step env) s₀ (es.take k) = some t ∧
        Steps.run SnapshotStore.step (.opened m) (es.take k) = some b ∧ t.Agrees env b ∧
        t.Answers env b e := by
  have hmin : 256 ≤ env.pageSize := ok.pageSize.min
  have hpair : kPagePairSize ≤ env.pageSize := Nat.le_trans (by decide) hmin
  have hpos : 0 < env.pageSize := Nat.lt_of_lt_of_le (by decide) hmin
  refine run_agrees_of ok (K := Recent env) (fun s e hc => hc)
    (fun s hiso hrecent _ info huse => ?_) (fun s e s' hiso hrecent htree hc hs' => ?_)
      hbegins.serves ?_ halong hclient hrun
  · exact (hiso.retains info huse).mustCopy hiso.sound hrecent.persisted
  · exact hrecent.step hmode hpair hpos hiso htree hc.1 hs'
  · refine ⟨hopen.persisted, fun info hon => ?_, hopen.saved⟩
    exact (hopen.onFile info hon).imp_right fun hand => ⟨hand.1.retains hopen.toOpened, hand.2⟩

/-- From the state on, the manager is a store with snapshots that has `m` committed. -/
def IsStore (env : ManagerEnv) (s₀ : Manager) (m : Dictionary) : Prop :=
  ∀ (es : List ManagerEvent) (s : Manager),
    Steps.Along (Manager.step env) (fun s e => s.Supplied env e ∧ s.NoneExempt env e) s₀ es →
    Steps.Along SnapshotStore.step (SnapshotStore.Permits env.pageSize) (.opened m) es →
    Steps.run (Manager.step env) s₀ es = some s →
    (∃ a, Steps.run SnapshotStore.step (.opened m) es = some a ∧ s.Agrees env a) ∧
      ∀ (k : Nat) e, es[k]? = some e → ∃ t b, Steps.run (Manager.step env) s₀ (es.take k) = some t ∧
        Steps.run SnapshotStore.step (.opened m) (es.take k) = some b ∧
        t.Agrees env b ∧ t.Answers env b e

theorem Serves.isStore (ok : env.reader.Ok) (h : s₀.Serves env (.opened m)) : s₀.IsStore env m := by
  intro es s halong hclient hrun
  refine run_agrees_of ok (K := fun _ => True) (fun s e hc => hc.1)
    (fun s hiso _ hc info huse => ?_) (fun _ _ _ _ _ _ _ _ => trivial) h trivial halong hclient hrun
  exact (hiso.retains info huse).mustCopy_of_noneExempt huse hc.2

/-- **The database is a store with snapshots**, in either mode, as long as no Update finds a page in
a version in use that it may write in place. -/
theorem run_agrees (ok : env.reader.Ok) (hbegins : s₀.Begins env m)
    (halong : Steps.Along (Manager.step env) (fun s e => s.Supplied env e ∧ s.NoneExempt env e)
      s₀ es)
    (hclient : Steps.Along SnapshotStore.step (SnapshotStore.Permits env.pageSize) (.opened m) es)
    (hrun : Steps.run (Manager.step env) s₀ es = some s) :
    (∃ a, Steps.run SnapshotStore.step (.opened m) es = some a ∧ s.Agrees env a) ∧
      ∀ (k : Nat) e, es[k]? = some e → ∃ t b, Steps.run (Manager.step env) s₀ (es.take k) = some t ∧
        Steps.run SnapshotStore.step (.opened m) (es.take k) = some b ∧ t.Agrees env b ∧
        t.Answers env b e :=
  hbegins.serves.isStore ok es s halong hclient hrun

/-! ## A new database -/

instance (P : Nat) (faults : Faults) (s : TxState) : Decidable (CanPersist P faults s) :=
  decidable_of_iff (s.pager.listed < 4294967296 ∧
      ((Pager.allocFromMap (Pager.listPages P s.pager) s.pager.freeMap).isSome ∨
        faults.remmap = false ∧ s.metaStruct.pageCount + Pager.listPages P s.pager < 4294967296) ∧
          faults.sync = false)
    ⟨fun h => ⟨h.1, h.2.1, h.2.2⟩, fun h => ⟨h.few, h.room, h.sync⟩⟩

instance (e : CommitEnv) : Decidable e.Saves := inferInstanceAs (Decidable (_ ∨ _))

instance (e : CommitEnv) (faults : Faults) (s : TxState) : Decidable (e.Returns faults s) :=
  decidable_of_iff ((e.mode = .kWal → faults.append = false) ∧
      (e.mode = .kWal → e.checkpointNeeded = true → faults.reopen = false) ∧
        (e.Saves → CanPersist e.metaEnv.pageSize faults s))
    ⟨fun h => ⟨h.1, h.2.1, h.2.2⟩, fun h => ⟨h.append, h.reopen, h.persist⟩⟩

instance (env : ManagerEnv) (s : Manager) (e : ManagerEvent) : Decidable (s.Returns env e) :=
  match e with
  | .commit checkpointNeeded faults =>
      inferInstanceAs
        (Decidable
          (∀ info ∈ s.updateTx, (env.commitEnv checkpointNeeded).Returns faults (s.txState info)))
  | .rollBack checkpointNeeded faults => inferInstanceAs
      (Decidable (∀ info ∈ s.updateTx, env.mode = .kWal →
      (env.commitEnv checkpointNeeded).Returns faults (s.txState info)))
  | .update => inferInstanceAs (Decidable True)
  | .put _ _ => inferInstanceAs (Decidable True)
  | .delete _ => inferInstanceAs (Decidable True)
  | .view => inferInstanceAs (Decidable True)
  | .closeView _ => inferInstanceAs (Decidable True)

instance (s : Manager) (e : ManagerEvent) : Decidable (s.HasRoom e) :=
  match e with
  | .put _ _ => inferInstanceAs
      (Decidable (∀ info ∈ s.updateTx, info.pageCount + callRoom ≤ kPageMaxCount))
  | .delete _ => inferInstanceAs
      (Decidable (∀ info ∈ s.updateTx, info.pageCount + callRoom ≤ kPageMaxCount))
  | .update => inferInstanceAs (Decidable True)
  | .commit _ _ => inferInstanceAs (Decidable True)
  | .rollBack _ _ => inferInstanceAs (Decidable True)
  | .view => inferInstanceAs (Decidable True)
  | .closeView _ => inferInstanceAs (Decidable True)

instance (env : ManagerEnv) (s : Manager) (e : ManagerEvent) : Decidable (s.Supplied env e) :=
  inferInstanceAs (Decidable (_ ∧ _))

/-- A new database stands for the empty dictionary. -/
theorem created_begins (ok : env.reader.Ok) (f : MetaFile) :
    (created env f).Begins env fun _ => none where
  toOpened := created_opened ok f
  stands := by
    refine ⟨.empty, .of_empty ok rfl, trivial, fun x hx => absurd hx List.not_mem_nil,
      fun _ => rfl, fun p => ?_⟩
    exact Nat.zero_le _
  ge := Nat.le_refl 2
  room := by
    show 2 ≤ kPageMaxCount
    decide

/-- A transaction that grows the mapping is rolled back, and the next `Update` unmaps the old one. A
view that is opened then does not keep the next transactions waiting. -/
def growMapping : List ManagerEvent :=
  [.update, .put [1] [2], .rollBack false Faults.none, .update, .rollBack false Faults.none]

/-- A commit, a view of it, a transaction that is rolled back, and one that deletes. -/
def threeTransactions : List ManagerEvent :=
  growMapping ++ [.update, .put [1] [2], .put [3] [4], .commit false Faults.none, .view, .update,
    .put [1] [5], .delete [3], .rollBack false Faults.none, .update, .delete [3],
      .commit false Faults.none, .view, .closeView 0]

theorem run_agrees_inPlace_threeTransactions :
    ∃ s, newRun .kUpdateInPlace threeTransactions = some s ∧
    (∃ a, Steps.run SnapshotStore.step (.opened fun _ => none) threeTransactions = some a ∧
      s.Agrees (smallManager .kUpdateInPlace) a) ∧
    ∀ (k : Nat) e, threeTransactions[k]? = some e → ∃ t b,
      newRun .kUpdateInPlace (threeTransactions.take k) = some t ∧
        Steps.run SnapshotStore.step (.opened fun _ => none) (threeTransactions.take k) = some b ∧
          t.Agrees (smallManager .kUpdateInPlace) b ∧
          t.Answers (smallManager .kUpdateInPlace) b e := by
  have hsome : (newRun .kUpdateInPlace threeTransactions).isSome := by decide +kernel
  obtain ⟨s, hs⟩ := Option.isSome_iff_exists.1 hsome
  exact ⟨s, hs, run_agrees_inPlace (smallManager_ok _) rfl newManager_openedInPlace
    (created_begins (smallManager_ok _) _) (by decide +kernel) (by decide +kernel) hs⟩

/-- Nothing is exempt as long as there is a view that was opened before the last checkpoint. -/
theorem noneExempt_of_le (h : s.oldestViewTxid ≤ s.persistedTxid + 1) (e : ManagerEvent) :
    s.NoneExempt env e := by
  cases e with
  | update =>
    rintro info - p n - - ⟨hlow, hhigh⟩
    omega
  | put key value => trivial
  | delete key => trivial
  | commit checkpointNeeded faults => trivial
  | rollBack checkpointNeeded faults => trivial
  | view => trivial
  | closeView i => trivial

/-- A view stays open while there is a checkpoint, a rollback and another commit. -/
def oldView : List ManagerEvent :=
  growMapping ++ [.view, .update, .put [1] [2], .put [3] [4], .commit true Faults.none, .view,
    .update, .put [1] [5], .rollBack false Faults.none, .update, .delete [1],
      .commit false Faults.none, .closeView 1, .view]

theorem run_agrees_oldView : ∃ s, newRun .kWal oldView = some s ∧
    (∃ a, Steps.run SnapshotStore.step (.opened fun _ => none) oldView = some a ∧
      s.Agrees (smallManager .kWal) a) ∧
    ∀ (k : Nat) e, oldView[k]? = some e → ∃ t b, newRun .kWal (oldView.take k) = some t ∧
      Steps.run SnapshotStore.step (.opened fun _ => none) (oldView.take k) = some b ∧
        t.Agrees (smallManager .kWal) b ∧ t.Answers (smallManager .kWal) b e := by
  have hsome : (newRun .kWal oldView).isSome := by decide +kernel
  obtain ⟨s, hs⟩ := Option.isSome_iff_exists.1 hsome
  have halong : Steps.Along (Manager.step (smallManager .kWal))
      (fun s e => s.Supplied (smallManager .kWal) e ∧ s.oldestViewTxid ≤ s.persistedTxid + 1)
        (newManager .kWal)
      oldView := by decide +kernel
  exact ⟨s, hs, run_agrees (smallManager_ok _) (created_begins (smallManager_ok _) _)
    (halong.imp fun s e hc => ⟨hc.1, noneExempt_of_le hc.2 e⟩) (by decide +kernel) hs⟩

end Manager

end AtomKV
