import AtomKV.Commit

/-!
# The free list in the saved meta

`TxManager::Commit` copies the transaction's meta into shared memory before `SaveFreeList` changes
it, and `Meta::Save` writes the shared meta. So the list that a commit writes into the file is not
the one its meta names.
-/

set_option autoImplicit false

namespace AtomKV

/-- The saved meta names the free list that was just written, and opening the database again finds
what was free or pending. -/
def Database.SavesList (P : Nat) (d : Database) : Prop :=
  d.file.saved.info.freeListPgid = d.tx.metaStruct.freeListPgid ∧
    d.file.saved.info.freeListPageCount = d.tx.metaStruct.freeListPageCount ∧
    d.file.saved.info.freePairCount = d.tx.metaStruct.freePairCount ∧
    d.file.saved.info.pageCount = d.tx.metaStruct.pageCount ∧
    ∀ p, runsCount (Pager.opened P d.file.saved.info d.tx.pager).freeMap p =
      runsCount (d.tx.pager.freeMap ++ Pager.pendingRuns d.tx.pager.pendingMap) p

/-! ## What a commit saves -/

theorem saved_save_switch (env : MetaEnv) (f : MetaFile) :
    (Meta.save env (Meta.switch f)).saved.info = f.shared.info := by
  unfold Meta.save Meta.switch MetaFile.saved
  by_cases h : f.curMetaIndex = 0
  · simp [h]
  · simp [h]

/-- Saving the meta does not change what is in shared memory. -/
theorem shared_save_switch (e : MetaEnv) (f : MetaFile) :
    (Meta.save e (Meta.switch f)).shared.info = f.shared.info := by
  unfold Meta.save Meta.switch
  split_ifs <;> rfl

theorem onTx_eq_ok {α : Type} {x : TxM α} {d d' : Database} {a : α} (h : onTx x d = (.ok a, d')) :
    x d.tx = (.ok a, d'.tx) ∧ d'.file = d.file := by
  obtain ⟨h1, h2⟩ := Prod.mk.inj h
  subst h2
  exact ⟨Prod.ext h1 rfl, rfl⟩

theorem failing_eq_ok {fault : Bool} {what : String} {d d' : Database}
    (h : failing fault what d = (.ok (), d')) : d' = d := by
  unfold failing at h
  cases fault with
  | true => cases h
  | false => exact ((Prod.mk.inj h).2).symm

theorem persistPages_eq_ok {env : CommitEnv} {faults : Faults} {d d' : Database}
    (h : persistPages env faults d = (.ok (), d')) :
    Pager.saveFreeListFaulty env.metaEnv.pageSize faults.remmap d.tx = (.ok (), d'.tx) ∧
    d'.file = d.file := by
  obtain ⟨_, d₁, hsave, hsync⟩ := Exec.bind_eq_ok h
  obtain rfl := failing_eq_ok hsync
  exact onTx_eq_ok hsave

/-- A checkpoint that returns has saved the free list and the shared meta. -/
theorem checkpoint_eq_ok {env : CommitEnv} {faults : Faults} {d d' : Database}
    (h : checkpoint env faults d = (.ok (), d')) :
    Pager.saveFreeListFaulty env.metaEnv.pageSize faults.remmap d.tx = (.ok (), d'.tx) ∧
      d'.file = Meta.save env.metaEnv (Meta.switch d.file) := by
  unfold checkpoint at h
  obtain ⟨_, d₁, hpersist, h⟩ := Exec.bind_eq_ok h
  obtain ⟨_, d₂, hsave, h⟩ := Exec.bind_eq_ok h
  obtain ⟨_, d₃, hreopen, h⟩ := Exec.bind_eq_ok h
  obtain ⟨hlist, hfile⟩ := persistPages_eq_ok hpersist
  obtain ⟨-, rfl⟩ := Prod.mk.inj hsave
  obtain rfl := failing_eq_ok hreopen
  obtain rfl := failing_eq_ok h
  refine ⟨hlist, ?_⟩
  show Meta.save _ (Meta.switch d₁.file) = _
  rw [hfile]

/-- A commit that saves: the meta that goes to the file is the transaction's as it was before
`SaveFreeList`. -/
theorem commit_saves_eq_ok {env : CommitEnv} {faults : Faults} {d d' : Database}
    (hsaves : env.Saves) (h : TxManager.commit env faults d = (.ok (), d')) :
    Pager.saveFreeListFaulty env.metaEnv.pageSize faults.remmap d.tx = (.ok (), d'.tx) ∧
      d'.file = Meta.save env.metaEnv (Meta.switch (Meta.reset d.tx.metaStruct d.file)) := by
  unfold TxManager.commit at h
  rw [Exec.change_bind] at h
  cases hmode : env.mode with
  | kUpdateInPlace =>
    simp only [hmode] at h
    obtain ⟨_, d₁, hpersist, hsave⟩ := Exec.bind_eq_ok h
    obtain ⟨hlist, hfile⟩ := persistPages_eq_ok hpersist
    obtain ⟨-, rfl⟩ := Prod.mk.inj hsave
    refine ⟨hlist, ?_⟩
    show Meta.save _ (Meta.switch d₁.file) = _
    rw [hfile]
  | kWal =>
    have hneeded : env.checkpointNeeded = true := hsaves.resolve_left (by rw [hmode]; decide)
    simp only [hmode, hneeded, if_true] at h
    obtain ⟨_, d₀, happend, h⟩ := Exec.bind_eq_ok h
    obtain rfl := failing_eq_ok happend
    exact checkpoint_eq_ok h

/-- A commit that saves nothing. -/
theorem commit_eq_ok_of_not_saves {env : CommitEnv} {faults : Faults} {d d' : Database}
    (hsaves : ¬ env.Saves) (h : TxManager.commit env faults d = (.ok (), d')) :
      d' = ⟨Meta.reset d.tx.metaStruct d.file, d.tx⟩ := by
  unfold TxManager.commit at h
  rw [Exec.change_bind] at h
  cases hmode : env.mode with
  | kUpdateInPlace => exact absurd (.inl hmode) hsaves
  | kWal =>
    have hneeded : ¬ env.checkpointNeeded = true := fun hneeded => hsaves (.inr hneeded)
    simp only [hmode, if_neg hneeded] at h
    obtain ⟨_, d₀, happend, h⟩ := Exec.bind_eq_ok h
    obtain rfl := failing_eq_ok happend
    exact ((Prod.mk.inj h).2).symm

/-- A rollback with a checkpoint. -/
theorem rollBack_saves_eq_ok {env : CommitEnv} {faults : Faults} {d d' : Database}
    (hmode : env.mode = .kWal) (hneeded : env.checkpointNeeded = true)
    (h : TxManager.rollBack env faults d = (.ok (), d')) :
    ∃ u, Pager.saveFreeListFaulty env.metaEnv.pageSize faults.remmap d.tx = (.ok (), u) ∧
      d'.file = Meta.save env.metaEnv (Meta.switch d.file) ∧
      d'.tx = { u with pager := u.pager.rollback u.metaStruct.txid } := by
  obtain ⟨_, d₁, hlog, hend⟩ := Exec.bind_eq_ok h
  obtain ⟨-, rfl⟩ := Prod.mk.inj hend
  unfold TxManager.logRollBack at hlog
  simp only [hmode, hneeded, if_true] at hlog
  obtain ⟨_, d₀, happend, hcheckpoint⟩ := Exec.bind_eq_ok hlog
  obtain rfl := failing_eq_ok happend
  obtain ⟨hlist, hfile⟩ := checkpoint_eq_ok hcheckpoint
  exact ⟨d₁.tx, hlist, hfile, rfl⟩

/-- A rollback that saves nothing. -/
theorem rollBack_eq_ok {env : CommitEnv} {faults : Faults} {d d' : Database}
    (hsaves : ¬ (env.mode = .kWal ∧ env.checkpointNeeded = true))
    (h : TxManager.rollBack env faults d = (.ok (), d')) :
    d'.file = d.file ∧ d'.tx = { d.tx with pager := d.tx.pager.rollback d.tx.metaStruct.txid } := by
  obtain ⟨_, d₁, hlog, hend⟩ := Exec.bind_eq_ok h
  obtain ⟨-, rfl⟩ := Prod.mk.inj hend
  unfold TxManager.logRollBack at hlog
  cases hmode : env.mode with
  | kUpdateInPlace =>
    simp only [hmode] at hlog
    obtain ⟨-, rfl⟩ := Prod.mk.inj hlog
    exact ⟨rfl, rfl⟩
  | kWal =>
    have hneeded : ¬ env.checkpointNeeded = true := fun hneeded => hsaves ⟨hmode, hneeded⟩
    simp only [hmode, if_neg hneeded] at hlog
    obtain ⟨_, d₀, happend, hend⟩ := Exec.bind_eq_ok hlog
    obtain rfl := failing_eq_ok happend
    obtain ⟨-, rfl⟩ := Prod.mk.inj hend
    exact ⟨rfl, rfl⟩

/-- A commit that saves the meta saves the transaction's meta as it was before `SaveFreeList`. -/
theorem commit_eq_ok {env : CommitEnv} {faults : Faults} {d d' : Database} (hsaves : env.Saves)
    (h : TxManager.commit env faults d = (.ok (), d')) :
    Pager.saveFreeListFaulty env.metaEnv.pageSize faults.remmap d.tx = (.ok (), d'.tx) ∧
      d'.file.saved.info = d.tx.metaStruct := by
  obtain ⟨hlist, hfile⟩ := commit_saves_eq_ok hsaves h
  refine ⟨hlist, ?_⟩
  rw [hfile, saved_save_switch]
  rfl

/-- A `SaveFreeList` that returns has written the list. -/
theorem saveFreeListFaulty_eq_ok {P : Nat} {remmap : Bool} {s u : TxState}
    (hlist : s.metaStruct.freeListPgid = kPageInvalidId)
    (h : Pager.saveFreeListFaulty P remmap s = (.ok (), u)) :
      Pager.writeFreeList P s = (.ok (), u) := by
  unfold Pager.saveFreeListFaulty at h
  rw [Exec.bind_of_ok (Pager.freeSavedList_of_invalid hlist), Exec.read_bind] at h
  by_cases hfault : remmap ∧ Pager.allocFromMap (Pager.listPages P s.pager) s.pager.freeMap = none
  · rw [if_pos hfault] at h
    unfold Pager.writeFreeListUnmapped at h
    obtain ⟨_, s₁, -, h⟩ := Exec.bind_eq_ok h
    obtain ⟨_, s₂, -, h⟩ := Exec.bind_eq_ok h
    obtain ⟨_, s₃, -, h⟩ := Exec.bind_eq_ok h
    cases h
  · rw [if_neg hfault] at h
    exact h

/-! ## The law -/

theorem pairCount_eq_zero_iff {pager : Pager} {owned : List PagePair} {bound : ℕ}
    (hmaps : pager.MapsOk owned bound) (hbound : bound < 4294967296) :
    pager.pairCount = 0 ↔ pager.freeMap = [] ∧ Pager.pendingRuns pager.pendingMap = [] := by
  have hlen := hmaps.runs.length_le
  rw [List.length_append, List.length_append] at hlen
  unfold Pager.pairCount
  rw [u32_of_lt (by omega), Nat.add_eq_zero_iff, List.length_eq_zero_iff, List.length_eq_zero_iff]

/-- What a commit leaves when the list goes behind the last page. -/
theorem savesList_of_grown {P : Nat} (hP : kPagePairSize ≤ P) {f : MetaFile} {s : TxState}
    {owned : List PagePair} (hinfo : MetaOk s.metaStruct)
    (hmaps : s.pager.MapsOk owned s.metaStruct.pageCount) (hsaved : f.saved.info = s.metaStruct) :
    Database.SavesList P
      ⟨f, Pager.savedList P (Pager.listPages P s.pager) s.metaStruct.pageCount { s with
        metaStruct := { s.metaStruct with
          pageCount := u32 (s.metaStruct.pageCount + Pager.listPages P s.pager) } }⟩ ↔
      s.pager.freeMap = [] ∧ Pager.pendingRuns s.pager.pendingMap = [] ∧
        s.metaStruct.pageCount = kPageInvalidId := by
  -- the list takes no page exactly when both maps are empty
  have hzero :=
    (Pager.listPages_eq_zero_iff hP s.pager).trans (pairCount_eq_zero_iff hmaps hinfo.lt)
  unfold Database.SavesList
  rw [hsaved]
  constructor
  · rintro ⟨hpgid, hpages, -, -, -⟩
    have hnone : Pager.listPages P s.pager = 0 := hpages.symm.trans hinfo.noPages
    obtain ⟨hfree, hpending⟩ := hzero.1 hnone
    exact ⟨hfree, hpending, hpgid.symm.trans hinfo.noList⟩
  · rintro ⟨hfree, hpending, hcount⟩
    have hnone := hzero.2 ⟨hfree, hpending⟩
    refine ⟨?_, ?_, ?_, ?_, fun p => ?_⟩
    · exact hinfo.noList.trans hcount.symm
    · exact hinfo.noPages.trans hnone.symm
    · show s.metaStruct.freePairCount =
        u32 (s.pager.freeMap ++ Pager.pendingRuns s.pager.pendingMap).length
      rw [hfree, hpending]
      exact hinfo.noPairs
    · show s.metaStruct.pageCount = u32 (s.metaStruct.pageCount + Pager.listPages P s.pager)
      rw [hnone]
      exact (u32_of_lt hinfo.lt).symm
    · rw [Pager.opened_of_invalid hinfo.noList]
      show 0 = runsCount (s.pager.freeMap ++ Pager.pendingRuns s.pager.pendingMap) p
      rw [hfree, hpending]
      rfl

namespace Allocator

/-- **The saved meta never names the saved list.** In every run, a commit that saves the meta saves
one that does not describe the free list it wrote, unless nothing is free or pending and the file
has as many pages as a page id can count. -/
theorem run_savesList_iff {env : CommitEnv} (hP : kPagePairSize ≤ env.metaEnv.pageSize)
    {es : List AllocatorEvent} {s : Allocator} {t : Version}
    (hrun : created.run env.metaEnv.pageSize es = some s)
    (htx : s.tx = some t) (hsaves : env.Saves) {f : MetaFile} {faults : Faults} {d : Database}
    (hcommit : TxManager.commit env faults ⟨f, s.state t⟩ = (.ok (), d)) :
    d.SavesList env.metaEnv.pageSize ↔
      s.pager.freeMap = [] ∧ Pager.pendingRuns s.pager.pendingMap = [] ∧
      t.info.pageCount = kPageInvalidId := by
  obtain ⟨hinfo, hmaps, -, -⟩ := (run_inv hP created_inv hrun).busy t htx
  obtain ⟨hlist, hsaved⟩ := commit_eq_ok hsaves hcommit
  have hwrite := saveFreeListFaulty_eq_ok (s := s.state t) hinfo.noList hlist
  obtain ⟨file, u⟩ := d
  cases hmap : Pager.allocFromMap (Pager.listPages env.metaEnv.pageSize s.pager)
    s.pager.freeMap with
  | some r =>
    -- the list lies in a run that was free, and the meta names no list at all
    obtain ⟨pgid, freeMap⟩ := r
    rw [Pager.writeFreeList_of_some (s := s.state t) hmap] at hwrite
    obtain ⟨-, rfl⟩ := Prod.mk.inj hwrite
    constructor
    · rintro ⟨hpgid, -, -, -, -⟩
      have hsavedPgid : file.saved.info.freeListPgid = pgid := hpgid
      have hin := (Pager.allocFromMap_in hmap hmaps.free_in).1
      have hlt := hinfo.lt
      change file.saved.info = t.info at hsaved
      rw [hsaved, hinfo.noList] at hsavedPgid
      unfold kPageInvalidId at hsavedPgid
      have hnone : Pager.listPages env.metaEnv.pageSize s.pager = 0 := by omega
      obtain ⟨hfree, -⟩ :=
        (pairCount_eq_zero_iff hmaps hlt).1 ((Pager.listPages_eq_zero_iff hP _).1 hnone)
      rw [hfree] at hmap
      cases hmap
    · rintro ⟨hfree, -, -⟩
      rw [hfree] at hmap
      cases hmap
  | none =>
    by_cases hroom : u32 (t.info.pageCount + Pager.listPages env.metaEnv.pageSize s.pager) <
      t.info.pageCount
    · obtain ⟨e, he⟩ := Pager.writeFreeList_raises (s := s.state t) hmap hroom
      rw [he] at hwrite
      cases hwrite
    · rw [Pager.writeFreeList_of_none (s := s.state t) hmap hroom] at hwrite
      obtain ⟨-, rfl⟩ := Prod.mk.inj hwrite
      exact savesList_of_grown hP (s := s.state t) hinfo hmaps hsaved

/-- A database with one page that was freed again. -/
def onePageFreed : List AllocatorEvent := [.update 0, .alloc 1, .free (2, 1)]

/-- A small environment in the mode `kUpdateInPlace`. -/
def inPlaceEnv : CommitEnv := ⟨⟨4096, fun _ _ _ info => info.txid⟩, .kUpdateInPlace, false⟩

/-- Meta pages that were never written. -/
def blankFile : MetaFile :=
  let blank : MetaStruct := ⟨0, 0, 0, Meta.initInfo 0, 0⟩
  ⟨blank, blank, blank, 0⟩

/-- Page 2 is pending at the commit, so the law says that the list is lost. -/
theorem run_savesList_iff_freed : ∃ (s : Allocator) (t : Version) (d : Database),
    created.run 4096 onePageFreed = some s ∧ s.tx = some t ∧
      TxManager.commit inPlaceEnv Faults.none ⟨blankFile, s.state t⟩ = (.ok (), d) ∧
      (d.SavesList 4096 ↔ s.pager.freeMap = [] ∧ Pager.pendingRuns s.pager.pendingMap = [] ∧
        t.info.pageCount = kPageInvalidId) := by
  have hrun : ∃ s t, created.run 4096 onePageFreed = some s ∧ s.tx = some t ∧
      ∃ d, TxManager.commit inPlaceEnv Faults.none ⟨blankFile, s.state t⟩ = (.ok (), d) :=
    ⟨_, _, rfl, rfl, _, rfl⟩
  obtain ⟨s, t, hs, ht, d, hd⟩ := hrun
  have hpage : kPagePairSize ≤ inPlaceEnv.metaEnv.pageSize := by decide
  exact ⟨s, t, d, hs, ht, hd, run_savesList_iff hpage hs ht (.inl rfl) hd⟩

/-- **The list is not named.** The commit that follows the free writes the list to page 3, and saves
a meta without a list. -/
theorem list_not_named : ∃ (s : Allocator) (t : Version) (d : Database),
    created.run 4096 onePageFreed = some s ∧ s.tx = some t ∧
      TxManager.commit inPlaceEnv Faults.none ⟨blankFile, s.state t⟩ = (.ok (), d) ∧
      ¬ d.SavesList 4096 := by
  refine ⟨_, _, _, rfl, rfl, rfl, ?_⟩
  rintro ⟨hpgid, -⟩
  exact absurd hpgid (by decide)

end Allocator

end AtomKV
