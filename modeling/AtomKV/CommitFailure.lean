import AtomKV.SavedMeta
import AtomKV.Versions

/-!
# A commit that fails

`TxManager::Commit` publishes the transaction's meta in shared memory before it calls what can
throw. After the exception the transaction is rolled back: the pager gets its allocations back, but
the shared meta stays. So the commit was atomic exactly when the transaction had nothing to publish.

What was committed before is a version with the pages that the file had then. In the mode `kWal` a
transaction may write a page of this version in place, so it is not what the pages of the file say
when `Commit` is called.
-/

set_option autoImplicit false

namespace AtomKV

/-- The state before the commit of `t`: the maps are those of the allocator, and the pages of the
transaction's tree are owned. -/
structure Database.At (P : Nat) (d : Database) (s : Allocator) (t : Version) : Prop where
  freeMap : d.tx.pager.freeMap = s.pager.freeMap
  pendingMap : d.tx.pager.pendingMap = s.pager.pendingMap
  allocRecords : d.tx.pager.allocRecords = s.pager.allocRecords
  pageCount : d.tx.metaStruct.pageCount = t.info.pageCount
  noList : d.tx.metaStruct.freeListPgid = t.info.freeListPgid
  owned : ∀ p, Reachable P d.tx.pager.pages d.tx.metaStruct.userRoot p → 0 < runsCount t.owned p

/-- New views and write transactions on `d` see the version `V`, and no page of theirs is free. -/
def Database.Atomic (P : Nat) (V : Image) (d : Database) : Prop :=
  snapshot P d.tx.pager.pages d.file.shared.info.userRoot = V.records P ∧
    ∀ p, Reachable P d.tx.pager.pages d.file.shared.info.userRoot p →
      runsCount d.tx.pager.freeMap p = 0

/-- The transaction reads what the version `V` has, and its tree has no page that was taken from
the free map. -/
def Database.Unchanged (P : Nat) (V : Image) (d : Database) : Prop :=
  snapshot P d.tx.pager.pages d.tx.metaStruct.userRoot = V.records P ∧
    ∀ p, Reachable P d.tx.pager.pages d.tx.metaStruct.userRoot p →
      runsCount d.tx.pager.allocRecords p = 0

/-! ## Saving the free list -/

/-- The number of pairs in a free list. -/
def Pager.listed (pager : Pager) : Nat :=
  pager.freeMap.length + (pendingRuns pager.pendingMap).length

/-- What is needed of a state to save its free list. -/
structure CanSave (s : TxState) : Prop where
  lt : s.metaStruct.pageCount < 4294967296
  freeIn : ∀ r ∈ s.pager.freeMap, r.1 + r.2 ≤ s.metaStruct.pageCount
  recordsIn : ∀ r ∈ s.pager.allocRecords, r.1 + r.2 ≤ s.metaStruct.pageCount
  few : s.pager.listed < 4294967296

/-- What saving the free list leaves as it was, whether it returns or throws. -/
structure Retains (s s' : TxState) : Prop where
  grown : s.metaStruct.pageCount ≤ s'.metaStruct.pageCount
  lt : s'.metaStruct.pageCount < 4294967296
  freeIn : ∀ r ∈ s'.pager.freeMap, r.1 + r.2 ≤ s'.metaStruct.pageCount
  recordsIn : ∀ r ∈ s'.pager.allocRecords, r.1 + r.2 ≤ s'.metaStruct.pageCount
  freeLe : ∀ p, runsCount s'.pager.freeMap p ≤ runsCount s.pager.freeMap p
  drawn : ∀ p, runsCount s'.pager.freeMap p + runsCount s'.pager.allocRecords p =
    runsCount s.pager.freeMap p + runsCount s.pager.allocRecords p
  pages : ∀ p < s.metaStruct.pageCount, runsCount s.pager.freeMap p = 0 →
    s'.pager.pages p = s.pager.pages p

theorem CanSave.retains {s : TxState} (h : CanSave s) : Retains s s :=
  ⟨Nat.le_refl _, h.lt, h.freeIn, h.recordsIn, fun _ => Nat.le_refl _,
    fun _ => rfl, fun _ _ _ => rfl⟩

theorem Retains.trans {s s' s'' : TxState} (h : Retains s s') (h' : Retains s' s'') :
    Retains s s'' where
  grown := Nat.le_trans h.grown h'.grown
  lt := h'.lt
  freeIn := h'.freeIn
  recordsIn := h'.recordsIn
  freeLe := fun p => Nat.le_trans (h'.freeLe p) (h.freeLe p)
  drawn := fun p => (h'.drawn p).trans (h.drawn p)
  pages := fun p hp hfree => by
    have hfree' : runsCount s'.pager.freeMap p = 0 := by
      have := h.freeLe p
      omega
    exact (h'.pages p (Nat.lt_of_lt_of_le hp h.grown) hfree').trans (h.pages p hp hfree)

theorem Retains.canSave {s s' : TxState} (h : Retains s s') (hfew : s'.pager.listed < 4294967296) :
    CanSave s' :=
  ⟨h.lt, h.freeIn, h.recordsIn, hfew⟩

/-- A growth that is not refused. -/
theorem grown_of_room {pageCount count : Nat} (hpc : pageCount < 4294967296)
    (hc : count < 4294967296) (h : ¬ u32 (pageCount + count) < pageCount) :
    pageCount ≤ u32 (pageCount + count) ∧ u32 (pageCount + count) < 4294967296 := by
  obtain ⟨hsum, hlt⟩ := Pager.u32_add_of_not_lt hpc hc h
  omega

namespace Pager

theorem length_pendingRuns_addPending (txid : Nat) (r : PagePair) (m : List (Nat × List PagePair)) :
    (pendingRuns (addPending txid r m)).length = (pendingRuns m).length + 1 := by
  induction m with
  | nil => rfl
  | cons e m ih =>
    obtain ⟨t, runs⟩ := e
    have hcons : ∀ (e : Nat × List PagePair) (m : List (Nat × List PagePair)),
        (pendingRuns (e :: m)).length = e.2.length + (pendingRuns m).length := fun e m =>
      List.length_append
    unfold addPending
    split_ifs with h1 h2
    · rw [hcons, hcons, ih]
      omega
    · rw [hcons, hcons, List.length_append]
      simp only [List.length_cons, List.length_nil]
      omega
    · rw [hcons]
      simp only [List.length_cons, List.length_nil]
      omega

/-- A write touches the pages of its run only. -/
theorem writeByBytes_outside {P : Nat} {pager : Pager} {pgid n q : Nat} {buf : Bytes}
    (hbuf : buf.length ≤ n * P) (hq : q < pgid ∨ pgid + n ≤ q) :
      (writeByBytes P pager pgid 0 buf).pages q = pager.pages q := by
  rw [writeByBytes_pages, if_neg]
  rintro ⟨h1, h2, -⟩
  rcases hq with hq | hq
  · have := Nat.mul_le_mul_right P (Nat.succ_le_of_lt hq)
    rw [Nat.succ_eq_add_one] at this
    omega
  · have := Nat.mul_le_mul_right P hq
    rw [Nat.add_mul] at this
    omega

theorem length_encodePairs (pairs : List PagePair) :
    (encodePairs pairs).length = 8 * pairs.length := by
  induction pairs with
  | nil => rfl
  | cons r pairs ih =>
    have hcons : encodePairs (r :: pairs) = encodeU32 r.1 ++ encodeU32 r.2 ++ encodePairs pairs :=
      rfl
    have hlen : ∀ n, (encodeU32 n).length = 4 := fun n => by simp [encodeU32]
    rw [hcons, List.length_append, List.length_append, hlen, hlen, ih, List.length_cons]
    omega

theorem length_allocFromMap {count pgid : Nat} {m m' : List PagePair}
    (h : allocFromMap count m = some (pgid, m')) : m'.length ≤ m.length := by
  induction m generalizing m' with
  | nil => simp [allocFromMap] at h
  | cons r rest ih =>
    obtain ⟨start, freeCount⟩ := r
    unfold allocFromMap at h
    split_ifs at h with h1 h2
    · obtain ⟨⟨q, m''⟩, hq, he⟩ := Option.map_eq_some_iff.1 h
      obtain ⟨rfl, rfl⟩ := Prod.mk.inj he
      exact Nat.succ_le_succ (ih hq)
    · obtain ⟨rfl, rfl⟩ := Prod.mk.inj (Option.some.inj h)
      exact Nat.le_refl _
    · obtain ⟨rfl, rfl⟩ := Prod.mk.inj (Option.some.inj h)
      exact Nat.le_succ _

/-- The pages that `SaveFreeList` asks for are enough for the pairs it counts. -/
theorem le_listPages {P : Nat} (hP : kPagePairSize ≤ P) {pager : Pager} {k : Nat}
    (hfew : pager.listed < 4294967296) (hk : k ≤ pager.listed) : 8 * k ≤ listPages P pager * P := by
  unfold listed at hfew hk
  unfold kPagePairSize at hP
  unfold listPages pairCount kPagePairSize
  rw [u32_of_lt hfew]
  generalize pager.freeMap.length + (pendingRuns pager.pendingMap).length = n at hfew hk ⊢
  have hpos : 0 < P := by omega
  have hle := le_getPageCount_mul hpos (n * 8)
  have hcount : getPageCount P (n * 8) ≤ n := by
    rw [getPageCount_eq hpos]
    refine Nat.lt_succ_iff.1 ((Nat.div_lt_iff_lt_mul hpos).2 ?_)
    have := Nat.mul_le_mul_left n hP
    rw [Nat.succ_mul]
    omega
  rw [u32_of_lt (by omega)]
  omega

end Pager

/-- The pages that the list is written to were free or did not exist. -/
theorem writeFreeList_retains {P : Nat} (hP : kPagePairSize ≤ P) {s s' : TxState}
    {r : Except Err Unit} (h : CanSave s) (hrun : Pager.writeFreeList P s = (r, s')) :
    Retains s s' ∧ s'.pager.listed ≤ s.pager.listed := by
  cases hmap : Pager.allocFromMap (Pager.listPages P s.pager) s.pager.freeMap with
  | some q =>
    obtain ⟨pgid, freeMap⟩ := q
    rw [Pager.writeFreeList_of_some hmap] at hrun
    obtain ⟨-, rfl⟩ := Prod.mk.inj hrun
    have hin := Pager.allocFromMap_in hmap h.freeIn
    have hcount := Pager.runsCount_allocFromMap hmap
    have hlen := Nat.add_le_add_right (Pager.length_allocFromMap hmap)
      (Pager.pendingRuns s.pager.pendingMap).length
    refine ⟨⟨Nat.le_refl _, h.lt, hin.2, ?_, fun p => ?_, fun p => ?_, fun p hp hfree => ?_⟩, hlen⟩
    · intro r hr
      rcases List.mem_append.1 hr with hr | hr
      · exact h.recordsIn r hr
      · obtain rfl := List.mem_singleton.1 hr
        exact hin.1
    · show runsCount freeMap p ≤ _
      rw [hcount p]
      omega
    · show runsCount freeMap p + runsCount (s.pager.allocRecords ++ [(pgid, _)]) p = _
      rw [hcount p, runsCount_append, runsCount_cons, runsCount_nil]
      omega
    · -- a page that is not free lies outside of the run
      refine Pager.writeByBytes_outside (n := Pager.listPages P s.pager) ?_ ?_
      · rw [Pager.length_encodePairs]
        refine Pager.le_listPages hP h.few ?_
        rw [List.length_append]
        exact hlen
      · by_contra hnot
        have hrun : 0 < runCount (pgid, Pager.listPages P s.pager) p := (runCount_pos_iff _ _).2 (by
          simp only
          omega)
        have := hcount p
        omega
  | none =>
    by_cases hroom : u32 (s.metaStruct.pageCount + Pager.listPages P s.pager) <
      s.metaStruct.pageCount
    · obtain ⟨e, he⟩ := Pager.writeFreeList_raises hmap hroom
      rw [he] at hrun
      obtain ⟨-, rfl⟩ := Prod.mk.inj hrun
      obtain ⟨h1, h2, h3, h4, h5, h6, h7⟩ := h.retains
      exact ⟨⟨h1, h2, h3, h4, h5, h6, h7⟩, Nat.le_refl _⟩
    · rw [Pager.writeFreeList_of_none hmap hroom] at hrun
      obtain ⟨-, rfl⟩ := Prod.mk.inj hrun
      obtain ⟨hgrown, hlt⟩ := grown_of_room h.lt (Nat.mod_lt _ (by omega)) hroom
      refine ⟨⟨hgrown, hlt, fun r hr => Nat.le_trans (h.freeIn r hr) hgrown,
        fun r hr => Nat.le_trans (h.recordsIn r hr) hgrown, fun p => Nat.le_refl _,
          fun p => rfl, fun p hp _ => ?_⟩,
        Nat.le_refl _⟩
      refine Pager.writeByBytes_outside (n := Pager.listPages P s.pager) ?_ (.inl hp)
      rw [Pager.length_encodePairs]
      refine Pager.le_listPages hP h.few ?_
      rw [List.length_append]
      exact Nat.le_refl _

/-- A `Remmap` that throws leaves a longer file. -/
theorem writeFreeListUnmapped_retains {P : Nat} {s s' : TxState} {r : Except Err Unit}
    (h : CanSave s) (hmap : Pager.allocFromMap (Pager.listPages P s.pager) s.pager.freeMap = none)
    (hrun : Pager.writeFreeListUnmapped P s = (r, s')) : Retains s s' ∧
    s'.pager.listed ≤ s.pager.listed := by
  unfold Pager.writeFreeListUnmapped at hrun
  rw [Exec.read_bind, Exec.change_bind] at hrun
  obtain ⟨h1, h2, h3, h4, h5, h6, h7⟩ := h.retains
  by_cases hroom : u32 (s.metaStruct.pageCount + Pager.listPages P s.pager) < s.metaStruct.pageCount
  · obtain ⟨e, he⟩ :=
      Pager.alloc_raises (s := Pager.withListPages (Pager.listPages P s.pager) s) hmap hroom
    rw [Exec.bind_of_error he] at hrun
    obtain ⟨-, rfl⟩ := Prod.mk.inj hrun
    exact ⟨⟨h1, h2, h3, h4, h5, h6, h7⟩, Nat.le_refl _⟩
  · have halloc :=
      Pager.alloc_of_none (s := Pager.withListPages (Pager.listPages P s.pager) s) hmap hroom
    rw [Exec.bind_of_ok halloc] at hrun
    obtain ⟨-, rfl⟩ := Prod.mk.inj hrun
    obtain ⟨hgrown, hlt⟩ := grown_of_room h.lt (Nat.mod_lt _ (by omega)) hroom
    exact ⟨⟨hgrown, hlt, fun r hr => Nat.le_trans (h.freeIn r hr) hgrown,
      fun r hr => Nat.le_trans (h.recordsIn r hr) hgrown, h5, h6, h7⟩, Nat.le_refl _⟩

/-- The list saved before becomes pending. -/
theorem freeSavedList_retains {s : TxState} (h : CanSave s)
    (hslack : s.pager.listed + 1 < 4294967296) :
    ∃ s', Pager.freeSavedList s = (.ok (), s') ∧ Retains s s' ∧ CanSave s' ∧
      s'.pager.listed ≤ s.pager.listed + 1 := by
  by_cases hlist : s.metaStruct.freeListPgid = kPageInvalidId
  · exact ⟨s, Pager.freeSavedList_of_invalid hlist, h.retains, h, Nat.le_succ _⟩
  · have hlen : (Pager.pendingRuns (Pager.addPending s.metaStruct.txid
        (s.metaStruct.freeListPgid, s.metaStruct.freeListPageCount) s.pager.pendingMap)).length =
        (Pager.pendingRuns s.pager.pendingMap).length + 1 :=
          Pager.length_pendingRuns_addPending _ _ _
    obtain ⟨h1, h2, h3, h4, h5, h6, h7⟩ := h.retains
    have hfree := Pager.free_of_ne hlist s.metaStruct.freeListPageCount s
    have hrun : Pager.freeSavedList s =
        Pager.free s.metaStruct.freeListPgid s.metaStruct.freeListPageCount s := by
      unfold Pager.freeSavedList
      rw [Exec.read_bind, if_pos hlist]
    refine ⟨_, hrun.trans hfree, ⟨h1, h2, h3, h4, h5, h6, h7⟩,
      ⟨h.lt, h.freeIn, h.recordsIn, ?_⟩, ?_⟩
    · show _ + (Pager.pendingRuns (Pager.addPending _ _ _)).length < _
      rw [hlen]
      exact hslack
    · show _ + (Pager.pendingRuns (Pager.addPending _ _ _)).length ≤ _
      rw [hlen]
      exact Nat.le_refl _

theorem saveFreeListFaulty_retains {P : Nat} (hP : kPagePairSize ≤ P) {remmap : Bool}
    {s s' : TxState} {r : Except Err Unit} (h : CanSave s)
    (hslack : s.pager.listed + 1 < 4294967296)
    (hrun : Pager.saveFreeListFaulty P remmap s = (r, s')) :
    Retains s s' ∧ s'.pager.listed ≤ s.pager.listed + 1 := by
  obtain ⟨s₁, hfree, h₁, hcan, hlen⟩ := freeSavedList_retains h hslack
  unfold Pager.saveFreeListFaulty at hrun
  rw [Exec.bind_of_ok hfree, Exec.read_bind] at hrun
  by_cases hfault : remmap ∧ Pager.allocFromMap (Pager.listPages P s₁.pager) s₁.pager.freeMap = none
  · rw [if_pos hfault] at hrun
    obtain ⟨h₂, hlen'⟩ := writeFreeListUnmapped_retains hcan hfault.2 hrun
    exact ⟨h₁.trans h₂, Nat.le_trans hlen' hlen⟩
  · rw [if_neg hfault] at hrun
    obtain ⟨h₂, hlen'⟩ := writeFreeList_retains hP hcan hrun
    exact ⟨h₁.trans h₂, Nat.le_trans hlen' hlen⟩

/-! ## The steps of a commit -/

/-- What the steps before and after `Meta::Save` do to the database. -/
structure Keeps (d d' : Database) : Prop where
  info : d'.file.shared.info = d.file.shared.info
  tx : Retains d.tx d'.tx
  listed : d'.tx.pager.listed ≤ d.tx.pager.listed + 1

theorem failing_keeps {fault : Bool} {what : String} {d d' : Database} {r : Except Err Unit}
    (h : failing fault what d = (r, d')) : d' = d := by
  unfold failing at h
  cases fault with
  | true => exact ((Prod.mk.inj h).2).symm
  | false => exact ((Prod.mk.inj h).2).symm

theorem saveMeta_keeps {env : CommitEnv} {d d' : Database} {r : Except Err Unit}
    (h : saveMeta env d = (r, d')) : d'.file.shared.info = d.file.shared.info ∧ d'.tx = d.tx := by
  obtain ⟨-, rfl⟩ := Prod.mk.inj h
  exact ⟨shared_save_switch _ _, rfl⟩

section Steps

variable {env : CommitEnv} {faults : Faults} {d d' : Database} {r : Except Err Unit}

theorem persistPages_keeps (hP : kPagePairSize ≤ env.metaEnv.pageSize) (h : CanSave d.tx)
    (hslack : d.tx.pager.listed + 1 < 4294967296) (hrun : persistPages env faults d = (r, d')) :
      Keeps d d' := by
  unfold persistPages at hrun
  have hlist : ∀ {q : Except Err Unit} {d₁ : Database},
      onTx (Pager.saveFreeListFaulty env.metaEnv.pageSize faults.remmap) d = (q, d₁) →
        Keeps d d₁ := by
    intro q d₁ hq
    obtain ⟨-, rfl⟩ := Prod.mk.inj hq
    obtain ⟨hret, hlen⟩ := saveFreeListFaulty_retains hP h hslack
      (show Pager.saveFreeListFaulty env.metaEnv.pageSize faults.remmap d.tx = _ from rfl)
    exact ⟨rfl, hret, hlen⟩
  rcases Exec.bind_cases hrun with ⟨e, he⟩ | ⟨_, d₁, h1, h2⟩
  · exact hlist he
  · obtain rfl := failing_keeps h2
    exact hlist h1

theorem checkpoint_keeps (hP : kPagePairSize ≤ env.metaEnv.pageSize) (h : CanSave d.tx)
    (hslack : d.tx.pager.listed + 1 < 4294967296) (hrun : checkpoint env faults d = (r, d')) :
      Keeps d d' := by
  unfold checkpoint at hrun
  rcases Exec.bind_cases hrun with ⟨e, he⟩ | ⟨_, d₁, h1, hrun⟩
  · exact persistPages_keeps hP h hslack he
  · have hkeeps := persistPages_keeps hP h hslack h1
    rcases Exec.bind_cases hrun with ⟨e, he⟩ | ⟨_, d₂, h2, hrun⟩
    · cases he
    · obtain ⟨hinfo, htx⟩ := saveMeta_keeps h2
      have hd₂ : Keeps d d₂ := ⟨hinfo.trans hkeeps.info, htx ▸ hkeeps.tx, htx ▸ hkeeps.listed⟩
      -- the faults of the log change nothing
      rcases Exec.bind_cases hrun with ⟨e, he⟩ | ⟨_, d₃, h3, h4⟩
      · rw [failing_keeps he]
        exact hd₂
      · rw [failing_keeps h4, failing_keeps h3]
        exact hd₂

/-- A commit, whether it returns or throws, leaves the transaction's root in the shared meta. -/
theorem commit_keeps (hP : kPagePairSize ≤ env.metaEnv.pageSize) (h : CanSave d.tx)
    (hslack : d.tx.pager.listed + 1 < 4294967296) (hrun : TxManager.commit env faults d = (r, d')) :
    Keeps { d with file := Meta.reset d.tx.metaStruct d.file } d' := by
  unfold TxManager.commit at hrun
  rw [Exec.change_bind] at hrun
  -- the first step writes the shared meta only, so the pager is as before whatever fails later
  have hstart : Keeps { d with file := Meta.reset d.tx.metaStruct d.file }
      { d with file := Meta.reset d.tx.metaStruct d.file } := ⟨rfl, h.retains, Nat.le_succ _⟩
  cases hmode : env.mode with
  | kUpdateInPlace =>
    simp only [hmode] at hrun
    rcases Exec.bind_cases hrun with ⟨e, he⟩ | ⟨_, d₁, h1, h2⟩
    · exact persistPages_keeps (d := ⟨Meta.reset d.tx.metaStruct d.file, d.tx⟩) hP h hslack he
    · have hkeeps :=
        persistPages_keeps (d := ⟨Meta.reset d.tx.metaStruct d.file, d.tx⟩) hP h hslack h1
      obtain ⟨hinfo, htx⟩ := saveMeta_keeps h2
      exact ⟨hinfo.trans hkeeps.info, htx ▸ hkeeps.tx, htx ▸ hkeeps.listed⟩
  | kWal =>
    simp only [hmode] at hrun
    rcases Exec.bind_cases hrun with ⟨e, he⟩ | ⟨_, d₁, h1, h2⟩
    · rw [failing_keeps he]
      exact hstart
    · rw [failing_keeps h1] at h2
      by_cases hneeded : env.checkpointNeeded = true
      · rw [if_pos hneeded] at h2
        exact checkpoint_keeps (d := ⟨Meta.reset d.tx.metaStruct d.file, d.tx⟩) hP h hslack h2
      · rw [if_neg hneeded] at h2
        obtain ⟨-, rfl⟩ := Prod.mk.inj h2
        exact hstart

theorem logRollBack_keeps (hP : kPagePairSize ≤ env.metaEnv.pageSize) (h : CanSave d.tx)
    (hslack : d.tx.pager.listed + 1 < 4294967296)
    (hrun : TxManager.logRollBack env faults d = (r, d')) : Keeps d d' := by
  have hstart : Keeps d d := ⟨rfl, h.retains, Nat.le_succ _⟩
  unfold TxManager.logRollBack at hrun
  cases hmode : env.mode with
  | kUpdateInPlace =>
    simp only [hmode] at hrun
    obtain ⟨-, rfl⟩ := Prod.mk.inj hrun
    exact hstart
  | kWal =>
    simp only [hmode] at hrun
    rcases Exec.bind_cases hrun with ⟨e, he⟩ | ⟨_, d₁, h1, h2⟩
    · rw [failing_keeps he]
      exact hstart
    · rw [failing_keeps h1] at h2
      by_cases hneeded : env.checkpointNeeded = true
      · rw [if_pos hneeded] at h2
        exact checkpoint_keeps hP h hslack h2
      · rw [if_neg hneeded] at h2
        obtain ⟨-, rfl⟩ := Prod.mk.inj h2
        exact hstart

/-- A rollback that returns gives the allocations back. -/
theorem rollBack_keeps (hP : kPagePairSize ≤ env.metaEnv.pageSize) (h : CanSave d.tx)
    (hslack : d.tx.pager.listed + 1 < 4294967296)
    (hrun : TxManager.rollBack env faults d = (.ok (), d')) : ∃ d₁, Keeps d d₁ ∧ d'.file = d₁.file ∧
      d'.tx.pager = d₁.tx.pager.rollback d₁.tx.metaStruct.txid := by
  obtain ⟨_, d₁, h1, h2⟩ := Exec.bind_eq_ok hrun
  obtain ⟨-, rfl⟩ := Prod.mk.inj h2
  exact ⟨d₁, logRollBack_keeps hP h hslack h1, rfl, rfl⟩

end Steps

/-! ## Atomicity -/

/-- In a state before a commit, the free list can be saved twice, and no page of the tree is free.
-/
structure Sound (P : Nat) (d : Database) : Prop where
  canSave : CanSave d.tx
  slack : d.tx.pager.listed + 2 < 4294967296
  once : ∀ p, runsCount d.tx.pager.freeMap p + runsCount d.tx.pager.allocRecords p ≤ 1
  inUse : ∀ p, Reachable P d.tx.pager.pages d.tx.metaStruct.userRoot p →
    p < d.tx.metaStruct.pageCount ∧ runsCount d.tx.pager.freeMap p = 0

theorem Database.At.sound {P : Nat} {d : Database} {s : Allocator} {t : Version} (h : d.At P s t)
    (hinv : s.Inv) (htx : s.tx = some t) : Sound P d := by
  obtain ⟨hinfo, hmaps, hgrown, hreturns⟩ := hinv.busy t htx
  have hlen := hmaps.runs.length_le
  have hlt := hinfo.lt
  have hlisted : d.tx.pager.listed = s.pager.listed := by
    unfold Pager.listed
    rw [h.freeMap, h.pendingMap]
  have hslack : s.pager.listed + 2 < 4294967296 := by
    unfold Pager.listed
    rw [List.length_append, List.length_append] at hlen
    omega
  -- a page is in the free map or drawn by the transaction, not both
  have honce : ∀ p, runsCount s.pager.freeMap p + runsCount s.pager.allocRecords p ≤ 1 :=
    fun p => by
    have := RunsOk.once hreturns p
    simp only [runsCount_append] at this
    omega
  refine ⟨⟨?_, ?_, ?_, ?_⟩, ?_, ?_, fun p hp => ?_⟩
  · rw [h.pageCount]
    exact hlt
  · rw [h.freeMap, h.pageCount]
    exact hmaps.free_in
  · rw [h.allocRecords, h.pageCount]
    intro r hr
    have := (RunsOk.mem hreturns (r := r) (by simp [hr])).2
    exact Nat.le_trans this hgrown
  · omega
  · omega
  · rw [h.freeMap, h.allocRecords]
    exact honce
  -- a page of the tree is owned, so it is in neither map
  · have howned := h.owned p hp
    have h1 := hmaps.runs.once p
    have h2 := hmaps.runs.range p
    simp only [runsCount_append] at h1 h2
    rw [h.freeMap, h.pageCount]
    have h3 := h2 (by omega)
    omega

/-- After a commit that failed and a rollback, the shared meta has the transaction's root, the pages
of its tree are as they were, and the pages drawn from the free map are free again. -/
theorem atomic_iff_unchanged {env : CommitEnv} {d d₁ d₂ : Database}
    (hP : kPagePairSize ≤ env.metaEnv.pageSize) (V : Image) (h : Sound env.metaEnv.pageSize d)
    (hcommit : Keeps { d with file := Meta.reset d.tx.metaStruct d.file } d₁) {faults : Faults}
    (hback : TxManager.rollBack env faults d₁ = (.ok (), d₂)) :
    d₂.Atomic env.metaEnv.pageSize V ↔ d.Unchanged env.metaEnv.pageSize V := by
  have hpos : 0 < env.metaEnv.pageSize := Nat.lt_of_lt_of_le (by decide) hP
  have hslack := h.slack
  have hlisted : d₁.tx.pager.listed ≤ d.tx.pager.listed + 1 := hcommit.listed
  obtain ⟨d₃, hkeeps, hfile, hpager⟩ :=
    rollBack_keeps hP (hcommit.tx.canSave (by omega)) (by omega) hback
  have hret : Retains d.tx d₃.tx := hcommit.tx.trans hkeeps.tx
  have hroot : d₂.file.shared.info.userRoot = d.tx.metaStruct.userRoot := by
    rw [hfile, hkeeps.info, hcommit.info]
    rfl
  -- Saving and rolling back write only pages that the tree of the transaction does not reach.
  have hpages : ∀ p, Reachable env.metaEnv.pageSize d.tx.pager.pages d.tx.metaStruct.userRoot p →
      d₂.tx.pager.pages p = d.tx.pager.pages p := by
    intro p hp
    obtain ⟨hlt, hfree⟩ := h.inUse p hp
    rw [hpager]
    exact hret.pages p hlt hfree
  -- The rollback frees what was drawn, the pages of the new tree included.
  have hfree : ∀ p, runsCount d₂.tx.pager.freeMap p =
      runsCount d.tx.pager.freeMap p + runsCount d.tx.pager.allocRecords p := by
    intro p
    have honce : ∀ p, runsCount d₃.tx.pager.freeMap p + runsCount d₃.tx.pager.allocRecords p ≤ 1 :=
      fun p => by
      rw [hret.drawn p]
      exact h.once p
    rw [hpager, ← hret.drawn p]
    exact (Pager.foldl_freeToMap_spec hret.lt hret.freeIn hret.recordsIn honce).1 p
  unfold Database.Atomic Database.Unchanged
  rw [hroot, snapshot_congr hpos hpages]
  refine and_congr_right fun _ => ?_
  constructor
  · intro hall p hp
    have h1 := hall p ((reachable_congr hpages p).2 hp)
    have h2 := hfree p
    omega
  · intro hall p hp
    have hp' := (reachable_congr hpages p).1 hp
    have h1 := hall p hp'
    have h2 := (h.inUse p hp').2
    rw [hfree p]
    omega

namespace Allocator

/-- A leaf with one record in page 2. -/
def oneLeaf (p : Nat) : Page :=
  if p = 2 then .node ⟨2, .kLeaf, 2, 4094, 0, [⟨4094, .inlined [1, 7], 1, false, 1⟩]⟩ else .raw []

theorem oneLeaf_reachable {p : Nat} (h : Reachable 4096 oneLeaf 2 p) : p = 2 := by
  have hvisits : ∀ {q : Nat}, Visits oneLeaf 2 q → q = 2 := by
    intro q hq
    induction hq with
    | root _ => rfl
    | child hp hn hx ih =>
      -- page 2 is a leaf
      subst ih
      obtain rfl := Page.node.inj hn
      cases hx
  rcases h with h | ⟨q, n, slot, hq, hn, hslot, hrun⟩
  · exact hvisits h
  · obtain rfl := hvisits hq
    obtain rfl := Page.node.inj hn
    obtain rfl := List.mem_singleton.1 hslot
    exact absurd hrun (by simp [Node.slotRun])

/-- A database with this leaf as the root of the open transaction `info`; `committed` is in
shared memory. -/
def oneLeafDatabase (committed info : MetaInfo) : Database where
  file := { blankFile with shared := { blankFile.shared with info := committed } }
  tx := ⟨⟨oneLeaf, [], [], []⟩, info, 2⟩

/-- The version of a database with this leaf as the root. -/
def oneLeafInfo (txid : Nat) : MetaInfo := { Meta.initInfo txid with pageCount := 3, userRoot := 2 }

/-- The transaction behind the first one has changed nothing. -/
def quietDatabase : Database := oneLeafDatabase (oneLeafInfo 2) (oneLeafInfo 3)

theorem quietDatabase_at : ∃ s t, created.run 4096 [.update 0, .alloc 1, .commit false, .update 1] =
    some s ∧ s.tx = some t ∧ quietDatabase.At 4096 s t := by
  refine ⟨_, _, rfl, rfl, rfl, rfl, rfl, rfl, rfl, fun p hp => ?_⟩
  obtain rfl := oneLeaf_reachable hp
  decide

/-- The first transaction of a new database wrote the leaf. -/
def oneRecord : Database := oneLeafDatabase (Meta.initInfo 1) (oneLeafInfo 2)

theorem oneRecord_at : ∃ s t, created.run 4096 [.update 0, .alloc 1] = some s ∧ s.tx = some t ∧
    oneRecord.At 4096 s t := by
  refine ⟨_, _, rfl, rfl, rfl, rfl, rfl, rfl, rfl, fun p hp => ?_⟩
  obtain rfl := oneLeaf_reachable hp
  decide

end Allocator

end AtomKV
