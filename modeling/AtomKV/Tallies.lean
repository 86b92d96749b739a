import AtomKV.Allocator
import AtomKV.ManagerSteps
import AtomKV.Rollback

/-!
# The pages of the maps

No page is free and pending, or either of them twice, and none of them is behind the end of the
file. While a transaction is open this is said of the maps that a rollback would bring back. Every
event keeps it; a commit has to count the pages of the transaction anew.
-/

set_option autoImplicit false

namespace AtomKV

namespace Manager

variable {env : ManagerEnv} {s s' : Manager} {info : MetaInfo}

/-- What the open transaction has taken from the free map. -/
def drawn (s : Manager) : List PagePair := if s.updateTx.isSome then s.pager.allocRecords else []

/-- The runs that are pending for other transactions than the next one. -/
def othersPending (s : Manager) : List (Nat × List PagePair) :=
  Pager.othersPending (s.shared.txid + 1) s.pager.pendingMap

/-- No page is counted twice: what a rollback would free, what is pending for older transactions and
what is behind the end of the committed file. -/
structure Tallied (s : Manager) : Prop where
  once : ∀ p, runsCount s.pager.freeMap p + runsCount s.drawn p +
    (if s.shared.pageCount ≤ p then 1 else 0) + Pager.pendingCount s.othersPending p ≤
      if 2 ≤ p then 1 else 0
  sorted : Pager.PendingSorted s.pager.pendingMap
  room : s.shared.pageCount ≤ kPageMaxCount

/-- Without a transaction nothing is pending for the next one. -/
theorem Sound.othersPending_eq (h : s.Sound) (hidle : s.updateTx = none) :
    s.othersPending = s.pager.pendingMap := by
  refine List.filter_eq_self.2 fun e he => decide_eq_true ?_
  rcases h.dated e he with hle | ⟨info, htx, -⟩
  · omega
  · exact absurd (hidle.symm.trans htx) (by simp)

theorem drawn_idle (hidle : s.updateTx = none) : s.drawn = [] := by
  unfold drawn
  rw [hidle]
  rfl

theorem drawn_open (htx : s.updateTx = some info) : s.drawn = s.pager.allocRecords := by
  unfold drawn
  rw [htx]
  rfl

theorem Tallied.once_idle (h : s.Tallied) (hsound : s.Sound) (hidle : s.updateTx = none) (p : Nat) :
    runsCount s.pager.freeMap p + (if s.shared.pageCount ≤ p then 1 else 0) +
      Pager.pendingCount s.pager.pendingMap p ≤ if 2 ≤ p then 1 else 0 := by
  have hp := h.once p
  rw [drawn_idle hidle, hsound.othersPending_eq hidle, runsCount_nil, Nat.add_zero] at hp
  exact hp

/-- What the calls of a transaction keep of the counts. -/
structure Counted (s : Manager) (u : TxState) : Prop where
  txid : u.metaStruct.txid = s.shared.txid + 1
  free : ∀ p, runsCount u.pager.freeMap p + runsCount u.pager.allocRecords p =
    runsCount s.pager.freeMap p + runsCount s.pager.allocRecords p
  pending : Pager.othersPending (s.shared.txid + 1) u.pager.pendingMap = s.othersPending
  sorted : Pager.PendingSorted u.pager.pendingMap

theorem Counted.alloc (count : Nat) (u : TxState) (h : s.Counted u) :
    s.Counted (Pager.alloc count u).2 := by
  obtain ⟨htxid, hsame | ⟨pgid, freeMap, taken, hpager⟩⟩ := Pager.alloc_pager count u
  · refine ⟨htxid.trans h.txid, ?_, ?_, ?_⟩
    · rw [hsame]
      exact h.free
    · rw [hsame]
      exact h.pending
    · rw [hsame]
      exact h.sorted
  · refine ⟨htxid.trans h.txid, fun p => ?_, ?_, ?_⟩
    · rw [hpager, ← h.free p, Pager.runsCount_allocFromMap taken p]
      simp only [runsCount_append, runsCount_cons, runsCount_nil]
      omega
    · rw [hpager]
      exact h.pending
    · rw [hpager]
      exact h.sorted

theorem Counted.free_pages (pgid count : Nat) (u : TxState) (h : s.Counted u) :
    s.Counted (Pager.free pgid count u).2 := by
  rcases Pager.free_pager pgid count u with hsame | hpend
  · rw [hsame]
    exact h
  · rw [hpend]
    refine ⟨h.txid, h.free, ?_, h.sorted.addPending _ _⟩
    show Pager.othersPending _ (Pager.addPending u.metaStruct.txid _ _) = _
    rw [h.txid, Pager.othersPending_addPending]
    exact h.pending

def counted (s : Manager) : MapsInv where
  holds := s.Counted
  congr := fun _ hinfo hfree hpending hdrawn h =>
    ⟨hinfo ▸ h.txid, hfree ▸ hdrawn ▸ h.free, hpending ▸ h.pending, hpending ▸ h.sorted⟩
  alloc := Counted.alloc
  free := Counted.free_pages

/-- No page. -/
def NoPage (_ : Nat) : Prop := False

theorem not_needed (e : Env) (s : Manager) (p : Nat) (n : Node) (hp : NoPage p)
    (_ : Page.raw [] = .node n) :
    BTreeIterator.copyNeeded e (s.shared.txid + 1) n.lastModifiedTxid = true :=
  hp.elim

theorem not_followed (p : Nat) (n : Node) (hp : NoPage p) (_ : Page.raw [] = .node n)
    (_ : n.isLeaf = false) : ∀ c ∈ n.kids, NoPage c :=
  hp.elim

/-- Nothing is guarded but the counts. -/
def countsGuard (e : Env) (s : Manager) : Guard e where
  keep := NoPage
  pages := fun _ => .raw []
  txid := s.shared.txid + 1
  maps := s.counted
  need := not_needed e s
  closed := not_followed

theorem Tallied.work (h : s.Tallied) (hsound : s.Sound) {α : Type} {x : TxM α}
    (hx : s.Guarding env x) (hstep : s.work x = some s') : s'.Tallied := by
  obtain ⟨info, u, htx, hu, rfl⟩ := work_eq_some hstep
  have htxid : info.txid = s.shared.txid + 1 := (hsound.working info htx).txid
  have hstart : Guarded (s.countsGuard (env.tx s)) (s.txState info) := by
    refine ⟨htxid, fun _ hp => absurd hp not_false, fun _ _ _ _ _ hp => hp, fun _ _ _ _ _ hp => hp,
      fun _ hp => absurd hp not_false, hsound.stamps, htxid, fun _ => rfl, rfl, h.sorted⟩
  have hend : Guarded (s.countsGuard (env.tx s)) u := hu ▸ (hx _ _ hstart).1
  have hcounts : s.Counted u := hend.maps
  refine ⟨fun p => ?_, hcounts.sorted, h.room⟩
  have hp := h.once p
  rw [drawn_open htx, ← hcounts.free p, ← hcounts.pending] at hp
  exact hp

/-- What an Update leaves pending. -/
theorem Sound.pending_begun (h : s.Sound) (hstep : s.update = some s') {e : Nat × List PagePair}
    (he : e ∈ s'.pager.pendingMap) : e ∈ s.pager.pendingMap ∧ e.1 ≤ s.shared.txid := by
  obtain ⟨hidle, -, rfl⟩ := update_eq_some hstep
  have hmem : e ∈ s.pager.pendingMap := (List.dropWhile_sublist _).subset he
  refine ⟨hmem, ?_⟩
  rcases h.dated e hmem with hle | ⟨info, htx, -⟩
  · exact hle
  · exact absurd (hidle.symm.trans htx) (by simp)

theorem Sound.othersPending_begun (h : s.Sound) (hstep : s.update = some s') :
    s'.othersPending = s'.pager.pendingMap := by
  refine List.filter_eq_self.2 fun e he => decide_eq_true ?_
  have hle := (h.pending_begun hstep he).2
  obtain ⟨-, -, rfl⟩ := update_eq_some hstep
  exact Nat.ne_of_lt (Nat.lt_succ_of_le hle)

theorem Tallied.update (h : s.Tallied) (hsound : s.Sound) (hstep : s.update = some s') :
    s'.Tallied := by
  have hrest := hsound.othersPending_begun hstep
  obtain ⟨hidle, -, rfl⟩ := update_eq_some hstep
  have hold := hsound.oldest_le_shared
  have hsplit := Pager.pendingRuns_split (s.oldestViewTxid - 1) s.pager.pendingMap
  have hfrees : Pager.Frees s.pager.freeMap
      (Pager.pendingRuns (s.pager.pendingMap.takeWhile fun e => e.1 < s.oldestViewTxid - 1))
        s.shared.pageCount := by
    refine ⟨hsound.lt, hsound.free, fun r hr => ?_, fun p => ?_⟩
    · obtain ⟨e, he, hr⟩ := List.mem_flatMap.1 hr
      have hlt : e.1 < s.oldestViewTxid - 1 := by simpa using List.mem_takeWhile_imp he
      exact hsound.pending e ((List.takeWhile_sublist _).subset he) (by omega) r hr
    · have hp := h.once_idle hsound hidle p
      rw [← Pager.runsCount_pendingRuns, ← hsplit, runsCount_append] at hp
      split_ifs at hp <;> omega
  refine ⟨fun p => ?_, h.sorted.sublist (List.dropWhile_sublist _), h.room⟩
  have hp := h.once_idle hsound hidle p
  rw [← Pager.runsCount_pendingRuns, ← hsplit, runsCount_append, Pager.runsCount_pendingRuns,
    Pager.runsCount_pendingRuns] at hp
  have hfree : runsCount (s.pager.release (s.oldestViewTxid - 1)).freeMap p =
      runsCount s.pager.freeMap p +
        Pager.pendingCount (s.pager.pendingMap.takeWhile fun e => e.1 < s.oldestViewTxid - 1)
          p := by
    rw [← Pager.runsCount_pendingRuns]
    exact hfrees.foldl_counts p
  rw [hrest]
  show runsCount (s.pager.release (s.oldestViewTxid - 1)).freeMap p + 0 +
    (if s.shared.pageCount ≤ p then 1 else 0) + Pager.pendingCount
      (s.pager.pendingMap.dropWhile fun e => e.1 < s.oldestViewTxid - 1) p ≤ _
  rw [hfree]
  omega

/-! ## Commit and RollBack -/

theorem pendingCount_othersPending_le (txid : Nat) (map : List (Nat × List PagePair)) (p : Nat) :
    Pager.pendingCount (Pager.othersPending txid map) p ≤ Pager.pendingCount map p := by
  rw [← Pager.runsCount_pendingRuns, ← Pager.runsCount_pendingRuns]
  exact Pager.runsCount_othersPending_le txid map p

/-- A run that is drawn leaves the free map. -/
theorem runsCount_draws {pager pager' : Pager} (h : pager.Draws pager') (p : Nat) :
    runsCount pager'.freeMap p + runsCount pager'.allocRecords p =
        runsCount pager.freeMap p + runsCount pager.allocRecords p ∧
      runsCount pager'.freeMap p ≤ runsCount pager.freeMap p := by
  cases h with
  | nothing pages => exact ⟨rfl, Nat.le_refl _⟩
  | run pages pos taken =>
    have hp := Pager.runsCount_allocFromMap taken p
    simp only [runsCount_append, runsCount_cons, runsCount_nil]
    omega

section Ends

variable {checkpointNeeded : Bool} {faults : Faults}

/-- The pages of the transaction that commits are counted. -/
theorem Tallied.commit (hP : kPagePairSize ≤ env.pageSize) (h : s.Tallied) (hsound : s.Sound)
    (hret : s.Returns env (.commit checkpointNeeded faults))
    (hcount : ∀ info, s.updateTx = some info → info.pageCount ≤ kPageMaxCount ∧
      ∀ p, availCount (s.txState info) p + Pager.pendingCount s.pager.pendingMap p ≤
        if 2 ≤ p then 1 else 0)
    (hstep : s.commit env checkpointNeeded faults = some s') : s'.Tallied := by
  obtain ⟨info, file, u, htx, hsettled, rfl, rfl, -⟩ := commit_eq_some hP hsound hret hstep
  obtain ⟨hroom, hcount⟩ := hcount _ htx
  have hmap : u.pager.pendingMap = s.pager.pendingMap := hsettled.draws.pendingMap_eq
  refine ⟨fun p => ?_, ?_, hroom⟩
  · have hp := hcount p
    have hfree : runsCount u.pager.freeMap p ≤ runsCount s.pager.freeMap p :=
      (runsCount_draws hsettled.draws p).2
    have hpending := pendingCount_othersPending_le (file.shared.info.txid + 1) u.pager.pendingMap p
    rw [hmap] at hpending
    show runsCount u.pager.freeMap p + 0 + (if file.shared.info.pageCount ≤ p then 1 else 0) +
      Pager.pendingCount (Pager.othersPending (file.shared.info.txid + 1) u.pager.pendingMap) p ≤ _
    rw [hmap]
    have hp : runsCount s.pager.freeMap p + (if file.shared.info.pageCount ≤ p then 1 else 0) +
      Pager.pendingCount s.pager.pendingMap p ≤ if 2 ≤ p then 1 else 0 := hp
    omega
  · show Pager.PendingSorted u.pager.pendingMap
    rw [hmap]
    exact h.sorted

theorem Tallied.rollBack (hP : kPagePairSize ≤ env.pageSize) (h : s.Tallied) (hsound : s.Sound)
    (hret : s.Returns env (.rollBack checkpointNeeded faults))
    (hstep : s.rollBack env checkpointNeeded faults = some s') : s'.Tallied := by
  obtain ⟨info, file, u, htx, hsettled, rfl, hshared, -⟩ := rollBack_eq_some hP hsound hret hstep
  have hworking := hsound.working info htx
  obtain ⟨hfree, hdrawn⟩ := hsettled.inFile hsound.free hworking.drawn
  have hmap : u.pager.pendingMap = s.pager.pendingMap := hsettled.draws.pendingMap_eq
  have hs : (s.after env ⟨file, { u with pager := u.pager.rollback info.txid }⟩).shared =
    s.shared := hshared
  -- the list moves runs between the two, and their sum stays
  have hcounts : ∀ p, runsCount u.pager.freeMap p + runsCount u.pager.allocRecords p =
      runsCount s.pager.freeMap p + runsCount s.drawn p := fun p => by
    rw [drawn_open htx]
    exact (runsCount_draws hsettled.draws p).1
  have hfrees : Pager.Frees u.pager.freeMap u.pager.allocRecords s.shared.pageCount := by
    refine ⟨hsound.lt, hfree, hdrawn, fun p => ?_⟩
    have hp := h.once p
    have hcount := hcounts p
    split_ifs at hp <;> omega
  -- Rollback files the drawn runs and drops the pending ones of the transaction
  refine ⟨fun p => ?_, ?_, hs ▸ h.room⟩
  · have hp := h.once p
    have hback : runsCount (u.pager.rollback info.txid).freeMap p =
        runsCount u.pager.freeMap p + runsCount u.pager.allocRecords p := hfrees.foldl_counts p
    have hpending := pendingCount_othersPending_le (s.shared.txid + 1)
      (Pager.othersPending info.txid u.pager.pendingMap) p
    rw [hmap, hworking.txid] at hpending
    show runsCount (u.pager.rollback info.txid).freeMap p + 0 +
      (if (s.after env ⟨file, { u with pager := u.pager.rollback info.txid }⟩).shared.pageCount ≤ p
        then 1 else 0) +
      Pager.pendingCount (Pager.othersPending
        ((s.after env ⟨file, { u with pager := u.pager.rollback info.txid }⟩).shared.txid + 1)
        (Pager.othersPending info.txid u.pager.pendingMap)) p ≤ _
    rw [hs, hback, hcounts p, hmap, hworking.txid]
    have hp : _ + Pager.pendingCount (Pager.othersPending (s.shared.txid + 1) s.pager.pendingMap)
      p ≤ _ := hp
    omega
  · show (Pager.othersPending info.txid u.pager.pendingMap).Pairwise _
    rw [hmap]
    exact h.sorted.filter _

end Ends

end Manager

end AtomKV
