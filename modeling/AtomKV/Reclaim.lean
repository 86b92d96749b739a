import AtomKV.SavedMeta
import AtomKV.CommitFailure
import AtomKV.WriteGuard

/-!
# Reclaiming pages

Runs that avoid a set of pages stay so when they go back into the free map, at a release or a
rollback, and when a part of them is taken for a free list.
-/

set_option autoImplicit false

namespace AtomKV

/-- The run ends in the file, and none of its pages is to be kept. -/
structure Clear (keep : Nat → Prop) (bound : ℕ) (r : PagePair) : Prop where
  inFile : r.1 + r.2 ≤ bound
  avoids : Avoids keep r

variable {keep : Nat → Prop} {bound bound' : ℕ}

/-- Where nothing is to be kept. -/
theorem Clear.of_inFile {r : PagePair} (h : r.1 + r.2 ≤ bound) : Clear (fun _ => False) bound r :=
  ⟨h, fun _ _ _ hp => hp⟩

/-- A run and the one right behind it. -/
theorem Clear.join {a n k : ℕ} (h : Clear keep bound (a, n)) (h' : Clear keep bound (a + n, k)) :
    Clear keep bound (a, n + k) := by
  have hend : a + n + k ≤ bound := h'.inFile
  refine ⟨?_, fun p h1 h2 => ?_⟩
  · show a + (n + k) ≤ bound
    omega
  · have h2' : p < a + (n + k) := h2
    by_cases hp : p < a + n
    · exact h.avoids p h1 hp
    · refine h'.avoids p (Nat.not_lt.1 hp) ?_
      show p < a + n + k
      omega

theorem Clear.joins (hlt : bound < 4294967296) : Pager.Joins (Clear keep bound) where
  lt := fun h => Nat.lt_of_le_of_lt h.inFile hlt
  join := fun h h' => h.join h'

theorem avoids_of_runsCount {rs : List PagePair} (h : ∀ p, keep p → runsCount rs p = 0)
    {r : PagePair} (hr : r ∈ rs) : Avoids keep r := by
  intro p h1 h2 hp
  have hrun : 0 < runCount r p := (runCount_pos_iff _ _).2 ⟨h1, h2⟩
  exact Nat.ne_of_gt (Nat.lt_of_lt_of_le hrun (runCount_le_runsCount hr p)) (h p hp)

theorem runsCount_of_avoids {rs : List PagePair} (h : ∀ r ∈ rs, Avoids keep r) {p : Nat}
    (hp : keep p) : runsCount rs p = 0 := by
  refine Nat.eq_zero_of_not_pos fun hpos => ?_
  obtain ⟨r, hr, h1, h2⟩ := runsCount_pos hpos
  exact h r hr p h1 h2 hp

namespace Pager

variable {pager pager' : Pager}

/-- The pending runs that are due are released. -/
theorem release_clear (hlt : bound < 4294967296) (hfree : ∀ r ∈ pager.freeMap, Clear keep bound r)
    {releasableTxid : Nat}
    (hdue : ∀ e ∈ pager.pendingMap, e.1 < releasableTxid → ∀ r ∈ e.2, Clear keep bound r) :
    ∀ r ∈ (pager.release releasableTxid).freeMap, Clear keep bound r := by
  refine (Clear.joins hlt).foldl_freeToMap hfree fun r hr => ?_
  obtain ⟨e, he, hr⟩ := List.mem_flatMap.1 hr
  have hmem : e ∈ pager.pendingMap := (List.takeWhile_sublist _).subset he
  have hlt : e.1 < releasableTxid := by simpa using List.mem_takeWhile_imp he
  exact hdue e hmem hlt r hr

/-- What a transaction took from the free map goes back. -/
theorem rollback_clear (hlt : bound < 4294967296) (hfree : ∀ r ∈ pager.freeMap, Clear keep bound r)
    (hdrawn : ∀ r ∈ pager.allocRecords, Clear keep bound r) (txid : Nat) :
    ∀ r ∈ (pager.rollback txid).freeMap, Clear keep bound r :=
  (Clear.joins hlt).foldl_freeToMap hfree hdrawn

theorem Draws.clear (hdraws : Draws pager pager')
    (hfree : ∀ r ∈ pager.freeMap, Clear keep bound r) : (∀ r ∈ pager'.freeMap, Clear keep bound r) ∧
      ∀ r ∈ pager'.allocRecords, r ∈ pager.allocRecords ∨ Clear keep bound r := by
  cases hdraws with
  | nothing pages => exact ⟨hfree, fun r hr => .inl hr⟩
  | @run pages pgid count freeMap pos taken =>
    obtain ⟨hrun, hrest⟩ := Kept.allocFromMap_avoids (fun r hr => (hfree r hr).avoids) taken
    obtain ⟨hin, hrestIn⟩ := allocFromMap_in taken fun r hr => (hfree r hr).inFile
    refine ⟨fun r hr => ⟨hrestIn r hr, hrest r hr⟩,
      fun r hr => (List.mem_append.1 hr).imp_right fun hr => ?_⟩
    rw [List.mem_singleton.1 hr]
    exact ⟨hin, hrun⟩

end Pager

/-- What a call that may have saved the free list leaves: the list went to pages that were free, or
did not exist. -/
structure Settled (s s' : TxState) : Prop where
  txid : s'.metaStruct.txid = s.metaStruct.txid
  draws : s.pager.Draws s'.pager
  pages : ∀ p < s.metaStruct.pageCount, runsCount s.pager.freeMap p = 0 →
    s'.pager.pages p = s.pager.pages p
  nodes : ∀ p n, s'.pager.pages p = .node n → s.pager.pages p = .node n

theorem Settled.refl (s : TxState) : Settled s s :=
  ⟨rfl, .nothing s.pager.pages, fun _ _ _ => rfl, fun _ _ h => h⟩

theorem Settled.writeFreeList {P : Nat} (hP : kPagePairSize ≤ P) {s s' : TxState} (h : CanSave s)
    (hrun : Pager.writeFreeList P s = (.ok (), s')) : Settled s s' := by
  obtain ⟨hretains, -⟩ := writeFreeList_retains hP h hrun
  have hdraws : s.pager.Draws s'.pager := by
    rcases Pager.writeFreeList_draws hP h.few with ⟨s₁, hs₁, hdraws⟩ | ⟨e, s₁, he, -⟩
    · obtain rfl : s₁ = s' := (Prod.mk.inj (hs₁.symm.trans hrun)).2
      exact hdraws
    · cases he.symm.trans hrun
  cases hmap : Pager.allocFromMap (Pager.listPages P s.pager) s.pager.freeMap with
  | some q =>
    rw [Pager.writeFreeList_of_some hmap] at hrun
    obtain ⟨-, rfl⟩ := Prod.mk.inj hrun
    exact ⟨rfl, hdraws, hretains.pages, fun p n hn => Pager.node_of_writeByBytes hn⟩
  | none =>
    by_cases hroom : u32 (s.metaStruct.pageCount + Pager.listPages P s.pager) <
      s.metaStruct.pageCount
    · obtain ⟨e, he⟩ := Pager.writeFreeList_raises hmap hroom
      cases he.symm.trans hrun
    · rw [Pager.writeFreeList_of_none hmap hroom] at hrun
      obtain ⟨-, rfl⟩ := Prod.mk.inj hrun
      exact ⟨rfl, hdraws, hretains.pages, fun p n hn => Pager.node_of_writeByBytes hn⟩

/-- Runs that were bounded stay so, in the free map and in the allocation records. -/
theorem Settled.inFile {u v : TxState} (h : Settled u v) {bound : Nat}
    (hfree : ∀ r ∈ u.pager.freeMap, r.1 + r.2 ≤ bound)
    (hdrawn : ∀ r ∈ u.pager.allocRecords, r.1 + r.2 ≤ bound) :
    (∀ r ∈ v.pager.freeMap, r.1 + r.2 ≤ bound) ∧ ∀ r ∈ v.pager.allocRecords, r.1 + r.2 ≤ bound := by
  obtain ⟨hfree', hdrawn'⟩ := h.draws.clear fun r hr => Clear.of_inFile (hfree r hr)
  exact ⟨fun r hr => (hfree' r hr).inFile, fun r hr => (hdrawn' r hr).elim (hdrawn r) Clear.inFile⟩

end AtomKV
