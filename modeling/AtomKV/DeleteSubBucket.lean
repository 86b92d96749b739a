import AtomKV.BucketGuard
import AtomKV.Layout
import AtomKV.Snapshot

/-!
# Deleting a sub-bucket and the older versions

`BucketImpl::DeleteSubBucket` removes the records through `begin()` and `BTree::Delete(Iterator*)`,
and the path to them is not copied. Pages of older transactions stay as they are as long as the
first leaf of the bucket, record by record, belongs to the transaction.
-/

set_option autoImplicit false

namespace AtomKV

/-! ## Pages of older transactions -/

/-- The page is in use and not of this transaction: it is neither free nor was it handed out by
`Alloc`, and a node in it was last modified by an older transaction. -/
structure Db.Old (s : Db) (p : Nat) : Prop where
  inFile : p < s.tx.metaStruct.pageCount
  notFree : ∀ r ∈ s.pager.freeMap, ¬ (r.1 ≤ p ∧ p < r.1 + r.2)
  notDrawn : ∀ r ∈ s.pager.allocRecords, ¬ (r.1 ≤ p ∧ p < r.1 + r.2)
  stamp : ∀ n, s.pager.pages p = .node n → n.lastModifiedTxid < s.tx.metaStruct.txid

/-- A write transaction on a file with copy-on-write versions. -/
structure Db.Versioned (env : DbEnv) (s : Db) : Prop where
  writable : s.tx.writable = true
  /-- No page is newer than the transaction. -/
  stamps : ∀ p n, s.pager.pages p = .node n → n.lastModifiedTxid ≤ s.tx.metaStruct.txid
  /-- What an older version refers to is older as well. -/
  closed : ∀ p n, s.Old p → s.pager.pages p = .node n → n.isLeaf = false → ∀ c ∈ n.kids, s.Old c
  /-- Older pages are copied, see `copyNeeded_inPlace`. -/
  copied : ∀ p n, s.Old p → s.pager.pages p = .node n →
    BTreeIterator.copyNeeded env.toEnv s.tx.metaStruct.txid n.lastModifiedTxid = true

namespace Db.Versioned

variable {env : DbEnv} {s : Db}

/-- The pages of older transactions are guarded. -/
def guard (h : s.Versioned env) : Guard env.toEnv where
  keep := s.Old
  pages := s.pager.pages
  txid := s.tx.metaStruct.txid
  maps := .trivial
  need := h.copied
  closed := h.closed

theorem guarded (h : s.Versioned env) : DbGuarded h.guard s := by
  refine ⟨h.writable, ?_⟩
  rw [DbKept.treeState_of_writable h.writable]
  exact
    { txid := rfl
      pages := fun _ _ => rfl
      free := fun r hr p h1 h2 hold => hold.notFree r hr ⟨h1, h2⟩
      records := fun r hr p h1 h2 hold => hold.notDrawn r hr ⟨h1, h2⟩
      inFile := fun p hold => hold.inFile
      stamps := h.stamps
      maps := True.intro }

end Db.Versioned

/-! ## The records that the loop meets -/

mutual

/-- The records of the bucket deleted at `iter` are in leaves that are not `old`. -/
def OwnsNested (env : DbEnv) (old : Nat → Prop) (id : Nat) : Nat → BTreeIterator → Db → Prop
  | 0, _, _ => True
  | fuel + 1, iter, s => ∀ key sub s', Bucket.openDeleted env id iter s = (.ok (key, sub), s') →
      OwnsRecords env old id fuel sub s'

/-- The first record of the bucket `sub` is in a leaf that is not `old`, and so on when it has been
deleted; for a nested bucket, which is deleted from `id`, the same holds of its records. -/
def OwnsRecords (env : DbEnv) (old : Nat → Prop) (id : Nat) : Nat → Nat → Db → Prop
  | 0, _, _ => True
  | fuel + 1, sub, s => ∀ iter s', Bucket.onTree sub BTree.begin s = (.ok iter, s') → ¬ iter.isEnd →
      (∀ v ∈ iter.stack.head?, ¬ old v.1) ∧
      (∀ r s₁, Bucket.onTree sub (BTreeIterator.isBucket iter) s' = (.ok true, s') →
        Bucket.findNested env sub iter s' = (.ok r, s₁) → OwnsNested env old id fuel iter s₁) ∧
      ∀ s₁ s₂, Bucket.aroundNested env sub iter (Bucket.deleteSubBucketAt env id fuel iter) s' =
        (.ok (), s₁) → Bucket.deleteAt env sub iter s₁ = (.ok (), s₂) →
        OwnsRecords env old id fuel sub s₂

end

/-- Every record that `DeleteSubBucket(key)` of the bucket `id` deletes is in a leaf that is not
`old` when its turn comes. -/
def OwnsLeaves (env : DbEnv) (old : Nat → Prop) (fuel id : Nat) (key : Bytes) (s : Db) : Prop :=
  ∀ iter, Bucket.get env id key s = (.ok iter, s) → ¬ iter.isEnd → OwnsNested env old id fuel iter s

namespace DbKept

variable {env : DbEnv} {G : Guard env.toEnv} {id : Nat} (hP : 0 < env.pageSize)

include hP

/-- The nested bucket, with what is known of the recursive call. -/
theorem aroundNested {sub : Nat} {iter : BTreeIterator} {call : DbM Unit} {s : Db}
    (hs : DbGuarded G s) (hout : G.Out iter.stack)
    (hcall : ∀ r s₁, Bucket.onTree sub (BTreeIterator.isBucket iter) s = (.ok true, s) →
      Bucket.findNested env sub iter s = (.ok r, s₁) → DbGuarded G s₁ → DbGuarded G (call s₁).2) :
    DbGuarded G (Bucket.aroundNested env sub iter call s).2 := by
  have hread := Bucket.onTree_readOnly (Reads.iterIsBucket iter) sub s
  unfold Bucket.aroundNested
  refine Exec.state_bind (hread.symm ▸ hs) fun b s' hb hs' => ?_
  obtain rfl : s' = s := by
    rw [hb] at hread
    exact hread
  cases b with
  | false => exact hs'
  | true =>
    refine Exec.state_bind (findNested sub iter s' hs').1 fun r s₁ hfind h₁ => ?_
    refine Exec.state_bind (hcall r s₁ hb hfind h₁) fun _ s₂ _ h₂ => ?_
    exact (closeNested hP hout sub r.1 r.2 s₂ h₂).1

/-- The recursion: a call and its loop. -/
theorem deletes (fuel : Nat) :
    (∀ iter s, DbGuarded G s → OwnsNested env G.keep id fuel iter s →
      DbGuarded G (Bucket.deleteSubBucketAt env id fuel iter s).2) ∧
    ∀ sub s, DbGuarded G s → OwnsRecords env G.keep id fuel sub s →
      DbGuarded G (Bucket.deleteRecords env id fuel sub s).2 := by
  induction fuel with
  | zero =>
    constructor
    · intro iter s hs _
      unfold Bucket.deleteSubBucketAt
      exact hs
    · intro sub s hs _
      unfold Bucket.deleteRecords
      exact hs
  | succ fuel ih =>
    obtain ⟨ihCall, ihLoop⟩ := ih
    constructor
    · intro iter s hs howns
      unfold Bucket.deleteSubBucketAt
      refine Exec.state_bind (openDeleted hP id iter s hs).1 fun r s' hopen hs' => ?_
      unfold OwnsNested at howns
      refine Exec.state_bind (ihLoop r.2 s' hs' (howns r.1 r.2 s' hopen)) fun _ s'' _ hs'' => ?_
      exact (freeRoot id r.1 s'' hs'').1
    · intro sub s hs howns
      unfold Bucket.deleteRecords
      obtain ⟨hbegin, hchain⟩ := onTree (begin (G := G)) sub s hs
      refine Exec.state_bind hbegin fun iter s' hrun hs' => ?_
      rw [hrun] at hchain
      by_cases hend : iter.isEnd
      · rw [if_pos hend]
        exact hs'
      · rw [if_neg hend]
        unfold OwnsRecords at howns
        obtain ⟨hleaf, hnested, hnext⟩ := howns iter s' hrun hend
        have hout : G.Out iter.stack := by
          have hchain' : G.Chain iter.stack := hchain iter rfl
          cases hstack : iter.stack with
          | nil => exact fun _ hv => by cases hv
          | cons v rest =>
            rw [hstack] at hchain' hleaf
            exact Kept.out_of_chain hchain' (hleaf v rfl)
        refine Exec.state_bind (aroundNested hP hs' hout fun r s₁ hb hfind h₁ =>
          ihCall iter s₁ h₁ (hnested r s₁ hb hfind)) fun _ s₁ haround h₁ => ?_
        refine Exec.state_bind (deleteAt hP hout sub s₁ h₁).1 fun _ s₂ hdelete h₂ => ?_
        exact ihLoop sub s₂ h₂ (hnext s₁ s₂ haround hdelete)

theorem deleteSubBucket {fuel : Nat} {key : Bytes} {s : Db} (hs : DbGuarded G s)
    (howns : OwnsLeaves env G.keep fuel id key s) :
      DbGuarded G (Bucket.deleteSubBucket env fuel id key s).2 := by
  have hread := Bucket.onTree_readOnly (Reads.get env.toEnv key) id s
  unfold Bucket.deleteSubBucket
  refine Exec.state_bind (get id key s hs).1 fun iter s' hget hs' => ?_
  obtain rfl : s' = s := by
    unfold Bucket.get at hget
    rw [hget] at hread
    exact hread
  by_cases hend : iter.isEnd
  · rw [if_pos hend]
    exact hs'
  · rw [if_neg hend]
    exact Exec.state_bind ((deletes hP fuel).1 iter s' hs' (howns iter hget hend)) fun _ _ _ h => h

end DbKept

/-- **Deleting a sub-bucket respects the versions** when the leaves it starts from belong to the
transaction: pages of older transactions are not written, also when the call throws, so every
version that consists of them is read as before. -/
theorem Db.Versioned.deleteSubBucket_old {env : DbEnv} {s : Db} (h : s.Versioned env)
    (hP : 0 < env.pageSize) {fuel id : Nat} {key : Bytes}
    (howns : OwnsLeaves env s.Old fuel id key s) :
    (∀ p, s.Old p → (Bucket.deleteSubBucket env fuel id key s).2.pager.pages p = s.pager.pages p) ∧
      ∀ root, (∀ p, Reachable env.pageSize s.pager.pages root p → s.Old p) →
        snapshot env.pageSize (Bucket.deleteSubBucket env fuel id key s).2.pager.pages root =
          snapshot env.pageSize s.pager.pages root := by
  obtain ⟨hw, hguarded⟩ := DbKept.deleteSubBucket hP h.guarded howns
  rw [DbKept.treeState_of_writable hw] at hguarded
  have hpages : ∀ p, s.Old p →
      (Bucket.deleteSubBucket env fuel id key s).2.pager.pages p = s.pager.pages p :=
    hguarded.pages
  exact ⟨hpages, fun root hroot => snapshot_congr hP fun p hp => hpages p (hroot p hp)⟩

/-! ## A bucket of an older version -/

section Example

/-- The user bucket with one sub-bucket of one record, whose leaf was last modified by `txid`; the
open transaction has the id 2. -/
def oneSubBucket (txid : Nat) : Db where
  pager := (layout 256 freshMeta 2
    [(2, .leaf 1 [⟨[1], Pager.encodeU32 3, true, 0⟩]),
      (3, .leaf txid [⟨[7], [8], false, 0⟩])]).pager
  updateMeta := none
  log := []
  viewTxMap := []
  tx := TxImpl.init { freshMeta with txid := 2, pageCount := 4, userRoot := 2 } true

def inPlaceEnv : DbEnv := ⟨⟨256, byteOrder, 1, kTxInvalidId⟩, .kUpdateInPlace⟩

theorem node_of_oneSubBucket {txid p : Nat} {n : Node}
    (h : (oneSubBucket txid).pager.pages p = .node n) :
    (n.lastModifiedTxid = 1 ∨ n.lastModifiedTxid = txid) ∧ n.isLeaf = true := by
  have hlayout : (layout 256 freshMeta 2 _).pager.pages p = .node n := h
  obtain ⟨v, hv, rfl⟩ := node_of_layout hlayout
  rcases List.mem_cons.1 hv with hv | hv
  · cases hv
    exact ⟨.inl rfl, rfl⟩
  · cases List.mem_singleton.1 hv
    exact ⟨.inr rfl, rfl⟩

theorem versioned_oneSubBucket {txid : Nat} (h : txid ≤ 2) :
    (oneSubBucket txid).Versioned inPlaceEnv where
  writable := rfl
  stamps := by
    intro p n hn
    show n.lastModifiedTxid ≤ 2
    rcases (node_of_oneSubBucket hn).1 with hone | htxid
    · omega
    · omega
  closed := by
    intro p n _ hn hleaf
    rw [(node_of_oneSubBucket hn).2] at hleaf
    cases hleaf
  copied := by
    intro p n hold hn
    exact copyNeeded_inPlace rfl (hold.stamp n hn) (show 2 ≤ kTxInvalidId by decide)

/-- The sub-bucket has been opened. -/
def openedSubBucket : Db :=
  (Bucket.openDeleted inPlaceEnv kUserRootBucketId ⟨[(2, 0)], .kEq⟩ (oneSubBucket 2)).2

/-- Its record has been deleted. -/
def emptiedSubBucket : Db :=
  (Bucket.deleteAt inPlaceEnv 0 ⟨[(3, 0)], .kIter⟩
    (Bucket.aroundNested inPlaceEnv 0 ⟨[(3, 0)], .kIter⟩
    (Bucket.deleteSubBucketAt inPlaceEnv kUserRootBucketId 1 ⟨[(3, 0)], .kIter⟩)
      openedSubBucket).2).2

/-- The record is in a leaf of the transaction itself. -/
theorem ownsLeaves_oneSubBucket :
    OwnsLeaves inPlaceEnv (oneSubBucket 2).Old 3 kUserRootBucketId [1] (oneSubBucket 2) := by
  have hleaf : ¬ (oneSubBucket 2).Old 3 := fun hold => absurd (hold.stamp _ rfl) (by decide)
  have hget : Bucket.get inPlaceEnv kUserRootBucketId [1] (oneSubBucket 2) =
      (.ok ⟨[(2, 0)], .kEq⟩, oneSubBucket 2) :=
    rfl
  have hopen : Bucket.openDeleted inPlaceEnv kUserRootBucketId ⟨[(2, 0)], .kEq⟩ (oneSubBucket 2) =
      (.ok ([1], 0), openedSubBucket) := rfl
  have hbegin : Bucket.onTree 0 BTree.begin openedSubBucket =
    (.ok ⟨[(3, 0)], .kIter⟩, openedSubBucket) := rfl
  have hplain : (Bucket.onTree 0 (BTreeIterator.isBucket ⟨[(3, 0)], .kIter⟩) openedSubBucket).1 =
    .ok false := rfl
  have hempty : (Bucket.onTree 0 BTree.begin emptiedSubBucket).1 = .ok ⟨[], .kIter⟩ := rfl
  intro iter hiter _
  obtain rfl : _ = iter := Except.ok.inj (Prod.mk.inj (hget.symm.trans hiter)).1
  unfold OwnsNested
  intro key sub s' hs'
  obtain ⟨hresult, rfl⟩ := Prod.mk.inj (hopen.symm.trans hs')
  obtain ⟨rfl, rfl⟩ := Prod.mk.inj (Except.ok.inj hresult)
  unfold OwnsRecords
  intro iter s' hiter _
  obtain ⟨hresult, rfl⟩ := Prod.mk.inj (hbegin.symm.trans hiter)
  obtain rfl := Except.ok.inj hresult
  refine ⟨fun v hv => ?_, fun r s₁ hbucket _ => ?_, fun s₁ s₂ haround hdelete => ?_⟩
  · cases hv
    exact hleaf
  · rw [hbucket] at hplain
    cases hplain
  · obtain rfl : emptiedSubBucket = s₂ := by
      unfold emptiedSubBucket
      rw [haround, hdelete]
    unfold OwnsRecords
    intro iter s' hiter hend
    rw [hiter] at hempty
    cases hempty
    exact absurd (.inl rfl) hend

/-- A bucket that the transaction wrote itself is deleted. -/
theorem deleteSubBucket_old_owned : (oneSubBucket 2).Old 2 ∧
    (Bucket.deleteSubBucket inPlaceEnv 3 kUserRootBucketId [1] (oneSubBucket 2)).2.pager.pages 2 =
      (oneSubBucket 2).pager.pages 2 := by
  have hold : (oneSubBucket 2).Old 2 := by
    refine ⟨by decide, fun r hr => ?_, fun r hr => ?_, fun n hn => ?_⟩
    · cases hr
    · cases hr
    · cases hn
      decide
  exact ⟨hold, ((versioned_oneSubBucket (by decide)).deleteSubBucket_old (by decide)
    ownsLeaves_oneSubBucket).1 2 hold⟩

/-- **DeleteSubBucket writes an older page.** The bucket was committed by transaction 1, and its
leaf loses the record in place. -/
theorem not_deleteSubBucket_old :
    ¬ ∀ (env : DbEnv) (s : Db) (fuel id : Nat) (key : Bytes), s.Versioned env →
    0 < env.pageSize → ∀ p, s.Old p →
      (Bucket.deleteSubBucket env fuel id key s).2.pager.pages p = s.pager.pages p := by
  intro h
  have hold : (oneSubBucket 1).Old 3 := by
    refine ⟨by decide, fun r hr => ?_, fun r hr => ?_, fun n hn => ?_⟩
    · cases hr
    · cases hr
    · cases hn
      decide
  have hwritten :
      (Bucket.deleteSubBucket inPlaceEnv 3 kUserRootBucketId [1] (oneSubBucket 1)).2.pager.pages 3 ≠
      (oneSubBucket 1).pager.pages 3 := by decide +kernel
  exact hwritten
    (h inPlaceEnv (oneSubBucket 1) 3 kUserRootBucketId [1] (versioned_oneSubBucket (by decide))
    (by decide) 3 hold)

end Example

end AtomKV
