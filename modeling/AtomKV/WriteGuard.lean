import AtomKV.BTree
import AtomKV.StoreRecord

/-!
# Pages that are not written

A `Guard` is a set of pages that a write transaction has to copy before it writes to them, closed
under going from a node to its children. Put and Delete leave such pages as they are, whatever shape
the tree is in and also when they raise: they copy the path and the siblings first, and what they
allocate is not guarded.
-/

set_option autoImplicit false

namespace AtomKV

/-- `CopyNeeded` for a page that is older than the transaction. -/
theorem copyNeeded_old {env : Env} {current txid : Nat} (h : txid < current) :
    BTreeIterator.copyNeeded env current txid = true ↔
    ¬ (env.persistedTxid < txid ∧ txid < env.minViewTxid) := by
  unfold BTreeIterator.copyNeeded BTreeIterator.isTxExpired
  by_cases hexempt : txid < env.minViewTxid ∧ env.persistedTxid < txid
  · rw [if_pos hexempt]
    exact iff_of_false Bool.false_ne_true fun hnot => hnot hexempt.symm
  · rw [if_neg hexempt]
    exact iff_of_true (decide_eq_true h) fun hand => hexempt hand.symm

/-- In the mode kUpdateInPlace, where `persisted_txid_` is not set, every older page is copied. -/
theorem copyNeeded_inPlace {env : Env} (hmode : env.persistedTxid = kTxInvalidId)
    {current txid : Nat} (h : txid < current) (hbound : current ≤ kTxInvalidId) :
      BTreeIterator.copyNeeded env current txid = true := by
  refine (copyNeeded_old h).2 fun hand => ?_
  have hnewer := hand.1
  rw [hmode] at hnewer
  exact absurd (h.trans_le hbound) (Nat.not_lt.2 hnewer.le)

/-- A property of the pager's maps and the meta that allocating and freeing keep. -/
structure MapsInv where
  holds : TxState → Prop
  /-- Pages and root pages do not matter. -/
  congr : ∀ {s s' : TxState} (root : Nat), s'.metaStruct = { s.metaStruct with userRoot := root } →
    s'.pager.freeMap = s.pager.freeMap → s'.pager.pendingMap = s.pager.pendingMap →
    s'.pager.allocRecords = s.pager.allocRecords → holds s → holds s'
  alloc : ∀ count s, holds s → holds (Pager.alloc count s).2
  free : ∀ pgid count s, holds s → holds (Pager.free pgid count s).2

/-- Nothing is asked of the maps. -/
def MapsInv.trivial : MapsInv where
  holds := fun _ => True
  congr := fun _ _ _ _ _ _ => True.intro
  alloc := fun _ _ _ => True.intro
  free := fun _ _ _ _ => True.intro

/-- The guarded pages, with their contents and the id of the transaction that must not write them.
-/
structure Guard (env : Env) where
  keep : Nat → Prop
  pages : Nat → Page
  txid : Nat
  maps : MapsInv
  need : ∀ p n, keep p → pages p = .node n →
    BTreeIterator.copyNeeded env txid n.lastModifiedTxid = true
  closed : ∀ p n, keep p → pages p = .node n → n.isLeaf = false → ∀ c ∈ n.kids, keep c

/-- The run has no guarded page. -/
def Avoids (keep : Nat → Prop) (r : PagePair) : Prop := ∀ p, r.1 ≤ p → p < r.1 + r.2 → ¬ keep p

/-- The guarded pages are as they were, and `Alloc` does not hand them out. -/
structure Guarded {env : Env} (G : Guard env) (s : TxState) : Prop where
  txid : s.metaStruct.txid = G.txid
  pages : ∀ p, G.keep p → s.pager.pages p = G.pages p
  free : ∀ r ∈ s.pager.freeMap, Avoids G.keep r
  records : ∀ r ∈ s.pager.allocRecords, Avoids G.keep r
  inFile : ∀ p, G.keep p → p < s.metaStruct.pageCount
  /-- No page is newer than the transaction. -/
  stamps : ∀ p n, s.pager.pages p = .node n → n.lastModifiedTxid ≤ G.txid
  maps : G.maps.holds s

/-- The computation leaves the guarded pages alone. -/
abbrev Guard.Kept {env : Env} (G : Guard env) {α : Type} (x : TxM α) (Q : α → Prop) : Prop :=
  Exec.Keeps (Guarded G) x Q

/-- What a node that was read tells. -/
def Guard.Read {env : Env} (G : Guard env) (pgid : Nat) (n : Node) : Prop :=
  n.lastModifiedTxid ≤ G.txid ∧ (G.keep pgid → G.pages pgid = .node n)

namespace Kept

variable {env : Env} {G : Guard env}

/-! ## The pager -/

theorem allocFromMap_avoids {keep : Nat → Prop} {count : Nat} {m m' : List PagePair} {pgid : Nat}
    (h : ∀ r ∈ m, Avoids keep r) (hrun : Pager.allocFromMap count m = some (pgid, m')) :
    Avoids keep (pgid, count) ∧ ∀ r ∈ m', Avoids keep r := by
  induction m generalizing m' with
  | nil => cases hrun
  | cons r m ih =>
    obtain ⟨start, size⟩ := r
    have hhead := h _ List.mem_cons_self
    unfold Pager.allocFromMap at hrun
    split_ifs at hrun with h1 h2
    · obtain ⟨⟨q, m₁⟩, hrest, heq⟩ := Option.map_eq_some_iff.1 hrun
      obtain ⟨rfl, rfl⟩ := Prod.mk.inj heq
      obtain ⟨hrun', hall⟩ := ih (fun r hr => h r (List.mem_cons_of_mem _ hr)) hrest
      refine ⟨hrun', fun r hr => ?_⟩
      rcases List.mem_cons.1 hr with rfl | hr
      · exact hhead
      · exact hall r hr
    · obtain ⟨rfl, rfl⟩ := Prod.mk.inj (Option.some.inj hrun)
      refine ⟨fun p h3 h4 => hhead p h3 ?_, fun r hr => ?_⟩
      · show p < start + size
        have : p < start + count := h4
        omega
      · rcases List.mem_cons.1 hr with rfl | hr
        · intro p h3 h4
          have h3' : start + count ≤ p := h3
          have h4' : p < start + count + (size - count) := h4
          refine hhead p ?_ ?_
          · show start ≤ p
            omega
          · show p < start + size
            omega
        · exact h r (List.mem_cons_of_mem _ hr)
    · obtain ⟨rfl, rfl⟩ := Prod.mk.inj (Option.some.inj hrun)
      refine ⟨fun p h3 h4 => hhead p h3 ?_, fun r hr => h r (List.mem_cons_of_mem _ hr)⟩
      show p < start + size
      have : p < start + count := h4
      omega

theorem alloc (count : Nat) :
    G.Kept (Pager.alloc count) fun pgid => Avoids G.keep (pgid, count) := by
  intro s hs
  obtain ⟨htxid, hpages, hfree, hrecords, hin, hstamps, hmaps⟩ := hs
  have hmaps := G.maps.alloc count s hmaps
  unfold Pager.alloc at hmaps ⊢
  rw [Exec.read_bind] at hmaps ⊢
  cases hrun : Pager.allocFromMap count s.pager.freeMap with
  | some r =>
    obtain ⟨pgid, freeMap⟩ := r
    rw [hrun] at hmaps
    obtain ⟨hrun', hall⟩ := allocFromMap_avoids hfree hrun
    refine ⟨⟨htxid, hpages, hall, fun r hr => ?_, hin, hstamps, hmaps⟩, fun a ha => ?_⟩
    · rcases List.mem_append.1 hr with hr | hr
      · exact hrecords r hr
      · rw [List.mem_singleton.1 hr]
        exact hrun'
    · cases ha
      exact hrun'
  | none =>
    rw [hrun] at hmaps
    by_cases hwrap : u32 (s.metaStruct.pageCount + count) < s.metaStruct.pageCount
    · simp only [hwrap, if_true] at hmaps ⊢
      exact ⟨⟨htxid, hpages, hfree, hrecords, hin, hstamps, hmaps⟩, fun a ha => by cases ha⟩
    · simp only [hwrap, if_false] at hmaps ⊢
      refine ⟨⟨htxid, hpages, hfree, hrecords, fun p hp => ?_, hstamps, hmaps⟩, fun a ha => ?_⟩
      · exact Nat.lt_of_lt_of_le (hin p hp) (Nat.not_lt.1 hwrap)
      · cases ha
        intro p h1 h2 hp
        have h1' : s.metaStruct.pageCount ≤ p := h1
        exact absurd (hin p hp) (Nat.not_lt.2 h1')

theorem free (pgid count : Nat) : G.Kept (Pager.free pgid count) fun _ => True := by
  intro s hs
  have hmaps := G.maps.free pgid count s hs.maps
  unfold Pager.free assert at hmaps ⊢
  by_cases hpgid : pgid ≠ kPageInvalidId
  · rw [Exec.require_bind hpgid] at hmaps ⊢
    exact ⟨⟨hs.txid, hs.pages, hs.free, hs.records, hs.inFile, hs.stamps, hmaps⟩,
      fun _ _ => True.intro⟩
  · rw [Exec.require_bind_not hpgid]
    exact ⟨hs, fun _ _ => True.intro⟩

/-- Writing a page that is not guarded. -/
theorem setPage {pgid : Nat} {page : Page} (hp : ¬ G.keep pgid)
    (hstamp : ∀ n, page = .node n → n.lastModifiedTxid ≤ G.txid) :
      G.Kept (Pager.setPage pgid page) fun _ => True := by
  refine Exec.Keeps.change fun s hs =>
    ⟨hs.txid, fun p hk => ?_, hs.free, hs.records, hs.inFile, fun p n hn => ?_,
    G.maps.congr s.metaStruct.userRoot rfl rfl rfl rfl hs.maps⟩
  · show Function.update s.pager.pages pgid page p = G.pages p
    have hne : p ≠ pgid := fun heq => hp (heq ▸ hk)
    rw [Function.update_of_ne hne]
    exact hs.pages p hk
  · change Function.update s.pager.pages pgid page p = .node n at hn
    by_cases heq : p = pgid
    · subst heq
      rw [Function.update_self] at hn
      exact hstamp n hn
    · rw [Function.update_of_ne heq] at hn
      exact hs.stamps p n hn

theorem setNode {pgid : Nat} {n : Node} (hp : ¬ G.keep pgid)
    (hstamp : n.lastModifiedTxid ≤ G.txid) : G.Kept (Pager.setNode pgid n) fun _ => True :=
  setPage hp fun n' hn => by
    cases hn
    exact hstamp

theorem getNode (pgid : Nat) : G.Kept (Pager.getNode pgid) (G.Read pgid) := by
  unfold Pager.getNode assert
  refine Exec.Keeps.bind Exec.Keeps.require fun _ _ => Exec.Keeps.bind Exec.Keeps.require fun _ _ =>
    Exec.Keeps.bind Exec.Keeps.read fun s hs => ?_
  cases hpage : s.pager.pages pgid with
  | raw bytes => exact Exec.Keeps.raise
  | node
      n => exact Exec.Keeps.pure ⟨hs.stamps _ _ hpage, fun hk => (hs.pages _ hk).symm.trans hpage⟩

/-- A copy is not guarded. -/
theorem copyPage (pgid : Nat) : G.Kept (Pager.copy pgid) fun q => ¬ G.keep q := by
  unfold Pager.copy
  refine Exec.Keeps.bind (alloc 1) fun q hq => ?_
  have hfresh : ¬ G.keep q := hq q (Nat.le_refl _) (Nat.lt_succ_self _)
  refine Exec.Keeps.bind Exec.Keeps.read fun s hs => ?_
  refine Exec.Keeps.bind (setPage hfresh fun n hn => hs.stamps _ n hn) fun _ _ => ?_
  exact Exec.Keeps.bind (free pgid 1) fun _ _ => Exec.Keeps.pure hfresh

/-! ## Nodes -/

/-- The transaction that a node carries is set by `Build` and `Copy` alone. -/
theorem deleteRecord_txid (n : Node) (slotId : Nat) (slot : Slot) :
    (n.deleteRecord slotId slot).lastModifiedTxid = n.lastModifiedTxid := by
  unfold Node.deleteRecord
  split
  · rfl
  · split_ifs <;> rfl

theorem restoreRecord_txid (n : Node) (slotId : Nat) (slot saved : Slot) :
    (n.restoreRecord slotId slot saved).lastModifiedTxid = n.lastModifiedTxid := by
  unfold Node.restoreRecord
  split
  · rfl
  · split_ifs <;> rfl

theorem compactify_txid {P : Nat} {n n' : Node} (h : n.compactify P = .ok n') :
    n'.lastModifiedTxid = n.lastModifiedTxid := by
  unfold Node.compactify at h
  obtain ⟨_, -, h⟩ := except_bind_eq_ok h
  cases h
  rfl

theorem requestSpaceFor_txid {P : Nat} {n n' : Node} {keySize valueSize : Nat} {slotNeeded b : Bool}
    (h : n.requestSpaceFor P keySize valueSize slotNeeded = .ok (b, n')) :
    n'.lastModifiedTxid = n.lastModifiedTxid := by
  unfold Node.requestSpaceFor at h
  obtain ⟨maxInline, -, h⟩ := except_bind_eq_ok h
  obtain ⟨free, -, h⟩ := except_bind_eq_ok h
  generalize (if maxInline < keySize + valueSize
    then Node.spaceNeeded kOverflowRecordSize slotNeeded
    else Node.spaceNeeded (keySize + valueSize) slotNeeded) = needed at h
  split_ifs at h
  · cases h
    rfl
  · obtain ⟨freeAfter, -, h⟩ := except_bind_eq_ok h
    split_ifs at h
    · obtain ⟨n₁, h₁, h⟩ := except_bind_eq_ok h
      cases h
      exact compactify_txid h₁
    · cases h
      rfl

theorem getSlot (n : Node) (slotId : Nat) : G.Kept (n.getSlot slotId) fun _ => True := by
  unfold Node.getSlot
  split
  · exact Exec.Keeps.pure trivial
  · exact Exec.Keeps.raise

theorem getKey (pgid slotId : Nat) : G.Kept (Node.getKey env pgid slotId) fun _ => True := by
  unfold Node.getKey
  refine Exec.Keeps.bind (getNode pgid) fun n _ => Exec.Keeps.bind (getSlot n slotId) fun _ _ => ?_
  exact Exec.Keeps.bind Exec.Keeps.read fun _ _ => Exec.Keeps.pure trivial

theorem fillRate (pgid : Nat) : G.Kept (Node.fillRate env pgid) fun _ => True := by
  unfold Node.fillRate
  exact Exec.Keeps.bind (getNode pgid) fun n _ => Exec.Keeps.lift fun _ _ => trivial

theorem countOf (pgid : Nat) : G.Kept (Node.countOf pgid) fun _ => True := by
  unfold Node.countOf
  exact Exec.Keeps.bind (getNode pgid) fun n _ => Exec.Keeps.pure trivial

/-- Writing a run that avoids the guarded pages. -/
theorem writeRecord (hP : 0 < env.pageSize) {pgid : Nat} {key value : Bytes}
    (hout : Avoids G.keep (pgid, Pager.getPageCount env.pageSize (key.length + value.length))) :
    G.Kept
      (Exec.change fun s =>
        { s with pager := Pager.writeRecord env.pageSize s.pager pgid key value } : TxM Unit)
      fun _ => True := by
  refine Exec.Keeps.change fun s hs => ?_
  obtain ⟨htxid, hpages, hfree, hrecords, hin, hstamps, hmaps⟩ := hs
  refine ⟨htxid, fun p hk => ?_, by simpa using hfree, by simpa using hrecords, hin, fun p n hn =>
    ?_, G.maps.congr s.metaStruct.userRoot rfl (by simp) (by simp) (by simp) hmaps⟩
  · show (Pager.writeRecord env.pageSize s.pager pgid key value).pages p = G.pages p
    rw [Pager.writeRecord_pages hP]
    · exact hpages p hk
    · by_contra hbetween
      rw [not_or, Nat.not_lt, Nat.not_le] at hbetween
      exact hout p hbetween.1 hbetween.2 hk
  · exact hstamps p n (Pager.node_of_writeRecord hn)

theorem storeRecordToOverflowPages (hP : 0 < env.pageSize) (key value : Bytes) :
    G.Kept (Node.storeRecordToOverflowPages env key value) fun _ => True := by
  rw [Node.storeRecordToOverflowPages_eq]
  refine Exec.Keeps.bind (alloc _) fun pgid hout => Exec.Keeps.bind
    (writeRecord hP hout) fun _ _ => ?_
  exact Exec.Keeps.pure trivial

theorem placeRecord {pgid : Nat} (hp : ¬ G.keep pgid) (slotId size : Nat) (record : Record) :
    G.Kept (Node.placeRecord env pgid slotId size record) fun _ => True := by
  unfold Node.placeRecord assert
  refine Exec.Keeps.bind (getNode pgid) fun n hn => Exec.Keeps.bind Exec.Keeps.require fun _ _ => ?_
  refine Exec.Keeps.bind (getSlot n slotId) fun slot _ => Exec.Keeps.bind
    (setNode hp hn.1) fun _ _ => ?_
  exact Exec.Keeps.lift fun _ _ => trivial

theorem storeRecord (hP : 0 < env.pageSize) {pgid : Nat} (hp : ¬ G.keep pgid) (slotId : Nat)
    (key value : Bytes) : G.Kept (Node.storeRecord env pgid slotId key value) fun _ => True := by
  unfold Node.storeRecord
  dsimp only
  refine Exec.Keeps.ite (fun _ => Exec.Keeps.raise_bind) fun _ => ?_
  refine Exec.Keeps.ite (fun _ => Exec.Keeps.raise_bind) fun _ => ?_
  refine Exec.Keeps.bind (getNode pgid) fun n hn => Exec.Keeps.bind
    (getSlot n slotId) fun slot _ => ?_
  refine Exec.Keeps.bind (setNode hp hn.1) fun _ _ => Exec.Keeps.bind
    (Exec.Keeps.lift fun _ _ => trivial) fun _ _ => ?_
  refine Exec.Keeps.ite (fun _ => ?_) fun _ => placeRecord hp _ _ _
  exact Exec.Keeps.bind (storeRecordToOverflowPages hP key value) fun _ _ => placeRecord hp _ _ _

theorem copy (pgid : Nat) : G.Kept (Node.copy pgid) fun q => ¬ G.keep q := by
  unfold Node.copy
  refine Exec.Keeps.bind (copyPage pgid) fun q hq => Exec.Keeps.bind (getNode q) fun n _ => ?_
  refine Exec.Keeps.bind Exec.Keeps.read fun s hs => Exec.Keeps.bind (setNode hq ?_) fun _ _ =>
    Exec.Keeps.pure hq
  exact Nat.le_of_eq hs.txid

theorem reverseSlots {pgid : Nat} (hp : ¬ G.keep pgid) :
    G.Kept (Node.reverseSlots pgid) fun _ => True := by
  unfold Node.reverseSlots
  exact Exec.Keeps.bind (getNode pgid) fun n hn => setNode hp hn.1

/-! ## Branches -/

theorem branchBuild {pgid : Nat} (hp : ¬ G.keep pgid) (tailChild : Nat) :
    G.Kept (BranchNode.build env pgid tailChild) fun _ => True := by
  unfold BranchNode.build
  exact Exec.Keeps.bind Exec.Keeps.read fun s hs => setNode hp (Nat.le_of_eq hs.txid)

theorem getTailChild (pgid : Nat) : G.Kept (BranchNode.getTailChild pgid) fun _ => True := by
  unfold BranchNode.getTailChild
  exact Exec.Keeps.bind (getNode pgid) fun n _ => Exec.Keeps.pure trivial

theorem setTailChild {pgid : Nat} (hp : ¬ G.keep pgid) (child : Nat) :
    G.Kept (BranchNode.setTailChild pgid child) fun _ => True := by
  unfold BranchNode.setTailChild
  exact Exec.Keeps.bind (getNode pgid) fun n hn => setNode hp hn.1

/-- What is read from a guarded page is one of its children. -/
theorem getLeftChild (pgid slotId : Nat) : G.Kept (BranchNode.getLeftChild pgid slotId)
    fun c => G.keep pgid → ∃ n, G.pages pgid = .node n ∧ c ∈ n.kids := by
  unfold BranchNode.getLeftChild
  refine Exec.Keeps.bind (getNode pgid) fun n hn => Exec.Keeps.ite
    (fun _ => Exec.Keeps.pure fun hk => ?_) fun _ => ?_
  · exact ⟨n, hn.2 hk, List.mem_append_right _ List.mem_cons_self⟩
  · unfold Node.getSlot
    cases hslot : n.slots[slotId]? with
    | none => exact Exec.Keeps.raise_bind
    | some slot =>
      refine Exec.Keeps.pure fun hk => ⟨n, hn.2 hk, List.mem_append_left _ ?_⟩
      exact List.mem_map_of_mem (List.mem_of_getElem? hslot)

theorem withLeftChild {n : Node} (hn : n.lastModifiedTxid ≤ G.txid) (slotId child : Nat) :
    G.Kept (BranchNode.withLeftChild n slotId child) fun n' => n'.lastModifiedTxid ≤ G.txid := by
  unfold BranchNode.withLeftChild
  exact Exec.Keeps.bind (getSlot n slotId) fun slot _ => Exec.Keeps.pure hn

theorem setLeftChild {pgid : Nat} (hp : ¬ G.keep pgid) (slotId child : Nat) :
    G.Kept (BranchNode.setLeftChild pgid slotId child) fun _ => True := by
  unfold BranchNode.setLeftChild
  refine Exec.Keeps.bind (getNode pgid) fun n hn => Exec.Keeps.ite
    (fun _ => setTailChild hp child) fun _ => ?_
  exact Exec.Keeps.bind (withLeftChild hn.1 slotId child) fun n' hn' => setNode hp hn'

theorem getRightChild (pgid slotId : Nat) :
    G.Kept (BranchNode.getRightChild pgid slotId) fun _ => True := by
  unfold BranchNode.getRightChild assert
  refine Exec.Keeps.bind (getNode pgid) fun n _ => Exec.Keeps.bind Exec.Keeps.require fun _ _ => ?_
  refine Exec.Keeps.ite (fun _ => Exec.Keeps.pure trivial) fun _ => ?_
  exact Exec.Keeps.bind (getSlot n (slotId + 1)) fun slot _ => Exec.Keeps.pure trivial

theorem setRightChild {pgid : Nat} (hp : ¬ G.keep pgid) (slotId child : Nat) :
    G.Kept (BranchNode.setRightChild pgid slotId child) fun _ => True := by
  unfold BranchNode.setRightChild assert
  refine Exec.Keeps.bind (getNode pgid) fun n hn => Exec.Keeps.bind Exec.Keeps.require fun _ _ => ?_
  refine Exec.Keeps.ite (fun _ => setTailChild hp child) fun _ => ?_
  exact Exec.Keeps.bind (withLeftChild hn.1 (slotId + 1) child) fun n' hn' => setNode hp hn'

/-- Requesting space leaves the stamp of the node. -/
theorem requestSpaceFor {n : Node} (hn : n.lastModifiedTxid ≤ G.txid) (keySize valueSize : Nat)
    (slotNeeded : Bool) :
    G.Kept (Exec.lift (n.requestSpaceFor env.pageSize keySize valueSize slotNeeded))
      fun r => r.2.lastModifiedTxid ≤ G.txid := by
  refine Exec.Keeps.lift fun r hr => ?_
  obtain ⟨b, n'⟩ := r
  rw [requestSpaceFor_txid hr]
  exact hn

section Writes

variable (hP : 0 < env.pageSize) {pgid : Nat} (hp : ¬ G.keep pgid)

include hP hp

theorem updateKey (slotId : Nat) (key : Bytes) :
    G.Kept (BranchNode.updateKey env pgid slotId key) fun _ => True := by
  unfold BranchNode.updateKey
  refine Exec.Keeps.bind (getNode pgid) fun n hn => Exec.Keeps.bind
    (getSlot n slotId) fun saved _ => ?_
  have hdeleted : (n.deleteRecord slotId saved).lastModifiedTxid ≤ G.txid :=
    (deleteRecord_txid n slotId saved).trans_le hn.1
  refine Exec.Keeps.bind (setNode hp hdeleted) fun _ _ => ?_
  refine Exec.Keeps.bind (requestSpaceFor hdeleted _ _ _) fun r hr => ?_
  obtain ⟨success, n'⟩ := r
  refine Exec.Keeps.ite (fun _ => ?_) fun _ => ?_
  · refine Exec.Keeps.bind (getSlot n' slotId) fun slot _ => ?_
    refine Exec.Keeps.bind (setNode hp ?_) fun _ _ => Exec.Keeps.pure trivial
    exact (restoreRecord_txid n' slotId slot saved).trans_le hr
  · refine Exec.Keeps.bind (getSlot n' slotId) fun slot _ => Exec.Keeps.bind
      (setNode hp hr) fun _ _ => ?_
    refine Exec.Keeps.bind (storeRecord hP hp slotId key []) fun _ _ => ?_
    refine Exec.Keeps.bind (getNode pgid) fun n'' _ => ?_
    exact Exec.Keeps.bind (Exec.Keeps.lift fun _ _ => trivial) fun _ _ => Exec.Keeps.pure trivial

theorem branchUpdate (slotId : Nat) (key : Bytes) (child : Nat) (isRightChild : Bool) :
    G.Kept (BranchNode.update env pgid slotId key child isRightChild) fun _ => True := by
  unfold BranchNode.update
  refine Exec.Keeps.bind (updateKey hP hp slotId key) fun success _ => ?_
  refine Exec.Keeps.ite (fun _ => Exec.Keeps.pure trivial) fun _ => ?_
  refine Exec.Keeps.ite (fun _ => ?_) fun _ => ?_
  · exact Exec.Keeps.bind (setRightChild hp slotId child) fun _ _ => Exec.Keeps.pure trivial
  · refine Exec.Keeps.bind (getNode pgid) fun n hn => Exec.Keeps.bind
      (withLeftChild hn.1 slotId child) fun n' hn' => ?_
    exact Exec.Keeps.bind (setNode hp hn') fun _ _ => Exec.Keeps.pure trivial

theorem branchInsert (slotId : Nat) (key : Bytes) (child : Nat) (isRightChild : Bool) :
    G.Kept (BranchNode.insert env pgid slotId key child isRightChild) fun _ => True := by
  unfold BranchNode.insert assert
  refine Exec.Keeps.bind (getNode pgid) fun n hn => Exec.Keeps.bind Exec.Keeps.require fun _ _ => ?_
  refine Exec.Keeps.bind (requestSpaceFor hn.1 _ _ _) fun r hr => ?_
  obtain ⟨success, n'⟩ := r
  refine Exec.Keeps.ite (fun _ => Exec.Keeps.pure trivial) fun _ => ?_
  have hrest : ∀ n'' : Node, n''.lastModifiedTxid ≤ G.txid → G.Kept (do
      Pager.setNode pgid n''
      Node.storeRecord env pgid slotId key []
      return true) fun _ => True := fun n'' hn'' =>
    Exec.Keeps.bind (setNode hp hn'') fun _ _ =>
      Exec.Keeps.bind (storeRecord hP hp slotId key []) fun _ _ => Exec.Keeps.pure trivial
  refine Exec.Keeps.ite (fun _ => Exec.Keeps.ite (fun _ => hrest _ hr) fun _ => ?_) fun _ =>
    hrest _ hr
  exact Exec.Keeps.bind (getSlot n' slotId) fun moved _ => hrest _ hr

theorem branchAppend (key : Bytes) (child : Nat) (isRightChild : Bool) :
    G.Kept (BranchNode.append env pgid key child isRightChild) fun _ => True := by
  unfold BranchNode.append
  exact Exec.Keeps.bind (countOf pgid) fun count _ => branchInsert hP hp
    count key child isRightChild

omit hP in
theorem branchDelete (slotId : Nat) (rightChild : Bool) :
    G.Kept (BranchNode.delete env pgid slotId rightChild) fun _ => True := by
  unfold BranchNode.delete
  refine Exec.Keeps.bind (getNode pgid) fun n hn => Exec.Keeps.bind
    (getSlot n slotId) fun slot _ => ?_
  have hend : ∀ n' : Node, n'.lastModifiedTxid ≤ G.txid → G.Kept (do
      Pager.setNode pgid n'
      Exec.lift (n'.checkLayout env.pageSize)) fun _ => True := fun n' hn' =>
    Exec.Keeps.bind (setNode hp hn') fun _ _ => Exec.Keeps.lift fun _ _ => trivial
  have hrest : ∀ n' : Node, n'.lastModifiedTxid ≤ G.txid → G.Kept (
      if rightChild then
        if slotId + 1 < n'.count then do
          let n ← BranchNode.withLeftChild n' (slotId + 1) slot.word
          Pager.setNode pgid { n with slots := n.slots.eraseIdx slotId }
          Exec.lift (Node.checkLayout env.pageSize { n with slots := n.slots.eraseIdx slotId })
        else do
          Pager.setNode pgid { n' with tailChild := slot.word, slots := n'.slots.eraseIdx slotId }
          Exec.lift (Node.checkLayout env.pageSize
            { n' with tailChild := slot.word, slots := n'.slots.eraseIdx slotId })
      else do
        Pager.setNode pgid { n' with slots := n'.slots.eraseIdx slotId }
        Exec.lift (Node.checkLayout env.pageSize { n' with slots := n'.slots.eraseIdx slotId }))
          fun _ => True := by
    intro n' hn'
    refine Exec.Keeps.ite (fun _ => Exec.Keeps.ite (fun _ => ?_) fun _ => hend _ hn') fun _ =>
      hend _ hn'
    exact Exec.Keeps.bind (withLeftChild hn' (slotId + 1) slot.word) fun n'' hn'' => hend _ hn''
  cases slot.record with
  | inlined bytes => exact hrest _ hn.1
  | overflow run => exact Exec.Keeps.bind (free run _) fun _ _ => hrest _ hn.1

omit hP in
theorem branchPop (rightChild : Bool) :
    G.Kept (BranchNode.pop env pgid rightChild) fun _ => True := by
  unfold BranchNode.pop
  exact Exec.Keeps.bind (countOf pgid) fun count _ => branchDelete hp (count - 1) rightChild

/-! ## Leaves -/

omit hP in
theorem leafBuild : G.Kept (LeafNode.build env pgid) fun _ => True := by
  unfold LeafNode.build
  exact Exec.Keeps.bind Exec.Keeps.read fun s hs => setNode hp (Nat.le_of_eq hs.txid)

omit hP hp in
theorem isBucket (pgid slotId : Nat) : G.Kept (LeafNode.isBucket pgid slotId) fun _ => True := by
  unfold LeafNode.isBucket
  refine Exec.Keeps.bind (getNode pgid) fun n _ => Exec.Keeps.bind
    (getSlot n slotId) fun slot _ => ?_
  exact Exec.Keeps.pure trivial

omit hP in
theorem setIsBucket (slotId : Nat) (b : Bool) :
    G.Kept (LeafNode.setIsBucket pgid slotId b) fun _ => True := by
  unfold LeafNode.setIsBucket
  refine Exec.Keeps.bind (getNode pgid) fun n hn => Exec.Keeps.bind
    (getSlot n slotId) fun slot _ => ?_
  exact setNode hp hn.1

omit hP hp in
theorem getValue (pgid slotId : Nat) :
    G.Kept (LeafNode.getValue env pgid slotId) fun _ => True := by
  unfold LeafNode.getValue
  refine Exec.Keeps.bind (getNode pgid) fun n _ => Exec.Keeps.bind
    (getSlot n slotId) fun slot _ => ?_
  exact Exec.Keeps.bind Exec.Keeps.read fun _ _ => Exec.Keeps.pure trivial

theorem leafUpdate (slotId : Nat) (key value : Bytes) :
    G.Kept (LeafNode.update env pgid slotId key value) fun _ => True := by
  unfold LeafNode.update
  refine Exec.Keeps.bind (getNode pgid) fun n hn => Exec.Keeps.bind
    (getSlot n slotId) fun saved _ => ?_
  have hdeleted : (n.deleteRecord slotId saved).lastModifiedTxid ≤ G.txid :=
    (deleteRecord_txid n slotId saved).trans_le hn.1
  refine Exec.Keeps.bind (setNode hp hdeleted) fun _ _ => ?_
  refine Exec.Keeps.bind (requestSpaceFor hdeleted _ _ _) fun r hr => ?_
  obtain ⟨success, n'⟩ := r
  refine Exec.Keeps.ite (fun _ => ?_) fun _ => ?_
  · refine Exec.Keeps.bind (getSlot n' slotId) fun slot _ => ?_
    refine Exec.Keeps.bind (setNode hp ?_) fun _ _ => Exec.Keeps.pure trivial
    exact (restoreRecord_txid n' slotId slot saved).trans_le hr
  · refine Exec.Keeps.bind (setNode hp hr) fun _ _ => ?_
    refine Exec.Keeps.bind (storeRecord hP hp slotId key value) fun _ _ => ?_
    refine Exec.Keeps.bind (getNode pgid) fun n'' _ => ?_
    exact Exec.Keeps.bind (Exec.Keeps.lift fun _ _ => trivial) fun _ _ => Exec.Keeps.pure trivial

theorem leafInsert (slotId : Nat) (key value : Bytes) :
    G.Kept (LeafNode.insert env pgid slotId key value) fun _ => True := by
  unfold LeafNode.insert assert
  refine Exec.Keeps.bind (getNode pgid) fun n hn => Exec.Keeps.bind Exec.Keeps.require fun _ _ => ?_
  refine Exec.Keeps.bind (requestSpaceFor hn.1 _ _ _) fun r hr => ?_
  obtain ⟨success, n'⟩ := r
  refine Exec.Keeps.ite (fun _ => Exec.Keeps.pure trivial) fun _ => ?_
  refine Exec.Keeps.bind (setNode hp hr) fun _ _ => ?_
  exact Exec.Keeps.bind (storeRecord hP hp slotId key value) fun _ _ => Exec.Keeps.pure trivial

theorem leafAppend (key value : Bytes) :
    G.Kept (LeafNode.append env pgid key value) fun _ => True := by
  unfold LeafNode.append
  exact Exec.Keeps.bind (countOf pgid) fun count _ => leafInsert hP hp count key value

omit hP in
theorem leafDelete (slotId : Nat) : G.Kept (LeafNode.delete env pgid slotId) fun _ => True := by
  unfold LeafNode.delete
  refine Exec.Keeps.bind (getNode pgid) fun n hn => Exec.Keeps.bind
    (getSlot n slotId) fun slot _ => ?_
  have hend : ∀ n' : Node, n'.lastModifiedTxid ≤ G.txid → G.Kept (do
      Pager.setNode pgid n'
      Exec.lift (n'.checkLayout env.pageSize)) fun _ => True := fun n' hn' =>
    Exec.Keeps.bind (setNode hp hn') fun _ _ => Exec.Keeps.lift fun _ _ => trivial
  dsimp only
  cases slot.record with
  | inlined bytes => exact hend _ hn.1
  | overflow run => exact Exec.Keeps.bind (free run _) fun _ _ => hend _ hn.1

omit hP in
theorem leafPop : G.Kept (LeafNode.pop env pgid) fun _ => True := by
  unfold LeafNode.pop
  exact Exec.Keeps.bind (countOf pgid) fun count _ => leafDelete hp (count - 1)

end Writes

end Kept

end AtomKV
