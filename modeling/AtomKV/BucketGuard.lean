import AtomKV.TreeGuard
import AtomKV.Bucket

/-!
# Buckets and the guarded pages

The calls of a write transaction on its buckets leave the guarded pages alone, with the exception of
the calls that start from an iterator: these do not copy the path, and it is the caller's business
that the leaf is not guarded.
-/

set_option autoImplicit false

namespace AtomKV

/-- The transaction at work is the write transaction, and the guarded pages are as they were. -/
def DbGuarded {env : Env} (G : Guard env) (s : Db) : Prop :=
  s.tx.writable = true ∧ Guarded G (s.treeState kPageInvalidId)

abbrev Guard.DbKept {env : Env} (G : Guard env) {α : Type} (x : DbM α) (Q : α → Prop) : Prop :=
  Exec.Keeps (DbGuarded G) x Q

namespace DbKept

variable {env : DbEnv} {G : Guard env.toEnv}

/-! ## The state -/

theorem treeState_of_writable {s : Db} (h : s.tx.writable = true) (root : Nat) :
    s.treeState root = ⟨s.pager, s.tx.metaStruct, root⟩ := by
  unfold Db.treeState
  rw [if_pos h]

/-- The root page id is not looked at. -/
theorem guarded_root {t : TxState} (h : Guarded G t) (root : Nat) :
    Guarded G { t with rootPgid := root } :=
  ⟨h.txid, h.pages, h.free, h.records, h.inFile, h.stamps,
    G.maps.congr t.metaStruct.userRoot rfl rfl rfl rfl h.maps⟩

theorem setBucket {s : Db} (h : DbGuarded G s) (id : Nat) (b : BucketImpl) :
    DbGuarded G (s.setBucket id b) := by
  refine ⟨?_, ?_⟩
  · unfold Db.setBucket
    split_ifs
    · exact h.1
    · exact h.1
  · rw [Db.treeState_setBucket]
    exact h.2

theorem modifyMap {s : Db} (h : DbGuarded G s) (id : Nat) (f : SubBucketMap → SubBucketMap) :
    DbGuarded G (s.modifyMap id f) := by
  unfold Db.modifyMap
  cases s.bucket id with
  | none => exact h
  | some b => exact setBucket h id _

theorem setRootAt {s : Db} (h : DbGuarded G s) (root : Nat) (r : RootRef) :
    DbGuarded G (s.setRootAt root r) := by
  cases r with
  | userRoot =>
    refine ⟨h.1, ?_⟩
    have hg := h.2
    rw [treeState_of_writable h.1] at hg
    rw [treeState_of_writable (s := s.setRootAt root .userRoot) h.1]
    refine ⟨hg.txid, hg.pages, hg.free, hg.records, hg.inFile, hg.stamps, ?_⟩
    exact G.maps.congr (s := ⟨s.pager, s.tx.metaStruct, kPageInvalidId⟩)
      root rfl rfl rfl rfl hg.maps
  | entry parent key => exact modifyMap h parent _

/-- A call of a bucket's tree. -/
theorem onTree {α : Type} {x : TxM α} {Q : α → Prop} (hx : G.Kept x Q) (id : Nat) :
    G.DbKept (Bucket.onTree id x) Q := by
  intro s hs
  rcases Bucket.onTree_cases s id with ⟨b, root, hb, hroot⟩ | h
  · rw [Bucket.onTree_of_root hb hroot]
    have hstate : Guarded G (s.treeState root) := by
      have hg := hs.2
      rw [treeState_of_writable hs.1] at hg ⊢
      exact guarded_root hg root
    obtain ⟨hkept, hq⟩ := hx _ hstate
    refine ⟨setRootAt ?_ _ _, hq⟩
    have hw : (s.withTree (x (s.treeState root)).2) = { s with
        pager := (x (s.treeState root)).2.pager
        tx := { s.tx with metaStruct := (x (s.treeState root)).2.metaStruct } } := by
      unfold Db.withTree
      rw [if_pos hs.1]
    refine ⟨?_, ?_⟩
    · rw [hw]
      exact hs.1
    · rw [hw, treeState_of_writable (s := { s with
        pager := (x (s.treeState root)).2.pager
        tx := { s.tx with metaStruct := (x (s.treeState root)).2.metaStruct } }) hs.1]
      exact guarded_root hkept kPageInvalidId
  · rw [h]
    exact ⟨hs, fun _ hq => by cases hq⟩

theorem change_modifyMap (id : Nat) (f : SubBucketMap → SubBucketMap) :
    G.DbKept (Exec.change fun s => s.modifyMap id f) fun _ => True :=
  Exec.Keeps.change fun _ h => modifyMap h id f

theorem atSubBucket (id : Nat) : G.DbKept (Bucket.atSubBucket id) fun _ => True := by
  intro s hs
  unfold Bucket.atSubBucket
  cases s.bucket id with
  | none => exact ⟨hs, fun _ _ => trivial⟩
  | some b => exact ⟨hs, fun _ _ => trivial⟩

theorem appendLog (record : BucketLog) : G.DbKept (Bucket.appendLog env record) fun _ => True := by
  unfold Bucket.appendLog
  exact Exec.Keeps.ite (fun _ => Exec.Keeps.change fun _ h => h) fun _ => Exec.Keeps.pure trivial

/-- Reading through a bucket's tree. -/
theorem look {α : Type} {x : TxM α} (hx : Exec.ReadOnly x) (id : Nat) :
    G.DbKept (Bucket.onTree id x) fun _ => True :=
  (Bucket.onTree_readOnly hx id).keeps

theorem get (id : Nat) (key : Bytes) : G.DbKept (Bucket.get env id key) fun _ => True :=
  look (Reads.get _ key) id

theorem pgidValue (id : Nat) (iter : BTreeIterator) :
    G.DbKept (Bucket.pgidValue env id iter) fun _ => True := by
  unfold Bucket.pgidValue
  refine Exec.Keeps.bind (look (Reads.iterValue _ iter) id) fun value _ => ?_
  exact Exec.Keeps.ite (fun _ => Exec.Keeps.raise_bind) fun _ => Exec.Keeps.pure trivial

theorem newSubBucket (r : RootRef) (w : Bool) :
    G.DbKept (Bucket.newSubBucket r w) fun _ => True := by
  unfold Bucket.newSubBucket
  refine Exec.Keeps.bind Exec.Keeps.read fun s _ => ?_
  exact Exec.Keeps.bind (Exec.Keeps.change fun _ h => h) fun _ _ => Exec.Keeps.pure trivial

theorem dropSubBucket (id : Nat) : G.DbKept (Bucket.dropSubBucket id) fun _ => True := by
  unfold Bucket.dropSubBucket
  refine Exec.Keeps.bind Exec.Keeps.read fun s _ => Exec.Keeps.bind Exec.Keeps.require fun _ _ => ?_
  exact Exec.Keeps.change fun _ h => h

/-! ## Calls by key -/

section Calls

variable (hP : 0 < env.pageSize)

include hP

theorem put (id : Nat) (key value : Bytes) (b : Bool) :
    G.DbKept (Bucket.put env id key value b) fun _ => True := by
  unfold Bucket.put
  exact Exec.Keeps.bind (appendLog _) fun _ _ => onTree (Kept.put hP key value b) id

theorem openSubBucket (id : Nat) (key : Bytes) (w : Bool) :
    G.DbKept (Bucket.openSubBucket env id key w) fun _ => True := by
  have hrest : G.DbKept (do
      let sub ← Bucket.newSubBucket (.entry id key) w
      Exec.change fun s => s.modifyMap id (SubBucketMap.modify key fun e => (sub, e.2))
      return sub) fun _ => True :=
    Exec.Keeps.bind (newSubBucket _ w) fun sub _ =>
      Exec.Keeps.bind (change_modifyMap id _) fun _ _ => Exec.Keeps.pure trivial
  unfold Bucket.openSubBucket
  refine Exec.Keeps.bind (change_modifyMap id _) fun _ _ => Exec.Keeps.bind
    (get id key) fun iter _ => ?_
  refine Exec.Keeps.ite (fun _ => ?_) fun _ => ?_
  · refine Exec.Keeps.bind (put hP id key _ true) fun _ _ => Exec.Keeps.bind
      (get id key) fun iter _ => ?_
    refine Exec.Keeps.bind (look (Reads.iterIsBucket iter) id) fun b _ => ?_
    exact Exec.Keeps.bind Exec.Keeps.require fun _ _ => hrest
  · refine Exec.Keeps.bind (look (Reads.iterIsBucket iter) id) fun b _ => ?_
    refine Exec.Keeps.ite (fun _ => Exec.Keeps.raise_bind) fun _ => ?_
    refine Exec.Keeps.bind (pgidValue id iter) fun root _ => ?_
    exact Exec.Keeps.bind (change_modifyMap id _) fun _ _ => hrest

theorem subBucket (id : Nat) (key : Bytes) (w : Bool) :
    G.DbKept (Bucket.subBucket env id key w) fun _ => True := by
  unfold Bucket.subBucket
  refine Exec.Keeps.bind (atSubBucket id) fun b _ => ?_
  refine Exec.Keeps.bind (Exec.Keeps.change fun _ h => setBucket h id _) fun _ _ => ?_
  have hrest : ∀ sub : Nat, G.DbKept (do
      let _ ← Bucket.atSubBucket sub
      return sub) fun _ => True := fun sub =>
    Exec.Keeps.bind (atSubBucket sub) fun _ _ => Exec.Keeps.pure trivial
  cases SubBucketMap.lookup key (b.subBucketMap.getD []) with
  | some e => exact hrest e.1
  | none => exact Exec.Keeps.bind (openSubBucket hP id key w) fun sub _ => hrest sub

theorem openDeleted (id : Nat) (iter : BTreeIterator) :
    G.DbKept (Bucket.openDeleted env id iter) fun _ => True := by
  unfold Bucket.openDeleted
  refine Exec.Keeps.bind (look (Reads.iterIsBucket iter) id) fun b _ => ?_
  refine Exec.Keeps.ite (fun _ => Exec.Keeps.raise_bind) fun _ => ?_
  refine Exec.Keeps.bind (look (Reads.iterKey _ iter) id) fun key _ => ?_
  exact Exec.Keeps.bind (subBucket hP id key true) fun sub _ => Exec.Keeps.pure trivial

end Calls

theorem freeRoot (id : Nat) (key : Bytes) : G.DbKept (Bucket.freeRoot id key) fun _ => True := by
  unfold Bucket.freeRoot
  refine Exec.Keeps.bind Exec.Keeps.read fun s _ => ?_
  cases s.entry id key with
  | none => exact Exec.Keeps.raise
  | some e => exact Exec.Keeps.ite (fun _ => onTree (Kept.free e.2 1) id) fun _ =>
    Exec.Keeps.pure trivial

theorem findNested (sub : Nat) (iter : BTreeIterator) :
    G.DbKept (Bucket.findNested env sub iter) fun _ => True := by
  unfold Bucket.findNested
  refine Exec.Keeps.bind (look (Reads.iterKey _ iter) sub) fun key _ => Exec.Keeps.bind
    (atSubBucket sub) fun b _ => ?_
  refine Exec.Keeps.bind Exec.Keeps.require fun _ _ => Exec.Keeps.bind Exec.Keeps.read fun s _ => ?_
  exact Exec.Keeps.pure trivial

/-! ## Calls at an iterator -/

/-- `begin` goes down from page to child. -/
theorem chain_firstLoop (fuel : Nat) (iter : BTreeIterator) (pgid : Nat)
    (hchain : ∀ slotId, G.Chain ((pgid, slotId) :: iter.stack)) :
    G.Kept (BTreeIterator.firstLoop fuel iter pgid) fun iter' => G.Chain iter'.stack := by
  have hstack : G.Chain iter.stack := by
    cases hs : iter.stack with
    | nil => trivial
    | cons v rest =>
      have h := hchain 0
      rw [hs] at h
      exact h.2
  induction fuel generalizing iter pgid with
  | zero => exact Exec.Keeps.pure hstack
  | succ fuel ih =>
    unfold BTreeIterator.firstLoop assert
    refine Exec.Keeps.bind (Kept.getNode pgid) fun n hn => Exec.Keeps.ite
      (fun _ => ?_) fun hleaf => ?_
    · refine Exec.Keeps.ite (fun _ => Exec.Keeps.pure hstack) fun _ => ?_
      refine (Kept.push iter (pgid, 0)).imp fun iter' h' => ?_
      rw [h']
      exact hchain 0
    · refine Exec.Keeps.bind (Kept.push iter (pgid, 0)) fun iter' h' => Exec.Keeps.bind
        Exec.Keeps.require fun _ _ => ?_
      refine Exec.Keeps.bind (Kept.getLeftChild pgid 0) fun child hchild => ?_
      refine ih iter' child (fun slotId => ?_) ?_
      · rw [h']
        refine ⟨fun hk => ?_, hchain 0⟩
        obtain ⟨n', hn', hmem⟩ := hchild hk
        have heq : n' = n := by
          rw [hn.2 hk] at hn'
          cases hn'
          rfl
        subst heq
        exact G.closed _ _ hk hn' (Bool.not_eq_true _ ▸ hleaf) _ hmem
      · rw [h']
        exact hchain 0

theorem begin : G.Kept BTree.begin fun iter => G.Chain iter.stack := by
  unfold BTree.begin BTreeIterator.first
  refine Exec.Keeps.bind Exec.Keeps.read fun s _ => Exec.Keeps.ite
    (fun _ => Exec.Keeps.pure trivial) fun _ => ?_
  exact chain_firstLoop _ _ _ fun _ => trivial

section AtIterator

variable (hP : 0 < env.pageSize) {iter : BTreeIterator} (hout : G.Out iter.stack)

include hP hout

theorem treeUpdate (value : Bytes) : G.Kept (BTree.update env.toEnv iter value) fun _ => True := by
  unfold BTree.update assert
  refine Exec.Keeps.bind (Kept.front iter) fun v hv => Exec.Keeps.bind
    (Kept.getNode v.1) fun n _ => ?_
  refine Exec.Keeps.bind Exec.Keeps.require fun _ _ => Exec.Keeps.bind
    (Kept.getKey v.1 v.2) fun key _ => ?_
  exact Exec.Keeps.bind (Kept.leafUpdate hP (hout v hv) v.2 key value) fun _ _ =>
    Exec.Keeps.pure trivial

theorem update (id : Nat) (value : Bytes) :
    G.DbKept (Bucket.update env id iter value) fun _ => True := by
  unfold Bucket.update
  refine Exec.Keeps.bind (look (Reads.iterKey _ iter) id) fun key _ => ?_
  refine Exec.Keeps.bind (look (Reads.iterIsBucket iter) id) fun b _ => ?_
  exact Exec.Keeps.bind (appendLog _) fun _ _ => onTree (treeUpdate hP hout value) id

theorem deleteAt (id : Nat) : G.DbKept (Bucket.deleteAt env id iter) fun _ => True :=
  onTree (Kept.deleteAt hP iter hout) id

theorem closeNested (sub : Nat) (key : Bytes) (entry : Option (Nat × Nat)) :
    G.DbKept (Bucket.closeNested env sub iter key entry) fun _ => True := by
  unfold Bucket.closeNested
  have hrest : G.DbKept (do
      Exec.change fun s => s.modifyMap sub (SubBucketMap.erase key)
      Bucket.update env sub iter (Pager.encodeU32 kPageInvalidId)) fun _ => True :=
    Exec.Keeps.bind (change_modifyMap sub _) fun _ _ => update hP hout sub _
  cases entry with
  | none => exact Exec.Keeps.raise_bind
  | some e => exact Exec.Keeps.bind (dropSubBucket e.1) fun _ _ => hrest

end AtIterator

end DbKept

end AtomKV
