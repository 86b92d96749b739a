import AtomKV.WriteGuard

/-!
# Put and Delete leave the guarded pages

The B+tree operations, function by function. A lookup walks from a page to its children, so once
it leaves the guarded pages it does not come back; after `CopyAllPagesByPath` no page of the
path is guarded.
-/

set_option autoImplicit false

namespace AtomKV

/-- Along the stack, the front first, a guarded page is followed by guarded pages only. -/
def Guard.Chain {env : Env} (G : Guard env) : List (Nat × Nat) → Prop
  | (child, _) :: (parent, slotId) :: rest => (G.keep parent → G.keep child) ∧
      G.Chain ((parent, slotId) :: rest)
  | _ => True

/-- No page of the stack is guarded. -/
def Guard.Out {env : Env} (G : Guard env) (stack : List (Nat × Nat)) : Prop :=
  ∀ v ∈ stack, ¬ G.keep v.1

namespace Kept

variable {env : Env} {G : Guard env}

/-! ## Lookup -/

theorem lowerBoundLoop (pgid : Nat) (key : Bytes) (fuel first len : Nat) (eq : Bool) :
    G.Kept (Node.lowerBoundLoop env pgid key fuel first len eq) fun _ => True := by
  induction fuel generalizing first len eq with
  | zero => exact Exec.Keeps.pure trivial
  | succ fuel ih =>
    unfold Node.lowerBoundLoop
    refine Exec.Keeps.ite (fun _ => Exec.Keeps.pure trivial) fun _ => ?_
    exact Exec.Keeps.bind (getKey pgid _) fun slotKey _ => Exec.Keeps.ite
      (fun _ => ih _ _ _) fun _ => ih _ _ _

theorem nodeLowerBound (pgid : Nat) (key : Bytes) :
    G.Kept (Node.lowerBound env pgid key) fun _ => True := by
  unfold Node.lowerBound
  exact Exec.Keeps.bind (countOf pgid) fun count _ => lowerBoundLoop pgid key _ _ _ _

theorem push (iter : BTreeIterator) (v : Nat × Nat) :
    G.Kept (BTreeIterator.push iter v) fun iter' => iter'.stack = v :: iter.stack := by
  unfold BTreeIterator.push assert
  exact Exec.Keeps.bind Exec.Keeps.require fun _ _ => Exec.Keeps.pure rfl

theorem downPage (iter : BTreeIterator) : G.Kept (BTreeIterator.downPage iter)
    fun r => ∀ pgid ∈ r, ∀ v ∈ iter.stack.head?, G.keep v.1 → G.keep pgid := by
  unfold BTreeIterator.downPage
  cases hstack : iter.stack with
  | nil =>
    refine Exec.Keeps.bind Exec.Keeps.read fun s _ => Exec.Keeps.ite (fun _ => ?_) fun _ => ?_
    · exact Exec.Keeps.pure fun _ h => by cases h
    · exact Exec.Keeps.pure fun _ _ _ h => by cases h
  | cons v rest =>
    obtain ⟨parent, slotId⟩ := v
    refine Exec.Keeps.bind (getNode parent) fun n hn => Exec.Keeps.ite (fun _ => ?_) fun hleaf => ?_
    · exact Exec.Keeps.pure fun _ h => by cases h
    · refine Exec.Keeps.bind (getLeftChild parent slotId) fun child hchild => Exec.Keeps.pure ?_
      rintro _ h v hv hk
      cases h
      cases hv
      obtain ⟨n', hn', hmem⟩ := hchild hk
      have heq : n' = n := by
        rw [hn.2 hk] at hn'
        cases hn'
        rfl
      subst heq
      exact G.closed _ _ hk hn' (Bool.not_eq_true _ ▸ hleaf) _ hmem

/-- A step down keeps the chain. -/
theorem down (iter : BTreeIterator) (key : Bytes) (hchain : G.Chain iter.stack) :
    G.Kept (BTreeIterator.down env iter key) fun r => G.Chain r.2.stack := by
  have hpushed : ∀ {pgid : Nat} (slotId : Nat), (∀ v ∈ iter.stack.head?, G.keep v.1 → G.keep pgid) →
      G.Chain ((pgid, slotId) :: iter.stack) := by
    intro pgid slotId h
    cases hstack : iter.stack with
    | nil => trivial
    | cons v rest =>
      rw [hstack] at h hchain
      exact ⟨h v rfl, hchain⟩
  unfold BTreeIterator.down
  refine Exec.Keeps.bind (downPage iter) fun r hr => ?_
  cases r with
  | none => exact Exec.Keeps.pure hchain
  | some pgid =>
    refine Exec.Keeps.bind (getNode pgid) fun n _ => Exec.Keeps.ite (fun _ => ?_) fun _ => ?_
    · refine Exec.Keeps.bind (nodeLowerBound pgid key) fun r' _ => ?_
      obtain ⟨slotId, eq⟩ := r'
      refine Exec.Keeps.bind (push _ _) fun iter' h' => Exec.Keeps.pure ?_
      rw [h']
      exact hpushed _ (hr pgid rfl)
    · refine Exec.Keeps.bind (push _ _) fun iter' h' => Exec.Keeps.pure ?_
      rw [h']
      exact hpushed _ (hr pgid rfl)

theorem descend (key : Bytes) (fuel : Nat) (iter : BTreeIterator) (hchain : G.Chain iter.stack) :
    G.Kept (BTreeIterator.descend env key fuel iter) fun iter' => G.Chain iter'.stack := by
  induction fuel generalizing iter with
  | zero => exact Exec.Keeps.pure hchain
  | succ fuel ih =>
    unfold BTreeIterator.descend
    refine Exec.Keeps.bind (down iter key hchain) fun r hr => ?_
    obtain ⟨moved, iter'⟩ := r
    exact Exec.Keeps.ite (fun _ => ih iter' hr) fun _ => Exec.Keeps.pure hr

theorem lowerBound (key : Bytes) :
    G.Kept (BTree.lowerBound env key) fun iter => G.Chain iter.stack :=
  descend key _ _ trivial

theorem getLeafNode (iter : BTreeIterator) :
    G.Kept (BTreeIterator.getLeafNode iter) fun _ => True := by
  unfold BTreeIterator.getLeafNode BTreeIterator.front
  refine Exec.Keeps.ite (fun _ => Exec.Keeps.raise_bind) fun _ => ?_
  cases iter.stack with
  | nil => exact Exec.Keeps.raise
  | cons v rest => exact Exec.Keeps.pure trivial

theorem iterIsBucket (iter : BTreeIterator) :
    G.Kept (BTreeIterator.isBucket iter) fun _ => True := by
  unfold BTreeIterator.isBucket
  exact Exec.Keeps.bind (getLeafNode iter) fun v _ => isBucket v.1 v.2

theorem iterValue (iter : BTreeIterator) : G.Kept (BTreeIterator.value env iter) fun _ => True := by
  unfold BTreeIterator.value
  exact Exec.Keeps.bind (getLeafNode iter) fun v _ => getValue v.1 v.2

/-! ## Copying the path -/

/-- Below a page that need not be copied there is no guarded page on the path. -/
theorem out_of_chain {stack : List (Nat × Nat)} {pgid slotId : Nat}
    (hchain : G.Chain ((pgid, slotId) :: stack)) (hp : ¬ G.keep pgid) :
      G.Out ((pgid, slotId) :: stack) := by
  induction stack generalizing pgid slotId with
  | nil =>
    intro v hv
    rw [List.mem_singleton.1 hv]
    exact hp
  | cons w stack ih =>
    obtain ⟨parent, i⟩ := w
    obtain ⟨hstep, hrest⟩ := hchain
    intro v hv
    rcases List.mem_cons.1 hv with rfl | hv
    · exact hp
    · exact ih hrest (fun hk => hp (hstep hk)) v hv

/-- A page that `CopyNeeded` does not ask to copy is not guarded. -/
theorem not_keep_of_read {s : TxState} {pgid : Nat} {n : Node} (hs : Guarded G s)
    (hn : G.Read pgid n) (h : ¬ BTreeIterator.copyNeeded env s.metaStruct.txid n.lastModifiedTxid =
      true) : ¬ G.keep pgid := by
  intro hk
  rw [hs.txid] at h
  exact h (G.need pgid n hk (hn.2 hk))

theorem copyPath (stack : List (Nat × Nat)) (lower : Option Nat) (hchain : G.Chain stack) :
    G.Kept (BTreeIterator.copyPath env stack lower) fun r => G.Out r.1 := by
  induction stack generalizing lower with
  | nil => exact Exec.Keeps.pure fun _ hv => by cases hv
  | cons v rest ih =>
    obtain ⟨pgid, slotId⟩ := v
    have hrest : G.Chain rest := by
      cases rest with
      | nil => trivial
      | cons w rest => exact hchain.2
    unfold BTreeIterator.copyPath
    refine Exec.Keeps.bind (getNode pgid) fun n hn => Exec.Keeps.bind Exec.Keeps.read fun s hs => ?_
    refine Exec.Keeps.ite (fun _ => ?_) fun hnot => ?_
    · refine Exec.Keeps.bind (copy pgid) fun q hq => ?_
      have hgo : G.Kept (do
          let upper ← BTreeIterator.copyPath env rest (some q)
          return ((q, slotId) :: upper.1, upper.2)) fun r => G.Out r.1 := by
        refine Exec.Keeps.bind (ih (some q) hrest) fun r hr => Exec.Keeps.pure ?_
        intro v hv
        rcases List.mem_cons.1 hv with rfl | hv
        · exact hq
        · exact hr v hv
      refine Exec.Keeps.ite (fun _ => ?_) fun _ => hgo
      cases lower with
      | none => exact Exec.Keeps.raise_bind
      | some child => exact Exec.Keeps.bind (setLeftChild hq slotId child) fun _ _ => hgo
    · have hp := not_keep_of_read hs hn hnot
      have hend : G.Kept (pure ((pgid, slotId) :: rest, none) : TxM (List (Nat × Nat) × Option Nat))
        fun r => G.Out r.1 := Exec.Keeps.pure (out_of_chain hchain hp)
      refine Exec.Keeps.ite (fun _ => ?_) fun _ => hend
      cases lower with
      | none => exact Exec.Keeps.raise_bind
      | some child => exact Exec.Keeps.bind (setLeftChild hp slotId child) fun _ _ => hend

/-- Another root. -/
theorem setRoot (root : Nat) :
    G.Kept (Exec.change fun s => { s with rootPgid := root } : TxM Unit) fun _ => True :=
  Exec.Keeps.change fun s hs => ⟨hs.txid, hs.pages, hs.free, hs.records, hs.inFile, hs.stamps,
    G.maps.congr s.metaStruct.userRoot rfl rfl rfl rfl hs.maps⟩

theorem copyAllPagesByPath (iter : BTreeIterator) (hchain : G.Chain iter.stack) :
    G.Kept (BTreeIterator.copyAllPagesByPath env iter) fun iter' => G.Out iter'.stack := by
  unfold BTreeIterator.copyAllPagesByPath
  refine Exec.Keeps.ite (fun hnil => Exec.Keeps.pure ?_) fun _ => ?_
  · rw [hnil]
    exact fun _ hv => by cases hv
  · refine Exec.Keeps.bind (copyPath iter.stack none hchain) fun r hr => ?_
    obtain ⟨stack, root⟩ := r
    cases root with
    | none => exact Exec.Keeps.pure hr
    | some root => exact Exec.Keeps.bind (setRoot root) fun _ _ => Exec.Keeps.pure hr

/-! ## Splitting -/

section Split

variable (hP : 0 < env.pageSize) {left right : Nat} (hleft : ¬ G.keep left)
  (hright : ¬ G.keep right)

include hP hleft hright

theorem splitLeafLoop (n : Nat) : G.Kept (BTree.splitLeafLoop env left right n) fun _ => True := by
  induction n with
  | zero => exact Exec.Keeps.pure trivial
  | succ i ih =>
    unfold BTree.splitLeafLoop assert
    refine Exec.Keeps.bind (getKey left i) fun key _ => Exec.Keeps.bind
      (getValue left i) fun value _ => ?_
    refine Exec.Keeps.bind (leafAppend hP hright key value) fun success _ => ?_
    refine Exec.Keeps.bind Exec.Keeps.require fun _ _ => Exec.Keeps.bind
      (countOf right) fun count _ => ?_
    refine Exec.Keeps.bind (isBucket left i) fun b _ => Exec.Keeps.bind
      (setIsBucket hright _ b) fun _ _ => ?_
    refine Exec.Keeps.bind (leafPop hleft) fun _ _ => Exec.Keeps.bind
      (fillRate left) fun rate _ => ?_
    exact Exec.Keeps.ite (fun _ => Exec.Keeps.pure trivial) fun _ => ih

theorem splitLeafInsert (slotId : Nat) (key value : Bytes) (b : Bool) :
    G.Kept (BTree.splitLeafInsert env left right slotId key value b) fun _ => True := by
  unfold BTree.splitLeafInsert assert
  refine Exec.Keeps.bind (countOf left) fun leftCount _ => Exec.Keeps.ite (fun _ => ?_) fun _ => ?_
  · refine Exec.Keeps.bind (leafInsert hP hright _ key value) fun success _ => ?_
    have hend : G.Kept (do
        let leftCount ← Node.countOf left
        LeafNode.setIsBucket right (slotId - leftCount) b) fun _ => True :=
      Exec.Keeps.bind (countOf left) fun _ _ => setIsBucket hright _ b
    refine Exec.Keeps.ite (fun _ => ?_) fun _ => hend
    refine Exec.Keeps.bind (getKey right 0) fun firstKey _ => Exec.Keeps.bind (getValue right 0)
      fun firstValue _ => ?_
    refine Exec.Keeps.bind (leafAppend hP hleft firstKey firstValue) fun _ _ => ?_
    refine Exec.Keeps.bind Exec.Keeps.require fun _ _ => Exec.Keeps.bind
      (countOf left) fun count _ => ?_
    refine Exec.Keeps.bind (isBucket right 0) fun c _ => Exec.Keeps.bind
      (setIsBucket hleft _ c) fun _ _ => ?_
    refine Exec.Keeps.bind (leafDelete hright 0) fun _ _ => Exec.Keeps.bind
      (countOf left) fun _ _ => ?_
    refine Exec.Keeps.bind (leafInsert hP hright _ key value) fun _ _ => ?_
    exact Exec.Keeps.bind Exec.Keeps.require fun _ _ => hend
  · refine Exec.Keeps.bind (leafInsert hP hleft _ key value) fun success _ => ?_
    exact Exec.Keeps.bind Exec.Keeps.require fun _ _ => setIsBucket hleft _ b

omit hright in
theorem splitLeaf (slotId : Nat) (key value : Bytes) (b : Bool) :
    G.Kept (BTree.splitLeaf env left slotId key value b) fun q => ¬ G.keep q := by
  unfold BTree.splitLeaf assert
  refine Exec.Keeps.bind (countOf left) fun leftCount _ => Exec.Keeps.bind
    Exec.Keeps.require fun _ _ => ?_
  refine Exec.Keeps.bind (alloc 1) fun q hq => ?_
  have hfresh : ¬ G.keep q := hq q (Nat.le_refl _) (Nat.lt_succ_self _)
  refine Exec.Keeps.bind (leafBuild hfresh) fun _ _ => Exec.Keeps.bind
    Exec.Keeps.require fun _ _ => ?_
  refine Exec.Keeps.bind (fillRate left) fun _ _ => Exec.Keeps.bind Exec.Keeps.require fun _ _ => ?_
  refine Exec.Keeps.bind (splitLeafLoop hP hleft hfresh leftCount) fun _ _ => ?_
  refine Exec.Keeps.bind (reverseSlots hfresh) fun _ _ => Exec.Keeps.bind
    (fillRate left) fun _ _ => ?_
  refine Exec.Keeps.bind Exec.Keeps.require fun _ _ => ?_
  refine Exec.Keeps.bind (splitLeafInsert hP hleft hfresh slotId key value b) fun _ _ => ?_
  refine Exec.Keeps.bind (countOf left) fun _ _ => Exec.Keeps.bind (countOf q) fun _ _ => ?_
  exact Exec.Keeps.bind Exec.Keeps.require fun _ _ => Exec.Keeps.pure hfresh

theorem splitBranchLoop (n : Nat) :
    G.Kept (BTree.splitBranchLoop env left right n) fun _ => True := by
  induction n with
  | zero => exact Exec.Keeps.pure trivial
  | succ i ih =>
    unfold BTree.splitBranchLoop assert
    refine Exec.Keeps.bind (getKey left i) fun key _ => Exec.Keeps.bind (getLeftChild left i)
      fun child _ => ?_
    refine Exec.Keeps.bind (branchAppend hP hright key child false) fun success _ => ?_
    refine Exec.Keeps.bind Exec.Keeps.require fun _ _ => Exec.Keeps.bind
      (branchPop hleft false) fun _ _ => ?_
    refine Exec.Keeps.bind (fillRate left) fun rate _ => ?_
    exact Exec.Keeps.ite (fun _ => Exec.Keeps.pure trivial) fun _ => ih

theorem splitBranchInsert (slotId : Nat) (key : Bytes) (child : Nat) :
    G.Kept (BTree.splitBranchInsert env left right slotId key child) fun _ => True := by
  unfold BTree.splitBranchInsert assert
  refine Exec.Keeps.bind (countOf left) fun leftCount _ => Exec.Keeps.ite (fun _ => ?_) fun _ => ?_
  · refine Exec.Keeps.bind (branchInsert hP hright _ key child false) fun success _ => ?_
    refine Exec.Keeps.ite (fun _ => ?_) fun _ => Exec.Keeps.pure trivial
    refine Exec.Keeps.bind (getKey right 0) fun firstKey _ => Exec.Keeps.bind (getLeftChild right 0)
      fun first _ => ?_
    refine Exec.Keeps.bind (branchAppend hP hleft firstKey first true) fun _ _ => ?_
    refine Exec.Keeps.bind Exec.Keeps.require fun _ _ => Exec.Keeps.bind
      (branchDelete hright 0 false) fun _ _ => ?_
    refine Exec.Keeps.bind (countOf left) fun _ _ => ?_
    refine Exec.Keeps.bind (branchInsert hP hright _ key child false) fun _ _ => ?_
    exact Exec.Keeps.require.imp fun _ _ => trivial
  · refine Exec.Keeps.bind (branchInsert hP hleft _ key child false) fun success _ => ?_
    exact Exec.Keeps.require.imp fun _ _ => trivial

omit hP in
theorem splitBranchRise : G.Kept (BTree.splitBranchRise env left right) fun _ => True := by
  unfold BTree.splitBranchRise assert
  refine Exec.Keeps.bind (countOf left) fun leftCount _ => Exec.Keeps.bind (countOf right)
    fun rightCount _ => ?_
  refine Exec.Keeps.ite (fun _ => ?_) fun _ => ?_
  · refine Exec.Keeps.bind Exec.Keeps.require fun _ _ => Exec.Keeps.bind
      (getKey left _) fun upKey _ => ?_
    exact Exec.Keeps.bind (branchPop hleft true) fun _ _ => Exec.Keeps.pure trivial
  · refine Exec.Keeps.bind Exec.Keeps.require fun _ _ => Exec.Keeps.bind
      (getKey right 0) fun upKey _ => ?_
    refine Exec.Keeps.bind (getLeftChild right 0) fun child _ => ?_
    refine Exec.Keeps.bind (branchDelete hright 0 false) fun _ _ => ?_
    exact Exec.Keeps.bind (setTailChild hleft child) fun _ _ => Exec.Keeps.pure trivial

omit hright in
theorem splitBranch (slotId : Nat) (key : Bytes) (child : Nat) :
    G.Kept (BTree.splitBranch env left slotId key child) fun r => ¬ G.keep r.2 := by
  unfold BTree.splitBranch assert
  refine Exec.Keeps.bind (countOf left) fun leftCount _ => Exec.Keeps.bind
    Exec.Keeps.require fun _ _ => ?_
  refine Exec.Keeps.bind (alloc 1) fun q hq => ?_
  have hfresh : ¬ G.keep q := hq q (Nat.le_refl _) (Nat.lt_succ_self _)
  refine Exec.Keeps.bind (branchBuild hfresh _) fun _ _ => Exec.Keeps.bind
    Exec.Keeps.require fun _ _ => ?_
  refine Exec.Keeps.bind (fillRate left) fun _ _ => Exec.Keeps.bind Exec.Keeps.require fun _ _ => ?_
  refine Exec.Keeps.bind (getLeftChild left slotId) fun insertLeftChild _ => ?_
  refine Exec.Keeps.bind (setLeftChild hleft slotId child) fun _ _ => ?_
  refine Exec.Keeps.bind (splitBranchLoop hP hleft hfresh leftCount) fun _ _ => ?_
  refine Exec.Keeps.bind (reverseSlots hfresh) fun _ _ => Exec.Keeps.bind
    (fillRate left) fun _ _ => ?_
  refine Exec.Keeps.bind Exec.Keeps.require fun _ _ => Exec.Keeps.bind
    (getTailChild left) fun tail _ => ?_
  refine Exec.Keeps.bind (setTailChild hfresh tail) fun _ _ => ?_
  refine Exec.Keeps.bind (splitBranchInsert hP hleft hfresh slotId key insertLeftChild)
    fun _ _ => ?_
  exact Exec.Keeps.bind (splitBranchRise hleft hfresh) fun upKey _ => Exec.Keeps.pure hfresh

end Split

/-! ## Put -/

section Put

variable (hP : 0 < env.pageSize)

include hP

theorem putBranch (stack : List (Nat × Nat)) (hout : G.Out stack) (left right : Nat) (key : Bytes) :
    G.Kept (BTree.putBranch env stack left right key) fun _ => True := by
  induction stack generalizing left right key with
  | nil =>
    unfold BTree.putBranch
    refine Exec.Keeps.bind (alloc 1) fun root hroot => Exec.Keeps.bind (setRoot root) fun _ _ => ?_
    have hfresh : ¬ G.keep root := hroot root (Nat.le_refl _) (Nat.lt_succ_self _)
    refine Exec.Keeps.bind (branchBuild hfresh left) fun _ _ => ?_
    exact Exec.Keeps.bind (branchAppend hP hfresh key right true) fun _ _ => Exec.Keeps.pure trivial
  | cons v rest ih =>
    obtain ⟨pgid, slotId⟩ := v
    have hp : ¬ G.keep pgid := hout (pgid, slotId) List.mem_cons_self
    unfold BTree.putBranch
    refine Exec.Keeps.bind (branchInsert hP hp slotId key right true) fun success _ => ?_
    refine Exec.Keeps.ite (fun _ => Exec.Keeps.pure trivial) fun _ => ?_
    refine Exec.Keeps.bind (splitBranch hP hp slotId key right) fun r _ => ?_
    exact ih (fun w hw => hout w (List.mem_cons_of_mem _ hw)) _ _ _

theorem putAt (iter : BTreeIterator) (hout : G.Out iter.stack) (key value : Bytes)
    (insertOnly b : Bool) : G.Kept (BTree.putAt env iter key value insertOnly b) fun _ => True := by
  unfold BTree.putAt assert
  cases hstack : iter.stack with
  | nil =>
    refine Exec.Keeps.bind (alloc 1) fun root hroot => Exec.Keeps.bind (setRoot root) fun _ _ => ?_
    have hfresh : ¬ G.keep root := hroot root (Nat.le_refl _) (Nat.lt_succ_self _)
    refine Exec.Keeps.bind (leafBuild hfresh) fun _ _ => ?_
    refine Exec.Keeps.bind (leafInsert hP hfresh 0 key value) fun _ _ => ?_
    exact Exec.Keeps.bind Exec.Keeps.require fun _ _ => setIsBucket hfresh 0 b
  | cons v rest =>
    obtain ⟨pgid, slotId⟩ := v
    rw [hstack] at hout
    have hp : ¬ G.keep pgid := hout (pgid, slotId) List.mem_cons_self
    refine Exec.Keeps.ite (fun _ => ?_) fun _ => ?_
    · refine Exec.Keeps.bind (iterIsBucket iter) fun _ _ => Exec.Keeps.bind
        Exec.Keeps.require fun _ _ => ?_
      exact Exec.Keeps.bind (leafUpdate hP hp slotId key value) fun _ _ => setIsBucket hp slotId b
    · refine Exec.Keeps.bind (leafInsert hP hp slotId key value) fun success _ => ?_
      refine Exec.Keeps.ite (fun _ => setIsBucket hp slotId b) fun _ => ?_
      refine Exec.Keeps.bind (splitLeaf hP hp slotId key value b) fun right _ => ?_
      refine Exec.Keeps.bind (getKey right 0) fun firstKey _ => ?_
      exact putBranch hP rest (fun w hw => hout w (List.mem_cons_of_mem _ hw)) _ _ _

/-- **Put** leaves the guarded pages alone. -/
theorem put (key value : Bytes) (b : Bool) : G.Kept (BTree.put env key value b) fun _ => True := by
  unfold BTree.put
  refine Exec.Keeps.bind (lowerBound key) fun iter hchain => ?_
  exact Exec.Keeps.bind (copyAllPagesByPath iter hchain) fun iter' hout =>
    putAt hP iter' hout key value false b

end Put

/-! ## Delete -/

theorem getSibling (parent : Nat × Nat) : G.Kept (BTree.getSibling parent) fun _ => True := by
  unfold BTree.getSibling
  refine Exec.Keeps.bind (countOf parent.1) fun count _ => Exec.Keeps.ite (fun _ => ?_) fun _ => ?_
  · exact Exec.Keeps.bind (getLeftChild _ _) fun _ _ => Exec.Keeps.pure trivial
  · exact Exec.Keeps.bind (getRightChild _ _) fun _ _ => Exec.Keeps.pure trivial

/-- The sibling to work on is not guarded: a guarded one is copied. -/
theorem copySibling {parent : Nat} (hp : ¬ G.keep parent) (slotId sibling : Nat)
    (leftSibling : Bool) :
    G.Kept (BTree.copySibling env parent slotId sibling leftSibling) fun q => ¬ G.keep q := by
  unfold BTree.copySibling
  refine Exec.Keeps.bind (getNode sibling) fun n hn => Exec.Keeps.bind
    Exec.Keeps.read fun s hs => ?_
  refine Exec.Keeps.ite (fun _ => ?_) fun hnot => Exec.Keeps.pure (not_keep_of_read hs hn hnot)
  refine Exec.Keeps.bind (copy sibling) fun q hq => Exec.Keeps.ite (fun _ => ?_) fun _ => ?_
  · exact Exec.Keeps.bind (setLeftChild hp _ q) fun _ _ => Exec.Keeps.pure hq
  · exact Exec.Keeps.bind (setLeftChild hp _ q) fun _ _ => Exec.Keeps.pure hq

section Delete

variable (hP : 0 < env.pageSize)

include hP

theorem mergeBranchLoop {left : Nat} (hleft : ¬ G.keep left) (right n i : Nat) :
    G.Kept (BTree.mergeBranchLoop env left right n i) fun _ => True := by
  induction n generalizing i with
  | zero => exact Exec.Keeps.pure trivial
  | succ n ih =>
    unfold BTree.mergeBranchLoop assert
    refine Exec.Keeps.bind (getKey right i) fun key _ => Exec.Keeps.bind (getLeftChild right i)
      fun child _ => ?_
    refine Exec.Keeps.bind (branchAppend hP hleft key child false) fun success _ => ?_
    exact Exec.Keeps.bind Exec.Keeps.require fun _ _ => ih (i + 1)

/-- The right node of a merge is only read and freed. -/
theorem mergeBranch {left : Nat} (hleft : ¬ G.keep left) (right : Nat) (downKey : Bytes) :
    G.Kept (BTree.mergeBranch env left right downKey) fun _ => True := by
  unfold BTree.mergeBranch assert
  refine Exec.Keeps.bind (branchAppend hP hleft downKey _ true) fun success _ => ?_
  refine Exec.Keeps.bind Exec.Keeps.require fun _ _ => Exec.Keeps.bind
    (countOf right) fun count _ => ?_
  refine Exec.Keeps.bind (mergeBranchLoop hP hleft right count 0) fun _ _ => ?_
  refine Exec.Keeps.bind (getTailChild right) fun tail _ => ?_
  exact Exec.Keeps.bind (setTailChild hleft tail) fun _ _ => free right 1

theorem mergeLeafLoop {left : Nat} (hleft : ¬ G.keep left) (right n i : Nat) :
    G.Kept (BTree.mergeLeafLoop env left right n i) fun _ => True := by
  induction n generalizing i with
  | zero => exact Exec.Keeps.pure trivial
  | succ n ih =>
    unfold BTree.mergeLeafLoop assert
    refine Exec.Keeps.bind (getKey right i) fun key _ => Exec.Keeps.bind
      (getValue right i) fun value _ => ?_
    refine Exec.Keeps.bind (leafAppend hP hleft key value) fun success _ => ?_
    refine Exec.Keeps.bind Exec.Keeps.require fun _ _ => Exec.Keeps.bind
      (countOf left) fun count _ => ?_
    refine Exec.Keeps.bind (isBucket right i) fun b _ => ?_
    exact Exec.Keeps.bind (setIsBucket hleft _ b) fun _ _ => ih (i + 1)

theorem mergeLeaf {left : Nat} (hleft : ¬ G.keep left) (right : Nat) :
    G.Kept (BTree.mergeLeaf env left right) fun _ => True := by
  unfold BTree.mergeLeaf
  refine Exec.Keeps.bind (countOf right) fun count _ => ?_
  exact Exec.Keeps.bind (mergeLeafLoop hP hleft right count 0) fun _ _ => free right 1

theorem reinsert {parent : Nat} (hp : ¬ G.keep parent) (slotId : Nat) {rest : List (Nat × Nat)}
    (hrest : G.Out rest) (left right : Nat) (newKey : Bytes) :
    G.Kept (BTree.reinsert env parent slotId rest left right newKey) fun _ => True := by
  unfold BTree.reinsert BTree.reinsertWith
  refine Exec.Keeps.bind (branchDelete hp slotId true) fun _ _ => Exec.Keeps.bind
    (push _ _) fun iter hiter => ?_
  refine putBranch hP iter.stack ?_ left right newKey
  rw [hiter]
  intro v hv
  rcases List.mem_cons.1 hv with rfl | hv
  · exact hp
  · exact hrest v hv

/-- The step from a branch to its parent, with the whole path above out of the guarded pages. -/
theorem deleteBranch (stack : List (Nat × Nat)) (hout : G.Out stack) {node : Nat}
    (hnode : ¬ G.keep node) (slotId : Nat) : G.Kept (BTree.deleteBranch env stack node slotId)
      fun _ => True := by
  induction stack generalizing node slotId with
  | nil =>
    unfold BTree.deleteBranch BTree.deleteBranchWith assert
    refine Exec.Keeps.bind (branchDelete hnode slotId true) fun _ _ => Exec.Keeps.bind
      (countOf node) fun count _ => ?_
    refine Exec.Keeps.ite (fun _ => ?_) fun _ => Exec.Keeps.pure trivial
    refine Exec.Keeps.bind Exec.Keeps.read fun s _ => Exec.Keeps.bind
      Exec.Keeps.require fun _ _ => ?_
    refine Exec.Keeps.bind (getTailChild node) fun tail _ => ?_
    exact Exec.Keeps.bind (setRoot tail) fun _ _ => free node 1
  | cons front rest ih =>
    have hp : ¬ G.keep front.1 := hout front List.mem_cons_self
    have hrest : G.Out rest := fun v hv => hout v (List.mem_cons_of_mem _ hv)
    unfold BTree.deleteBranch BTree.deleteBranchWith assert
    refine Exec.Keeps.bind (branchDelete hnode slotId true) fun _ _ => Exec.Keeps.bind
      (fillRate node) fun _ _ => ?_
    refine Exec.Keeps.ite (fun _ => Exec.Keeps.pure trivial) fun _ => ?_
    refine Exec.Keeps.bind (getSibling front) fun r _ => ?_
    obtain ⟨parentSlotId, sibling₀, leftSibling⟩ := r
    refine Exec.Keeps.bind (copySibling hp parentSlotId sibling₀ leftSibling)
      fun sibling hsibling => ?_
    refine Exec.Keeps.bind (fillRate sibling) fun _ _ => Exec.Keeps.bind
      (countOf sibling) fun count _ => ?_
    -- what follows the choice of the key: the separator is replaced, or its entry is inserted again
    have hseparator : ∀ newKey : Bytes, G.Kept (do
        let success ← BranchNode.updateKey env front.1 parentSlotId newKey
        if !success then
          if leftSibling then BTree.reinsert env front.1 parentSlotId rest sibling node newKey
          else BTree.reinsert env front.1 parentSlotId rest node sibling newKey
        return ()) fun _ => True := by
      intro newKey
      refine Exec.Keeps.bind (updateKey hP hp parentSlotId newKey) fun success _ => ?_
      refine Exec.Keeps.ite (fun _ => Exec.Keeps.ite (fun _ => ?_) fun _ => ?_) fun _ =>
        Exec.Keeps.pure trivial
      · exact Exec.Keeps.bind (reinsert hP hp _ hrest _ _ _) fun _ _ => Exec.Keeps.pure trivial
      · exact Exec.Keeps.bind (reinsert hP hp _ hrest _ _ _) fun _ _ => Exec.Keeps.pure trivial
    refine Exec.Keeps.ite (fun _ => Exec.Keeps.ite (fun _ => ?_) fun _ => ?_) fun _ => ?_
    · refine Exec.Keeps.bind (getKey front.1 _) fun downKey _ => Exec.Keeps.bind
        (getTailChild sibling) fun child _ => ?_
      refine Exec.Keeps.bind (branchInsert hP hnode 0 downKey child false) fun _ _ => ?_
      refine Exec.Keeps.bind Exec.Keeps.require fun _ _ => Exec.Keeps.bind (getKey sibling _)
        fun newKey _ => ?_
      exact Exec.Keeps.bind (branchPop hsibling true) fun _ _ => hseparator newKey
    · refine Exec.Keeps.bind (setLeftChild hp _ sibling) fun _ _ => Exec.Keeps.bind
        (getKey front.1 _) fun downKey _ => ?_
      refine Exec.Keeps.bind (getLeftChild sibling 0) fun child _ => ?_
      refine Exec.Keeps.bind (branchAppend hP hnode downKey child true) fun _ _ => ?_
      refine Exec.Keeps.bind Exec.Keeps.require fun _ _ => Exec.Keeps.bind (getKey sibling 0)
        fun newKey _ => ?_
      exact Exec.Keeps.bind (branchDelete hsibling 0 false) fun _ _ => hseparator newKey
    · refine Exec.Keeps.bind (getKey front.1 _) fun downKey _ =>
        Exec.Keeps.ite (fun _ => ?_) fun _ => ?_
      · refine Exec.Keeps.bind (mergeBranch hP hsibling node downKey) fun _ _ => ?_
        exact ih hrest hp parentSlotId
      · refine Exec.Keeps.bind (mergeBranch hP hnode sibling downKey) fun _ _ => ?_
        exact ih hrest hp parentSlotId

omit hP in
theorem checkNotLiveBucket (iter : BTreeIterator) :
    G.Kept (BTree.checkNotLiveBucket env iter) fun _ => True := by
  unfold BTree.checkNotLiveBucket assert
  refine Exec.Keeps.bind (iterIsBucket iter) fun b _ => Exec.Keeps.ite (fun _ => ?_) fun _ =>
    Exec.Keeps.pure trivial
  refine Exec.Keeps.bind (iterValue iter) fun value _ => Exec.Keeps.ite
    (fun _ => Exec.Keeps.raise_bind) fun _ => ?_
  exact Exec.Keeps.require.imp fun _ _ => trivial

omit hP in
theorem front (iter : BTreeIterator) :
    G.Kept (BTreeIterator.front iter) fun v => v ∈ iter.stack := by
  unfold BTreeIterator.front
  cases hstack : iter.stack with
  | nil => exact Exec.Keeps.raise
  | cons v rest => exact Exec.Keeps.pure List.mem_cons_self

theorem deleteAt (iter : BTreeIterator) (hout : G.Out iter.stack) :
    G.Kept (BTree.deleteAt env iter) fun _ => True := by
  unfold BTree.deleteAt BTree.deleteAtWith assert
  refine Exec.Keeps.bind (checkNotLiveBucket iter) fun _ _ => Exec.Keeps.bind
    (front iter) fun v hv => ?_
  obtain ⟨pgid, pos⟩ := v
  have hleaf : ¬ G.keep pgid := hout (pgid, pos) hv
  refine Exec.Keeps.bind (leafDelete hleaf pos) fun _ _ => Exec.Keeps.bind
    (fillRate pgid) fun _ _ => ?_
  refine Exec.Keeps.ite (fun _ => Exec.Keeps.pure trivial) fun _ => ?_
  cases hstack : iter.stack with
  | nil => exact Exec.Keeps.pure trivial
  | cons v stack =>
    cases stack with
    | nil => exact Exec.Keeps.pure trivial
    | cons parent rest =>
      rw [hstack] at hout
      have hp : ¬ G.keep parent.1 := hout parent (List.mem_cons_of_mem _ List.mem_cons_self)
      have hrest : G.Out rest :=
        fun w hw => hout w (List.mem_cons_of_mem _ (List.mem_cons_of_mem _ hw))
      refine Exec.Keeps.bind (getSibling parent) fun r _ => ?_
      obtain ⟨parentSlotId, sibling₀, leftSibling⟩ := r
      refine Exec.Keeps.bind (copySibling hp parentSlotId sibling₀ leftSibling)
        fun sibling hsibling => ?_
      refine Exec.Keeps.bind (fillRate sibling) fun _ _ => Exec.Keeps.bind
        (countOf sibling) fun count _ => ?_
      -- Both rotations end with the new separator, and with a reinsertion when it does not fit.
      have hseparator : ∀ newKey : Bytes, G.Kept (do
          let child ← BranchNode.getLeftChild parent.1 parentSlotId
          let success ← BranchNode.update env parent.1 parentSlotId newKey child false
          if !success then
            if leftSibling then BTree.reinsert env parent.1 parentSlotId rest sibling pgid newKey
            else BTree.reinsert env parent.1 parentSlotId rest pgid sibling newKey
          return ()) fun _ => True := by
        intro newKey
        refine Exec.Keeps.bind (getLeftChild parent.1 parentSlotId) fun child _ => ?_
        refine Exec.Keeps.bind (branchUpdate hP hp parentSlotId newKey child false)
          fun success _ => ?_
        refine Exec.Keeps.ite (fun _ => Exec.Keeps.ite (fun _ => ?_) fun _ => ?_) fun _ =>
          Exec.Keeps.pure trivial
        · exact Exec.Keeps.bind (reinsert hP hp _ hrest _ _ _) fun _ _ => Exec.Keeps.pure trivial
        · exact Exec.Keeps.bind (reinsert hP hp _ hrest _ _ _) fun _ _ => Exec.Keeps.pure trivial
      -- A record from the left, one from the right, and the two ways of merging.
      refine Exec.Keeps.ite (fun _ => Exec.Keeps.ite (fun _ => ?_) fun _ => ?_) fun _ =>
        Exec.Keeps.ite (fun _ => ?_) fun _ => ?_
      · refine Exec.Keeps.bind (getKey sibling _) fun key _ => Exec.Keeps.bind
          (getValue sibling _) fun value _ => ?_
        refine Exec.Keeps.bind (leafInsert hP hleaf 0 key value) fun _ _ => Exec.Keeps.bind
          Exec.Keeps.require fun _ _ => ?_
        refine Exec.Keeps.bind (isBucket sibling _) fun b _ => Exec.Keeps.bind
          (setIsBucket hleaf 0 b) fun _ _ => ?_
        exact Exec.Keeps.bind (leafPop hsibling) fun _ _ => Exec.Keeps.bind (getKey pgid 0)
          fun newKey _ => hseparator newKey
      · refine Exec.Keeps.bind (getKey sibling 0) fun key _ => Exec.Keeps.bind
          (getValue sibling 0) fun value _ => ?_
        refine Exec.Keeps.bind (leafAppend hP hleaf key value) fun _ _ => Exec.Keeps.bind
          Exec.Keeps.require fun _ _ => ?_
        refine Exec.Keeps.bind (countOf pgid) fun _ _ => Exec.Keeps.bind
          (isBucket sibling 0) fun b _ => ?_
        refine Exec.Keeps.bind (setIsBucket hleaf _ b) fun _ _ => Exec.Keeps.bind
          (leafDelete hsibling 0) fun _ _ => ?_
        exact Exec.Keeps.bind (getKey sibling 0) fun newKey _ => hseparator newKey
      · refine Exec.Keeps.bind (mergeLeaf hP hsibling pgid) fun _ _ => ?_
        exact deleteBranch hP rest hrest hp parentSlotId
      · refine Exec.Keeps.bind (mergeLeaf hP hleaf sibling) fun _ _ => ?_
        exact deleteBranch hP rest hrest hp parentSlotId

/-- **Delete** leaves the guarded pages alone. -/
theorem delete (key : Bytes) : G.Kept (BTree.delete env key) fun _ => True := by
  unfold BTree.delete BTree.deleteWith
  refine Exec.Keeps.bind (lowerBound key) fun iter hchain => ?_
  refine Exec.Keeps.ite (fun _ => Exec.Keeps.pure trivial) fun _ => ?_
  refine Exec.Keeps.bind (copyAllPagesByPath iter hchain) fun iter' hout => ?_
  exact Exec.Keeps.bind (deleteAt hP iter' hout) fun _ _ => Exec.Keeps.pure trivial

end Delete

end Kept

end AtomKV
