import AtomKV.BTree
import AtomKV.NodeRead

/-!
# Iteration

`BTreeIterator::First`, `Last`, `Next` and `Prev`, and the calls of `BTree` that start from an
iterator's position. What these and the lookups read, they leave as it is.
-/

set_option autoImplicit false

namespace AtomKV

/-! ## Moving an iterator -/

namespace BTreeIterator

/-- The loop of `First`; the stack bounds its passes. -/
def firstLoop : Nat → BTreeIterator → Nat → TxM BTreeIterator
  | 0, iter, _ => pure iter
  | fuel + 1, iter, pgid => do
      let n ← Pager.getNode pgid
      if n.isLeaf then do
        if n.count = 0 then return iter
        push iter (pgid, 0)
      else do
        let iter ← push iter (pgid, 0)
        assert (0 < n.count)
        let child ← BranchNode.getLeftChild pgid 0
        firstLoop fuel iter child

/-- `BTreeIterator::First`. -/
def first (iter : BTreeIterator) (pgid : Nat) : TxM BTreeIterator :=
  if pgid = kPageInvalidId then pure iter
  else firstLoop (kStackSize + 1) { iter with status := .kIter } pgid

/-- The loop of `Last`. The way down is through the left child of the last slot. -/
def lastLoop : Nat → BTreeIterator → Nat → TxM BTreeIterator
  | 0, iter, _ => pure iter
  | fuel + 1, iter, pgid => do
      let n ← Pager.getNode pgid
      if n.isLeaf then do
        if n.count = 0 then return iter
        push iter (pgid, n.count - 1)
      else do
        let iter ← push iter (pgid, n.count - 1)
        assert (0 < n.count)
        let child ← BranchNode.getLeftChild pgid (n.count - 1)
        lastLoop fuel iter child

/-- `BTreeIterator::Last`. -/
def last (iter : BTreeIterator) (pgid : Nat) : TxM BTreeIterator :=
  lastLoop (kStackSize + 1) { iter with status := .kIter } pgid

/-- The loop of `Next` over the stack from the front down. -/
def nextLoop (status : Status) : List (Nat × Nat) → TxM BTreeIterator
  | [] => pure ⟨[], status⟩
  | (pgid, slotId) :: rest => do
      let n ← Pager.getNode pgid
      let iter : BTreeIterator := ⟨(pgid, slotId + 1) :: rest, status⟩
      if slotId + 1 < n.count then do
        if n.isLeaf then return iter
        let child ← BranchNode.getLeftChild pgid (slotId + 1)
        first iter child
      -- behind the last slot of a branch comes its tail child
      else if n.isBranch ∧ slotId + 1 = n.count then do
        let child ← BranchNode.getTailChild pgid
        first iter child
      else nextLoop status rest

/-- `BTreeIterator::Next`. -/
def next (iter : BTreeIterator) : TxM BTreeIterator := do
  assert (iter.stack ≠ [])
  nextLoop iter.status iter.stack

/-- The loop of `Prev` over the stack from the front down. -/
def prevLoop (status : Status) : List (Nat × Nat) → TxM BTreeIterator
  | [] => pure ⟨[], status⟩
  | (pgid, slotId) :: rest => do
      let n ← Pager.getNode pgid
      if 0 < slotId then do
        let iter : BTreeIterator := ⟨(pgid, slotId - 1) :: rest, status⟩
        if n.isLeaf then return iter
        let child ← BranchNode.getLeftChild pgid (slotId - 1)
        last iter child
      else prevLoop status rest

/-- `BTreeIterator::Prev`; before `end()` comes the last record. -/
def prev (iter : BTreeIterator) : TxM BTreeIterator := do
  if iter.stack = [] then do
    let s ← Exec.read
    last iter s.rootPgid
  else prevLoop iter.status iter.stack

/-- `BTreeIterator::key`. -/
def key (env : Env) (iter : BTreeIterator) : TxM Bytes := do
  let (pgid, slotId) ← getLeafNode iter
  Node.getKey env pgid slotId

/-- `iter == end()`. -/
def isEnd (iter : BTreeIterator) : Prop := iter.stack = [] ∨ iter.status = .kInvalid

instance (iter : BTreeIterator) : Decidable iter.isEnd := inferInstanceAs (Decidable (_ ∨ _))

end BTreeIterator

namespace BTree

/-- `BTree::begin`. -/
def begin : TxM BTreeIterator := do
  let s ← Exec.read
  BTreeIterator.first BTreeIterator.init s.rootPgid

/-- `BTree::Update`; the path is not copied, and whether there was room is not looked at. The key is
passed on as a value, where the source passes the bytes of the page. -/
def update (env : Env) (iter : BTreeIterator) (value : Bytes) : TxM Unit := do
  let (pgid, slotId) ← BTreeIterator.front iter
  let n ← Pager.getNode pgid
  assert n.isLeaf
  let key ← Node.getKey env pgid slotId
  let _ ← LeafNode.update env pgid slotId key value

end BTree

/-! ## Reading changes nothing -/

namespace Reads

open Exec

theorem getLeftChild (pgid slotId : Nat) : ReadOnly (BranchNode.getLeftChild pgid slotId) := by
  unfold BranchNode.getLeftChild
  refine (getNode pgid).bind fun n => ReadOnly.ite ReadOnly.pure ?_
  exact (getSlot n slotId).bind fun slot => ReadOnly.pure

theorem getTailChild (pgid : Nat) : ReadOnly (BranchNode.getTailChild pgid) := by
  unfold BranchNode.getTailChild
  exact (getNode pgid).bind fun n => ReadOnly.pure

theorem lowerBoundLoop (env : Env) (pgid : Nat) (key : Bytes) (fuel first len : Nat) (eq : Bool) :
    ReadOnly (Node.lowerBoundLoop env pgid key fuel first len eq) := by
  induction fuel generalizing first len eq with
  | zero => exact ReadOnly.pure
  | succ fuel ih =>
    unfold Node.lowerBoundLoop
    refine ReadOnly.ite ReadOnly.pure ((getKey env pgid _).bind fun slotKey => ?_)
    exact ReadOnly.ite (ih _ _ _) (ih _ _ _)

theorem nodeLowerBound (env : Env) (pgid : Nat) (key : Bytes) :
    ReadOnly (Node.lowerBound env pgid key) := by
  unfold Node.lowerBound
  exact (countOf pgid).bind fun count => lowerBoundLoop env pgid key _ _ _ _

theorem push (iter : BTreeIterator) (v : Nat × Nat) : ReadOnly (BTreeIterator.push iter v) := by
  unfold BTreeIterator.push assert
  exact ReadOnly.require.bind fun _ => ReadOnly.pure

theorem front (iter : BTreeIterator) : ReadOnly (BTreeIterator.front iter) := by
  unfold BTreeIterator.front
  cases iter.stack with
  | nil => exact ReadOnly.raise
  | cons v rest => exact ReadOnly.pure

theorem downPage (iter : BTreeIterator) : ReadOnly (BTreeIterator.downPage iter) := by
  unfold BTreeIterator.downPage
  cases iter.stack with
  | nil => exact ReadOnly.read.bind fun s => ReadOnly.ite ReadOnly.pure ReadOnly.pure
  | cons v rest =>
    obtain ⟨parent, slotId⟩ := v
    refine (getNode parent).bind fun n => ReadOnly.ite ReadOnly.pure ?_
    exact (getLeftChild parent slotId).bind fun child => ReadOnly.pure

theorem down (env : Env) (iter : BTreeIterator) (key : Bytes) :
    ReadOnly (BTreeIterator.down env iter key) := by
  unfold BTreeIterator.down
  refine (downPage iter).bind fun r => ?_
  cases r with
  | none => exact ReadOnly.pure
  | some pgid =>
    refine (getNode pgid).bind fun n => ReadOnly.ite ?_ ?_
    · refine (nodeLowerBound env pgid key).bind fun r' => ?_
      exact (push _ _).bind fun iter' => ReadOnly.pure
    · exact (push _ _).bind fun iter' => ReadOnly.pure

theorem descend (env : Env) (key : Bytes) (fuel : Nat) (iter : BTreeIterator) :
    ReadOnly (BTreeIterator.descend env key fuel iter) := by
  induction fuel generalizing iter with
  | zero => exact ReadOnly.pure
  | succ fuel ih =>
    unfold BTreeIterator.descend
    exact (down env iter key).bind fun r => ReadOnly.ite (ih r.2) ReadOnly.pure

/-- `BTree::LowerBound` only reads. -/
theorem lowerBound (env : Env) (key : Bytes) : ReadOnly (BTree.lowerBound env key) :=
  descend env key _ _

/-- `BTree::Get` only reads. -/
theorem get (env : Env) (key : Bytes) : ReadOnly (BTree.get env key) := by
  unfold BTree.get
  exact (lowerBound env key).bind fun iter => ReadOnly.ite ReadOnly.pure ReadOnly.pure

theorem getLeafNode (iter : BTreeIterator) : ReadOnly (BTreeIterator.getLeafNode iter) := by
  unfold BTreeIterator.getLeafNode
  exact ReadOnly.ite (ReadOnly.raise.bind fun _ => front iter) (front iter)

theorem iterKey (env : Env) (iter : BTreeIterator) : ReadOnly (BTreeIterator.key env iter) := by
  unfold BTreeIterator.key
  exact (getLeafNode iter).bind fun v => getKey env v.1 v.2

theorem iterValue (env : Env) (iter : BTreeIterator) : ReadOnly (BTreeIterator.value env iter) := by
  unfold BTreeIterator.value
  exact (getLeafNode iter).bind fun v => getValue env v.1 v.2

theorem iterIsBucket (iter : BTreeIterator) : ReadOnly (BTreeIterator.isBucket iter) := by
  unfold BTreeIterator.isBucket
  exact (getLeafNode iter).bind fun v => isBucket v.1 v.2

theorem firstLoop (fuel : Nat) (iter : BTreeIterator) (pgid : Nat) :
    ReadOnly (BTreeIterator.firstLoop fuel iter pgid) := by
  induction fuel generalizing iter pgid with
  | zero => exact ReadOnly.pure
  | succ fuel ih =>
    unfold BTreeIterator.firstLoop assert
    refine (getNode pgid).bind fun n => ReadOnly.ite (ReadOnly.ite ReadOnly.pure (push _ _)) ?_
    refine (push _ _).bind fun iter' => ReadOnly.require.bind fun _ => ?_
    exact (getLeftChild pgid 0).bind fun child => ih iter' child

theorem first (iter : BTreeIterator) (pgid : Nat) : ReadOnly (BTreeIterator.first iter pgid) := by
  unfold BTreeIterator.first
  exact ReadOnly.ite ReadOnly.pure (firstLoop _ _ _)

theorem lastLoop (fuel : Nat) (iter : BTreeIterator) (pgid : Nat) :
    ReadOnly (BTreeIterator.lastLoop fuel iter pgid) := by
  induction fuel generalizing iter pgid with
  | zero => exact ReadOnly.pure
  | succ fuel ih =>
    unfold BTreeIterator.lastLoop assert
    refine (getNode pgid).bind fun n => ReadOnly.ite (ReadOnly.ite ReadOnly.pure (push _ _)) ?_
    refine (push _ _).bind fun iter' => ReadOnly.require.bind fun _ => ?_
    exact (getLeftChild pgid _).bind fun child => ih iter' child

theorem last (iter : BTreeIterator) (pgid : Nat) : ReadOnly (BTreeIterator.last iter pgid) :=
  lastLoop _ _ _

theorem nextLoop (status : Status) (stack : List (Nat × Nat)) :
    ReadOnly (BTreeIterator.nextLoop status stack) := by
  induction stack with
  | nil => exact ReadOnly.pure
  | cons v rest ih =>
    obtain ⟨pgid, slotId⟩ := v
    unfold BTreeIterator.nextLoop
    refine (getNode pgid).bind fun n => ReadOnly.ite (ReadOnly.ite ReadOnly.pure ?_)
      (ReadOnly.ite ?_ ih)
    · exact (getLeftChild pgid _).bind fun child => first _ child
    · exact (getTailChild pgid).bind fun child => first _ child

theorem next (iter : BTreeIterator) : ReadOnly (BTreeIterator.next iter) := by
  unfold BTreeIterator.next assert
  exact ReadOnly.require.bind fun _ => nextLoop _ _

theorem prevLoop (status : Status) (stack : List (Nat × Nat)) :
    ReadOnly (BTreeIterator.prevLoop status stack) := by
  induction stack with
  | nil => exact ReadOnly.pure
  | cons v rest ih =>
    obtain ⟨pgid, slotId⟩ := v
    unfold BTreeIterator.prevLoop
    refine (getNode pgid).bind fun n => ReadOnly.ite (ReadOnly.ite ReadOnly.pure ?_) ih
    exact (getLeftChild pgid _).bind fun child => last _ child

theorem prev (iter : BTreeIterator) : ReadOnly (BTreeIterator.prev iter) := by
  unfold BTreeIterator.prev
  exact ReadOnly.ite (ReadOnly.read.bind fun s => last _ _) (prevLoop _ _)

theorem begin : ReadOnly BTree.begin := by
  unfold BTree.begin
  exact ReadOnly.read.bind fun s => first _ _

end Reads

end AtomKV
