import AtomKV.Node

/-!
# Iterators

`btree_iterator.cpp` and `stack.h`, as far as `BTree::Put` and `BTree::Delete` use them: the descent
to a key and the copying of the path. `cached_node_` is a second reference to the page at the front
of the stack and is not kept apart from it.
-/

set_option autoImplicit false

namespace AtomKV

/-- `BTreeIterator::Status`. -/
inductive Status where
  | kInvalid
  | kEq
  | kNe
  | kIter
  deriving DecidableEq, Repr

/-- `BTreeIterator`; the head of the list is the front of the stack. -/
structure BTreeIterator where
  stack : List (Nat × Nat)
  status : Status

namespace BTreeIterator

/-- `BTreeIterator(btree)`, the value of `BTree::end`. -/
def init : BTreeIterator := ⟨[], .kInvalid⟩

/-- `BTreeIterator::Push`. -/
def push (iter : BTreeIterator) (v : Nat × Nat) : TxM BTreeIterator := do
  assert (iter.stack.length < kStackSize)
  return { iter with stack := v :: iter.stack }

/-- `BTreeIterator::Pop`. -/
def pop (iter : BTreeIterator) : TxM BTreeIterator := do
  assert (iter.stack ≠ [])
  return { iter with stack := iter.stack.tail }

/-- `BTreeIterator::Front`. -/
def front (iter : BTreeIterator) : TxM (Nat × Nat) :=
  match iter.stack with
  | v :: _ => pure v
  | [] => Exec.raise .assertion

/-- The page the next step of the descent goes to, if there is one (first part of
`BTreeIterator::Down`). -/
def downPage (iter : BTreeIterator) : TxM (Option Nat) :=
  match iter.stack with
  | [] => do
      let s ← Exec.read
      if s.rootPgid = kPageInvalidId then return none
      return some s.rootPgid
  | (parentPgid, slotId) :: _ => do
      let parent ← Pager.getNode parentPgid
      if parent.isLeaf then return none
      let child ← BranchNode.getLeftChild parentPgid slotId
      return some child

/-- `BTreeIterator::Down`: whether a step was made, and the iterator after it. -/
def down (env : Env) (iter : BTreeIterator) (key : Bytes) : TxM (Bool × BTreeIterator) := do
  match ← downPage iter with
  | none => return (false, iter)
  | some pgid => do
      let n ← Pager.getNode pgid
      if n.count > 0 then do
        let (slotId, eq) ← Node.lowerBound env pgid key
        -- behind the last record of a leaf there is nothing to point at
        let status :=
          if eq then Status.kEq
          else if slotId = n.count ∧ n.isLeaf then .kInvalid
          else .kNe
        -- an equal key of a branch leads to its right child, whose subtree starts with it
        let slotId := if eq && n.isBranch then slotId + 1 else slotId
        let iter ← push { iter with status := status } (pgid, slotId)
        return (true, iter)
      else do
        let iter ← push { iter with status := .kNe } (pgid, 0)
        return (true, iter)

/-- The loop of `BTree::LowerBound`. Each step pushes an entry and the stack holds at most
`kStackSize`, so the fuel is never the reason to stop. -/
def descend (env : Env) (key : Bytes) : Nat → BTreeIterator → TxM BTreeIterator
  | 0, iter => pure iter
  | fuel + 1, iter => do
      let (moved, iter) ← down env iter key
      if moved then descend env key fuel iter
      else return iter

/-- `TxManager::IsTxExpired`. -/
def isTxExpired (env : Env) (txid : Nat) : Prop := txid < env.minViewTxid

instance (env : Env) (txid : Nat) : Decidable (isTxExpired env txid) :=
  inferInstanceAs (Decidable (_ < _))

/-- `TxImpl::CopyNeeded` in a transaction with id `current`. -/
def copyNeeded (env : Env) (current : Nat) (txid : Nat) : Bool :=
  if isTxExpired env txid ∧ env.persistedTxid < txid then false
  else txid < current

/-- The loop of `BTreeIterator::CopyAllPagesByPath` over the stack from the front down. `lower`
is the copy made on the level below. The result is the new stack, and the new root when the loop
ran through. -/
def copyPath (env : Env) :
    List (Nat × Nat) → Option Nat → TxM (List (Nat × Nat) × Option Nat)
  | [], lower => pure ([], lower)
  | (pgid, slotId) :: rest, lower => do
      let n ← Pager.getNode pgid
      let s ← Exec.read
      if copyNeeded env s.metaStruct.txid n.lastModifiedTxid then do
        let newPgid ← Node.copy pgid
        -- the copy made on the level below takes the place of the old child
        if n.isBranch then
          match lower with
          | some child => BranchNode.setLeftChild newPgid slotId child
          | none => Exec.raise .assertion
        let (rest, root) ← copyPath env rest (some newPgid)
        return ((newPgid, slotId) :: rest, root)
      -- this page may be written, and the code asks no page above it
      else do
        if n.isBranch then
          match lower with
          | some child => BranchNode.setLeftChild pgid slotId child
          | none => Exec.raise .assertion
        return ((pgid, slotId) :: rest, none)

/-- `BTreeIterator::CopyAllPagesByPath`. -/
def copyAllPagesByPath (env : Env) (iter : BTreeIterator) : TxM BTreeIterator := do
  if iter.stack = [] then return iter
  let (stack, root) ← copyPath env iter.stack none
  match root with
  | some root => Exec.change fun s => { s with rootPgid := root }
  | none => pure ()
  return { iter with stack := stack }

/-- `BTreeIterator::GetLeafNode`: `end()` cannot be dereferenced. -/
def getLeafNode (iter : BTreeIterator) : TxM (Nat × Nat) := do
  if iter.stack = [] ∨ iter.status = .kInvalid then
    Exec.raise (.invalidArgument "invalid iterator.")
  front iter

/-- `BTreeIterator::is_bucket`. -/
def isBucket (iter : BTreeIterator) : TxM Bool := do
  let (pgid, slotId) ← getLeafNode iter
  LeafNode.isBucket pgid slotId

/-- `BTreeIterator::value`. -/
def value (env : Env) (iter : BTreeIterator) : TxM Bytes := do
  let (pgid, slotId) ← getLeafNode iter
  LeafNode.getValue env pgid slotId

end BTreeIterator

end AtomKV
