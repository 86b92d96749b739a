import AtomKV.BTreeIterator

/-!
# The B+tree

`btree.cpp`: lookup, insertion with splits, deletion with borrowing and merging. A loop of the
source is a recursion on its index; a recursion up the iterator's stack is a recursion on a fuel
that starts at the stack's length.
-/

set_option autoImplicit false

namespace AtomKV

namespace BTree

open BTreeIterator

/-! ## Lookup -/

/-- `BTree::LowerBound`. -/
def lowerBound (env : Env) (key : Bytes) : TxM BTreeIterator :=
  descend env key (kStackSize + 1) BTreeIterator.init

/-- `BTree::Get`. -/
def get (env : Env) (key : Bytes) : TxM BTreeIterator := do
  let iter ← lowerBound env key
  if iter.status ≠ .kEq then return BTreeIterator.init
  return iter

/-! ## Splitting -/

/-- The loop of `BTree::Split(LeafNode*)`: records `i - 1`, `i - 2`, ... move to the right node
until the left one is at most half full. -/
def splitLeafLoop (env : Env) (left right : Nat) : Nat → TxM Unit
  -- a node without records is at most half full, so the loop ends before it gets here
  | 0 => pure ()
  | i + 1 => do
      let key ← Node.getKey env left i
      let value ← LeafNode.getValue env left i
      let success ← LeafNode.append env right key value
      assert success
      let count ← Node.countOf right
      let b ← LeafNode.isBucket left i
      LeafNode.setIsBucket right (count - 1) b
      LeafNode.pop env left
      let rate ← Node.fillRate env left
      if ¬ Node.rateGt rate 1 2 then return ()
      splitLeafLoop env left right i

/-- The insertion step of `BTree::Split(LeafNode*)`, after the records have been divided. -/
def splitLeafInsert (env : Env) (left right : Nat) (insertSlotId : Nat) (key value : Bytes)
    (isBucket : Bool) : TxM Unit := do
  let leftCount ← Node.countOf left
  -- a record between the two halves goes to the left one
  if leftCount < insertSlotId then do
    let success ← LeafNode.insert env right (insertSlotId - leftCount) key value
    -- the first record of the right node goes back to the left one, and the insertion is tried
    -- again
    if !success then do
      let firstKey ← Node.getKey env right 0
      let firstValue ← LeafNode.getValue env right 0
      let success ← LeafNode.append env left firstKey firstValue
      assert success
      let count ← Node.countOf left
      let b ← LeafNode.isBucket right 0
      LeafNode.setIsBucket left (count - 1) b
      LeafNode.delete env right 0
      let leftCount ← Node.countOf left
      let success ← LeafNode.insert env right (insertSlotId - leftCount) key value
      assert success
    let leftCount ← Node.countOf left
    LeafNode.setIsBucket right (insertSlotId - leftCount) isBucket
  else do
    let success ← LeafNode.insert env left insertSlotId key value
    assert success
    LeafNode.setIsBucket left insertSlotId isBucket

/-- `BTree::Split(LeafNode*)`; the result is the new right node. -/
def splitLeaf (env : Env) (left : Nat) (insertSlotId : Nat) (key value : Bytes)
    (isBucket : Bool) : TxM Nat := do
  let leftCount ← Node.countOf left
  assert (insertSlotId ≤ leftCount)
  let right ← Pager.alloc 1
  LeafNode.build env right
  assert (2 ≤ leftCount)
  let rate ← Node.fillRate env left
  assert (Node.rateGt rate 1 2)
  splitLeafLoop env left right leftCount
  -- the records came over from the last to the first
  Node.reverseSlots right
  let rate ← Node.fillRate env left
  assert (¬ Node.rateGt rate 1 2)
  splitLeafInsert env left right insertSlotId key value isBucket
  let leftCount ← Node.countOf left
  let rightCount ← Node.countOf right
  assert (1 ≤ leftCount ∧ 2 ≤ rightCount ∨ 2 ≤ leftCount ∧ 1 ≤ rightCount)
  return right

/-- The loop of `BTree::Split(BranchNode*)`. -/
def splitBranchLoop (env : Env) (left right : Nat) : Nat → TxM Unit
  -- as for a leaf, never reached
  | 0 => pure ()
  | i + 1 => do
      let key ← Node.getKey env left i
      let child ← BranchNode.getLeftChild left i
      let success ← BranchNode.append env right key child false
      assert success
      BranchNode.pop env left false
      let rate ← Node.fillRate env left
      if ¬ Node.rateGt rate 1 2 then return ()
      splitBranchLoop env left right i

/-- The insertion step of `BTree::Split(BranchNode*)`, after the records have been divided. -/
def splitBranchInsert (env : Env) (left right : Nat) (insertSlotId : Nat) (insertKey : Bytes)
    (insertLeftChild : Nat) : TxM Unit := do
  let leftCount ← Node.countOf left
  if leftCount < insertSlotId then do
    let success ←
      BranchNode.insert env right (insertSlotId - leftCount) insertKey insertLeftChild false
    if !success then do
      let firstKey ← Node.getKey env right 0
      let firstChild ← BranchNode.getLeftChild right 0
      -- as a right child: the stale tail child of the left node becomes the left child of this key
      let success ← BranchNode.append env left firstKey firstChild true
      assert success
      BranchNode.delete env right 0 false
      let leftCount ← Node.countOf left
      let success ←
        BranchNode.insert env right (insertSlotId - leftCount) insertKey insertLeftChild false
      assert success
  else do
    let success ← BranchNode.insert env left insertSlotId insertKey insertLeftChild false
    assert success

/-- The choice of the key that rises in `BTree::Split(BranchNode*)`. -/
def splitBranchRise (env : Env) (left right : Nat) : TxM Bytes := do
  let leftCount ← Node.countOf left
  let rightCount ← Node.countOf right
  -- the last key of the left node rises, and its left child becomes the tail child
  if 2 ≤ leftCount then do
    assert (1 ≤ rightCount)
    let upKey ← Node.getKey env left (leftCount - 1)
    BranchNode.pop env left true
    return upKey
  -- the first key of the right node rises
  else do
    assert (2 ≤ rightCount)
    let upKey ← Node.getKey env right 0
    let leftChild ← BranchNode.getLeftChild right 0
    BranchNode.delete env right 0 false
    BranchNode.setTailChild left leftChild
    return upKey

/-- `BTree::Split(BranchNode*)`; the result is the key that rises and the new right node. -/
def splitBranch (env : Env) (left : Nat) (insertSlotId : Nat) (insertKey : Bytes)
    (insertRightChild : Nat) : TxM (Bytes × Nat) := do
  let leftCount ← Node.countOf left
  assert (insertSlotId ≤ leftCount)
  let right ← Pager.alloc 1
  BranchNode.build env right kPageInvalidId
  assert (2 ≤ leftCount)
  let rate ← Node.fillRate env left
  assert (Node.rateGt rate 1 2)
  -- the key at the position gets the right half below it, and the new key comes in with the left
  -- half
  let insertLeftChild ← BranchNode.getLeftChild left insertSlotId
  BranchNode.setLeftChild left insertSlotId insertRightChild
  splitBranchLoop env left right leftCount
  Node.reverseSlots right
  let rate ← Node.fillRate env left
  assert (¬ Node.rateGt rate 1 2)
  let tail ← BranchNode.getTailChild left
  BranchNode.setTailChild right tail
  splitBranchInsert env left right insertSlotId insertKey insertLeftChild
  let upKey ← splitBranchRise env left right
  return (upKey, right)

/-! ## Insertion -/

/-- `BTree::Put` into a branch: `left` has been split, `right` follows it and `key`
separates them. -/
def putBranch (env : Env) :
    List (Nat × Nat) → (left right : Nat) → (key : Bytes) → TxM Unit
  -- the root was split: the tree grows by a level
  | [], left, right, key => do
      let root ← Pager.alloc 1
      Exec.change fun s => { s with rootPgid := root }
      BranchNode.build env root left
      let _ ← BranchNode.append env root key right true
  | (pgid, slotId) :: rest, _, right, key => do
      let success ← BranchNode.insert env pgid slotId key right true
      if success then return ()
      let (branchKey, branchRight) ← splitBranch env pgid slotId key right
      putBranch env rest pgid branchRight branchKey

/-- `BTree::Put` at the position of an iterator. -/
def putAt (env : Env) (iter : BTreeIterator) (key value : Bytes) (insertOnly isBucket : Bool) :
    TxM Unit :=
  match iter.stack with
  | [] => do
      let root ← Pager.alloc 1
      Exec.change fun s => { s with rootPgid := root }
      LeafNode.build env root
      let success ← LeafNode.insert env root 0 key value
      assert success
      LeafNode.setIsBucket root 0 isBucket
  | (pgid, slotId) :: rest => do
      if !insertOnly && iter.status = .kEq then do
        let b ← BTreeIterator.isBucket iter
        assert (b = isBucket)
        -- the result is not looked at
        let _ ← LeafNode.update env pgid slotId key value
        LeafNode.setIsBucket pgid slotId isBucket
      else do
        let success ← LeafNode.insert env pgid slotId key value
        if success then
          LeafNode.setIsBucket pgid slotId isBucket
        else do
          let right ← splitLeaf env pgid slotId key value isBucket
          let firstKey ← Node.getKey env right 0
          putBranch env rest pgid right firstKey

/-- `BTree::Put`. -/
def put (env : Env) (key value : Bytes) (isBucket : Bool) : TxM Unit := do
  let iter ← lowerBound env key
  let iter ← copyAllPagesByPath env iter
  putAt env iter key value false isBucket

/-! ## Deletion -/

/-- `BTree::GetSibling`: the parent's slot, the sibling and whether it is the left one. The caller
pops the stack. -/
def getSibling (parent : Nat × Nat) : TxM (Nat × Nat × Bool) := do
  let count ← Node.countOf parent.1
  -- the last child has a sibling on the left only
  if parent.2 = count then do
    let sibling ← BranchNode.getLeftChild parent.1 (count - 1)
    return (parent.2 - 1, sibling, true)
  else do
    let sibling ← BranchNode.getRightChild parent.1 parent.2
    return (parent.2, sibling, false)

/-- The copy of a sibling that must not be written, entered into the parent. -/
def copySibling (env : Env) (parent : Nat) (parentSlotId : Nat) (sibling : Nat)
    (leftSibling : Bool) : TxM Nat := do
  let n ← Pager.getNode sibling
  let s ← Exec.read
  if copyNeeded env s.metaStruct.txid n.lastModifiedTxid then do
    let newPgid ← Node.copy sibling
    if leftSibling then BranchNode.setLeftChild parent parentSlotId newPgid
    else BranchNode.setLeftChild parent (parentSlotId + 1) newPgid
    return newPgid
  else return sibling

/-- The loop of `BTree::Merge(BranchNode)` over the `n` records of `right` from `i` on. -/
def mergeBranchLoop (env : Env) (left right : Nat) : Nat → Nat → TxM Unit
  | 0, _ => pure ()
  | n + 1, i => do
      let key ← Node.getKey env right i
      let child ← BranchNode.getLeftChild right i
      let success ← BranchNode.append env left key child false
      assert success
      mergeBranchLoop env left right n (i + 1)

/-- `BTree::Merge(BranchNode)`. -/
def mergeBranch (env : Env) (left right : Nat) (downKey : Bytes) : TxM Unit := do
  -- the invalid child is set to the tail child of `right` in the end
  let success ← BranchNode.append env left downKey kPageInvalidId true
  assert success
  let count ← Node.countOf right
  mergeBranchLoop env left right count 0
  let tail ← BranchNode.getTailChild right
  BranchNode.setTailChild left tail
  Pager.free right 1

/-- The loop of `BTree::Merge(LeafNode)` over the `n` records of `right` from `i` on. -/
def mergeLeafLoop (env : Env) (left right : Nat) : Nat → Nat → TxM Unit
  | 0, _ => pure ()
  | n + 1, i => do
      let key ← Node.getKey env right i
      let value ← LeafNode.getValue env right i
      let success ← LeafNode.append env left key value
      assert success
      let count ← Node.countOf left
      let b ← LeafNode.isBucket right i
      LeafNode.setIsBucket left (count - 1) b
      mergeLeafLoop env left right n (i + 1)

/-- `BTree::Merge(LeafNode)`. -/
def mergeLeaf (env : Env) (left right : Nat) : TxM Unit := do
  let count ← Node.countOf right
  mergeLeafLoop env left right count 0
  Pager.free right 1

/-- The assertion at the head of `BTree::Delete(Iterator*)`: a live sub-bucket is not deleted. -/
def checkNotLiveBucket (env : Env) (iter : BTreeIterator) : TxM Unit := do
  let b ← BTreeIterator.isBucket iter
  if b then do
    let value ← BTreeIterator.value env iter
    if value.length ≠ 4 then
      Exec.raise (.invalidArgument "The size of the value does not match.")
    assert (value = [0xff, 0xff, 0xff, 0xff])

section Push

/-! The functions of the deletion are over what `push` does, so that a statement about them can put
another computation in the place of `BTreeIterator::Push`. -/

variable (push : BTreeIterator → Nat × Nat → TxM BTreeIterator)

/-- The parent could not take the new separator: its entry is deleted and inserted upwards. -/
def reinsertWith (env : Env) (parent : Nat) (parentSlotId : Nat) (rest : List (Nat × Nat))
    (left right : Nat) (newKey : Bytes) : TxM Unit := do
  -- the key and its right child go; they come in again in `Put`
  BranchNode.delete env parent parentSlotId true
  let iter ← push ⟨rest, .kEq⟩ (parent, parentSlotId)
  putBranch env iter.stack left right newKey

/-- `BTree::Delete` from the branch `node`, which loses the key `leftDelSlotId` and the child to the
right of it; the stack holds the path above. -/
def deleteBranchWith (env : Env) :
    List (Nat × Nat) → (node : Nat) → (leftDelSlotId : Nat) → TxM Unit
  | [], node, leftDelSlotId => do
      BranchNode.delete env node leftDelSlotId true
      let count ← Node.countOf node
      -- the one child that is left becomes the root
      if count = 0 then do
        let s ← Exec.read
        assert (node = s.rootPgid)
        let tail ← BranchNode.getTailChild node
        Exec.change fun s => { s with rootPgid := tail }
        Pager.free node 1
  | front :: rest, node, leftDelSlotId => do
      BranchNode.delete env node leftDelSlotId true
      let rate ← Node.fillRate env node
      if Node.rateGe rate 2 5 then return ()
      let parent := front.1
      let (parentSlotId, sibling, leftSibling) ← getSibling front
      let sibling ← copySibling env parent parentSlotId sibling leftSibling
      let rate ← Node.fillRate env sibling
      let count ← Node.countOf sibling
      if Node.rateGt rate 1 2 ∧ 2 ≤ count then do
        let newKey ←
          -- the key of the parent descends, and the last key of the left sibling rises
          if leftSibling then do
            let downKey ← Node.getKey env parent parentSlotId
            let child ← BranchNode.getTailChild sibling
            let success ← BranchNode.insert env node 0 downKey child false
            assert success
            let newKey ← Node.getKey env sibling (count - 1)
            BranchNode.pop env sibling true
            pure newKey
          -- the key of the parent descends, and the first key of the right sibling rises
          else do
            BranchNode.setLeftChild parent (parentSlotId + 1) sibling
            let downKey ← Node.getKey env parent parentSlotId
            let child ← BranchNode.getLeftChild sibling 0
            let success ← BranchNode.append env node downKey child true
            assert success
            let newKey ← Node.getKey env sibling 0
            BranchNode.delete env sibling 0 false
            pure newKey
        let success ← BranchNode.updateKey env parent parentSlotId newKey
        if !success then
          if leftSibling then reinsertWith push env parent parentSlotId rest sibling node newKey
          else reinsertWith push env parent parentSlotId rest node sibling newKey
        return ()
      let downKey ← Node.getKey env parent parentSlotId
      if leftSibling then mergeBranch env sibling node downKey
      else mergeBranch env node sibling downKey
      deleteBranchWith env rest parent parentSlotId

/-- `BTree::Delete(Iterator*)`. -/
def deleteAtWith (env : Env) (iter : BTreeIterator) : TxM Unit := do
  checkNotLiveBucket env iter
  let (pgid, pos) ← BTreeIterator.front iter
  LeafNode.delete env pgid pos
  let rate ← Node.fillRate env pgid
  if Node.rateGe rate 2 5 then return ()
  match iter.stack with
  | _ :: front :: rest => do
      let parent := front.1
      let (parentSlotId, sibling, leftSibling) ← getSibling front
      let sibling ← copySibling env parent parentSlotId sibling leftSibling
      let rate ← Node.fillRate env sibling
      let count ← Node.countOf sibling
      if Node.rateGt rate 1 2 ∧ 2 ≤ count then do
        let newKey ←
          if leftSibling then do
            let key ← Node.getKey env sibling (count - 1)
            let value ← LeafNode.getValue env sibling (count - 1)
            let success ← LeafNode.insert env pgid 0 key value
            assert success
            let b ← LeafNode.isBucket sibling (count - 1)
            LeafNode.setIsBucket pgid 0 b
            LeafNode.pop env sibling
            Node.getKey env pgid 0
          else do
            let key ← Node.getKey env sibling 0
            let value ← LeafNode.getValue env sibling 0
            let success ← LeafNode.append env pgid key value
            assert success
            let nodeCount ← Node.countOf pgid
            let b ← LeafNode.isBucket sibling 0
            LeafNode.setIsBucket pgid (nodeCount - 1) b
            LeafNode.delete env sibling 0
            Node.getKey env sibling 0
        -- this form of `Update` stores the left child that is there already
        let child ← BranchNode.getLeftChild parent parentSlotId
        let success ← BranchNode.update env parent parentSlotId newKey child false
        if !success then
          if leftSibling then reinsertWith push env parent parentSlotId rest sibling pgid newKey
          else reinsertWith push env parent parentSlotId rest pgid sibling newKey
        return ()
      if leftSibling then mergeLeaf env sibling pgid
      else mergeLeaf env pgid sibling
      deleteBranchWith push env rest parent parentSlotId
  -- the leaf is the root
  | _ => return ()

/-- `BTree::Delete(key)`. -/
def deleteWith (env : Env) (key : Bytes) : TxM Bool := do
  let iter ← lowerBound env key
  if iter.status ≠ .kEq then return false
  let iter ← copyAllPagesByPath env iter
  deleteAtWith push env iter
  return true

end Push

def reinsert (env : Env) (parent : Nat) (parentSlotId : Nat) (rest : List (Nat × Nat))
    (left right : Nat) (newKey : Bytes) : TxM Unit :=
  reinsertWith push env parent parentSlotId rest left right newKey

def deleteBranch (env : Env) (stack : List (Nat × Nat)) (node : Nat)
    (leftDelSlotId : Nat) : TxM Unit :=
  deleteBranchWith push env stack node leftDelSlotId

def deleteAt (env : Env) (iter : BTreeIterator) : TxM Unit := deleteAtWith push env iter

def delete (env : Env) (key : Bytes) : TxM Bool := deleteWith push env key

end BTree

end AtomKV
