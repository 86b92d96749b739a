import AtomKV.Pager

/-!
# Nodes

`node.cpp`. `Node` holds the space accounting shared by both kinds of node (free space, compaction,
storing and deleting a record); `BranchNode` and `LeafNode` hold the operations on a page, addressed
by its page id. A C++ `Node` object writes through a pointer into the page, so each write here is a
`Pager.setNode`.
-/

set_option autoImplicit false

namespace AtomKV

namespace Node

/-- `assert` inside a computation that does not touch the state. -/
def check (p : Prop) [Decidable p] : Except Err Unit :=
  if p then .ok () else .error .assertion

/-! ## Space accounting -/

/-- `Node::MaxInlineRecordSize`. -/
def maxInlineRecordSize (P : Nat) : Except Err Nat := do
  let maxSize := u16 ((P : Int) - kNodeHeaderSize - kPaddingSize)
  let maxSize := u16 ((maxSize : Int) - kSlotSize * 2)
  check (maxSize % 2 = 0)
  return maxSize / 2

/-- `Node::SpaceNeeded`. -/
def spaceNeeded (recordSize : Nat) (slotNeeded : Bool) : Nat :=
  if !slotNeeded then recordSize else recordSize + kSlotSize

/-- `Node::SlotSpace`, the node header included. -/
def slotSpace (P : Nat) (n : Node) : Except Err Nat := do
  let space := kNodeHeaderSize + kPaddingSize + kSlotSize * n.count
  check (space < P)
  return space

/-- `Node::FreeSpace`. -/
def freeSpace (P : Nat) (n : Node) : Except Err Nat := do
  let slots ← slotSpace P n
  check ((slots : Int) ≤ n.dataOffset)
  check (n.dataOffset - slots < P)
  return u16 (n.dataOffset - slots)

/-- `Node::FreeSpaceAfterCompaction`. -/
def freeSpaceAfterCompaction (P : Nat) (n : Node) : Except Err Nat := do
  let slots ← slotSpace P n
  check (slots + n.spaceUsed ≤ P)
  let space := u16 ((P : Int) - slots - n.spaceUsed)
  check (space < P)
  return space

/-- `Node::GetFillRate` as the pair of used and available space. -/
def getFillRate (P : Nat) (n : Node) : Except Err (Nat × Nat) := do
  let maxSpace := P - kNodeHeaderSize - kPaddingSize
  let space ← freeSpaceAfterCompaction P n
  return (maxSpace - space, maxSpace)

/-- `rate >= a / b`. The quotient of two numbers below `2 ^ 16` is never rounded across `0.4` or
`0.5`, so the comparison of doubles is the comparison of fractions. -/
def rateGe (rate : Nat × Nat) (a b : Nat) : Prop := a * rate.2 ≤ b * rate.1

/-- `rate > a / b`. -/
def rateGt (rate : Nat × Nat) (a b : Nat) : Prop := a * rate.2 < b * rate.1

instance (rate : Nat × Nat) (a b : Nat) : Decidable (rateGe rate a b) :=
  inferInstanceAs (Decidable (_ ≤ _))

instance (rate : Nat × Nat) (a b : Nat) : Decidable (rateGt rate a b) :=
  inferInstanceAs (Decidable (_ < _))

/-- The space a slot's record takes in the page, as `CopyRecordRange` computes it. -/
def recordSize (isLeaf : Bool) (slot : Slot) : Nat :=
  match slot.record with
  | .overflow _ => kOverflowRecordSize
  | .inlined _ => if isLeaf then slot.keySize + slot.word else slot.keySize

/-- `Node::CopyRecordRange`: the records are laid out anew below `dataOffset`, slot by slot. The
result is the slots with their new offsets and the new offset and used space of the target. -/
def copyRecordRange (isLeaf : Bool) : List Slot → Int → Nat → List Slot × Int × Nat
  | [], dataOffset, spaceUsed => ([], dataOffset, spaceUsed)
  | slot :: rest, dataOffset, spaceUsed =>
      let size := recordSize isLeaf slot
      let dataOffset := i16 (dataOffset - size)
      let spaceUsed := u16 ((spaceUsed : Int) + size)
      let r := copyRecordRange isLeaf rest dataOffset spaceUsed
      ({ slot with recordOffset := (dataOffset % 32768).toNat } :: r.1, r.2)

/-- `Node::Compactify`. -/
def compactify (P : Nat) (n : Node) : Except Err Node := do
  let r := copyRecordRange n.isLeaf n.slots (i16 P) 0
  check (n.spaceUsed = r.2.2)
  return { n with slots := r.1, dataOffset := r.2.1 }

/-- `Node::RequestSpaceFor`; the node comes back compacted when that was needed. -/
def requestSpaceFor (P : Nat) (n : Node) (keySize valueSize : Nat) (slotNeeded : Bool) :
    Except Err (Bool × Node) := do
  let size := keySize + valueSize
  let maxInline ← maxInlineRecordSize P
  let needed := if maxInline < size then spaceNeeded kOverflowRecordSize slotNeeded
    else spaceNeeded size slotNeeded
  let free ← freeSpace P n
  if needed ≤ free then
    return (true, n)
  let freeAfter ← freeSpaceAfterCompaction P n
  if needed ≤ freeAfter then
    let n ← compactify P n
    return (true, n)
  return (false, n)

/-- The assertion `SlotSpace() + FreeSpace() == data_offset` at the end of an operation. -/
def checkLayout (P : Nat) (n : Node) : Except Err Unit := do
  let slots ← slotSpace P n
  let free ← freeSpace P n
  check ((slots : Int) + free = n.dataOffset)

/-- `Node::DeleteRecord`: the record's space is given back, the slot stays. -/
def deleteRecord (n : Node) (slotId : Nat) (slot : Slot) : Node :=
  match slot.record with
  | .overflow _ => { n with spaceUsed := u16 ((n.spaceUsed : Int) - kOverflowRecordSize) }
  | .inlined _ =>
      if n.isLeaf then
        { n with
          spaceUsed := u16 ((u16 ((n.spaceUsed : Int) - slot.keySize) : Int) - slot.word)
          slots := n.slots.set slotId { slot with keySize := 0, word := 0 } }
      else
        { n with
          spaceUsed := u16 ((n.spaceUsed : Int) - slot.keySize)
          slots := n.slots.set slotId { slot with keySize := 0 } }

/-- `Node::RestoreRecord`. -/
def restoreRecord (n : Node) (slotId : Nat) (slot saved : Slot) : Node :=
  match saved.record with
  | .overflow _ => { n with spaceUsed := u16 ((n.spaceUsed : Int) + kOverflowRecordSize) }
  | .inlined _ =>
      if n.isLeaf then
        { n with
          spaceUsed := u16 ((u16 ((n.spaceUsed : Int) + saved.keySize) : Int) + saved.word)
          slots := n.slots.set slotId { slot with keySize := saved.keySize, word := saved.word } }
      else
        { n with
          spaceUsed := u16 ((n.spaceUsed : Int) + saved.keySize)
          slots := n.slots.set slotId { slot with keySize := saved.keySize } }

/-! ## Reading -/

/-- The children of a branch. -/
def kids (n : Node) : List Nat := n.slots.map Slot.word ++ [n.tailChild]

/-- The slot `slotId`, which must exist. -/
def getSlot (n : Node) (slotId : Nat) : TxM Slot :=
  match n.slots[slotId]? with
  | some slot => pure slot
  | none => Exec.raise .assertion

/-- `Node::GetKey` of a slot. -/
def slotKey (P : Nat) (pager : Pager) (slot : Slot) : Bytes :=
  match slot.record with
  | .inlined bytes => bytes.take slot.keySize
  | .overflow pgid => Pager.readBytes P pager pgid slot.keySize

/-- `LeafNode::GetValue` of a slot. -/
def slotValue (P : Nat) (pager : Pager) (slot : Slot) : Bytes :=
  match slot.record with
  | .inlined bytes => (bytes.drop slot.keySize).take slot.word
  | .overflow pgid => (Pager.readBytes P pager pgid (slot.keySize + slot.word)).drop slot.keySize

/-- `Node::GetKey`. -/
def getKey (env : Env) (pgid : Nat) (slotId : Nat) : TxM Bytes := do
  let n ← Pager.getNode pgid
  let slot ← n.getSlot slotId
  let s ← Exec.read
  return slotKey env.pageSize s.pager slot

/-- `Node::GetFillRate` of a page. -/
def fillRate (env : Env) (pgid : Nat) : TxM (Nat × Nat) := do
  let n ← Pager.getNode pgid
  Exec.lift (n.getFillRate env.pageSize)

/-- `Node::count` of a page. -/
def countOf (pgid : Nat) : TxM Nat := do
  let n ← Pager.getNode pgid
  return n.count

/-- The search loop of `std::lower_bound` in `Node::LowerBound`: `len` slots from `first` on are
left; `eq` records whether some comparison came out equal. -/
def lowerBoundLoop (env : Env) (pgid : Nat) (key : Bytes) :
    Nat → Nat → Nat → Bool → TxM (Nat × Bool)
  | 0, first, _, eq => pure (first, eq)
  | fuel + 1, first, len, eq =>
      if len = 0 then pure (first, eq)
      else do
        let half := len / 2
        let slotKey ← getKey env pgid (first + half)
        let res := env.comparator slotKey key
        let eq := eq || res == .eq
        if res = .lt then lowerBoundLoop env pgid key fuel (first + half + 1) (len - half - 1) eq
        else lowerBoundLoop env pgid key fuel first half eq

/-- `Node::LowerBound`. -/
def lowerBound (env : Env) (pgid : Nat) (key : Bytes) : TxM (Nat × Bool) := do
  let count ← countOf pgid
  lowerBoundLoop env pgid key count 0 count false

/-! ## Storing records -/

/-- `Node::StoreRecordToOverflowPages`. -/
def storeRecordToOverflowPages (env : Env) (key value : Bytes) : TxM Nat := do
  let P := env.pageSize
  let pgid ← Pager.alloc (Pager.getPageCount P (key.length + value.length))
  Exec.change fun s => { s with pager := Pager.writeByBytes P s.pager pgid 0 key }
  if value ≠ [] then
    Exec.change fun s => { s with
      pager := Pager.writeByBytes P s.pager (pgid + key.length / P) (key.length % P) value }
  return pgid

/-- The last part of `Node::StoreRecord`: `size` bytes are taken from the free space and the slot is
pointed at them. -/
def placeRecord (env : Env) (pgid : Nat) (slotId : Nat) (size : Nat) (record : Record) :
    TxM Unit := do
  let n ← Pager.getNode pgid
  -- the comparison is with a `size_t`
  assert (size ≤ u64 n.dataOffset)
  let dataOffset := i16 (n.dataOffset - size)
  let slot ← n.getSlot slotId
  let n := { n with
    dataOffset := dataOffset
    spaceUsed := u16 ((n.spaceUsed : Int) + size)
    slots := n.slots.set slotId
      { slot with recordOffset := (dataOffset % 32768).toNat, record := record } }
  Pager.setNode pgid n
  Exec.lift (n.checkLayout env.pageSize)

/-- `Node::StoreRecord`. -/
def storeRecord (env : Env) (pgid : Nat) (slotId : Nat) (key value : Bytes) : TxM Unit := do
  if key.length > env.pageSize ∨ key.length > kKeyMaxSize then
    Exec.raise (.invalidArgument "Key size exceeds the limit.")
  if value.length > kValueMaxSize then
    Exec.raise (.invalidArgument "Value size exceeds the limit.")
  let n ← Pager.getNode pgid
  let slot ← n.getSlot slotId
  -- a leaf has the size of the value where a branch has the left child
  let slot := { slot with
    keySize := key.length
    word := if n.isLeaf then value.length else slot.word }
  Pager.setNode pgid { n with slots := n.slots.set slotId slot }
  let maxInline ← Exec.lift (maxInlineRecordSize env.pageSize)
  if maxInline < key.length + value.length then do
    let run ← storeRecordToOverflowPages env key value
    placeRecord env pgid slotId kOverflowRecordSize (.overflow run)
  else
    placeRecord env pgid slotId (key.length + value.length) (.inlined (key ++ value))

/-- `Node::Copy`: the copy's page id. -/
def copy (pgid : Nat) : TxM Nat := do
  let newPgid ← Pager.copy pgid
  let n ← Pager.getNode newPgid
  let s ← Exec.read
  Pager.setNode newPgid { n with lastModifiedTxid := s.metaStruct.txid }
  return newPgid

/-- `std::reverse(slots(), slots() + count())`. -/
def reverseSlots (pgid : Nat) : TxM Unit := do
  let n ← Pager.getNode pgid
  Pager.setNode pgid { n with slots := n.slots.reverse }

end Node

/-! ## Branch nodes -/

namespace BranchNode

/-- `BranchNode::Build`. -/
def build (env : Env) (pgid : Nat) (tailChild : Nat) : TxM Unit := do
  let s ← Exec.read
  Pager.setNode pgid
    { type := .kBranch
      slots := []
      dataOffset := i16 env.pageSize
      spaceUsed := 0
      tailChild := tailChild
      lastModifiedTxid := s.metaStruct.txid }

/-- `BranchNode::GetTailChild`. -/
def getTailChild (pgid : Nat) : TxM Nat := do
  let n ← Pager.getNode pgid
  return n.tailChild

/-- `BranchNode::SetTailChild`. -/
def setTailChild (pgid : Nat) (child : Nat) : TxM Unit := do
  let n ← Pager.getNode pgid
  Pager.setNode pgid { n with tailChild := child }

/-- `BranchNode::GetLeftChild`. -/
def getLeftChild (pgid : Nat) (slotId : Nat) : TxM Nat := do
  let n ← Pager.getNode pgid
  if slotId = n.count then return n.tailChild
  let slot ← n.getSlot slotId
  return slot.word

/-- A node whose slot `slotId` has the left child `child`. -/
def withLeftChild (n : Node) (slotId : Nat) (child : Nat) : TxM Node := do
  let slot ← n.getSlot slotId
  return { n with slots := n.slots.set slotId { slot with word := child } }

/-- `BranchNode::SetLeftChild`. -/
def setLeftChild (pgid : Nat) (slotId : Nat) (child : Nat) : TxM Unit := do
  let n ← Pager.getNode pgid
  if slotId = n.count then
    setTailChild pgid child
  else do
    let n ← withLeftChild n slotId child
    Pager.setNode pgid n

/-- `BranchNode::GetRightChild`. -/
def getRightChild (pgid : Nat) (slotId : Nat) : TxM Nat := do
  let n ← Pager.getNode pgid
  assert (slotId < n.count)
  if slotId = n.count - 1 then return n.tailChild
  let slot ← n.getSlot (slotId + 1)
  return slot.word

/-- `BranchNode::SetRightChild`. -/
def setRightChild (pgid : Nat) (slotId : Nat) (child : Nat) : TxM Unit := do
  let n ← Pager.getNode pgid
  assert (slotId < n.count)
  if slotId = n.count - 1 then
    setTailChild pgid child
  else do
    let n ← withLeftChild n (slotId + 1) child
    Pager.setNode pgid n

/-- `BranchNode::Update(slot_id, key)`. The space of an overflow stub is given back by
`DeleteRecord`, and the stale `key_size` is then subtracted as well. -/
def updateKey (env : Env) (pgid : Nat) (slotId : Nat) (key : Bytes) : TxM Bool := do
  let n ← Pager.getNode pgid
  let saved ← n.getSlot slotId
  let n := n.deleteRecord slotId saved
  Pager.setNode pgid n
  let (success, n) ← Exec.lift (n.requestSpaceFor env.pageSize key.length 0 false)
  if !success then do
    let slot ← n.getSlot slotId
    Pager.setNode pgid (n.restoreRecord slotId slot saved)
    return false
  let slot ← n.getSlot slotId
  Pager.setNode pgid { n with spaceUsed := u16 ((n.spaceUsed : Int) - slot.keySize) }
  Node.storeRecord env pgid slotId key []
  let n ← Pager.getNode pgid
  Exec.lift (n.checkLayout env.pageSize)
  return true

/-- `BranchNode::Update(slot_id, key, child, is_right_child)`. -/
def update (env : Env) (pgid : Nat) (slotId : Nat) (key : Bytes) (child : Nat)
    (isRightChild : Bool) : TxM Bool := do
  let success ← updateKey env pgid slotId key
  if !success then return false
  if isRightChild then setRightChild pgid slotId child
  else do
    let n ← Pager.getNode pgid
    let n ← withLeftChild n slotId child
    Pager.setNode pgid n
  return true

/-- `BranchNode::Insert`. -/
def insert (env : Env) (pgid : Nat) (slotId : Nat) (key : Bytes) (child : Nat)
    (isRightChild : Bool) : TxM Bool := do
  let n ← Pager.getNode pgid
  assert (slotId ≤ n.count)
  let (success, n) ← Exec.lift (n.requestSpaceFor env.pageSize key.length 0 true)
  if !success then return false
  -- the slot keeps its old bits until they are set; `slotId + 1` holds a copy of it now
  let slot := n.slots.getD slotId .stale
  let n ←
    if isRightChild then
      if slotId = n.count then
        -- the old tail child becomes the left child of the new key
        pure { n with
          slots := n.slots ++ [{ slot with word := n.tailChild }]
          tailChild := child }
      else do
        -- the old left child stays in front of the new key, and `child` comes in behind it
        let moved ← n.getSlot slotId
        pure { n with
          slots := (n.slots.set slotId { moved with word := child }).insertIdx slotId
            { slot with word := moved.word } }
    else
      pure { n with slots := n.slots.insertIdx slotId { slot with word := child } }
  Pager.setNode pgid n
  Node.storeRecord env pgid slotId key []
  return true

/-- `BranchNode::Append`. -/
def append (env : Env) (pgid : Nat) (key : Bytes) (child : Nat) (isRightChild : Bool) :
    TxM Bool := do
  let count ← Node.countOf pgid
  insert env pgid count key child isRightChild

/-- `BranchNode::Delete`: the key goes together with its right or its left child. -/
def delete (env : Env) (pgid : Nat) (slotId : Nat) (rightChild : Bool) : TxM Unit := do
  let n ← Pager.getNode pgid
  let slot ← n.getSlot slotId
  let n ←
    match slot.record with
    | .overflow run => do
        Pager.free run (Pager.getPageCount env.pageSize slot.keySize)
        pure { n with spaceUsed := u16 ((n.spaceUsed : Int) - kOverflowRecordSize) }
    | .inlined _ => pure { n with spaceUsed := u16 ((n.spaceUsed : Int) - slot.keySize) }
  let n ←
    if rightChild then
      -- the left child of the key stays, in front of the next key or as the tail child
      if slotId + 1 < n.count then do
        let n ← withLeftChild n (slotId + 1) slot.word
        pure { n with slots := n.slots.eraseIdx slotId }
      else pure { n with tailChild := slot.word, slots := n.slots.eraseIdx slotId }
    else pure { n with slots := n.slots.eraseIdx slotId }
  Pager.setNode pgid n
  Exec.lift (n.checkLayout env.pageSize)

/-- `BranchNode::Pop`. -/
def pop (env : Env) (pgid : Nat) (rightChild : Bool) : TxM Unit := do
  let count ← Node.countOf pgid
  delete env pgid (count - 1) rightChild

end BranchNode

/-! ## Leaf nodes -/

namespace LeafNode

/-- `LeafNode::Build`; the padding is never read. -/
def build (env : Env) (pgid : Nat) : TxM Unit := do
  let s ← Exec.read
  Pager.setNode pgid
    { type := .kLeaf
      slots := []
      dataOffset := i16 env.pageSize
      spaceUsed := 0
      tailChild := 0
      lastModifiedTxid := s.metaStruct.txid }

/-- `LeafNode::IsBucket`. -/
def isBucket (pgid : Nat) (slotId : Nat) : TxM Bool := do
  let n ← Pager.getNode pgid
  let slot ← n.getSlot slotId
  return slot.isBucket

/-- `LeafNode::SetIsBucket`. -/
def setIsBucket (pgid : Nat) (slotId : Nat) (b : Bool) : TxM Unit := do
  let n ← Pager.getNode pgid
  let slot ← n.getSlot slotId
  Pager.setNode pgid { n with slots := n.slots.set slotId { slot with isBucket := b } }

/-- `LeafNode::GetValue`. -/
def getValue (env : Env) (pgid : Nat) (slotId : Nat) : TxM Bytes := do
  let n ← Pager.getNode pgid
  let slot ← n.getSlot slotId
  let s ← Exec.read
  return Node.slotValue env.pageSize s.pager slot

/-- `LeafNode::Update`. -/
def update (env : Env) (pgid : Nat) (slotId : Nat) (key value : Bytes) : TxM Bool := do
  let n ← Pager.getNode pgid
  let saved ← n.getSlot slotId
  let n := n.deleteRecord slotId saved
  Pager.setNode pgid n
  let (success, n) ← Exec.lift (n.requestSpaceFor env.pageSize key.length value.length false)
  if !success then do
    let slot ← n.getSlot slotId
    Pager.setNode pgid (n.restoreRecord slotId slot saved)
    return false
  Pager.setNode pgid n
  Node.storeRecord env pgid slotId key value
  let n ← Pager.getNode pgid
  Exec.lift (n.checkLayout env.pageSize)
  return true

/-- `LeafNode::Insert`. -/
def insert (env : Env) (pgid : Nat) (slotId : Nat) (key value : Bytes) : TxM Bool := do
  let n ← Pager.getNode pgid
  assert (slotId ≤ n.count)
  let (success, n) ← Exec.lift (n.requestSpaceFor env.pageSize key.length value.length true)
  if !success then return false
  -- the new slot keeps the old bits of its place, `is_bucket` among them
  Pager.setNode pgid
    { n with slots := n.slots.insertIdx slotId (n.slots.getD slotId .stale) }
  Node.storeRecord env pgid slotId key value
  return true

/-- `LeafNode::Append`. -/
def append (env : Env) (pgid : Nat) (key value : Bytes) : TxM Bool := do
  let count ← Node.countOf pgid
  insert env pgid count key value

/-- `LeafNode::Delete`; the record's size is a sum of 32-bit width. -/
def delete (env : Env) (pgid : Nat) (slotId : Nat) : TxM Unit := do
  let n ← Pager.getNode pgid
  let slot ← n.getSlot slotId
  let size := u32 (slot.keySize + slot.word)
  let n ←
    match slot.record with
    | .overflow run => do
        Pager.free run (Pager.getPageCount env.pageSize size)
        pure { n with spaceUsed := u16 ((n.spaceUsed : Int) - kOverflowRecordSize) }
    | .inlined _ => pure { n with spaceUsed := u16 ((n.spaceUsed : Int) - size) }
  let n := { n with slots := n.slots.eraseIdx slotId }
  Pager.setNode pgid n
  Exec.lift (n.checkLayout env.pageSize)

/-- `LeafNode::Pop`. -/
def pop (env : Env) (pgid : Nat) : TxM Unit := do
  let count ← Node.countOf pgid
  delete env pgid (count - 1)

end LeafNode

end AtomKV
