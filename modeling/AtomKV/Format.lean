import AtomKV.Lib.Exec
import Mathlib.Data.Nat.Init
import Mathlib.Data.Int.Init

/-!
# On-disk formats and limits

The types of `page_format.h`, `slot.h`, `node_format.h`, `tx_format.h`, `meta_format.h` and
`options.h`. Page ids, counts and transaction ids are natural numbers; where the source stores a
value in a narrower field, the store goes through `u16`, `i16`, `u32` or `u64`.

A slot carries the bytes that its `record_offset` points at: `Record.inlined` for a record kept in
the page, `Record.overflow` for an `OverflowRecord` that names the first page of a run. The flag
`is_overflow_pages` is the choice between the two.
-/

set_option autoImplicit false

namespace AtomKV

abbrev Bytes := List UInt8


/-! ## Widths of the stored fields -/

/-- Conversion to `uint16_t` (`PageSize`). -/
def u16 (x : Int) : Nat := (x % 65536).toNat

/-- Conversion to `int16_t` (`PageOffset`). -/
def i16 (x : Int) : Int := (x + 32768) % 65536 - 32768

/-- Conversion to `uint32_t` (`PageId`, `PageCount`). -/
def u32 (x : Nat) : Nat := x % 4294967296

/-- Conversion to `uint64_t` (`TxId`, `size_t`). -/
def u64 (x : Int) : Nat := (x % 18446744073709551616).toNat

theorem i16_of_range {x : Int} (h0 : -32768 ≤ x) (h1 : x < 32768) : i16 x = x := by
  unfold i16
  omega

theorem u32_of_lt {x : Nat} (h : x < 4294967296) : u32 x = x := Nat.mod_eq_of_lt h

theorem u64_of_range {x : Int} (h0 : 0 ≤ x) (h1 : x < 18446744073709551616) :
    (u64 x : Int) = x := by
  unfold u64
  omega

/-! ## Constants -/

def kPageMinSize : Nat := 0x100
def kPageMaxSize : Nat := 0x8000
def kPageInvalidId : Nat := 0xffffffff
def kPageInitCount : Nat := 2
def kPageMaxCount : Nat := 0x80000000

def kKeyMaxSize : Nat := 0x7fff
def kValueMaxSize : Nat := 0xffffffff

def kTxInvalidId : Nat := 0xffffffffffffffff

/-- `sizeof(NodeHeader)`: txid 8, type and count 2, `space_used` 2, `data_offset` 2. -/
def kNodeHeaderSize : Nat := 14
/-- `sizeof(NodeData::padding)`. -/
def kPaddingSize : Nat := 4
/-- `sizeof(Slot)`. -/
def kSlotSize : Nat := 8
/-- `sizeof(OverflowRecord)`. -/
def kOverflowRecordSize : Nat := 4
/-- `sizeof(PagePair)`. -/
def kPagePairSize : Nat := 8

/-- The capacity of `BTreeIterator::Stack`. -/
def kStackSize : Nat := 32

/-! ## Nodes -/

inductive NodeType where
  | kInvalid
  | kBranch
  | kLeaf
  deriving DecidableEq, Repr

/-- The bytes a slot's `record_offset` leads to. -/
inductive Record where
  | inlined (bytes : Bytes)
  | overflow (pgid : Nat)
  deriving DecidableEq, Repr

/-- `Slot`; `word` is the union of `left_child` and `value_size`. -/
structure Slot where
  recordOffset : Nat
  record : Record
  keySize : Nat
  isBucket : Bool
  word : Nat
  deriving DecidableEq, Repr

/-- What a slot that was never written holds. -/
def Slot.stale : Slot := ⟨0, .inlined [], 0, false, 0⟩

/-- `NodeData`: the header, the tail child (padding in a leaf) and the first `count` slots. -/
structure Node where
  lastModifiedTxid : Nat
  type : NodeType
  spaceUsed : Nat
  dataOffset : Int
  tailChild : Nat
  slots : List Slot
  deriving DecidableEq, Repr

namespace Node

def count (n : Node) : Nat := n.slots.length

def isLeaf (n : Node) : Bool := n.type = .kLeaf

def isBranch (n : Node) : Bool := n.type = .kBranch

end Node

/-- A page of the file: a node, or plain bytes (overflow data, the free list, or leftovers). -/
inductive Page where
  | node (n : Node)
  | raw (bytes : Bytes)
  deriving DecidableEq, Repr

/-! ## Meta -/

/-- The fields of `MetaStruct` that `CopyMetaInfo` carries over. -/
structure MetaInfo where
  pageCount : Nat
  userRoot : Nat
  freeListPgid : Nat
  freePairCount : Nat
  freeListPageCount : Nat
  txid : Nat
  deriving DecidableEq, Repr

inductive DbMode where
  | kUpdateInPlace
  | kWal
  deriving DecidableEq, Repr

/-! ## Exceptions -/

/-- How a call can end other than by returning. -/
inductive Err where
  /-- A failed `assert`. -/
  | assertion
  | invalidArgument (what : String)
  | runtimeError (what : String)
  deriving DecidableEq, Repr

end AtomKV
