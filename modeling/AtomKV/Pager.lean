import AtomKV.Format

/-!
# The pager

`pager.cpp`: page memory, the free map, pending frees and the allocation records of the open write
transaction. `std::map` is a list of pairs in ascending key order.

`TxState` is what a write transaction works on: the pager, the transaction's own copy of the meta
and the variable `root_pgid_` of the tree at work. Growing the mapping (`DBImpl::Remmap`) does not
change any page and is left out.
-/

set_option autoImplicit false

namespace AtomKV

abbrev PagePair := Nat × Nat

structure Pager where
  pages : Nat → Page
  freeMap : List PagePair
  pendingMap : List (Nat × List PagePair)
  allocRecords : List PagePair

structure TxState where
  pager : Pager
  metaStruct : MetaInfo
  rootPgid : Nat

/-- What the write transaction reads and never changes. -/
structure Env where
  pageSize : Nat
  comparator : Bytes → Bytes → Ordering
  /-- `TxManager::min_view_txid_`. -/
  minViewTxid : Nat
  /-- `TxManager::persisted_txid_`. -/
  persistedTxid : Nat

abbrev TxM := Exec TxState Err

/-- `assert`. -/
def assert (p : Prop) [Decidable p] : TxM Unit := Exec.require p .assertion

namespace Pager

/-! ## Page memory -/

/-- The bytes of a page read as plain memory; a page that holds a node is opaque here. -/
def rawBytes : Page → Bytes
  | .raw bytes => bytes
  | .node _ => []

/-- The bytes of one page, filled up to the page size. -/
def pageBytes (P : Nat) (page : Page) : Bytes :=
  (rawBytes page).take P ++ List.replicate (P - (rawBytes page).length) 0

/-- Overwrite `bytes` from `offset` on with `buf`. -/
def splice (P : Nat) (page : Page) (offset : Nat) (buf : Bytes) : Page :=
  .raw ((pageBytes P page).take offset ++ buf ++ (pageBytes P page).drop (offset + buf.length))

/-- `Pager::WriteByBytes`: `memcpy` of `buf` to byte `offset` of page `pgid` and on into the pages
after it. Page `q` receives the part of `buf` that falls into it. -/
def writeByBytes (P : Nat) (pager : Pager) (pgid : Nat) (offset : Nat) (buf : Bytes) : Pager :=
  let start := pgid * P + offset
  { pager with
    pages := fun q =>
      if q * P < start + buf.length ∧ start < (q + 1) * P ∧ buf ≠ [] then
        splice P (pager.pages q) (start - q * P)
          ((buf.drop (q * P - start)).take (P - (start - q * P)))
      else pager.pages q }

/-- The `n` bytes at the start of page `pgid` and on (`Pager::GetPtr` and a read through it). -/
def readBytes (P : Nat) (pager : Pager) (pgid : Nat) (n : Nat) : Bytes :=
  ((List.range ((n + P - 1) / P)).flatMap fun i => pageBytes P (pager.pages (pgid + i))).take n

/-- `Pager::GetPageCount`. -/
def getPageCount (P : Nat) (bytes : Nat) : Nat :=
  if bytes % P ≠ 0 then bytes / P + 1 else bytes / P

/-! ## The free map -/

/-- `Pager::AllocFromMap`: the first run with at least `count` pages, and the map without the pages
taken from it. -/
def allocFromMap (count : Nat) : List PagePair → Option (Nat × List PagePair)
  | [] => none
  | (pgid, freeCount) :: rest =>
      if freeCount < count then
        (allocFromMap count rest).map fun r => (r.1, (pgid, freeCount) :: r.2)
      else if count < freeCount then some (pgid, (pgid + count, freeCount - count) :: rest)
      else some (pgid, rest)

/-- `Pager::FreeToMap`. `below` are the runs before `lower_bound(pgid)`. A successor that starts
right after the freed run is swallowed, and only then the predecessor is looked at (`tmp_iter--`).
Stepping back from `begin()` is undefined. The definition goes on with `end()`, as the red-black
tree of the usual libraries does; `Pager.StepsBeforeBegin` says when it happens, and what a call
should do excludes it. -/
def freeToMap (freeMap : List PagePair) (pgid : Nat) (count : Nat) : List PagePair :=
  let below := freeMap.takeWhile fun r => r.1 < pgid
  let above := freeMap.dropWhile fun r => r.1 < pgid
  let joinPred (count : Nat) (above : List PagePair) : List PagePair :=
    match below.getLast? with
    | some pred =>
        if u32 (pred.1 + pred.2) = pgid then
          below.dropLast ++ (pred.1, u32 (pred.2 + count)) :: above
        else below ++ (pgid, count) :: above
    | none => (pgid, count) :: above
  match above with
  | [] => joinPred count []
  | next :: rest =>
      -- the run ends where the next one starts
      if next.1 = u32 (pgid + count) then joinPred (u32 (count + next.2)) rest
      -- the iterator stands on the next run, so its end is compared, not that of the one before
      else if u32 (next.1 + next.2) = pgid then below ++ (next.1, u32 (next.2 + count)) :: rest
      -- `insert` leaves a key that is there as it is
      else if next.1 = pgid then freeMap
      else below ++ (pgid, count) :: above

/-! ## Allocation and release -/

/-- `Pager::Alloc`. -/
def alloc (count : Nat) : TxM Nat := do
  let s ← Exec.read
  match allocFromMap count s.pager.freeMap with
  | some (pgid, freeMap) => do
      Exec.change fun s => { s with
        pager := { s.pager with
          freeMap := freeMap
          allocRecords := s.pager.allocRecords ++ [(pgid, count)] } }
      return pgid
  -- the run is taken behind the last page
  | none => do
      let pageCount := s.metaStruct.pageCount
      if u32 (pageCount + count) < pageCount then
        Exec.raise
          (.runtimeError "Page allocation failed, there are not enough available pages.")
      Exec.change fun s => { s with
        metaStruct := { s.metaStruct with pageCount := u32 (pageCount + count) } }
      return pageCount

/-- Append to the entry of `txid`, which is created when missing (`Pager::Free`). -/
def addPending (txid : Nat) (run : PagePair) :
    List (Nat × List PagePair) → List (Nat × List PagePair)
  | [] => [(txid, [run])]
  | (t, runs) :: rest =>
      if t < txid then (t, runs) :: addPending txid run rest
      else if t = txid then (t, runs ++ [run]) :: rest
      else (txid, [run]) :: (t, runs) :: rest

/-- `Pager::Free`. -/
def free (pgid : Nat) (count : Nat) : TxM Unit := do
  assert (pgid ≠ kPageInvalidId)
  Exec.change fun s => { s with
    pager := { s.pager with
      pendingMap := addPending s.metaStruct.txid (pgid, count) s.pager.pendingMap } }

/-- `Pager::Release`: pending runs of transactions before `releasableTxid` become free. -/
def release (releasableTxid : Nat) (pager : Pager) : Pager :=
  let due := pager.pendingMap.takeWhile fun e => e.1 < releasableTxid
  { pager with
    allocRecords := []
    freeMap := (due.flatMap Prod.snd).foldl (fun m r => freeToMap m r.1 r.2) pager.freeMap
    pendingMap := pager.pendingMap.dropWhile fun e => e.1 < releasableTxid }

/-- `Pager::Rollback` of the transaction `txid`. -/
def rollback (txid : Nat) (pager : Pager) : Pager :=
  { pager with
    pendingMap := pager.pendingMap.filter fun e => e.1 ≠ txid
    freeMap := pager.allocRecords.foldl (fun m r => freeToMap m r.1 r.2) pager.freeMap
    allocRecords := [] }

/-! ## Pages as nodes -/

/-- `Node(btree, pgid, dirty)`: `Pager::Reference` and a look at the page. -/
def getNode (pgid : Nat) : TxM Node := do
  assert (pgid ≠ kPageInvalidId)
  assert (pgid < kPageMaxCount)
  let s ← Exec.read
  match s.pager.pages pgid with
  | .node n => return n
  | .raw _ => Exec.raise .assertion

/-- Write a page. -/
def setPage (pgid : Nat) (page : Page) : TxM Unit :=
  Exec.change fun s => { s with
    pager := { s.pager with pages := Function.update s.pager.pages pgid page } }

/-- Write a node through its page pointer. -/
def setNode (pgid : Nat) (n : Node) : TxM Unit := setPage pgid (.node n)

/-- `Pager::Copy`: the copy's page id; the old page becomes pending. -/
def copy (pgid : Nat) : TxM Nat := do
  let newPgid ← alloc 1
  let s ← Exec.read
  setPage newPgid (s.pager.pages pgid)
  free pgid 1
  return newPgid

end Pager

end AtomKV
