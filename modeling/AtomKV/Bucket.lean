import AtomKV.FreeList
import AtomKV.Iteration

/-!
# Buckets

`bucket_impl.cpp` and the part of `tx_impl.cpp` that deals with buckets: sub-buckets that are
opened, created, deleted and written back at the commit. The root page id of a bucket is a
variable of its parent, an entry of `sub_bucket_map_`, so a bucket names the place and does not
hold the value.

The code is the same for views and for the write transaction. `Db.treeState` is what the tree code
of the transaction at work sees.
-/

set_option autoImplicit false

namespace AtomKV

def kUserRootBucketId : Nat := 0xffffffff

/-! ## The state -/

/-- What `PageId& root_pgid_` of a tree refers to. -/
inductive RootRef where
  | userRoot
  | entry (parent : Nat) (key : Bytes)
  deriving DecidableEq, Repr

/-- The entries of `sub_bucket_map_` in the order of `std::string`: the bucket id and the
root page id. -/
abbrev SubBucketMap := List (Bytes × Nat × Nat)

structure BucketImpl where
  rootRef : RootRef
  writable : Bool
  subBucketMap : Option SubBucketMap
  deriving DecidableEq, Repr

structure TxImpl where
  metaStruct : MetaInfo
  writable : Bool
  userBucket : BucketImpl
  subBucketCache : List (Option BucketImpl)
  deriving DecidableEq, Repr

/-- `TxImpl(tx_manager, meta, writable)`. -/
def TxImpl.init (info : MetaInfo) (writable : Bool) : TxImpl :=
  ⟨info, writable, ⟨.userRoot, writable, none⟩, []⟩

/-- The log records of one call on a bucket. -/
inductive BucketLog where
  | subBucket (bucketId : Nat) (key : Bytes)
  | put (bucketId : Nat) (key value : Bytes) (isBucket : Bool)
  | delete (bucketId : Nat) (key : Bytes)
  deriving DecidableEq, Repr

/-- The bucket that the record names. -/
def BucketLog.bucketId : BucketLog → Nat
  | subBucket id _ => id
  | put id _ _ _ => id
  | delete id _ => id

/-- The database and the transaction at work. -/
structure Db where
  pager : Pager
  /-- The meta of `TxManager::update_tx_`, when the transaction at work is a view. -/
  updateMeta : Option MetaInfo
  log : List BucketLog
  /-- `TxManager::view_tx_map_`. -/
  viewTxMap : List (Nat × Nat)
  tx : TxImpl

structure DbEnv extends Env where
  mode : DbMode

abbrev DbM := Exec Db Err

namespace SubBucketMap

def lookup (key : Bytes) (m : SubBucketMap) : Option (Nat × Nat) :=
  (m.find? fun e => e.1 = key).map Prod.snd

def insert (key : Bytes) (v : Nat × Nat) (m : SubBucketMap) : SubBucketMap :=
  (m.takeWhile fun e => List.compareLex compare e.1 key = .lt) ++
    (key, v) :: m.dropWhile fun e => List.compareLex compare e.1 key = .lt

def modify (key : Bytes) (f : Nat × Nat → Nat × Nat) : SubBucketMap → SubBucketMap
  | [] => []
  | e :: m => if e.1 = key then (e.1, f e.2) :: m else e :: modify key f m

def erase (key : Bytes) (m : SubBucketMap) : SubBucketMap := m.filter fun e => e.1 ≠ key

end SubBucketMap

namespace Db

/-! ## Buckets and their root variables -/

/-- The bucket with this id, if there is one. -/
def bucket (s : Db) (id : Nat) : Option BucketImpl :=
  if id = kUserRootBucketId then some s.tx.userBucket else (s.tx.subBucketCache[id]?).join

def setBucket (s : Db) (id : Nat) (b : BucketImpl) : Db :=
  if id = kUserRootBucketId then { s with tx := { s.tx with userBucket := b } }
  else { s with tx := { s.tx with subBucketCache := s.tx.subBucketCache.set id (some b) } }

/-- The entry of `sub_bucket_map_` of the bucket `id`. -/
def entry (s : Db) (id : Nat) (key : Bytes) : Option (Nat × Nat) :=
  ((s.bucket id).bind BucketImpl.subBucketMap).bind (SubBucketMap.lookup key)

def modifyMap (s : Db) (id : Nat) (f : SubBucketMap → SubBucketMap) : Db :=
  match s.bucket id with
  | some b => s.setBucket id { b with subBucketMap := b.subBucketMap.map f }
  | none => s

def rootAt (s : Db) : RootRef → Option Nat
  | .userRoot => some s.tx.metaStruct.userRoot
  | .entry parent key => (s.entry parent key).map Prod.snd

def setRootAt (s : Db) (root : Nat) : RootRef → Db
  | .userRoot =>
    { s with tx := { s.tx with metaStruct := { s.tx.metaStruct with userRoot := root } } }
  | .entry parent key => s.modifyMap parent (SubBucketMap.modify key fun e => (e.1, root))

/-! ## The trees of the transaction at work -/

/-- What the tree code works on. The write transaction works on its own meta. In a view, pages
are taken from the open write transaction (`Pager::Alloc` asks for `update_tx`), while the txid
is the view's; without a write transaction `update_tx` asserts, which is a page allocation that
cannot succeed. -/
def treeState (s : Db) (root : Nat) : TxState :=
  if s.tx.writable then ⟨s.pager, s.tx.metaStruct, root⟩
  else match s.updateMeta with
    | some m => ⟨{ s.pager with pendingMap := [] }, { m with txid := s.tx.metaStruct.txid }, root⟩
    | none =>
      ⟨{ s.pager with freeMap := [] }, { s.tx.metaStruct with pageCount := kPageInvalidId }, root⟩

/-- The state after the tree code; `Pager::Free` files the pages under the txid of the write
transaction. -/
def withTree (s : Db) (t : TxState) : Db :=
  if s.tx.writable then { s with pager := t.pager, tx := { s.tx with metaStruct := t.metaStruct } }
  else match s.updateMeta with
    | some m => { s with
        pager := { t.pager with
          pendingMap :=
            (t.pager.pendingMap.flatMap Prod.snd).foldl (fun p r => Pager.addPending m.txid r p)
            s.pager.pendingMap }
        updateMeta := some { m with pageCount := t.metaStruct.pageCount } }
    | none => { s with pager := { s.pager with pages := t.pager.pages } }

end Db

/-! ## `BucketImpl` -/

namespace Bucket

/-- `AtSubBucket`, or the user bucket. -/
def atSubBucket (id : Nat) : DbM BucketImpl := fun s =>
  match s.bucket id with
  | some b => (.ok b, s)
  | none => (.error .assertion, s)

/-- A call of the bucket's tree. -/
def onTree {α : Type} (id : Nat) (x : TxM α) : DbM α := fun s =>
  match s.bucket id with
  | none => (.error .assertion, s)
  | some b => match s.rootAt b.rootRef with
    | none => (.error .assertion, s)
    | some root =>
        let r := x (s.treeState root)
        (r.1, (s.withTree r.2).setRootAt r.2.rootPgid b.rootRef)

variable (env : DbEnv)

/-- `TxManager::AppendPutLog` and `AppendDeleteLog`. -/
def appendLog (record : BucketLog) : DbM Unit :=
  if env.mode = .kWal then Exec.change fun s => { s with log := s.log ++ [record] } else pure ()

/-- `BucketImpl::Get`. -/
def get (id : Nat) (key : Bytes) : DbM BTreeIterator := onTree id (BTree.get env.toEnv key)

/-- `BucketImpl::LowerBound`. -/
def lowerBound (id : Nat) (key : Bytes) : DbM BTreeIterator :=
  onTree id (BTree.lowerBound env.toEnv key)

/-- `BucketImpl::Put`. -/
def put (id : Nat) (key value : Bytes) (isBucket : Bool) : DbM Unit := do
  appendLog env (.put id key value isBucket)
  onTree id (BTree.put env.toEnv key value isBucket)

/-- `BucketImpl::Update(Iterator*)`. -/
def update (id : Nat) (iter : BTreeIterator) (value : Bytes) : DbM Unit := do
  let key ← onTree id (BTreeIterator.key env.toEnv iter)
  let b ← onTree id (BTreeIterator.isBucket iter)
  appendLog env (.put id key value b)
  onTree id (BTree.update env.toEnv iter value)

/-- `BucketImpl::Delete(key)`. -/
def delete (id : Nat) (key : Bytes) : DbM Bool := do
  appendLog env (.delete id key)
  onTree id (BTree.delete env.toEnv key)

/-- `BucketImpl::Delete(Iterator*)`; nothing is logged. -/
def deleteAt (id : Nat) (iter : BTreeIterator) : DbM Unit :=
  onTree id (BTree.deleteAt env.toEnv iter)

/-- `BTreeIterator::value<PageId>`. -/
def pgidValue (id : Nat) (iter : BTreeIterator) : DbM Nat := do
  let value ← onTree id (BTreeIterator.value env.toEnv iter)
  if value.length ≠ 4 then Exec.raise (.invalidArgument "The size of the value does not match.")
  return Pager.decodeU32 value

/-- `TxImpl::NewSubBucket`. -/
def newSubBucket (rootRef : RootRef) (writable : Bool) : DbM Nat := do
  let s ← Exec.read
  Exec.change fun s => { s with
    tx := { s.tx with subBucketCache := s.tx.subBucketCache ++ [some ⟨rootRef, writable, none⟩] } }
  return s.tx.subBucketCache.length

/-- The rest of `BucketImpl::SubBucket` when the bucket has not been opened yet: the root page id is
looked up under `key`, or an entry without a root is put there. -/
def openSubBucket (id : Nat) (key : Bytes) (writable : Bool) : DbM Nat := do
  Exec.change fun s => s.modifyMap id (SubBucketMap.insert key (0, kPageInvalidId))
  let iter ← get env id key
  -- a new bucket: the value has the size of a page id, so that `Commit` replaces it in place
  if iter.isEnd then do
    put env id key (Pager.encodeU32 kPageInvalidId) true
    let iter ← get env id key
    let b ← onTree id (BTreeIterator.isBucket iter)
    Exec.require b .assertion
  else do
    let b ← onTree id (BTreeIterator.isBucket iter)
    if b = false then
      Exec.raise (.invalidArgument "attempt to open a key value pair that is not a sub bucket.")
    let root ← pgidValue env id iter
    Exec.change fun s => s.modifyMap id (SubBucketMap.modify key fun e => (e.1, root))
  let sub ← newSubBucket (.entry id key) writable
  Exec.change fun s => s.modifyMap id (SubBucketMap.modify key fun e => (sub, e.2))
  return sub

/-- `BucketImpl::SubBucket`; the result is the id of the sub-bucket. -/
def subBucket (id : Nat) (key : Bytes) (writable : Bool) : DbM Nat := do
  let b ← atSubBucket id
  Exec.change fun s => s.setBucket id { b with subBucketMap := some (b.subBucketMap.getD []) }
  -- only the first call for a key looks into the tree
  let sub ←
    match SubBucketMap.lookup key (b.subBucketMap.getD []) with
    | some e => pure e.1
    | none => openSubBucket env id key writable
  let _ ← atSubBucket sub
  return sub

/-! ## `BucketImpl::DeleteSubBucket` -/

/-- `TxImpl::DeleteSubBucket`. -/
def dropSubBucket (id : Nat) : DbM Unit := do
  let s ← Exec.read
  Exec.require ((s.tx.subBucketCache[id]?).join.isSome) .assertion
  Exec.change fun s =>
    { s with tx := { s.tx with subBucketCache := s.tx.subBucketCache.set id none } }

/-- The end of a call that goes on forever. -/
def stackOverflow : Err := .runtimeError "stack overflow"

/-- The start of `DeleteSubBucket(Iterator*)`: the key at `iter` and the bucket that `id` has under
it. `iter` may be on another bucket than `id`. -/
def openDeleted (id : Nat) (iter : BTreeIterator) : DbM (Bytes × Nat) := do
  let b ← onTree id (BTreeIterator.isBucket iter)
  if b = false then
    Exec.raise (.invalidArgument "attempt to delete a key value pair that is not a sub bucket.")
  let key ← onTree id (BTreeIterator.key env.toEnv iter)
  let sub ← subBucket env id key true
  return (key, sub)

/-- The end of `DeleteSubBucket(Iterator*)`: the root page that is left. -/
def freeRoot (id : Nat) (key : Bytes) : DbM Unit := do
  let s ← Exec.read
  match s.entry id key with
  | none => Exec.raise .assertion
  | some e => if e.2 ≠ kPageInvalidId then onTree id (Pager.free e.2 1)

/-- The entry of a nested bucket in the map of the bucket `sub`; the map may not be there, and the
iterator may be `end()`. -/
def findNested (sub : Nat) (iter : BTreeIterator) : DbM (Bytes × Option (Nat × Nat)) := do
  let key ← onTree sub (BTreeIterator.key env.toEnv iter)
  let b ← atSubBucket sub
  Exec.require b.subBucketMap.isSome .assertion
  let s ← Exec.read
  return (key, s.entry sub key)

/-- What follows the deletion of a nested bucket: its `BucketImpl` and its entry go, and its
record is marked. -/
def closeNested (sub : Nat) (iter : BTreeIterator) (key : Bytes) (entry : Option (Nat × Nat)) :
    DbM Unit := do
  match entry with
  | none => Exec.raise .assertion
  | some e => dropSubBucket e.1
  Exec.change fun s => s.modifyMap sub (SubBucketMap.erase key)
  update env sub iter (Pager.encodeU32 kPageInvalidId)

/-- The part of the loop for a record that is a nested bucket; `call` is the recursive call. -/
def aroundNested (sub : Nat) (iter : BTreeIterator) (call : DbM Unit) : DbM Unit := do
  let b ← onTree sub (BTreeIterator.isBucket iter)
  if b then do
    let (key, entry) ← findNested env sub iter
    call
    closeNested env sub iter key entry

mutual

/-- `BucketImpl::DeleteSubBucket(Iterator*)` of the bucket `id`. -/
def deleteSubBucketAt (id : Nat) : Nat → BTreeIterator → DbM Unit
  | 0, _ => Exec.raise stackOverflow
  | fuel + 1, iter => do
      let (key, sub) ← openDeleted env id iter
      deleteRecords id fuel sub
      freeRoot id key

/-- The loop of `DeleteSubBucket`: the first record of the bucket `sub` is deleted until there is
none. A nested bucket is deleted from `id`, the bucket that the call is for. -/
def deleteRecords (id : Nat) : Nat → Nat → DbM Unit
  | 0, _ => Exec.raise stackOverflow
  | fuel + 1, sub => do
      let iter ← onTree sub BTree.begin
      if iter.isEnd then return ()
      aroundNested env sub iter (deleteSubBucketAt id fuel iter)
      deleteAt env sub iter
      deleteRecords id fuel sub

end

/-- `BucketImpl::DeleteSubBucket(key)`. -/
def deleteSubBucket (fuel : Nat) (id : Nat) (key : Bytes) : DbM Bool := do
  let iter ← get env id key
  if iter.isEnd then return false
  deleteSubBucketAt env id fuel iter
  return true

/-! ## The buckets at the commit -/

/-- The loop of `TxImpl::Commit` over the `sub_bucket_map_` of one bucket. -/
def writeEntries (id : Nat) : List Bytes → DbM Unit
  | [] => pure ()
  | key :: rest => do
      let s ← Exec.read
      match s.entry id key with
      | none => Exec.raise .assertion
      | some e => put env id key (Pager.encodeU32 e.2) true
      writeEntries id rest

/-- The entries of a bucket that has been opened and has a map. -/
def writeBucket (id : Nat) : DbM Unit := do
  let s ← Exec.read
  match (s.bucket id).bind BucketImpl.subBucketMap with
  | none => pure ()
  | some m => writeEntries env id (m.map Prod.fst)

/-- The loop of `TxImpl::Commit` over the rest of `sub_bucket_cache_`. -/
def writeCache : List Nat → DbM Unit
  | [] => pure ()
  | id :: rest => do
      writeBucket env id
      writeCache rest

/-- `TxImpl::Commit`, up to the call of `TxManager::Commit`. -/
def writeBack : DbM Unit := do
  let s ← Exec.read
  Exec.require s.tx.writable .assertion
  writeBucket env kUserRootBucketId
  writeCache env (List.range s.tx.subBucketCache.length)

end Bucket

/-! ## Maps and root variables -/

namespace SubBucketMap

variable {key key' : Bytes} {m : SubBucketMap} {e v : Nat × Nat}

theorem lookup_cons (key : Bytes) (x : Bytes × Nat × Nat) (m : SubBucketMap) :
    lookup key (x :: m) = if x.1 = key then some x.2 else lookup key m := by
  unfold lookup
  rw [List.find?_cons]
  by_cases hx : x.1 = key
  · simp [hx]
  · simp [hx]

theorem lookup_append (key : Bytes) (m m' : SubBucketMap) :
    lookup key (m ++ m') = (lookup key m).or (lookup key m') := by
  unfold lookup
  rw [List.find?_append]
  cases m.find? _ <;> rfl

/-- A change that changes nothing. -/
theorem modify_eq_self {f : Nat × Nat → Nat × Nat} (h : lookup key m = some e) (hf : f e = e) :
    modify key f m = m := by
  induction m with
  | nil => rfl
  | cons x m ih =>
    rw [lookup_cons] at h
    by_cases hx : x.1 = key
    · rw [if_pos hx] at h
      obtain ⟨k, v⟩ := x
      obtain rfl : v = e := Option.some.inj h
      rw [modify, if_pos hx, hf]
    · rw [if_neg hx] at h
      rw [modify, if_neg hx, ih h]

theorem lookup_modify (key key' : Bytes) (f : Nat × Nat → Nat × Nat) (m : SubBucketMap) :
    lookup key' (modify key f m) = if key' = key then (lookup key' m).map f else lookup key' m := by
  induction m with
  | nil =>
    show none = if _ then _ else _
    split_ifs <;> rfl
  | cons x m ih =>
    by_cases hx : x.1 = key
    · rw [modify, if_pos hx, lookup_cons, lookup_cons]
      by_cases hk : key' = key
      · have hx' : x.1 = key' := hx.trans hk.symm
        simp [hk, hx]
      · have hx' : ¬ x.1 = key' := fun h => hk (h.symm.trans hx)
        rw [if_neg hx', if_neg hx', if_neg hk]
    · rw [modify, if_neg hx, lookup_cons, lookup_cons, ih]
      by_cases hx' : x.1 = key'
      · have hk : ¬ key' = key := fun h => hx (hx'.trans h)
        rw [if_pos hx', if_neg hk, if_pos hx']
      · rw [if_neg hx', if_neg hx']

/-- Entries of other keys. -/
theorem lookup_insert_of_ne (h : key' ≠ key) (v : Nat × Nat) (m : SubBucketMap) :
    lookup key' (insert key v m) = lookup key' m := by
  unfold insert
  rw [lookup_append, lookup_cons, if_neg (Ne.symm h), ← lookup_append,
    List.takeWhile_append_dropWhile]

theorem lookup_insert (h : lookup key m = none) (v : Nat × Nat) :
    lookup key (insert key v m) = some v := by
  unfold insert
  have hnone : lookup key (m.takeWhile fun e => List.compareLex compare e.1 key = .lt) = none := by
    rw [← List.takeWhile_append_dropWhile (p := fun e => List.compareLex compare e.1 key = .lt)
      (l := m), lookup_append, Option.or_eq_none_iff] at h
    exact h.1
  rw [lookup_append, hnone, Option.none_or, lookup_cons, if_pos rfl]

end SubBucketMap

namespace Db

variable {s : Db} {id id' root : Nat} {b b' : BucketImpl}

theorem bucket_setBucket_of_ne (h : id' ≠ id) (b : BucketImpl) :
    (s.setBucket id b).bucket id' = s.bucket id' := by
  unfold setBucket bucket
  by_cases hid : id = kUserRootBucketId
  · have hid' : ¬ id' = kUserRootBucketId := fun h' => h (h'.trans hid.symm)
    rw [if_pos hid, if_neg hid', if_neg hid']
  · rw [if_neg hid]
    dsimp only
    rw [List.getElem?_set_ne (Ne.symm h)]

theorem bucket_setBucket_self (h : s.bucket id = some b') (b : BucketImpl) :
    (s.setBucket id b).bucket id = some b := by
  unfold setBucket bucket at *
  by_cases hid : id = kUserRootBucketId
  · rw [if_pos hid, if_pos hid]
  · rw [if_neg hid] at h ⊢
    have hlt : id < s.tx.subBucketCache.length := by
      by_contra hnot
      rw [List.getElem?_eq_none (Nat.not_lt.1 hnot)] at h
      cases h
    rw [if_neg hid]
    dsimp only
    rw [List.getElem?_set_self hlt]
    rfl

/-- The last assignment counts. -/
theorem setBucket_setBucket (b₁ b₂ : BucketImpl) :
    (s.setBucket id b₁).setBucket id b₂ = s.setBucket id b₂ := by
  unfold setBucket
  by_cases hid : id = kUserRootBucketId
  · rw [if_pos hid, if_pos hid, if_pos hid]
  · rw [if_neg hid, if_neg hid, if_neg hid]
    dsimp only
    rw [List.set_set]

theorem setBucket_self (h : s.bucket id = some b) : s.setBucket id b = s := by
  unfold setBucket
  unfold bucket at h
  by_cases hid : id = kUserRootBucketId
  · rw [if_pos hid] at h ⊢
    obtain rfl := Option.some.inj h
    rfl
  · rw [if_neg hid] at h ⊢
    have hset : s.tx.subBucketCache.set id (some b) = s.tx.subBucketCache := by
      have hget : s.tx.subBucketCache[id]? = some (some b) := by
        cases hc : s.tx.subBucketCache[id]? with
        | none =>
          rw [hc] at h
          cases h
        | some o =>
          rw [hc] at h
          exact congrArg some h
      obtain ⟨hlt, hval⟩ := List.getElem?_eq_some_iff.1 hget
      rw [← hval, List.set_getElem_self]
    rw [hset]

theorem modifyMap_of_bucket (h : s.bucket id = some b) (f : SubBucketMap → SubBucketMap) :
    s.modifyMap id f = s.setBucket id { b with subBucketMap := b.subBucketMap.map f } := by
  unfold modifyMap
  rw [h]

theorem entry_setBucket_of_ne (h : id' ≠ id) (b : BucketImpl) (key : Bytes) :
    (s.setBucket id b).entry id' key = s.entry id' key := by
  unfold entry
  rw [bucket_setBucket_of_ne h]

/-- A variable that is set to its value. -/
theorem setRootAt_rootAt {r : RootRef} (h : s.rootAt r = some root) : s.setRootAt root r = s := by
  cases r with
  | userRoot =>
    obtain rfl := Option.some.inj h
    rfl
  | entry parent key =>
    obtain ⟨e, he, hroot⟩ := Option.map_eq_some_iff.1 h
    obtain ⟨m, hm, hlookup⟩ := Option.bind_eq_some_iff.1 he
    obtain ⟨b, hb, hmap⟩ := Option.bind_eq_some_iff.1 hm
    have hsame : SubBucketMap.modify key (fun e => (e.1, root)) m = m :=
      SubBucketMap.modify_eq_self hlookup (by rw [← hroot])
    show s.modifyMap parent (SubBucketMap.modify key fun e => (e.1, root)) = s
    rw [modifyMap_of_bucket hb, hmap, Option.map_some, hsame, ← hmap]
    exact setBucket_self hb

/-- The tree code has done nothing. -/
theorem withTree_treeState (s : Db) (root : Nat) : s.withTree (s.treeState root) = s := by
  unfold withTree treeState
  cases s.tx.writable with
  | true => rfl
  | false =>
    cases hm : s.updateMeta with
    | some m =>
      show { s with pager := s.pager, updateMeta := some m } = s
      rw [← hm]
    | none =>
      show { s with pager := s.pager, updateMeta := none } = s
      rw [← hm]

/-- Buckets are not seen by the tree code. -/
theorem treeState_setBucket (id : Nat) (b : BucketImpl) (root : Nat) :
    (s.setBucket id b).treeState root = s.treeState root := by
  unfold setBucket
  split_ifs <;> rfl

end Db

namespace Bucket

variable {α : Type} {s : Db} {id root : Nat} {b : BucketImpl}

/-- A call on a bucket whose root variable is there. -/
theorem onTree_of_root (hb : s.bucket id = some b) (hroot : s.rootAt b.rootRef = some root)
    (x : TxM α) : onTree id x s = ((x (s.treeState root)).1,
      (s.withTree (x (s.treeState root)).2).setRootAt (x (s.treeState root)).2.rootPgid
        b.rootRef) := by
  simp only [onTree, hb, hroot]

/-- A bucket is there with its root variable, or a call on it asserts. -/
theorem onTree_cases (s : Db) (id : Nat) :
    (∃ b root, s.bucket id = some b ∧ s.rootAt b.rootRef = some root) ∨
      ∀ {β : Type} (x : TxM β), onTree id x s = (.error .assertion, s) := by
  cases hb : s.bucket id with
  | none => exact .inr fun x => by simp only [onTree, hb]
  | some b =>
    cases hroot : s.rootAt b.rootRef with
    | none => exact .inr fun x => by simp only [onTree, hb, hroot]
    | some root => exact .inl ⟨b, root, rfl, hroot⟩

theorem rootPgid_treeState (s : Db) (root : Nat) : (s.treeState root).rootPgid = root := by
  unfold Db.treeState
  cases s.tx.writable with
  | true => rfl
  | false => cases s.updateMeta <;> rfl

/-- **Reading** through a bucket's tree changes nothing. -/
theorem onTree_readOnly {x : TxM α} (hx : Exec.ReadOnly x) (id : Nat) :
    Exec.ReadOnly (onTree id x) := by
  intro s
  rcases onTree_cases s id with ⟨b, root, hb, hroot⟩ | h
  · rw [onTree_of_root hb hroot, hx (s.treeState root), Db.withTree_treeState, rootPgid_treeState]
    exact Db.setRootAt_rootAt hroot
  · rw [h]

end Bucket

end AtomKV
