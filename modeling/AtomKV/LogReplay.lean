import AtomKV.Bucket
import AtomKV.Comparator

/-!
# Recovery, record by record

`Logger::Recover` on the records as the reader delivers them: every record is a byte string, and
what follows the header of a call is taken for its key and value. The calls go to the `TxManager`,
whose transaction is `update_tx_`, while the loop has its own variable `current_tx`.
-/

set_option autoImplicit false

namespace AtomKV

inductive LogType where
  | kWalTxId
  | kBegin
  | kRollback
  | kCommit
  | kSubBucket
  | kPut_IsBucket
  | kPut_NotBucket
  | kDelete
  deriving DecidableEq, Repr

/-- The first byte of a record. -/
def LogType.ofByte (b : UInt8) : Option LogType :=
  match b.toNat with
  | 0 => some .kWalTxId
  | 1 => some .kBegin
  | 2 => some .kRollback
  | 3 => some .kCommit
  | 4 => some .kSubBucket
  | 5 => some .kPut_IsBucket
  | 6 => some .kPut_NotBucket
  | 7 => some .kDelete
  | _ => none

/-- What one pass of the loop in `Logger::Recover` reads. -/
inductive LogCall where
  | walTxId (txid : Nat)
  | begin
  | rollback
  | commit
  | bucket (call : BucketLog)
  /-- A call on a bucket whose key or value is missing. -/
  | cut (bucketId : Nat)
  /-- A header that has not the size for its type. -/
  | malformed (type : LogType)
  /-- No case of the `switch`. -/
  | unknown
  deriving DecidableEq, Repr

/-- `key->data()` as a `std::string_view`: up to the first zero. -/
def cString (bytes : Bytes) : Bytes := bytes.takeWhile (· ≠ 0)

/-- The records that `Reader::ReadRecord` delivers, pass by pass. -/
def readCalls : List Bytes → List LogCall
  | [] => []
  | record :: rest => match record with
    | [] => []
    | byte :: header => match LogType.ofByte byte with
      | none => .unknown :: readCalls rest
      | some .kWalTxId =>
          if 8 ≤ header.length then .walTxId (littleEndian (header.take 8)) :: readCalls rest
          else [.malformed .kWalTxId]
      | some .kBegin => .begin :: readCalls rest
      | some .kRollback => .rollback :: readCalls rest
      | some .kCommit => .commit :: readCalls rest
      | some .kSubBucket =>
          if header.length = 4 then match rest with
            | [] => [.cut (Pager.decodeU32 header)]
            | key :: rest => .bucket (.subBucket (Pager.decodeU32 header) (cString key)) ::
                readCalls rest
          else [.malformed .kSubBucket]
      | some .kDelete =>
          if header.length = 4 then match rest with
            | [] => [.cut (Pager.decodeU32 header)]
            | key :: rest => .bucket (.delete (Pager.decodeU32 header) key) :: readCalls rest
          else [.malformed .kDelete]
      | some put =>
          if header.length = 4 then match rest with
            | key :: value :: rest =>
                .bucket (.put (Pager.decodeU32 header) key value (put = .kPut_IsBucket)) ::
                  readCalls rest
            | _ => [.cut (Pager.decodeU32 header)]
          else [.malformed put]

/-- The variables of `Logger::Recover`, the shared meta, the pager and the `TxManager`. -/
structure Recovering where
  metaStruct : MetaInfo
  pager : Pager
  /-- `TxManager::min_view_txid_`. -/
  minViewTxid : Nat
  /-- `TxManager::update_tx_`. -/
  updateTx : Option TxImpl
  /-- `current_tx.has_value()`. -/
  currentTx : Bool
  init : Bool

namespace Recovering

/-- Where `DB::Open` calls `Recover`: there are no transactions. -/
def start (info : MetaInfo) (pager : Pager) : Recovering :=
  ⟨info, pager, info.txid, none, false, false⟩

def unrecoverable : Err := .runtimeError "unrecoverable logs."

/-- The database as the buckets of `tx` see it. -/
def database (s : Recovering) (tx : TxImpl) : Db := ⟨s.pager, none, [], [], tx⟩

/-- `TxManager::Update`, and `current_tx.emplace`. -/
def update (s : Recovering) : Except Err Recovering :=
  let info := { s.metaStruct with txid := u64 (s.metaStruct.txid + 1) }
  if s.updateTx.isSome then .error .assertion
  else if info.txid = kTxInvalidId then .error (.runtimeError "Txid overflow.")
  else .ok { s with
    pager := s.pager.release (u64 (s.metaStruct.txid - 1))
    minViewTxid := s.metaStruct.txid
    updateTx := some (TxImpl.init info true)
    currentTx := true }

/-- A call on the buckets of `TxManager::update_tx`, which asserts that there is one. With
`disable_writing_` nothing is logged. -/
def call (x : DbM Unit) (s : Recovering) : Except Err Recovering :=
  match s.updateTx with
  | none => .error .assertion
  | some tx => match x (s.database tx) with
    | (.ok _, d) => .ok { s with pager := d.pager, updateTx := some d.tx }
    | (.error e, _) => .error e

/-- `TxManager::RollBack`. -/
def rollBack (s : Recovering) : Except Err Recovering :=
  match s.updateTx with
  | none => .error .assertion
  | some tx => .ok
      { s with pager := s.pager.rollback tx.metaStruct.txid, updateTx := none, currentTx := false }

/-- `TxManager::Commit`; no checkpoint is needed, since nothing is logged. -/
def finish (s : Recovering) : Except Err Recovering :=
  match s.updateTx with
  | none => .error .assertion
  | some tx => .ok { s with metaStruct := tx.metaStruct, updateTx := none, currentTx := false }

variable (env : DbEnv)

/-- What the tree code sees in a transaction that `Recover` has opened. -/
def treeEnv (s : Recovering) : DbEnv := { env with minViewTxid := s.minViewTxid }

/-- What a record makes `Recover` do with a bucket. -/
def replay : BucketLog → DbM Unit
  | .subBucket id key => do
      let _ ← Bucket.atSubBucket id
      let _ ← Bucket.subBucket env id key true
  | .put id key value isBucket => do
      let _ ← Bucket.atSubBucket id
      Bucket.put env id key value isBucket
  | .delete id key => do
      let _ ← Bucket.atSubBucket id
      let _ ← Bucket.delete env id key

/-- One pass of the loop; the flag is `end`. -/
def step (s : Recovering) : LogCall → Except Err (Recovering × Bool)
  | .walTxId txid =>
      if s.init then .error (.runtimeError "Unrecoverable logs.")
      else .ok ({ s with init := true }, decide (txid < s.metaStruct.txid))
  | .begin =>
      if ¬ s.init then .error unrecoverable
      else if s.currentTx then .error unrecoverable
      else s.update.map fun t => (t, false)
  | .rollback =>
      if ¬ s.init then .error unrecoverable
      else if ¬ s.currentTx then .error unrecoverable
      else s.rollBack.map fun t => (t, false)
  | .commit =>
      if ¬ s.init then .error unrecoverable
      else if ¬ s.currentTx then .error unrecoverable
      else (s.call (Bucket.writeBack (s.treeEnv env)) >>= finish).map fun t => (t, false)
  | .bucket c =>
      if ¬ s.init then .error unrecoverable
      else (s.call (replay (s.treeEnv env) c)).map fun t => (t, false)
  | .cut id =>
      if ¬ s.init then .error unrecoverable
      else (s.call (do let _ ← Bucket.atSubBucket id)).map fun t => (t, true)
  | .malformed .kWalTxId =>
    .error (if s.init then .runtimeError "Unrecoverable logs." else .assertion)
  | .malformed _ => .error (if s.init then .assertion else unrecoverable)
  | .unknown => .ok (s, false)

def loop (s : Recovering) : List LogCall → Except Err Recovering
  | [] => .ok s
  | c :: rest => match s.step env c with
    | .error e => .error e
    | .ok (t, true) => .ok t
    | .ok (t, false) => t.loop rest

/-- `Logger::Recover`. What follows the loop saves nothing: `raw_txid` is the txid of the shared
meta itself. -/
def recover (s : Recovering) (records : List Bytes) : Except Err Recovering := do
  let t ← s.loop env (readCalls records)
  if t.currentTx then t.rollBack else return t

end Recovering

end AtomKV
