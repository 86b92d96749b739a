import AtomKV.BTree
import AtomKV.Commit
import AtomKV.Lib.Steps
import AtomKV.Versions

/-!
# The transaction manager

One writer and any number of views on one database, `TxManager` with the state around it: the meta
pages, the pager, the open write transaction and the map of the open views. An event is a call of
the writer or of a reader; a call that throws leaves what it has changed, and the transaction open.

`history` and `savedPages` are not in the program. They record what a version was when it was
committed, and when its meta was saved.
-/

set_option autoImplicit false

namespace AtomKV

structure ManagerEnv where
  pageSize : Nat
  comparator : Bytes → Bytes → Ordering
  mode : DbMode
  crc : Nat → Nat → Nat → MetaInfo → Nat

structure Manager where
  file : MetaFile
  pager : Pager
  /-- The meta of `update_tx_`. -/
  updateTx : Option MetaInfo
  viewTxMap : List (Nat × Nat)
  minViewTxid : Nat
  persistedTxid : Nat
  /-- The metas of the open views. -/
  views : List MetaInfo
  /-- The pages at the commit of a transaction. -/
  history : Nat → Nat → Page
  /-- The pages at the Commit or RollBack that saved a meta last. -/
  savedPages : Nat → Page

inductive ManagerEvent where
  | update
  | put (key value : Bytes)
  | delete (key : Bytes)
  | commit (checkpointNeeded : Bool) (faults : Faults)
  | rollBack (checkpointNeeded : Bool) (faults : Faults)
  | view
  /-- The end of the view with this position among the open ones. -/
  | closeView (i : Nat)

namespace ManagerEnv

variable (env : ManagerEnv)

def metaEnv : MetaEnv := ⟨env.pageSize, env.crc⟩

def commitEnv (checkpointNeeded : Bool) : CommitEnv := ⟨env.metaEnv, env.mode, checkpointNeeded⟩

/-- What the tree code of the writer reads. -/
def tx (s : Manager) : Env := ⟨env.pageSize, env.comparator, s.minViewTxid, s.persistedTxid⟩

/-- What the tree code of a reader looks at. -/
def reader : Env := ⟨env.pageSize, env.comparator, 0, 0⟩

end ManagerEnv

namespace Manager

/-! ## The map of the views -/

/-- `view_tx_map_.insert({ txid, 1})` or `++iter->second`. -/
def addView (txid : Nat) : List (Nat × Nat) → List (Nat × Nat)
  | [] => [(txid, 1)]
  | (t, n) :: rest =>
      if t < txid then (t, n) :: addView txid rest
      else if t = txid then (t, n + 1) :: rest
      else (txid, 1) :: (t, n) :: rest

/-- `--iter->second`, and the entry is erased at zero; nothing where an assertion fails. -/
def removeView (txid : Nat) : List (Nat × Nat) → Option (List (Nat × Nat))
  | [] => none
  | (t, n) :: rest =>
      if t = txid then
        if n = 0 then none
        else if n = 1 then some rest
        else some ((t, n - 1) :: rest)
      else (removeView txid rest).map ((t, n) :: ·)

/-! ## The steps -/

/-- The meta in shared memory. -/
def shared (s : Manager) : MetaInfo := s.file.shared.info

/-- What the open transaction works on. -/
def txState (s : Manager) (info : MetaInfo) : TxState := ⟨s.pager, info, info.userRoot⟩

/-- What `Update` sets `min_view_txid_` to. -/
def oldestViewTxid (s : Manager) : Nat :=
  match s.viewTxMap with
  | [] => s.shared.txid
  | e :: _ => e.1

/-- What the tree code of the next writer will read. -/
def nextTx (env : ManagerEnv) (s : Manager) : Env :=
  ⟨env.pageSize, env.comparator, s.oldestViewTxid, s.persistedTxid⟩

/-- `TxManager::Update`; it waits while there is a write transaction. The mapping is not part of the
state: where `ClearPendingMmap` waits for the views to be closed, this step goes on. -/
def update (s : Manager) : Option Manager :=
  match s.updateTx with
  | some _ => none
  | none =>
      -- `Txid overflow.`
      if s.shared.txid + 1 = kTxInvalidId then none
      else some { s with
        updateTx := some { s.shared with txid := s.shared.txid + 1 }
        minViewTxid := s.oldestViewTxid
        pager := s.pager.release (s.oldestViewTxid - 1) }

/-- A call on the tree of the write transaction. -/
def work {α : Type} (x : TxM α) (s : Manager) : Option Manager :=
  match s.updateTx with
  | none => none
  | some info =>
      let u := (x (s.txState info)).2
      some
        { s with pager := u.pager, updateTx := some { u.metaStruct with userRoot := u.rootPgid } }

/-- What a call that may make a checkpoint has left. `Checkpoint` sets `persisted_txid_` when it has
saved the meta. -/
def after (env : ManagerEnv) (s : Manager) (d : Database) : Manager :=
  { s with
    file := d.file
    pager := d.tx.pager
    persistedTxid :=
      if env.mode = .kWal ∧ d.file.curMetaIndex ≠ s.file.curMetaIndex then d.file.shared.info.txid
      else s.persistedTxid
    savedPages := if d.file.curMetaIndex ≠ s.file.curMetaIndex then s.pager.pages
      else s.savedPages }

/-- `TxManager::Commit`. -/
def commit (env : ManagerEnv) (checkpointNeeded : Bool) (faults : Faults) (s : Manager) :
    Option Manager :=
  match s.updateTx with
  | none => none
  | some info =>
      let r := TxManager.commit (env.commitEnv checkpointNeeded) faults ⟨s.file, s.txState info⟩
      match r.1 with
      | .ok _ => some { s.after env r.2 with
          updateTx := none
          history := Function.update s.history info.txid s.pager.pages }
      | .error _ => some { s.after env r.2 with updateTx := some r.2.tx.metaStruct }

/-- `TxManager::RollBack`. -/
def rollBack (env : ManagerEnv) (checkpointNeeded : Bool) (faults : Faults) (s : Manager) :
    Option Manager :=
  match s.updateTx with
  | none => none
  | some info =>
      let r := TxManager.rollBack (env.commitEnv checkpointNeeded) faults ⟨s.file, s.txState info⟩
      match r.1 with
      | .ok _ => some { s.after env r.2 with updateTx := none }
      | .error _ => some { s.after env r.2 with updateTx := some r.2.tx.metaStruct }

/-- `TxManager::View`. -/
def view (s : Manager) : Manager :=
  { s with viewTxMap := addView s.shared.txid s.viewTxMap, views := s.views ++ [s.shared] }

/-- `TxManager::RollBack(view_txid)`. -/
def closeView (i : Nat) (s : Manager) : Option Manager := do
  let info ← s.views[i]?
  let m ← removeView info.txid s.viewTxMap
  return { s with viewTxMap := m, views := s.views.eraseIdx i }

def step (env : ManagerEnv) (s : Manager) : ManagerEvent → Option Manager
  | .update => s.update
  | .put key value => s.work (BTree.put (env.tx s) key value false)
  | .delete key => s.work (BTree.delete (env.tx s) key)
  | .commit checkpointNeeded faults => s.commit env checkpointNeeded faults
  | .rollBack checkpointNeeded faults => s.rollBack env checkpointNeeded faults
  | .view => some s.view
  | .closeView i => s.closeView i

/-- A new database; `f` is what the meta pages were before. -/
def created (env : ManagerEnv) (f : MetaFile) : Manager where
  file := Meta.init env.metaEnv f
  pager := ⟨fun _ => .raw [], [], [], []⟩
  updateTx := none
  viewTxMap := []
  minViewTxid := 1
  persistedTxid := kTxInvalidId
  views := []
  history := fun _ _ => .raw []
  savedPages := fun _ => .raw []

/-! ## Versions -/

/-- The version with the meta `info`. -/
def image (s : Manager) (info : MetaInfo) : Image := ⟨info, s.history info.txid⟩

/-- The version whose meta was saved last. -/
def savedImage (s : Manager) : Image := ⟨s.file.saved.info, s.savedPages⟩

/-- `Alloc` has not handed out the page since the transaction began, and cannot: it hands out runs
of the free map, which it records, and pages behind the end of the file. -/
structure Withheld (s : Manager) (p : Nat) : Prop where
  inFile : p < s.shared.pageCount
  free : runsCount s.pager.freeMap p = 0
  drawn : s.updateTx.isSome → runsCount s.pager.allocRecords p = 0

end Manager

end AtomKV
