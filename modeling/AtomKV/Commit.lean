import AtomKV.Allocator

/-!
# Commit

`TxManager::Commit`, `Logger::Checkpoint` and the rollback that follows when one of the callees
throws. Which callees throw is a parameter, `Faults`; writing the log is only of interest here for
the exceptions it may raise.
-/

set_option autoImplicit false

namespace AtomKV

/-- The meta pages and the open write transaction. -/
structure Database where
  file : MetaFile
  tx : TxState

/-- Which callees throw. -/
structure Faults where
  /-- `DBImpl::Remmap`, if `Alloc` calls it. -/
  remmap : Bool
  /-- `sync` in `Pager::WriteAllDirtyPages`. -/
  sync : Bool
  /-- Appending and flushing a log record. -/
  append : Bool
  /-- Opening the log again in `Logger::Reset`. -/
  reopen : Bool
  deriving DecidableEq, Repr

/-- No callee throws. -/
def Faults.none : Faults := ⟨false, false, false, false⟩

structure CommitEnv where
  metaEnv : MetaEnv
  mode : DbMode
  /-- `Logger::CheckPointNeeded`. -/
  checkpointNeeded : Bool

abbrev CommitM := Exec Database Err

/-- A call into the pager. -/
def onTx {α : Type} (x : TxM α) : CommitM α := fun d => ((x d.tx).1, { d with tx := (x d.tx).2 })

/-- Raise an exception if the fault occurs. -/
def failing (fault : Bool) (what : String) : CommitM Unit :=
  if fault then Exec.raise (.runtimeError what) else pure ()

/-- `Pager::Alloc` in a `SaveFreeList` whose `Remmap` throws: the file has grown in the
transaction's meta. -/
def Pager.writeFreeListUnmapped (P : Nat) : TxM Unit := do
  let s ← Exec.read
  let pages := listPages P s.pager
  Exec.change (withListPages pages)
  let _ ← alloc pages
  Exec.raise (.runtimeError "Unable to map db file.")

/-- `Pager::SaveFreeList` with its exceptions. -/
def Pager.saveFreeListFaulty (P : Nat) (remmap : Bool) : TxM Unit := do
  freeSavedList
  let s ← Exec.read
  if remmap ∧ allocFromMap (listPages P s.pager) s.pager.freeMap = none then writeFreeListUnmapped P
  else writeFreeList P

/-- `Pager::SaveFreeList` and `Pager::WriteAllDirtyPages`. -/
def persistPages (env : CommitEnv) (faults : Faults) : CommitM Unit := do
  onTx (Pager.saveFreeListFaulty env.metaEnv.pageSize faults.remmap)
  failing faults.sync "Failed to sync db file."

/-- `Meta::Switch` and `Meta::Save`. -/
def saveMeta (env : CommitEnv) : CommitM Unit :=
  Exec.change fun d => { d with file := Meta.save env.metaEnv (Meta.switch d.file) }

/-- `Logger::Checkpoint`. -/
def checkpoint (env : CommitEnv) (faults : Faults) : CommitM Unit := do
  persistPages env faults
  saveMeta env
  failing faults.reopen "Unable to open log file."
  failing faults.append "Failed to write log file."

/-- `TxManager::Commit`, up to the end of the transaction. -/
def TxManager.commit (env : CommitEnv) (faults : Faults) : CommitM Unit := do
  Exec.change fun d => { d with file := Meta.reset d.tx.metaStruct d.file }
  match env.mode with
  | .kWal =>
      failing faults.append "Failed to write log file."
      if env.checkpointNeeded then checkpoint env faults else pure ()
  | .kUpdateInPlace =>
      persistPages env faults
      saveMeta env

/-- The record of a rollback in the log, and the checkpoint that may follow. -/
def TxManager.logRollBack (env : CommitEnv) (faults : Faults) : CommitM Unit :=
  match env.mode with
  | .kWal => do
      failing faults.append "Failed to write log file."
      if env.checkpointNeeded then checkpoint env faults else pure ()
  | .kUpdateInPlace => pure ()

/-- `TxManager::RollBack`. -/
def TxManager.rollBack (env : CommitEnv) (faults : Faults) : CommitM Unit := do
  logRollBack env faults
  Exec.change fun d =>
    { d with tx := { d.tx with pager := d.tx.pager.rollback d.tx.metaStruct.txid } }

/-- The commit saves the meta and the free list: in the mode `kWal` only with a checkpoint. -/
def CommitEnv.Saves (env : CommitEnv) : Prop :=
  env.mode = .kUpdateInPlace ∨ env.checkpointNeeded = true

/-- The meta page that `Meta::Save` wrote last. -/
def MetaFile.saved (f : MetaFile) : MetaStruct := if f.curMetaIndex = 0 then f.first else f.second

end AtomKV
