import AtomKV.Log
import AtomKV.Meta

/-!
# Sessions in the mode `kWal`

A database in the mode `kWal` as a state machine: transactions on the user bucket, checkpoints, the
closing sequence of `~Logger`, and crashes that keep some prefix of the log records, each followed
by `DB::Open`. Every meta page comes with the contents that its root leads to. In this machine the
pages of a saved version stay as they are; what the pager writes over them is added in the module on
reused pages, so the invariant keeps what concerns the log and the meta pages apart from what
concerns the contents.
-/

set_option autoImplicit false

namespace AtomKV

inductive Phase where
  | open
  /-- `~Logger` has made its checkpoint. -/
  | closing
  /-- `~Logger` has made its commit. -/
  | closed
  deriving DecidableEq, Repr

/-- What happened to the meta pages since `Meta::Init`. -/
inductive WalAge where
  /-- They are as `Init` wrote them. -/
  | created
  /-- One was saved with `txid`, which is not newer than the other one. -/
  | once (txid : Nat)
  | settled
  deriving DecidableEq, Repr

structure WalDb (C : Type) where
  file : MetaFile
  /-- The contents that the meta pages and the shared meta lead to. -/
  first : C
  second : C
  shared : C
  /-- What was appended to the log file since it was emptied. -/
  log : List Command
  tx : Option C
  phase : Phase
  /-- A checkpoint has saved the meta and not yet emptied the log. -/
  saved : Bool
  age : WalAge
  /-- The committed contents when the log was begun. -/
  start : C
  /-- The log was begun by a `DB::Open` that replayed commits. -/
  replayed : Bool

inductive WalEvent where
  /-- `TxManager::Update`. -/
  | update
  | call (o : Op)
  /-- `TxManager::Commit`; the flag is `Logger::CheckPointNeeded`. -/
  | commit (checkpoint : Bool)
  | rollback (checkpoint : Bool)
  /-- The end of a checkpoint: `Logger::Reset` and `AppendWalTxIdLog`. -/
  | resetLog
  /-- `~Logger`: `Update` and the first part of `Checkpoint`. -/
  | close
  /-- `~Logger` removes the log file, and the database is opened again. -/
  | reopen
  /-- A crash that leaves `records` records of the log, and `DB::Open`. The flag is
  `CheckPointNeeded` in the rollback of a transaction that the log leaves open. -/
  | crash (records : Nat) (checkpoint : Bool)
  deriving DecidableEq, Repr

namespace WalDb

variable {C : Type} (E : Engine C) (env : MetaEnv)

/-! ## The steps -/

/-- Append to the log. -/
def append (c : Command) (s : WalDb C) : WalDb C := { s with log := s.log ++ [c] }

/-- `Meta::Switch` and `Meta::Save`. -/
def save (s : WalDb C) : WalDb C :=
  let file := Meta.save env (Meta.switch s.file)
  { s with
    file := file
    first := if file.curMetaIndex = 0 then s.shared else s.first
    second := if file.curMetaIndex = 0 then s.second else s.shared
    saved := true
    age := match s.age with
      | .created => if 2 < s.file.shared.info.txid then .settled else .once s.file.shared.info.txid
      | _ => .settled }

/-- `Logger::AppendWalTxIdLog` on an empty log. -/
def beginLog (s : WalDb C) : WalDb C :=
  { s with log := [.walTxId s.file.shared.info.txid], start := s.shared }

def update (s : WalDb C) : Option (WalDb C) :=
  match s.phase, s.saved, s.tx with
  | .open, false, none => some { s.append (.entry .begin) with tx := some s.shared }
  | _, _, _ => none

def call (o : Op) (s : WalDb C) : Option (WalDb C) :=
  match s.phase, s.saved, s.tx with
  | .open, false, some c => some { s.append (.entry (.op o)) with tx := some (E.apply o c) }
  | _, _, _ => none

def commit (checkpoint : Bool) (s : WalDb C) : Option (WalDb C) :=
  match s.phase, s.saved, s.tx with
  | .closed, _, _ => none
  | phase, false, some c =>
      let info := { s.file.shared.info with txid := s.file.shared.info.txid + 1 }
      let s := { s with file := Meta.reset info s.file, shared := c, tx := none }
      let s := s.append (.entry .commit)
      let s := { s with phase := if phase = .open then .open else .closed }
      some (if checkpoint then s.save env else s)
  | _, _, _ => none

def rollback (checkpoint : Bool) (s : WalDb C) : Option (WalDb C) :=
  match s.phase, s.saved, s.tx with
  | .open, false, some _ =>
      let s := { s.append (.entry .rollback) with tx := none }
      some (if checkpoint then s.save env else s)
  | _, _, _ => none

def resetLog (s : WalDb C) : Option (WalDb C) :=
  if s.saved then some { s.beginLog with saved := false, replayed := false } else none

def close (s : WalDb C) : Option (WalDb C) :=
  s.update.map fun s => { s.save env with phase := .closing }

/-- The records that a crash leaves. -/
def kept (records : Nat) (s : WalDb C) : List Command :=
  Command.parse ((Command.encodeAll s.log).take records)

/-- `DB::Open` with this log file. -/
def openWith (log : List Command) (checkpoint : Bool) (s : WalDb C) : Except Err (WalDb C) :=
  match Meta.load env s.file with
  | .error e => .error e
  | .ok file =>
      let contents := if file.curMetaIndex = 0 then s.first else s.second
      match Logger.recoverLoop E ⟨file.shared.info.txid, ⟨contents, none⟩, false⟩ log with
      | .error e => .error e
      | .ok r =>
          let s' : WalDb C :=
            { s with
              file := Meta.reset { file.shared.info with txid := r.txid } file
              shared := r.view.committed, tx := none, phase := .open, saved := false
              age := .settled
              replayed := decide (file.shared.info.txid ≠ r.txid) }
          -- the transaction that the log leaves open is rolled back
          let s' :=
            if r.view.working.isSome ∧ checkpoint then { s'.save env with replayed := false }
            else s'
          -- `raw_txid` is a reference to the id that it is compared with
          let s' := if r.txid < r.txid then s'.save env else s'
          .ok { s'.beginLog with saved := false }

def step (s : WalDb C) : WalEvent → Option (WalDb C)
  | .update => s.update
  | .call o => s.call E o
  | .commit checkpoint => s.commit env checkpoint
  | .rollback checkpoint => s.rollback env checkpoint
  | .resetLog => s.resetLog
  | .close => s.close env
  | .reopen =>
      if s.phase = .closed ∧ s.saved = false then (s.openWith E env [] false).toOption else none
  | .crash records checkpoint => (s.openWith E env (s.kept records) checkpoint).toOption

def run (s : WalDb C) : List WalEvent → Option (WalDb C)
  | [] => some s
  | e :: es => match s.step E env e with
    | some s' => s'.run es
    | none => none

/-- A new database. -/
def created (f : MetaFile) : WalDb C :=
  beginLog
    { file := Meta.init env f, first := E.empty, second := E.empty, shared := E.empty, log := [],
      tx := none
      phase := .open, saved := false, age := .created, start := E.empty, replayed := false }

/-! ## The meta pages -/

/-- The meta page that `Load` prefers. -/
def newer (s : WalDb C) : Nat := if s.file.first.info.txid < s.file.second.info.txid then 1 else 0

/-- The id and the contents that `Load` finds. -/
def storedTxid (s : WalDb C) : Nat :=
  if s.newer = 1 then s.file.second.info.txid else s.file.first.info.txid

def stored (s : WalDb C) : C := if s.newer = 1 then s.second else s.first

/-- Both meta pages are in order. -/
structure PagesOk (f : MetaFile) : Prop where
  first : Meta.Formatted env f.first
  second : Meta.Formatted env f.second
  shared : Meta.Formatted env f.shared
  firstComplete : f.first.Complete env
  secondComplete : f.second.Complete env

variable {env} {E}

theorem load_eq {s : WalDb C} (h : PagesOk env s.file) :
    ∃ f, Meta.load env s.file = .ok f ∧ PagesOk env f ∧
    f.first = s.file.first ∧ f.second = s.file.second ∧ f.shared.info.txid = s.storedTxid ∧
    f.curMetaIndex = s.newer := by
  obtain ⟨h1, h2, h3, h4, h5⟩ := h
  unfold storedTxid newer
  by_cases hlt : s.file.first.info.txid < s.file.second.info.txid
  · refine ⟨_, Meta.load_second h2 h5 h1 (.inl hlt), ⟨h1, h2, h2, h4, h5⟩, rfl, rfl, ?_, ?_⟩
    · simp [hlt]
    · simp [hlt]
  · refine ⟨_, Meta.load_first h1 h4 (.inl (Nat.not_lt.1 hlt)), ⟨h1, h2, h1, h4, h5⟩,
      rfl, rfl, ?_, ?_⟩
    · simp [hlt]
    · simp [hlt]

/-- Saving keeps the meta pages in order. -/
theorem PagesOk.save {f : MetaFile} (h : PagesOk env f) :
    PagesOk env (Meta.save env (Meta.switch f)) := by
  obtain ⟨h1, h2, h3, h4, h5⟩ := h
  have hnew : Meta.Formatted env { f.shared with crc32 := f.shared.checksum env } :=
    ⟨h3.1, h3.2, h3.3⟩
  unfold Meta.save Meta.switch
  by_cases hcur : f.curMetaIndex = 0
  · simp only [hcur, if_true, Nat.one_ne_zero, if_false]
    exact ⟨h1, hnew, hnew, h4, rfl⟩
  · simp only [hcur, if_false, if_true]
    exact ⟨hnew, h2, hnew, rfl, h5⟩

/-- What a checkpoint does to the meta pages. -/
theorem save_of_zero (env : MetaEnv) {s : WalDb C} (h : s.file.curMetaIndex = 0) :
    (s.save env).file.curMetaIndex = 1 ∧ (s.save env).file.first.info = s.file.first.info ∧
      (s.save env).file.second.info = s.file.shared.info ∧
      (s.save env).file.shared.info = s.file.shared.info ∧
      (s.save env).first = s.first ∧ (s.save env).second = s.shared := by
  unfold WalDb.save Meta.save Meta.switch
  simp [h]

theorem save_of_one (env : MetaEnv) {s : WalDb C} (h : s.file.curMetaIndex = 1) :
    (s.save env).file.curMetaIndex = 0 ∧ (s.save env).file.first.info = s.file.shared.info ∧
      (s.save env).file.second.info = s.file.second.info ∧
      (s.save env).file.shared.info = s.file.shared.info ∧
      (s.save env).first = s.shared ∧ (s.save env).second = s.second := by
  unfold WalDb.save Meta.save Meta.switch
  simp [h]

/-! ## The invariant -/

/-- The log, from the id in its first record on, and the entries that the phase lets it have. -/
structure LogShape (s : WalDb C) (w : Nat) (body : List (Journal.Entry Op)) : Prop where
  log : s.log = .walTxId w :: body.map .entry
  txid : s.file.shared.info.txid = w + Journal.commits body
  phase : match s.phase with
    | .open => Journal.status false body = some s.tx.isSome ∧ (s.saved = true → s.tx = none)
    | .closing => s.tx.isSome ∧ if s.saved then Journal.status false body = some true else body = []
    | .closed => s.tx = none ∧ (body = [.commit] ∨ body = [] ∧ s.saved = false)

/-- The log leads from the contents that it was begun with to the committed ones and to those of the
transaction. -/
structure LogOk (E : Engine C) (s : WalDb C) (w : Nat) (body : List (Journal.Entry Op)) : Prop
    extends LogShape s w body where
  committed : (Journal.follow E.apply ⟨s.start, none⟩ body).committed = s.shared
  working : s.phase = .open → (Journal.follow E.apply ⟨s.start, none⟩ body).working = s.tx
  closing : s.phase = .closing → s.tx = some s.shared

/-- The meta page written last is the one that `Load` prefers. -/
structure Preferred (s : WalDb C) : Prop where
  cur : s.file.curMetaIndex = 0 ∧ s.storedTxid = s.file.first.info.txid ∨
    s.file.curMetaIndex = 1 ∧ s.storedTxid = s.file.second.info.txid
  le : s.storedTxid ≤ s.file.shared.info.txid
  same : s.storedTxid = s.file.shared.info.txid → s.stored = s.shared

/-- The log goes on from this meta page. -/
structure Settled (s : WalDb C) (w : Nat) : Prop extends Preferred s where
  log : if s.saved then s.storedTxid = s.file.shared.info.txid
    else s.storedTxid ≤ w ∧ (s.replayed = false → s.stored = s.start)

/-- The first meta page is the one of `Init`. -/
structure InitFirst (E : Engine C) (s : WalDb C) : Prop where
  txid : s.file.first.info.txid = 2
  contents : s.first = E.empty

def SlotsOk (E : Engine C) (s : WalDb C) (w : Nat) : Prop :=
  match s.age with
  | .created => s.file.curMetaIndex = 0 ∧ InitFirst E s ∧ s.file.second.info.txid = 1 ∧
      s.phase = .open ∧ s.saved = false ∧ w = 1 ∧ s.start = E.empty
  | .once t => s.file.curMetaIndex = 1 ∧ InitFirst E s ∧ s.file.second.info.txid = t ∧ t ≤ 2 ∧
      (t = 1 → s.second = E.empty) ∧
      if s.saved then s.file.shared.info.txid = t ∧ s.shared = s.second ∧ w = 1
      else w = t ∧ s.start = s.second
  | .settled => Settled s w

/-- The meta pages do not depend on the log and the transaction. -/
theorem SlotsOk.frame {s : WalDb C} {w : Nat} (h : SlotsOk E s w) (log : List Command)
    (tx : Option C) {phase : Phase} (hphase : s.age = .created → phase = .open) :
    SlotsOk E { s with log := log, tx := tx, phase := phase } w := by
  unfold SlotsOk at h ⊢
  cases hage : s.age with
  | created =>
    rw [hage] at h
    obtain ⟨h1, ⟨h2, h3⟩, h4, -, h5⟩ := h
    exact ⟨h1, ⟨h2, h3⟩, h4, hphase hage, h5⟩
  | once t =>
    rw [hage] at h
    obtain ⟨h1, ⟨h2, h3⟩, h4⟩ := h
    exact ⟨h1, ⟨h2, h3⟩, h4⟩
  | settled =>
    rw [hage] at h
    obtain ⟨⟨h1, h2, h3⟩, h4⟩ := h
    exact ⟨⟨h1, h2, h3⟩, h4⟩

/-- What holds whatever became of the pages. -/
structure Journaled (env : MetaEnv) (s : WalDb C) : Prop where
  pages : PagesOk env s.file
  log : ∃ w body, LogShape s w body

structure Inv (E : Engine C) (env : MetaEnv) (s : WalDb C) : Prop where
  pages : PagesOk env s.file
  log : ∃ w body, LogOk E s w body ∧ SlotsOk E s w

theorem created_inv (f : MetaFile) : Inv E env (created E env f) where
  pages := ⟨⟨rfl, rfl, rfl⟩, ⟨rfl, rfl, rfl⟩, ⟨rfl, rfl, rfl⟩, rfl, rfl⟩
  log := ⟨1, [], ⟨⟨rfl, rfl, rfl, fun _ => rfl⟩, rfl, fun _ => rfl, nofun⟩, rfl, ⟨rfl, rfl⟩,
    rfl, rfl, rfl, rfl, rfl⟩

theorem Inv.journaled {s : WalDb C} (h : Inv E env s) : Journaled env s := by
  obtain ⟨hpages, w, body, hlog, -⟩ := h
  exact ⟨hpages, w, body, hlog.toLogShape⟩

/-! ## What the steps are -/

section Steps

variable {s s' : WalDb C} {w : Nat} {body : List (Journal.Entry Op)}

theorem update_eq_some (hstep : s.update = some s') :
    s.phase = .open ∧ s.saved = false ∧ s.tx = none ∧
    s' = { s.append (.entry .begin) with tx := some s.shared } := by
  unfold update at hstep
  split at hstep
  · rename_i hphase hsaved htx
    exact ⟨hphase, hsaved, htx, (Option.some.inj hstep).symm⟩
  · cases hstep

theorem call_eq_some {o : Op} (hstep : s.call E o = some s') :
    ∃ c, s.phase = .open ∧ s.saved = false ∧ s.tx = some c ∧
      s' = { s.append (.entry (.op o)) with tx := some (E.apply o c) } := by
  unfold call at hstep
  split at hstep
  · rename_i c hphase hsaved htx
    exact ⟨c, hphase, hsaved, htx, (Option.some.inj hstep).symm⟩
  · cases hstep

/-- The state after the records of a rollback. -/
def rolledBack (s : WalDb C) : WalDb C := { s.append (.entry .rollback) with tx := none }

theorem rollback_eq_some {checkpoint : Bool} (hstep : s.rollback env checkpoint = some s') :
    ∃ c, s.phase = .open ∧ s.saved = false ∧ s.tx = some c ∧
      s' = if checkpoint then s.rolledBack.save env else s.rolledBack := by
  unfold rollback at hstep
  split at hstep
  · rename_i c hphase hsaved htx
    exact ⟨c, hphase, hsaved, htx, (Option.some.inj hstep).symm⟩
  · cases hstep

/-- The state after `Meta::Reset` and the record of a commit of the contents `c`. -/
def committed (c : C) (s : WalDb C) : WalDb C :=
  { s with
    file := Meta.reset { s.file.shared.info with txid := s.file.shared.info.txid + 1 } s.file
    shared := c, tx := none, log := s.log ++ [.entry .commit]
    phase := if s.phase = .open then .open else .closed }

theorem commit_eq_some {checkpoint : Bool} (hstep : s.commit env checkpoint = some s') :
    ∃ c, s.phase ≠ .closed ∧ s.saved = false ∧ s.tx = some c ∧
      s' = if checkpoint then (s.committed c).save env else s.committed c := by
  unfold commit at hstep
  split at hstep
  · cases hstep
  · rename_i c hsaved htx hclosed
    exact ⟨c, hclosed, hsaved, htx, (Option.some.inj hstep).symm⟩
  · cases hstep

theorem resetLog_eq_some (hstep : s.resetLog = some s') :
    s.saved = true ∧ s' = { s.beginLog with saved := false, replayed := false } := by
  unfold resetLog at hstep
  split_ifs at hstep with hsaved
  exact ⟨hsaved, (Option.some.inj hstep).symm⟩

theorem close_eq_some (hstep : s.close env = some s') :
    ∃ s₁, s.update = some s₁ ∧ s' = { s₁.save env with phase := .closing } := by
  unfold close at hstep
  obtain ⟨s₁, hupdate, heq⟩ := Option.map_eq_some_iff.1 hstep
  exact ⟨s₁, hupdate, heq.symm⟩

theorem save_sharedInfo (env : MetaEnv) (s : WalDb C) :
    (s.save env).file.shared.info = s.file.shared.info := by
  unfold save Meta.save Meta.switch
  split_ifs <;> rfl

/-! ## The log -/

theorem LogShape.log_append (h : LogShape s w body) (e : Journal.Entry Op) :
    s.log ++ [.entry e] = .walTxId w :: (body ++ [e]).map .entry := by
  rw [h.log, List.map_append]
  rfl

theorem LogShape.status_open (h : LogShape s w body) (hphase : s.phase = .open) :
    Journal.status false body = some s.tx.isSome := by
  have hp := h.phase
  rw [hphase] at hp
  exact hp.1

/-- One more entry in the log. -/
theorem LogShape.status_entry (h : LogShape s w body) (hphase : s.phase = .open)
    {e : Journal.Entry Op} {b : Bool} (hnext : Journal.next s.tx.isSome e = some b) :
      Journal.status false (body ++ [e]) = some b := by
  rw [Journal.status_append, h.status_open hphase]
  show (Journal.next s.tx.isSome e).bind _ = _
  rw [hnext]
  rfl

/-- An entry that leaves the database open. -/
theorem LogShape.entry (h : LogShape s w body) (hphase : s.phase = .open) (hsaved : s.saved = false)
    {e : Journal.Entry Op} {tx : Option C} (hnext : Journal.next s.tx.isSome e = some tx.isSome)
    (hnone : Journal.commits [e] = 0) : LogShape { s.append (.entry e) with tx := tx }
      w (body ++ [e]) where
  log := h.log_append e
  txid := by
    rw [Journal.commits_append, hnone]
    exact h.txid
  phase := by
    show match s.phase with
      | .open => _
      | .closing => _
      | .closed => _
    rw [hphase]
    refine ⟨h.status_entry hphase hnext, fun hs => ?_⟩
    rw [show s.saved = true from hs] at hsaved
    cases hsaved

theorem LogShape.update (h : LogShape s w body) (hstep : s.update = some s') :
    LogShape s' w (body ++ [.begin]) := by
  obtain ⟨hphase, hsaved, htx, rfl⟩ := update_eq_some hstep
  exact h.entry hphase hsaved (by rw [htx]; rfl) rfl

theorem LogShape.call {o : Op} (h : LogShape s w body) (hstep : s.call E o = some s') :
    LogShape s' w (body ++ [.op o]) := by
  obtain ⟨c, hphase, hsaved, htx, rfl⟩ := call_eq_some hstep
  exact h.entry hphase hsaved (by rw [htx]; rfl) rfl

theorem LogShape.rolledBack {c : C} (h : LogShape s w body) (hphase : s.phase = .open)
    (hsaved : s.saved = false) (htx : s.tx = some c) :
      LogShape s.rolledBack w (body ++ [.rollback]) :=
  h.entry hphase hsaved (by rw [htx]; rfl) rfl

/-- The commit of a transaction, or the one that ends `~Logger`. -/
theorem LogShape.committed {c c' : C} (h : LogShape s w body) (hphase : s.phase ≠ .closed)
    (hsaved : s.saved = false) (htx : s.tx = some c) :
      LogShape (s.committed c') w (body ++ [.commit]) := by
  refine ⟨h.log_append .commit, ?_, ?_⟩
  · rw [Journal.commits_append, ← Nat.add_assoc, ← h.txid]
    rfl
  · show match (if s.phase = .open then Phase.open else Phase.closed) with
      | .open => _
      | .closing => _
      | .closed => _
    cases hp : s.phase with
    | «open» =>
      rw [if_pos rfl]
      exact ⟨h.status_entry hp (by rw [htx]; rfl), fun _ => rfl⟩
    | closing =>
      rw [if_neg nofun]
      have hbody := h.phase
      rw [hp, hsaved] at hbody
      obtain ⟨-, rfl⟩ : s.tx.isSome = true ∧ body = [] := hbody
      exact ⟨rfl, .inl rfl⟩
    | closed => exact absurd hp hphase

/-- The log is not touched by `Meta::Save`. -/
theorem LogShape.save (h : LogShape s w body)
    (hphase : s.phase = .open ∧ s.tx = none ∨ s.phase = .closed ∧ body = [.commit]) :
    LogShape (s.save env) w body := by
  have hp := h.phase
  refine ⟨h.log, save_sharedInfo env s ▸ h.txid, ?_⟩
  show match s.phase with
    | .open => _
    | .closing => _
    | .closed => _
  rcases hphase with ⟨hphase, htx⟩ | ⟨hphase, hbody⟩
  · rw [hphase] at hp ⊢
    exact ⟨hp.1, fun _ => htx⟩
  · rw [hphase] at hp ⊢
    exact ⟨hp.1, .inl hbody⟩

/-- A checkpoint that may follow a commit or a rollback. -/
theorem LogShape.checkpoint (env : MetaEnv) (h : LogShape s w body)
    (hphase : s.phase = .open ∧ s.tx = none ∨ s.phase = .closed ∧ body = [.commit])
    (checkpoint : Bool) : LogShape (if checkpoint then s.save env else s) w body := by
  cases checkpoint with
  | true => exact h.save hphase
  | false => exact h

/-- Where a commit may be followed by a checkpoint. -/
theorem LogShape.committed_phase {c : C} (h : LogShape s w body) (hphase : s.phase ≠ .closed)
    (hsaved : s.saved = false) : (s.committed c).phase = .open ∧ (s.committed c).tx = none ∨
      (s.committed c).phase = .closed ∧ body ++ [.commit] = [.commit] := by
  have hbody := h.phase
  cases hp : s.phase with
  | «open» => exact .inl ⟨if_pos hp, rfl⟩
  | closing =>
    rw [hp, hsaved] at hbody
    obtain ⟨-, rfl⟩ : s.tx.isSome = true ∧ body = [] := hbody
    exact .inr ⟨if_neg (by rw [hp]; exact nofun), rfl⟩
  | closed => exact absurd hp hphase

/-- The end of a checkpoint. -/
theorem LogShape.resetLog (h : LogShape s w body) (hstep : s.resetLog = some s') :
    LogShape s' s.file.shared.info.txid [] := by
  obtain ⟨hsaved, rfl⟩ := resetLog_eq_some hstep
  have hp := h.phase
  refine ⟨rfl, rfl, ?_⟩
  show match s.phase with
    | .open => _
    | .closing => _
    | .closed => _
  cases hphase : s.phase with
  | «open» =>
    rw [hphase] at hp
    refine ⟨?_, fun hs => by cases hs⟩
    show some false = some s.tx.isSome
    rw [hp.2 hsaved]
    rfl
  | closing =>
    rw [hphase] at hp
    exact ⟨hp.1, rfl⟩
  | closed =>
    rw [hphase] at hp
    exact ⟨hp.1, .inr ⟨rfl, rfl⟩⟩

theorem LogShape.close (h : LogShape s w body) (hstep : s.close env = some s') :
    LogShape s' w (body ++ [.begin]) := by
  obtain ⟨s₁, hupdate, rfl⟩ := close_eq_some hstep
  have h₁ := h.update hupdate
  obtain ⟨hphase, -, -, rfl⟩ := update_eq_some hupdate
  have htxid := (congrArg MetaInfo.txid (save_sharedInfo env _)).trans h₁.txid
  exact ⟨h₁.log, htxid, rfl, h₁.status_open hphase⟩

/-! ## The contents -/

/-- While the database is open, the log says what is committed and what the transaction sees. -/
theorem LogOk.view (h : LogOk E s w body) (hphase : s.phase = .open) :
    Journal.follow E.apply ⟨s.start, none⟩ body = ⟨s.shared, s.tx⟩ := by
  rw [← h.committed, ← h.working hphase]

theorem LogOk.view_entry (h : LogOk E s w body) (hphase : s.phase = .open) (e : Journal.Entry Op) :
    Journal.follow E.apply ⟨s.start, none⟩ (body ++ [e]) =
      Journal.step E.apply ⟨s.shared, s.tx⟩ e := by
  rw [Journal.follow_append, h.view hphase]
  rfl

/-- In a state that is open the log leads to what is there. -/
theorem LogOk.of_view (h : LogShape s w body) (hphase : s.phase = .open)
    (hview : Journal.follow E.apply ⟨s.start, none⟩ body = ⟨s.shared, s.tx⟩) :
      LogOk E s w body where
  toLogShape := h
  committed := congrArg Journal.View.committed hview
  working := fun _ => congrArg Journal.View.working hview
  closing := fun hclosing => by
    rw [hphase] at hclosing
    cases hclosing

theorem LogOk.update (h : LogOk E s w body) (hstep : s.update = some s') :
    LogOk E s' w (body ++ [.begin]) := by
  have hshape := h.toLogShape.update hstep
  obtain ⟨hphase, -, -, rfl⟩ := update_eq_some hstep
  exact .of_view hshape hphase (h.view_entry hphase .begin)

theorem LogOk.call {o : Op} (h : LogOk E s w body) (hstep : s.call E o = some s') :
    LogOk E s' w (body ++ [.op o]) := by
  have hshape := h.toLogShape.call hstep
  obtain ⟨c, hphase, -, htx, rfl⟩ := call_eq_some hstep
  refine .of_view hshape hphase ((h.view_entry hphase (.op o)).trans ?_)
  rw [htx]
  rfl

theorem LogOk.rolledBack {c : C} (h : LogOk E s w body) (hphase : s.phase = .open)
    (hsaved : s.saved = false) (htx : s.tx = some c) :
      LogOk E s.rolledBack w (body ++ [.rollback]) :=
  .of_view (h.toLogShape.rolledBack hphase hsaved htx) hphase (h.view_entry hphase .rollback)

theorem LogOk.committed_tx {c : C} (h : LogOk E s w body) (hphase : s.phase ≠ .closed)
    (hsaved : s.saved = false) (htx : s.tx = some c) :
      LogOk E (s.committed c) w (body ++ [.commit]) := by
  have hshape : LogShape (s.committed c) w (body ++ [.commit]) :=
    h.toLogShape.committed hphase hsaved htx
  cases hp : s.phase with
  | «open» =>
    refine .of_view hshape (if_pos hp) ((h.view_entry hp .commit).trans ?_)
    rw [htx]
    rfl
  | closing =>
    have hclosed : (s.committed c).phase = .closed := if_neg (by rw [hp]; exact nofun)
    refine ⟨hshape, ?_, fun hopen => ?_, fun hclosing => ?_⟩
    · -- `~Logger` commits what was committed before
      have hbody := h.phase
      rw [hp, hsaved] at hbody
      obtain ⟨-, rfl⟩ : s.tx.isSome = true ∧ body = [] := hbody
      have hsame := h.closing hp
      rw [htx] at hsame
      exact h.committed.trans (Option.some.inj hsame).symm
    · rw [hclosed] at hopen
      cases hopen
    · rw [hclosed] at hclosing
      cases hclosing
  | closed => exact absurd hp hphase

theorem LogOk.checkpoint (h : LogOk E s w body)
    (hphase : s.phase = .open ∧ s.tx = none ∨ s.phase = .closed ∧ body = [.commit])
    (checkpoint : Bool) : LogOk E (if checkpoint then s.save env else s) w body := by
  have hshape := h.toLogShape.checkpoint env hphase checkpoint
  cases checkpoint with
  | true => exact ⟨hshape, h.committed, h.working, h.closing⟩
  | false => exact h

theorem LogOk.resetLog (h : LogOk E s w body) (hstep : s.resetLog = some s') :
    LogOk E s' s.file.shared.info.txid [] := by
  have hshape := h.toLogShape.resetLog hstep
  obtain ⟨hsaved, rfl⟩ := resetLog_eq_some hstep
  refine ⟨hshape, rfl, fun hopen => ?_, h.closing⟩
  -- a checkpoint is made when no transaction is open
  have hp := h.phase
  rw [show s.phase = .open from hopen] at hp
  exact (hp.2 hsaved).symm

theorem LogOk.close (h : LogOk E s w body) (hstep : s.close env = some s') :
    LogOk E s' w (body ++ [.begin]) := by
  have hshape := h.toLogShape.close hstep
  obtain ⟨s₁, hupdate, rfl⟩ := close_eq_some hstep
  have h₁ := h.update hupdate
  obtain ⟨-, -, -, rfl⟩ := update_eq_some hupdate
  exact ⟨hshape, h₁.committed, nofun, fun _ => rfl⟩

/-! ## Checkpoints -/

/-- Without a commit since the first record, the committed contents are those the log began with. -/
theorem LogOk.shared_eq_start (h : LogOk E s w body) (hzero : Journal.commits body = 0) :
    s.shared = s.start := by
  rw [← h.committed, Journal.committed_follow _ (Journal.not_mem_of_commits_eq_zero hzero)]

/-- The second page is written over, and what it gets is not older than the first one. -/
theorem preferred_of_save_zero (env : MetaEnv) (hcur : s.file.curMetaIndex = 0)
    (hle : s.file.first.info.txid ≤ s.file.shared.info.txid)
    (hsame : s.file.first.info.txid = s.file.shared.info.txid → s.first = s.shared) :
    Preferred (s.save env) ∧ (s.save env).storedTxid = (s.save env).file.shared.info.txid := by
  obtain ⟨e1, e2, e3, e4, e5, e6⟩ := save_of_zero env hcur
  have hshared : (s.save env).shared = s.shared := rfl
  have hstored : (s.save env).storedTxid = s.file.shared.info.txid ∧
      (s.save env).stored = s.shared := by
    unfold storedTxid stored newer
    rw [e2, e3, e5, e6]
    by_cases hlt : s.file.first.info.txid < s.file.shared.info.txid
    · simp [hlt]
    · have heq : s.file.first.info.txid = s.file.shared.info.txid := by omega
      simp [heq, hsame heq]
  obtain ⟨htxid, hcontents⟩ := hstored
  have heq : (s.save env).storedTxid = (s.save env).file.shared.info.txid := by rw [htxid, e4]
  refine ⟨⟨.inr ⟨e1, by rw [htxid, e3]⟩, Nat.le_of_eq heq, fun _ => ?_⟩, heq⟩
  exact hcontents.trans hshared.symm

/-- The first page is written over. -/
theorem preferred_of_save_one (env : MetaEnv) (hcur : s.file.curMetaIndex = 1)
    (hle : s.file.second.info.txid ≤ s.file.shared.info.txid) :
    Preferred (s.save env) ∧ (s.save env).storedTxid = (s.save env).file.shared.info.txid := by
  obtain ⟨e1, e2, e3, e4, e5, e6⟩ := save_of_one env hcur
  have hshared : (s.save env).shared = s.shared := rfl
  have hstored : (s.save env).storedTxid = s.file.shared.info.txid ∧
      (s.save env).stored = s.shared := by
    unfold storedTxid stored newer
    rw [e2, e3, e5, e6]
    simp [Nat.not_lt.2 hle]
  obtain ⟨htxid, hcontents⟩ := hstored
  have heq : (s.save env).storedTxid = (s.save env).file.shared.info.txid := by rw [htxid, e4]
  refine ⟨⟨.inl ⟨e1, by rw [htxid, e2]⟩, Nat.le_of_eq heq, fun _ => ?_⟩, heq⟩
  exact hcontents.trans hshared.symm

theorem stored_eq_first (h : s.storedTxid = s.file.first.info.txid) : s.stored = s.first := by
  have hnewer : s.newer ≠ 1 := by
    intro hone
    have hlt : s.file.first.info.txid < s.file.second.info.txid := by
      unfold newer at hone
      by_contra hlt
      rw [if_neg hlt] at hone
      cases hone
    unfold storedTxid at h
    rw [if_pos hone] at h
    omega
  exact if_neg hnewer

/-- A checkpoint saves the shared meta in the page that is not preferred, and then it is. -/
theorem Preferred.save (h : Preferred s) (env : MetaEnv) :
    Preferred (s.save env) ∧ (s.save env).storedTxid = (s.save env).file.shared.info.txid := by
  rcases h.cur with ⟨hcur, htxid⟩ | ⟨hcur, htxid⟩
  · refine preferred_of_save_zero env hcur (htxid ▸ h.le) fun heq => ?_
    rw [← stored_eq_first htxid, h.same (htxid.trans heq)]
  · exact preferred_of_save_one env hcur (htxid ▸ h.le)

/-- `Meta::Save` in a checkpoint: the page that was not in use gets the shared meta. -/
theorem save_slots (env : MetaEnv) (hlog : LogOk E s w body) (hslots : SlotsOk E s w)
    (hsaved : s.saved = false) : SlotsOk E (s.save env) w := by
  have htx := hlog.txid
  unfold SlotsOk at hslots
  cases hage : s.age with
  | created =>
    rw [hage] at hslots
    obtain ⟨hcur, ⟨htxid, hcontents⟩, -, -, -, rfl, hstart⟩ := hslots
    by_cases hlt : 2 < s.file.shared.info.txid
    · have hage' : (s.save env).age = .settled := by
        unfold save
        simp [hage, hlt]
      obtain ⟨hpreferred, hnow⟩ := preferred_of_save_zero env hcur (by omega) (fun heq => by omega)
      unfold SlotsOk
      rw [hage']
      exact ⟨hpreferred, hnow⟩
    · have hage' : (s.save env).age = .once s.file.shared.info.txid := by
        unfold save
        simp [hage, hlt]
      obtain ⟨e1, e2, e3, e4, e5, e6⟩ := save_of_zero env hcur
      unfold SlotsOk
      rw [hage']
      refine ⟨e1, ⟨by rw [e2, htxid], by rw [e5, hcontents]⟩, by rw [e3], Nat.not_lt.1 hlt,
        fun hone => ?_, ?_⟩
      · -- no commit yet
        have hzero : Journal.commits body = 0 := by omega
        rw [e6, hlog.shared_eq_start hzero, hstart]
      · exact ⟨by rw [e4], e6.symm, rfl⟩
  | once t =>
    rw [hage] at hslots
    obtain ⟨hcur, -, hsecond, -, -, hlogged⟩ := hslots
    rw [hsaved] at hlogged
    obtain ⟨rfl, -⟩ := hlogged
    have hage' : (s.save env).age = .settled := by
      unfold save
      simp [hage]
    obtain ⟨hpreferred, hnow⟩ := preferred_of_save_one env hcur (by omega)
    unfold SlotsOk
    rw [hage']
    exact ⟨hpreferred, hnow⟩
  | settled =>
    rw [hage] at hslots
    have hage' : (s.save env).age = .settled := by
      unfold save
      simp [hage]
    obtain ⟨hpreferred, hnow⟩ := hslots.toPreferred.save env
    unfold SlotsOk
    rw [hage']
    exact ⟨hpreferred, hnow⟩

theorem save_age : (s.save env).age ≠ .created := by
  unfold save
  cases s.age with
  | created =>
    show (if _ then _ else _) ≠ WalAge.created
    split_ifs
    · exact nofun
    · exact nofun
  | once t => exact nofun
  | settled => exact nofun

theorem checkpoint_slots (hlog : LogOk E s w body) (hslots : SlotsOk E s w)
    (hsaved : s.saved = false) (checkpoint : Bool) :
      SlotsOk E (if checkpoint then s.save env else s) w := by
  cases checkpoint with
  | true => exact save_slots env hlog hslots hsaved
  | false => exact hslots

theorem PagesOk.checkpoint (h : PagesOk env s.file) (checkpoint : Bool) :
    PagesOk env (if checkpoint then s.save env else s).file := by
  cases checkpoint with
  | true => exact h.save
  | false => exact h

theorem PagesOk.committed (h : PagesOk env s.file) (c : C) : PagesOk env (s.committed c).file :=
  ⟨h.first, h.second, ⟨h.shared.1, h.shared.2, h.shared.3⟩, h.firstComplete, h.secondComplete⟩

/-- After a commit the shared meta is newer than the meta pages. -/
theorem commit_slots (hslots : SlotsOk E s w) (hsaved : s.saved = false) (c : C) :
    SlotsOk E (s.committed c) w := by
  unfold SlotsOk at hslots ⊢
  show match s.age with
    | .created => _
    | .once t => _
    | .settled => _
  cases hage : s.age with
  | created =>
    rw [hage] at hslots
    obtain ⟨h1, ⟨h2, h3⟩, h4, h5, h6⟩ := hslots
    exact ⟨h1, ⟨h2, h3⟩, h4, if_pos h5, h6⟩
  | once t =>
    rw [hage] at hslots
    obtain ⟨h1, ⟨h2, h3⟩, h4, h5, h6, h7⟩ := hslots
    refine ⟨h1, ⟨h2, h3⟩, h4, h5, h6, ?_⟩
    show if s.saved = true then _ else _
    rw [hsaved] at h7 ⊢
    exact h7
  | settled =>
    rw [hage] at hslots
    obtain ⟨⟨h1, h2, -⟩, h4⟩ := hslots
    have hlt : ¬ s.storedTxid = s.file.shared.info.txid + 1 := by omega
    refine ⟨⟨h1, Nat.le_succ_of_le h2, fun heq => absurd heq hlt⟩, ?_⟩
    show if s.saved = true then _ else _
    rw [hsaved] at h4 ⊢
    exact h4

/-- The log begins with the id of the meta that was saved. -/
theorem resetLog_slots (hslots : SlotsOk E s w) (hstep : s.resetLog = some s') :
    SlotsOk E s' s.file.shared.info.txid := by
  obtain ⟨hsaved, rfl⟩ := resetLog_eq_some hstep
  unfold SlotsOk at hslots ⊢
  show match s.age with
    | .created => _
    | .once t => _
    | .settled => _
  cases hage : s.age with
  | created =>
    rw [hage] at hslots
    rw [hslots.2.2.2.2.1] at hsaved
    cases hsaved
  | once t =>
    rw [hage] at hslots
    obtain ⟨h1, ⟨h2, h3⟩, h4, h5, h6, h7⟩ := hslots
    rw [hsaved] at h7
    obtain ⟨h8, h9, -⟩ := h7
    exact ⟨h1, ⟨h2, h3⟩, h4, h5, h6, h8, h9⟩
  | settled =>
    rw [hage] at hslots
    obtain ⟨⟨h1, h2, h3⟩, h4⟩ := hslots
    rw [hsaved] at h4
    have heq : s.storedTxid = s.file.shared.info.txid := h4
    exact ⟨⟨h1, h2, h3⟩, Nat.le_of_eq heq, fun _ => h3 heq⟩

/-! ## Opening -/

/-- The database after `Recover`, before the log is begun. -/
def recovered (s : WalDb C) (f : MetaFile) (r : Replay C) : WalDb C :=
  { s with
    file := Meta.reset { f.shared.info with txid := r.txid } f
    shared := r.view.committed, tx := none, phase := .open, saved := false, age := .settled
    replayed := decide (f.shared.info.txid ≠ r.txid) }

/-- The meta page that was loaded is preferred, and nothing newer is in memory unless commits
were replayed. -/
theorem recovered_settled {f : MetaFile} {r : Replay C} (hfirst : f.first = s.file.first)
    (hsecond : f.second = s.file.second) (htxid : f.shared.info.txid = s.storedTxid)
    (hcur : f.curMetaIndex = s.newer) (hle : s.storedTxid ≤ r.txid)
    (hsame : r.txid = s.storedTxid → r.view.committed = s.stored) :
    (s.recovered f r).storedTxid = s.storedTxid ∧ (s.recovered f r).stored = s.stored ∧
      Settled { (s.recovered f r).beginLog with saved := false } r.txid := by
  have hnewer : (s.recovered f r).newer = s.newer := by
    show (if f.first.info.txid < f.second.info.txid then 1 else 0) = s.newer
    rw [hfirst, hsecond]
    rfl
  have hstoredTxid : (s.recovered f r).storedTxid = s.storedTxid := by
    show (if (s.recovered f r).newer = 1 then f.second.info.txid else f.first.info.txid) =
      s.storedTxid
    rw [hnewer, hfirst, hsecond]
    rfl
  have hstored : (s.recovered f r).stored = s.stored := by
    show (if (s.recovered f r).newer = 1 then s.second else s.first) = s.stored
    rw [hnewer]
    rfl
  refine ⟨hstoredTxid, hstored, ⟨?_, ?_, fun heq => ?_⟩, ?_, fun hreplayed => ?_⟩
  · show f.curMetaIndex = 0 ∧ (s.recovered f r).storedTxid = f.first.info.txid ∨
      f.curMetaIndex = 1 ∧ (s.recovered f r).storedTxid = f.second.info.txid
    rw [hcur, hstoredTxid, hfirst, hsecond]
    unfold storedTxid
    by_cases hone : s.newer = 1
    · exact .inr ⟨hone, if_pos hone⟩
    · have hzero : s.newer = 0 := by
        unfold newer at hone ⊢
        split_ifs at hone ⊢
        · exact absurd rfl hone
        · rfl
      exact .inl ⟨hzero, if_neg hone⟩
  · show (s.recovered f r).storedTxid ≤ r.txid
    rw [hstoredTxid]
    exact hle
  · change (s.recovered f r).storedTxid = r.txid at heq
    show (s.recovered f r).stored = r.view.committed
    rw [hstored, hsame (by rw [← heq, hstoredTxid])]
  · show (s.recovered f r).storedTxid ≤ r.txid
    rw [hstoredTxid]
    exact hle
  · have heq : f.shared.info.txid = r.txid := by
      have : decide (f.shared.info.txid ≠ r.txid) = false := hreplayed
      simpa using this
    show (s.recovered f r).stored = r.view.committed
    rw [hstored, hsame (by rw [← heq, htxid])]

/-- **Opening.** What `DB::Open` makes of a log: it fails if the replay does, and otherwise the
shared meta is what the replay makes of the loaded meta page. -/
theorem openWith_spec (h : PagesOk env s.file) (log : List Command) (checkpoint : Bool) :
    match Logger.recoverLoop E ⟨s.storedTxid, ⟨s.stored, none⟩, false⟩ log with
    | .error e => s.openWith E env log checkpoint = .error e
    | .ok r => ∃ s', s.openWith E env log checkpoint = .ok s' ∧ Inv E env s' ∧
        s'.shared = r.view.committed ∧
        s'.stored = if r.view.working.isSome ∧ checkpoint then r.view.committed else s.stored := by
  obtain ⟨f, hload, hpages, hfirst, hsecond, htxid, hcur⟩ := load_eq h
  -- The version that `Load` takes is the one that the meta pages say is stored.
  have hcontents : (if f.curMetaIndex = 0 then s.first else s.second) = s.stored := by
    rw [hcur]
    unfold stored newer
    by_cases hlt : s.file.first.info.txid < s.file.second.info.txid
    · simp [hlt]
    · simp [hlt]
  have hstart : Logger.recoverLoop E ⟨f.shared.info.txid,
      ⟨if f.curMetaIndex = 0 then s.first else s.second, none⟩, false⟩ log =
      Logger.recoverLoop E ⟨s.storedTxid, ⟨s.stored, none⟩, false⟩ log := by
    rw [htxid, hcontents]
  cases hloop : Logger.recoverLoop E ⟨s.storedTxid, ⟨s.stored, none⟩, false⟩ log with
  | error e =>
    unfold openWith
    simp only [hload, hstart, hloop]
  | ok r =>
    obtain ⟨hle, hsame⟩ := Logger.recoverLoop_grows hloop
    obtain ⟨e1, e2, hsettled⟩ := recovered_settled (s := s) hfirst hsecond htxid hcur hle hsame
    have hopen : s.openWith E env log checkpoint = .ok { (if r.view.working.isSome ∧ checkpoint then
        { (s.recovered f r).save env with replayed := false } else s.recovered f r).beginLog with
          saved := false } := by
      unfold openWith
      simp only [hload, hstart, hloop, Nat.lt_irrefl, if_false]
      rfl
    have hpages' : PagesOk env (s.recovered f r).file :=
      ⟨hpages.first, hpages.second, ⟨hpages.shared.1, hpages.shared.2, hpages.shared.3⟩,
        hpages.firstComplete, hpages.secondComplete⟩
    -- An open transaction is rolled back; only a rollback with a checkpoint saves the meta.
    by_cases hck : r.view.working.isSome ∧ checkpoint
    · show ∃ s', _
      rw [if_pos hck] at hopen ⊢
      have hpreferred : Preferred (s.recovered f r) := ⟨hsettled.cur, hsettled.le, hsettled.same⟩
      obtain ⟨⟨h1, h2, h3⟩, heq⟩ := hpreferred.save env
      refine ⟨_, hopen, ⟨hpages'.save, ((s.recovered f r).save env).file.shared.info.txid, [],
        ⟨⟨rfl, rfl, rfl, fun hs => by cases hs⟩, rfl, fun _ => rfl, nofun⟩, ?_⟩, rfl, h3 heq⟩
      exact ⟨⟨h1, h2, h3⟩, Nat.le_of_eq heq, fun _ => h3 heq⟩
    · show ∃ s', _
      rw [if_neg hck] at hopen ⊢
      refine ⟨_, hopen, ⟨hpages', r.txid, [],
        ⟨⟨rfl, rfl, rfl, fun hs => by cases hs⟩, rfl, fun _ => rfl, nofun⟩, hsettled⟩, rfl, ?_⟩
      exact e2

end Steps

end WalDb

end AtomKV
