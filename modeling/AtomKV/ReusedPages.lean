import AtomKV.Lib.Steps
import AtomKV.Recovery

/-!
# Recovery on reused pages

`Update` releases pages of the version that the meta page names as soon as newer versions are
committed, and a transaction writes pages of the committed version in place that no checkpoint has
saved. The sessions of this module have both as events of their own, which may come after any other
one. Opening never depends on what the pages were: it reads what the preferred meta page leads to
when the database is opened.
-/

set_option autoImplicit false

namespace AtomKV

/-- What happens in a session, and to its pages. -/
inductive FileEvent (C : Type) where
  | db (e : WalEvent)
  /-- Pages of the saved version were allocated again and written; its root now leads to `c`. -/
  | reused (c : C)
  /-- Pages of the committed version were written in place; its root now leads to `c`. -/
  | inPlace (c : C)
  deriving Repr

namespace WalEvent

/-- Neither a commit nor a crash, nor the opening of a closed database. -/
def Quiet : WalEvent → Prop
  | .commit _ => False
  | .reopen => False
  | .crash _ _ => False
  | _ => True

/-- The event saves the meta. -/
def Checkpoints : WalEvent → Prop
  | .rollback checkpoint => checkpoint = true
  | .close => True
  | _ => False

end WalEvent

namespace FileEvent

variable {C : Type}

def Quiet : FileEvent C → Prop
  | .db e => e.Quiet
  | _ => True

/-- The saved version leads to `c` after the events, if `p` says so before them: a checkpoint saves
the committed contents, and what is written over the pages of the saved version replaces them. -/
def Keeps (c : C) : Prop → List (FileEvent C) → Prop
  | p, [] => p
  | p, .db e :: es => Keeps c (p ∨ e.Checkpoints) es
  | _, .reused c' :: es => Keeps c (c' = c) es
  | p, .inPlace _ :: es => Keeps c p es

end FileEvent

namespace WalDb

variable {C : Type} (E : Engine C) (env : MetaEnv)

/-! ## The steps -/

/-- The meta page that `Load` prefers leads to `c`. -/
def overwritten (c : C) (s : WalDb C) : WalDb C :=
  { s with
    first := if s.newer = 1 then s.first else c
    second := if s.newer = 1 then c else s.second }

/-- A page of the saved version is free only after a later commit: the transaction that replaced it
has freed it. -/
def reuse (c : C) (s : WalDb C) : Option (WalDb C) :=
  if s.storedTxid < s.file.shared.info.txid then some (s.overwritten c) else none

/-- `CopyNeeded` spares the pages that were committed after the last checkpoint of the session. -/
def writeInPlace (c : C) (s : WalDb C) : Option (WalDb C) :=
  if s.saved = false ∧ .entry .commit ∈ s.log then some { s with shared := c } else none

def fileStep (s : WalDb C) : FileEvent C → Option (WalDb C)
  | .db e => s.step E env e
  | .reused c => s.reuse c
  | .inPlace c => s.writeInPlace c

variable {E env} {s s' : WalDb C}

theorem reuse_eq_some {c : C} (hstep : s.reuse c = some s') :
    s.storedTxid < s.file.shared.info.txid ∧ s' = s.overwritten c := by
  unfold reuse at hstep
  split_ifs at hstep with hlt
  exact ⟨hlt, (Option.some.inj hstep).symm⟩

theorem writeInPlace_eq_some {c : C} (hstep : s.writeInPlace c = some s') :
    s.saved = false ∧ .entry .commit ∈ s.log ∧ s' = { s with shared := c } := by
  unfold writeInPlace at hstep
  split_ifs at hstep with hand
  exact ⟨hand.1, hand.2, (Option.some.inj hstep).symm⟩

/-- The page that was written over is the one that `Load` reads. -/
theorem overwritten_stored (s : WalDb C) (c : C) : (s.overwritten c).stored = c := by
  have hnewer : (s.overwritten c).newer = s.newer := rfl
  unfold stored
  rw [hnewer]
  by_cases hone : s.newer = 1
  · rw [if_pos hone]
    exact if_pos hone
  · rw [if_neg hone]
    exact if_neg hone

/-! ## What every run keeps -/

/-- The events of the database keep the log in order, whatever the pages hold. -/
theorem Journaled.step {e : WalEvent} (h : Journaled env s) (hstep : s.step E env e = some s') :
    Journaled env s' := by
  obtain ⟨hpages, w, body, hlog⟩ := h
  cases e with
  | update =>
    have hlog' := hlog.update hstep
    obtain ⟨-, -, -, rfl⟩ := update_eq_some hstep
    exact ⟨hpages, w, _, hlog'⟩
  | call o =>
    have hlog' := hlog.call hstep
    obtain ⟨c, -, -, -, rfl⟩ := call_eq_some hstep
    exact ⟨hpages, w, _, hlog'⟩
  | commit checkpoint =>
    obtain ⟨c, hphase, hsaved, htx, rfl⟩ := commit_eq_some hstep
    have hlog' : LogShape (s.committed c) w (body ++ [.commit]) := hlog.committed hphase hsaved htx
    refine ⟨(hpages.committed c).checkpoint checkpoint, w, body ++ [.commit], ?_⟩
    exact hlog'.checkpoint env (hlog.committed_phase hphase hsaved) checkpoint
  | rollback checkpoint =>
    obtain ⟨c, hphase, hsaved, htx, rfl⟩ := rollback_eq_some hstep
    have hpages' : PagesOk env s.rolledBack.file := hpages
    refine ⟨hpages'.checkpoint checkpoint, w, body ++ [.rollback], ?_⟩
    exact (hlog.rolledBack hphase hsaved htx).checkpoint env (.inl ⟨hphase, rfl⟩) checkpoint
  | resetLog =>
    have hlog' := hlog.resetLog hstep
    obtain ⟨-, rfl⟩ := resetLog_eq_some hstep
    exact ⟨hpages, _, _, hlog'⟩
  | close =>
    have hlog' := hlog.close hstep
    obtain ⟨s₁, hupdate, rfl⟩ := close_eq_some hstep
    obtain ⟨-, -, -, rfl⟩ := update_eq_some hupdate
    exact ⟨hpages.save, w, _, hlog'⟩
  | reopen => exact (opened_inv hpages (reopen_eq_some hstep)).journaled
  | crash records checkpoint => exact (opened_inv (E := E) hpages hstep).journaled

theorem Journaled.fileStep {e : FileEvent C} (h : Journaled env s)
    (hstep : s.fileStep E env e = some s') : Journaled env s' := by
  cases e with
  | db e => exact h.step hstep
  | reused c =>
    obtain ⟨-, rfl⟩ := reuse_eq_some hstep
    obtain ⟨hpages, w, body, hlog⟩ := h
    exact ⟨hpages, w, body, hlog.log, hlog.txid, hlog.phase⟩
  | inPlace c =>
    obtain ⟨-, -, rfl⟩ := writeInPlace_eq_some hstep
    obtain ⟨hpages, w, body, hlog⟩ := h
    exact ⟨hpages, w, body, hlog.log, hlog.txid, hlog.phase⟩

theorem Journaled.run {events : List (FileEvent C)} (h : Journaled env s)
    (hrun : Steps.run (WalDb.fileStep E env) s events = some s') : Journaled env s' := by
  refine Steps.invariant (C := fun _ _ => True) ?_ h ?_ hrun
  · intro s e s₁ hs _ hstep
    exact hs.fileStep hstep
  · exact Steps.along_of_take fun _ _ _ _ _ => trivial

/-! ## When the log is accepted -/

section Example

/-- The user bucket on pages that may no longer be a tree; a call that meets them fails. -/
def pageEngine (env : Env) : Engine (Option (List (Bytes × Bytes × Bool))) where
  empty := some []
  throws o
    | some c => (userEngine env).throws o c
    | none => some .assertion
  apply o c := c.map ((userEngine env).apply o)

/-- A new database with the page size 256. -/
def newFile : WalDb (Option (List (Bytes × Bytes × Bool))) :=
  created (pageEngine smallEnv) sumEnv
    ⟨⟨0, 0, 0, Meta.initInfo 0, 0⟩, ⟨0, 0, 0, Meta.initInfo 0, 0⟩, ⟨0, 0, 0, Meta.initInfo 0, 0⟩, 0⟩

/-- One transaction with one Put, in a database that was opened before. -/
def oneCommit : List (FileEvent (Option (List (Bytes × Bytes × Bool)))) :=
  (.crash 0 false :: onePut [1] [2]).map .db

/-- A checkpoint of `[1] -> [2]`, then `[1] -> [3]` and two transactions without calls, and one that
Puts into the root page of the checkpoint, which the last Update has released. -/
def rootReused : List (FileEvent (Option (List (Bytes × Bytes × Bool)))) :=
  [.db (.crash 0 false), .db .update, .db (.call (.put [1] [2] false)), .db (.commit true),
    .db .resetLog, .db .update, .db (.call (.put [1] [3] false)), .db (.commit false),
      .db .update, .db (.commit false),
    .db .update, .db (.commit false), .db .update,
      .db (.call (.put [5] (List.replicate 200 0) false)), .reused none]

/-- The state after a run. -/
def afterFile (events : List (FileEvent (Option (List (Bytes × Bytes × Bool))))) :
    WalDb (Option (List (Bytes × Bytes × Bool))) :=
  (Steps.run (fileStep (pageEngine smallEnv) sumEnv) newFile events).getD newFile

end Example

/-! ## A second crash -/

/-- What the events after a recovery that commit nothing have left: no commit is in the log, and the
saved version leads to the recovered contents exactly if `p` holds. -/
structure SinceRecovery (s₁ s : WalDb C) (p : Prop) : Prop where
  preferred : Preferred s
  shared : s.shared = s₁.shared
  log : .entry .commit ∉ s.log
  stored : s.stored = s₁.shared ↔ p

section Quiet

variable {s₁ : WalDb C} {p : Prop}

/-- More in the log, and another transaction. -/
theorem SinceRecovery.frame (h : SinceRecovery s₁ s p) {log : List Command}
    (hlog : .entry .commit ∉ log) (tx : Option C) (phase : Phase) :
      SinceRecovery s₁ { s with log := log, tx := tx, phase := phase } p where
  preferred := ⟨h.preferred.cur, h.preferred.le, h.preferred.same⟩
  shared := h.shared
  log := hlog
  stored := h.stored

/-- A checkpoint makes what was recovered the saved version. -/
theorem SinceRecovery.save (h : SinceRecovery s₁ s p) (env : MetaEnv) :
    SinceRecovery s₁ (s.save env) True := by
  obtain ⟨hpreferred, hnow⟩ := h.preferred.save env
  refine ⟨hpreferred, h.shared, h.log, ?_⟩
  exact iff_of_true ((hpreferred.same hnow).trans h.shared) trivial

theorem SinceRecovery.append (h : SinceRecovery s₁ s p) (c : Command) (hc : c ≠ .entry .commit) :
    .entry .commit ∉ s.log ++ [c] := by
  intro hm
  rcases List.mem_append.1 hm with hm | hm
  · exact h.log hm
  · exact hc (List.mem_singleton.1 hm).symm

/-- One event that commits nothing. -/
theorem SinceRecovery.step {e : WalEvent} (h : SinceRecovery s₁ s p) (hquiet : e.Quiet)
    (hstep : s.step E env e = some s') : SinceRecovery s₁ s' (p ∨ e.Checkpoints) := by
  cases e with
  | update =>
    obtain ⟨-, -, -, rfl⟩ := update_eq_some hstep
    rw [show (p ∨ WalEvent.Checkpoints .update) = p from or_false p]
    -- the record of this event is no commit record, so what the log commits is the same
    exact h.frame (h.append (.entry .begin) nofun) _ _
  | call o =>
    obtain ⟨c, -, -, -, rfl⟩ := call_eq_some hstep
    rw [show (p ∨ WalEvent.Checkpoints (.call o)) = p from or_false p]
    exact h.frame (h.append (.entry (.op o)) nofun) _ _
  | commit checkpoint => exact hquiet.elim
  | rollback checkpoint =>
    obtain ⟨c, -, -, -, rfl⟩ := rollback_eq_some hstep
    have hrolled : SinceRecovery s₁ s.rolledBack p :=
      h.frame (h.append (.entry .rollback) nofun) _ _
    cases checkpoint with
    | false =>
      rw [show (p ∨ WalEvent.Checkpoints (.rollback false)) = p by simp [WalEvent.Checkpoints]]
      exact hrolled
    | true =>
      rw [show (p ∨ WalEvent.Checkpoints (.rollback true)) = True by simp [WalEvent.Checkpoints]]
      exact hrolled.save env
  | resetLog =>
    obtain ⟨-, rfl⟩ := resetLog_eq_some hstep
    rw [show (p ∨ WalEvent.Checkpoints .resetLog) = p from or_false p]
    have hbegun : .entry .commit ∉ s.beginLog.log := fun hm => nomatch List.mem_singleton.1 hm
    have hframe := h.frame hbegun s.tx s.phase
    exact ⟨⟨hframe.preferred.cur, hframe.preferred.le, hframe.preferred.same⟩,
      h.shared, hbegun, h.stored⟩
  | close =>
    obtain ⟨s₂, hupdate, rfl⟩ := close_eq_some hstep
    obtain ⟨-, -, -, rfl⟩ := update_eq_some hupdate
    have hsaved := (h.frame (h.append (.entry .begin) nofun) (some s.shared) s.phase).save env
    rw [show (p ∨ WalEvent.Checkpoints .close) = True from or_true p]
    exact hsaved.frame hsaved.log _ _
  | reopen => exact hquiet.elim
  | crash records checkpoint => exact hquiet.elim

/-- What is written over the pages of the saved version is what it leads to. -/
theorem SinceRecovery.reuse {c : C} (h : SinceRecovery s₁ s p) (hstep : s.reuse c = some s') :
    SinceRecovery s₁ s' (c = s₁.shared) := by
  obtain ⟨hlt, rfl⟩ := reuse_eq_some hstep
  refine ⟨⟨h.preferred.cur, h.preferred.le, fun heq => absurd heq (Nat.ne_of_lt hlt)⟩,
    h.shared, h.log, ?_⟩
  rw [overwritten_stored]

theorem SinceRecovery.run {later : List (FileEvent C)} (h : SinceRecovery s₁ s p)
    (hquiet : ∀ e ∈ later, e.Quiet) (hrun : Steps.run (WalDb.fileStep E env) s later = some s') :
    SinceRecovery s₁ s' (FileEvent.Keeps s₁.shared p later) := by
  induction later generalizing s p with
  | nil =>
    cases hrun
    exact h
  | cons e later ih =>
    have htail : ∀ e' ∈ later, e'.Quiet := fun e' he' => hquiet e' (List.mem_cons_of_mem _ he')
    unfold Steps.run at hrun
    cases hstep : s.fileStep E env e with
    | none =>
      rw [hstep] at hrun
      cases hrun
    | some s₂ =>
      rw [hstep] at hrun
      cases e with
      | db e => exact ih (h.step (hquiet (.db e) List.mem_cons_self) hstep) htail hrun
      | reused c => exact ih (h.reuse hstep) htail hrun
      | inPlace c =>
        -- no commit is in the log
        obtain ⟨-, hcommit, -⟩ := writeInPlace_eq_some hstep
        exact absurd hcommit h.log

/-- A recovery begins the log anew. -/
theorem SinceRecovery.of_openWith {log : List Command} {checkpoint : Bool} (h : PagesOk env s.file)
    (hopen : s.openWith E env log checkpoint = .ok s') :
      SinceRecovery s' s' (s'.stored = s'.shared) := by
  have hinv : Inv E env s' := openWith_inv h hopen
  have hbegun : s'.age = .settled ∧ .entry .commit ∉ s'.log := by
    unfold openWith at hopen
    split at hopen
    · cases hopen
    · simp only [Nat.lt_irrefl, if_false] at hopen
      split at hopen
      · cases hopen
      · cases hopen
        refine ⟨?_, fun hm => nomatch List.mem_singleton.1 hm⟩
        show (if _ then _ else _ : WalDb C).age = _
        split_ifs <;> rfl
  obtain ⟨hage, hlog⟩ := hbegun
  obtain ⟨w, body, -, hslots⟩ := hinv.log
  unfold SlotsOk at hslots
  rw [hage] at hslots
  exact ⟨hslots.toPreferred, rfl, hlog, Iff.rfl⟩

end Quiet

section Example

/-- A checkpoint of `[1] -> [2]` and a transaction without calls. -/
def checkpointed : List (FileEvent (Option (List (Bytes × Bytes × Bool)))) :=
  [.db (.crash 0 false), .db .update, .db (.call (.put [1] [2] false)), .db (.commit true),
    .db .resetLog, .db .update, .db (.commit false)]

end Example

end WalDb

end AtomKV
