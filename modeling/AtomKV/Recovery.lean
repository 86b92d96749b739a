import AtomKV.Layout
import AtomKV.UserBucket
import AtomKV.WalSession

/-!
# Recovery from the log

What `DB::Open` makes of the records that a crash leaves in the mode `kWal`: when it refuses the
log, and when it finds the contents that the surviving commits produced, in every run in which the
pages of a saved version stay as they are.
-/

set_option autoImplicit false

namespace AtomKV

namespace WalDb

variable {C : Type} (E : Engine C) {env : MetaEnv}

/-! ## Runs -/

section Runs

variable {E} {s s' : WalDb C}

/-- A successful opening begins a log, whatever became of the pages. -/
theorem openWith_inv {log : List Command} {checkpoint : Bool} (h : PagesOk env s.file)
    (hopen : s.openWith E env log checkpoint = .ok s') : Inv E env s' := by
  have hspec := openWith_spec (E := E) h log checkpoint
  cases hloop : Logger.recoverLoop E ⟨s.storedTxid, ⟨s.stored, none⟩, false⟩ log with
  | error e =>
    rw [hloop] at hspec
    rw [show s.openWith E env log checkpoint = .error e from hspec] at hopen
    cases hopen
  | ok r =>
    rw [hloop] at hspec
    obtain ⟨s₁, h₁, hinv, -⟩ := hspec
    rw [hopen] at h₁
    cases h₁
    exact hinv

/-- The step that opens the database. -/
theorem opened_inv {log : List Command} {checkpoint : Bool} (h : PagesOk env s.file)
    (hopen : (s.openWith E env log checkpoint).toOption = some s') : Inv E env s' := by
  cases heq : s.openWith E env log checkpoint with
  | error e =>
    rw [heq] at hopen
    cases hopen
  | ok s₁ =>
    rw [heq] at hopen
    cases hopen
    exact openWith_inv h heq

theorem reopen_eq_some (hstep : s.step E env .reopen = some s') :
    (s.openWith E env [] false).toOption = some s' := by
  change (if s.phase = .closed ∧ s.saved = false then (s.openWith E env [] false).toOption
    else none) = some s' at hstep
  split_ifs at hstep
  exact hstep

theorem step_inv {e : WalEvent} (h : Inv E env s) (hstep : s.step E env e = some s') :
    Inv E env s' := by
  obtain ⟨hpages, w, body, hlog, hslots⟩ := h
  cases e with
  | update =>
    have hlog' := hlog.update hstep
    obtain ⟨hphase, -, -, rfl⟩ := update_eq_some hstep
    exact ⟨hpages, w, _, hlog', hslots.frame _ _ fun _ => hphase⟩
  | call o =>
    have hlog' := hlog.call hstep
    obtain ⟨c, hphase, -, -, rfl⟩ := call_eq_some hstep
    exact ⟨hpages, w, _, hlog', hslots.frame _ _ fun _ => hphase⟩
  | commit checkpoint =>
    obtain ⟨c, hphase, hsaved, htx, rfl⟩ := commit_eq_some hstep
    have hlog' := hlog.committed_tx hphase hsaved htx
    have hslots' : SlotsOk E (s.committed c) w := commit_slots hslots hsaved c
    refine ⟨(hpages.committed c).checkpoint checkpoint, w, body ++ [.commit], ?_, ?_⟩
    · exact hlog'.checkpoint (hlog.toLogShape.committed_phase hphase hsaved) checkpoint
    · exact checkpoint_slots hlog' hslots' hsaved checkpoint
  | rollback checkpoint =>
    obtain ⟨c, hphase, hsaved, htx, rfl⟩ := rollback_eq_some hstep
    have hlog' := hlog.rolledBack hphase hsaved htx
    have hslots' : SlotsOk E s.rolledBack w := hslots.frame _ _ fun _ => hphase
    have hpages' : PagesOk env s.rolledBack.file := hpages
    refine ⟨hpages'.checkpoint checkpoint, w, body ++ [.rollback], ?_, ?_⟩
    · exact hlog'.checkpoint (.inl ⟨hphase, rfl⟩) checkpoint
    · exact checkpoint_slots hlog' hslots' hsaved checkpoint
  | resetLog =>
    have hlog' := hlog.resetLog hstep
    have hslots' := resetLog_slots hslots hstep
    obtain ⟨-, rfl⟩ := resetLog_eq_some hstep
    exact ⟨hpages, _, _, hlog', hslots'⟩
  | close =>
    have hlog' := hlog.close hstep
    obtain ⟨s₁, hupdate, rfl⟩ := close_eq_some hstep
    -- `~DBImpl` opens a transaction that is never ended, and saves the meta.
    have hlog₁ := hlog.update hupdate
    obtain ⟨hphase, hsaved, -, rfl⟩ := update_eq_some hupdate
    have hslots₁ := save_slots env hlog₁ (hslots.frame _ _ fun _ => hphase) hsaved
    exact ⟨hpages.save, w, _, hlog', hslots₁.frame _ _ fun hage => absurd hage save_age⟩
  | reopen => exact opened_inv hpages (reopen_eq_some hstep)
  | crash records checkpoint => exact opened_inv hpages hstep

theorem run_inv {events : List WalEvent} (h : Inv E env s) (hrun : s.run E env events = some s') :
    Inv E env s' := by
  induction events generalizing s with
  | nil =>
    cases hrun
    exact h
  | cons e events ih =>
    unfold run at hrun
    cases hstep : s.step E env e with
    | none =>
      rw [hstep] at hrun
      cases hrun
    | some s₁ =>
      rw [hstep] at hrun
      exact ih (step_inv h hstep) hrun

end Runs

/-! ## The records that survive -/

/-- The id in the first record of the log. -/
def logTxid (s : WalDb C) : Nat :=
  match s.log with
  | .walTxId w :: _ => w
  | _ => 0

/-- The entries among the first `records` records of the log, without one that is cut off. -/
def survived (s : WalDb C) (records : Nat) : List (Journal.Entry Op) :=
  (s.kept records).filterMap fun
    | .entry e => some e
    | _ => none

section Survived

variable {E} {s : WalDb C} {w : Nat} {body : List (Journal.Entry Op)}

theorem LogShape.logTxid_eq (h : LogShape s w body) : s.logTxid = w := by
  unfold logTxid
  rw [h.log]

/-- What a crash leaves of the log. -/
theorem LogShape.kept (h : LogShape s w body) (n : Nat) : s.kept n = [] ∧ s.survived n = [] ∨
    ∃ m cut, s.kept n = .walTxId w :: ((body.take m).map .entry ++ cut) ∧
      s.survived n = body.take m ∧ (cut = [] ∨ cut = [.cut] ∧ ∃ o, body[m]? = some (.op o)) := by
  have hcut : Command.cut ∉ s.log := by
    rw [h.log]
    simp
  obtain ⟨m, cut, hkept, htail⟩ := Command.parse_take hcut n
  have hkept : s.kept n = s.log.take m ++ cut := hkept
  unfold survived
  rw [h.log] at hkept htail
  -- Nothing survives, or the record with the transaction id does, which is written first.
  cases m with
  | zero =>
    left
    have hnil : cut = [] := by
      rcases htail with rfl | ⟨-, o, ho⟩
      · rfl
      · cases ho
    rw [hkept, hnil]
    exact ⟨rfl, rfl⟩
  | succ m =>
    right
    have hkept' : s.kept n = .walTxId w :: ((body.take m).map .entry ++ cut) := by
      rw [hkept, List.map_take]
      rfl
    refine ⟨m, cut, hkept', ?_, ?_⟩
    · have hentries : ∀ es : List (Journal.Entry Op), (es.map Command.entry).filterMap (fun
          | .entry e => some e
          | _ => none) = es := by
        intro es
        induction es with
        | nil => rfl
        | cons e es ih => exact congrArg (e :: ·) ih
      rw [hkept', List.filterMap_cons, List.filterMap_append, hentries]
      rcases htail with rfl | ⟨rfl, -⟩
      · exact List.append_nil _
      · exact List.append_nil _
    -- A record that is cut off is that of a call: the records of a transaction are one byte each.
    · rcases htail with htail | ⟨htail, o, ho⟩
      · exact .inl htail
      · refine .inr ⟨htail, o, ?_⟩
        rw [List.getElem?_cons_succ, List.getElem?_map] at ho
        obtain ⟨e, he, heq⟩ := Option.map_eq_some_iff.1 ho
        cases heq
        exact he

/-- Outside of the end of `~Logger` the entries of the log are in order. -/
theorem LogShape.orderly (h : LogShape s w body) (hphase : s.phase ≠ .closed) :
    ∃ b, Journal.status false body = some b := by
  have hp := h.phase
  cases hs : s.phase with
  | «open» =>
    rw [hs] at hp
    exact ⟨_, hp.1⟩
  | closing =>
    rw [hs] at hp
    obtain ⟨-, hp⟩ := hp
    cases hsaved : s.saved with
    | true =>
      rw [hsaved] at hp
      exact ⟨true, hp⟩
    | false =>
      rw [hsaved] at hp
      obtain rfl : body = [] := hp
      exact ⟨false, rfl⟩
  | closed => exact absurd hs hphase

/-- In front of a call a transaction is open. -/
theorem status_take_of_op {b : Bool} {o : Op} {m : Nat} (h : Journal.status false body = some b)
    (ho : body[m]? = some (.op o)) : Journal.status false (body.take m) = some true := by
  have hsplit : body = body.take m ++ .op o :: body.drop (m + 1) := by
    obtain ⟨hm, heq⟩ := List.getElem?_eq_some_iff.1 ho
    rw [← heq, ← List.drop_eq_getElem_cons hm, List.take_append_drop]
  rw [hsplit, Journal.status_append] at h
  cases hs : Journal.status false (body.take m) with
  | none =>
    rw [hs] at h
    cases h
  | some c =>
    rw [hs] at h
    cases c with
    | true => rfl
    | false => cases h

end Survived

/-! ## When the log is accepted -/

/-- The log is older than the meta page that `Load` prefers, or none of the calls in it throws and
the `Commit` of `~Logger` is not in it. -/
def Readable (s : WalDb C) (records : Nat) : Prop :=
  s.logTxid < s.storedTxid ∨
    Logger.Accepted E ⟨s.stored, none⟩ (s.survived records) ∧
    (s.phase = .closed → s.survived records = [])

/-- What the replay makes of the meta page. -/
def replayOf (s : WalDb C) (records : Nat) : Journal.View C :=
  if s.logTxid < s.storedTxid then ⟨s.stored, none⟩ else Journal.follow E.apply ⟨s.stored, none⟩
    (s.survived records)

section Recover

variable {E} {s : WalDb C} {w : Nat} {body : List (Journal.Entry Op)}

/-- The replay of what a crash leaves. -/
theorem recover_kept (h : LogShape s w body) (n : Nat) :
    (s.Readable E n → ∃ r, Logger.recoverLoop E ⟨s.storedTxid, ⟨s.stored, none⟩, false⟩ (s.kept n) =
      .ok r ∧ r.view = s.replayOf E n) ∧
    (¬ s.Readable E n → ∃ e, Logger.recoverLoop E ⟨s.storedTxid, ⟨s.stored, none⟩, false⟩
      (s.kept n) = .error e) := by
  unfold Readable replayOf
  rw [h.logTxid_eq]
  rcases h.kept n with ⟨hkept, hsurvived⟩ | ⟨m, cut, hkept, hsurvived, hcut⟩
  · rw [hkept, hsurvived]
    refine ⟨fun _ => ⟨_, rfl, ?_⟩, fun hnot => absurd (.inr ⟨trivial, fun _ => rfl⟩) hnot⟩
    split_ifs <;> rfl
  rw [hkept, hsurvived]
  by_cases hskip : w < s.storedTxid
  · rw [if_pos hskip]
    exact ⟨fun _ => ⟨_, Logger.recoverLoop_skipped hskip _, rfl⟩,
      fun hnot => absurd (.inl hskip) hnot⟩
  rw [if_neg hskip, Logger.recoverLoop_read (Nat.not_lt.1 hskip)]
  by_cases hclosed : s.phase = .closed
  · -- all there can be is the `Commit` of `~Logger`
    have hp := h.phase
    rw [hclosed] at hp
    have hbody : body.take m = [] ∨ body.take m = [.commit] := by
      rcases hp.2 with rfl | ⟨rfl, -⟩
      · cases m with
        | zero => exact .inl rfl
        | succ m => exact .inr (by simp)
      · exact .inl List.take_nil
    have hnil : cut = [] := by
      rcases hcut with hcut | ⟨-, o, ho⟩
      · exact hcut
      · rcases hp.2 with rfl | ⟨rfl, -⟩
        · cases m <;> simp at ho
        · cases ho
    rcases hbody with hbody | hbody
    · rw [hbody, hnil]
      exact ⟨fun _ => ⟨_, rfl, rfl⟩, fun hnot => absurd (.inr ⟨trivial, fun _ => rfl⟩) hnot⟩
    · rw [hbody, hnil]
      refine ⟨fun hread => ?_, fun _ => ⟨_, rfl⟩⟩
      rcases hread with hread | ⟨-, hread⟩
      · exact absurd hread hskip
      · exact absurd (hread hclosed) (List.cons_ne_nil _ _)
  · obtain ⟨b, hb⟩ := h.orderly hclosed
    obtain ⟨c, hc⟩ :=
      Option.isSome_iff_exists.1 (Journal.status_prefix (List.take_prefix m body) (by rw [hb]; rfl))
    by_cases hacc : Logger.Accepted E ⟨s.stored, none⟩ (body.take m)
    · refine ⟨fun _ => ?_, fun hnot => absurd (.inr ⟨hacc, fun hs => absurd hs hclosed⟩) hnot⟩
      rw [Logger.recoverLoop_entries (r := ⟨s.storedTxid, ⟨s.stored, none⟩, true⟩) rfl hc hacc]
      rcases hcut with rfl | ⟨rfl, o, ho⟩
      · exact ⟨_, rfl, rfl⟩
      · refine ⟨_, Logger.recoverLoop_cut rfl ?_, rfl⟩
        exact Journal.working_follow (status_take_of_op hb ho)
    · refine ⟨fun hread => ?_, fun _ =>
        Logger.recoverLoop_throws (r := ⟨s.storedTxid, ⟨s.stored, none⟩, true⟩) rfl hc hacc cut⟩
      rcases hread with hread | ⟨hread, -⟩
      · exact absurd hread hskip
      · exact absurd hread hacc

/-- What `DB::Open` makes of what a crash leaves. -/
theorem openWith_kept (h : Journaled env s) (n : Nat) (checkpoint : Bool) :
    (s.Readable E n → ∃ s', s.openWith E env (s.kept n) checkpoint = .ok s' ∧
      s'.shared = (s.replayOf E n).committed) ∧
    (¬ s.Readable E n → ∃ e, s.openWith E env (s.kept n) checkpoint = .error e) := by
  obtain ⟨w, body, hlog⟩ := h.log
  have hspec := openWith_spec (E := E) h.pages (s.kept n) checkpoint
  obtain ⟨hyes, hno⟩ := recover_kept hlog n
  constructor
  · intro hread
    obtain ⟨r, hloop, hview⟩ := hyes hread
    rw [hloop] at hspec
    obtain ⟨s', hopen, -, hshared, -⟩ := hspec
    exact ⟨s', hopen, hview ▸ hshared⟩
  · intro hread
    obtain ⟨e, hloop⟩ := hno hread
    rw [hloop] at hspec
    exact ⟨e, hspec⟩

end Recover

section Example

def sumEnv : MetaEnv := ⟨256, fun _ _ _ info => info.txid⟩

/-- A new database with the page size 256. -/
def newDb : WalDb (List (Bytes × Bytes × Bool)) :=
  created (userEngine smallEnv) sumEnv
    ⟨⟨0, 0, 0, Meta.initInfo 0, 0⟩, ⟨0, 0, 0, Meta.initInfo 0, 0⟩, ⟨0, 0, 0, Meta.initInfo 0, 0⟩, 0⟩

/-- One transaction with one Put. -/
def onePut (key value : Bytes) : List WalEvent :=
  [.update, .call (.put key value false), .commit false]

/-- The state after a run. -/
def after (events : List WalEvent) : WalDb (List (Bytes × Bytes × Bool)) :=
  (newDb.run (userEngine smallEnv) sumEnv events).getD newDb

end Example

/-! ## What is recovered -/

/-- The contents after the commits that survive, or of the checkpoint that has just been saved. -/
def expected (s : WalDb C) (records : Nat) : C :=
  if s.saved then s.shared
    else (Journal.follow E.apply ⟨s.start, none⟩ (s.survived records)).committed

/-- The preferred meta page is the one that the log goes on from; or it is the empty one of `Init`,
and starting there comes to the same. -/
def Anchored (s : WalDb C) (records : Nat) : Prop :=
  s.age = .settled ∨ s.expected E records =
    if s.logTxid = 2 then (Journal.follow E.apply ⟨E.empty, none⟩ (s.survived records)).committed
      else E.empty

section Expected

variable {E} {s : WalDb C} {w : Nat} {body : List (Journal.Entry Op)}

theorem LogShape.survived_prefix (h : LogShape s w body) (n : Nat) : s.survived n <+: body := by
  rcases h.kept n with ⟨-, hsurvived⟩ | ⟨m, -, -, hsurvived, -⟩
  · rw [hsurvived]
    exact List.nil_prefix
  · rw [hsurvived]
    exact List.take_prefix m body

/-- Before the meta pages are settled, `Load` finds the empty meta page of `Init`. -/
theorem SlotsOk.young (h : SlotsOk E s w) (hage : s.age ≠ .settled) :
    s.storedTxid = 2 ∧ s.stored = E.empty ∧ w ≤ 2 := by
  have hinit : InitFirst E s → s.file.second.info.txid ≤ 2 →
      s.storedTxid = 2 ∧ s.stored = E.empty := by
    rintro ⟨htxid, hcontents⟩ hle
    have hnewer : s.newer = 0 := by
      unfold newer
      rw [htxid, if_neg (Nat.not_lt.2 hle)]
    unfold storedTxid stored
    rw [hnewer]
    exact ⟨htxid, hcontents⟩
  unfold SlotsOk at h
  cases ha : s.age with
  | created =>
    rw [ha] at h
    obtain ⟨-, hfirst, hsecond, -, -, rfl, -⟩ := h
    obtain ⟨h1, h2⟩ := hinit hfirst (by omega)
    exact ⟨h1, h2, by omega⟩
  | once t =>
    rw [ha] at h
    obtain ⟨-, hfirst, rfl, hle, -, hlog⟩ := h
    obtain ⟨h1, h2⟩ := hinit hfirst hle
    refine ⟨h1, h2, ?_⟩
    split_ifs at hlog
    · omega
    · omega
  | settled => exact absurd ha hage

/-- The meta page is the one that the log goes on from, if the log was not begun by a recovery. -/
theorem replayOf_eq_expected (hlog : LogOk E s w body) (hslots : Settled s w)
    (hwhole : s.replayed = false) (n : Nat) : (s.replayOf E n).committed = s.expected E n := by
  obtain ⟨⟨-, -, hsame⟩, hsaved⟩ := hslots
  unfold replayOf expected
  rw [hlog.logTxid_eq]
  cases hs : s.saved with
  | false =>
    rw [hs] at hsaved
    obtain ⟨hle, hstored⟩ := hsaved
    rw [if_neg (Nat.not_lt.2 hle), hstored hwhole]
    rfl
  | true =>
    rw [hs] at hsaved
    have heq : s.storedTxid = s.file.shared.info.txid := hsaved
    by_cases hskip : w < s.storedTxid
    · rw [if_pos hskip]
      exact hsame heq
    · -- the log holds no commit
      have hzero : Journal.commits body = 0 := by
        have := hlog.txid
        omega
      have hprefix := Journal.commits_prefix_le (hlog.toLogShape.survived_prefix n)
      have hnone : Journal.Entry.commit ∉ s.survived n :=
        Journal.not_mem_of_commits_eq_zero (by omega)
      rw [if_neg hskip, Journal.committed_follow E.apply hnone]
      exact hsame heq

end Expected

/-- **Recovery equivalence.** Opening after a crash yields the contents that the surviving commits
produced exactly if the log is accepted and the meta page that is loaded is the one that the log
goes on from. -/
theorem run_replays_commits_iff {f : MetaFile} {events : List WalEvent} {s : WalDb C}
    (hrun : (created E env f).run E env events = some s) (hwhole : s.replayed = false)
    (records : Nat) (checkpoint : Bool) :
    (∃ s', s.openWith E env (s.kept records) checkpoint = .ok s' ∧
      s'.shared = s.expected E records) ↔ s.Readable E records ∧ s.Anchored E records := by
  have hinv : Inv E env s := run_inv (created_inv f) hrun
  obtain ⟨hyes, hno⟩ := openWith_kept hinv.journaled records checkpoint
  obtain ⟨w, body, hlog, hslots⟩ := hinv.log
  -- once the meta pages are settled, the replay starts from the version that the log was begun on
  have hreplay : (s.replayOf E records).committed = s.expected E records ↔
      s.Anchored E records := by
    unfold Anchored
    by_cases hage : s.age = .settled
    · unfold SlotsOk at hslots
      rw [hage] at hslots
      exact ⟨fun _ => .inl hage, fun _ => replayOf_eq_expected hlog hslots hwhole records⟩
    -- the meta page that the replay starts from is the one of `Init`, with the id 2
    · obtain ⟨htxid, hstored, hle⟩ := hslots.young hage
      have heq : (s.replayOf E records).committed = if s.logTxid = 2
          then (Journal.follow E.apply ⟨E.empty, none⟩ (s.survived records)).committed
            else E.empty := by
        unfold replayOf
        rw [hlog.logTxid_eq, htxid, hstored]
        by_cases htwo : w = 2
        · rw [if_pos htwo, if_neg (by omega)]
        · rw [if_neg htwo, if_pos (by omega)]
      rw [heq]
      exact ⟨fun h => .inr h.symm, fun h => h.elim (absurd · hage) Eq.symm⟩
  constructor
  · rintro ⟨s', hopen, hshared⟩
    by_cases hread : s.Readable E records
    · obtain ⟨s'', hopen', hshared'⟩ := hyes hread
      rw [hopen] at hopen'
      cases hopen'
      exact ⟨hread, hreplay.1 (hshared'.symm.trans hshared)⟩
    · obtain ⟨e, he⟩ := hno hread
      rw [hopen] at he
      cases he
  · rintro ⟨hread, hanchored⟩
    obtain ⟨s', hopen, hshared⟩ := hyes hread
    exact ⟨s', hopen, hshared.trans (hreplay.2 hanchored)⟩

section Example

/-- The commit survives. -/
theorem run_replays_commits_iff_onePut :
    ∃ s', (after (.crash 0 false :: onePut [1] [2])).openWith (userEngine smallEnv) sumEnv
        ((after (.crash 0 false :: onePut [1] [2])).kept 6) false = .ok s' ∧
      s'.shared = (after (.crash 0 false :: onePut [1] [2])).expected (userEngine smallEnv) 6 :=
  (run_replays_commits_iff (userEngine smallEnv) (f := _)
    (show newDb.run (userEngine smallEnv) sumEnv (.crash 0 false :: onePut [1] [2]) =
      some (after _) from rfl)
    rfl 6 false).2
    ⟨.inr ⟨⟨trivial, fun _ _ => rfl, trivial, trivial⟩, nofun⟩, .inl rfl⟩

/-- **A commit that is not replayed**: in the session of `Init` the id in the log is older than
the meta page. -/
theorem commit_not_replayed : ∃ s, newDb.run (userEngine smallEnv) sumEnv (onePut [1] [2]) =
    some s ∧ s.replayed = false ∧
    ¬ ∃ s', s.openWith (userEngine smallEnv) sumEnv (s.kept 6) false = .ok s' ∧
      s'.shared = s.expected (userEngine smallEnv) 6 := by
  refine ⟨_, rfl, rfl, ?_⟩
  rintro ⟨s', h, hshared⟩
  cases h
  exact absurd hshared (by decide)

end Example

end WalDb

end AtomKV
