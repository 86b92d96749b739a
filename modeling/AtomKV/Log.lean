import AtomKV.Lib.Journal
import AtomKV.Format

/-!
# The write-ahead log

The records that `TxManager` and `Logger` append to the log, and `Logger::Recover`. What a
Put or Delete does to the contents of the user bucket is a parameter here, `Engine`; so is
which calls throw.
-/

set_option autoImplicit false

namespace AtomKV

/-- A call on the user bucket. -/
inductive Op where
  | put (key value : Bytes) (isBucket : Bool)
  | delete (key : Bytes)
  deriving DecidableEq, Repr

/-- What the calls do to the contents `C`, also when they throw, and which ones throw. -/
structure Engine (C : Type) where
  empty : C
  apply : Op → C → C
  throws : Op → C → Option Err

/-- A record of the log file. The header of a call is followed by one record for the key, and one
for the value of a Put. -/
inductive LogRecord where
  | walTxId (txid : Nat)
  | begin
  | rollback
  | commit
  | put (isBucket : Bool)
  | delete
  | data (bytes : Bytes)
  deriving DecidableEq, Repr

/-- What the records of one call amount to; `cut` is a call whose key or value is missing. -/
inductive Command where
  | walTxId (txid : Nat)
  | entry (e : Journal.Entry Op)
  | cut
  deriving DecidableEq, Repr

namespace Command

/-- The records that are appended for a command. -/
def encode : Command → List LogRecord
  | walTxId txid => [.walTxId txid]
  | entry .begin => [.begin]
  | entry .rollback => [.rollback]
  | entry .commit => [.commit]
  | entry (.op (.put key value isBucket)) => [.put isBucket, .data key, .data value]
  | entry (.op (.delete key)) => [.delete, .data key]
  | cut => []

/-- What `Reader::ReadRecord` delivers, call by call. -/
def parse : List LogRecord → List Command
  | [] => []
  | .walTxId txid :: rest => .walTxId txid :: parse rest
  | .begin :: rest => .entry .begin :: parse rest
  | .rollback :: rest => .entry .rollback :: parse rest
  | .commit :: rest => .entry .commit :: parse rest
  | .put isBucket :: .data key :: .data value :: rest =>
    .entry (.op (.put key value isBucket)) :: parse rest
  | .delete :: .data key :: rest => .entry (.op (.delete key)) :: parse rest
  | _ :: _ => [.cut]

end Command

/-! ## `Logger::Recover` -/

/-- The state of the loop in `Logger::Recover`. -/
structure Replay (C : Type) where
  txid : Nat
  view : Journal.View C
  init : Bool

namespace Logger

variable {C : Type} (E : Engine C)

def unrecoverable : Err := .runtimeError "unrecoverable logs."

/-- One pass of the loop; the flag is `end`. -/
def recoverStep (r : Replay C) : Command → Except Err (Replay C × Bool)
  | .walTxId txid =>
      if r.init then .error (.runtimeError "Unrecoverable logs.")
      else .ok ({ r with init := true }, decide (txid < r.txid))
  | .entry .begin =>
      if ¬ r.init then .error unrecoverable
      else if r.view.working.isSome then .error unrecoverable
      else .ok ({ r with view := ⟨r.view.committed, some r.view.committed⟩ }, false)
  | .entry .rollback =>
      if ¬ r.init then .error unrecoverable
      else if r.view.working.isNone then .error unrecoverable
      else .ok ({ r with view := ⟨r.view.committed, none⟩ }, false)
  | .entry .commit =>
      if ¬ r.init then .error unrecoverable
      else match r.view.working with
        | none => .error unrecoverable
        | some c => .ok ({ r with txid := r.txid + 1, view := ⟨c, none⟩ }, false)
  | .entry (.op o) =>
      if ¬ r.init then .error unrecoverable
      else match r.view.working with
        -- `TxManager::update_tx`
        | none => .error .assertion
        | some c => match E.throws o c with
            | some e => .error e
            | none => .ok ({ r with view := ⟨r.view.committed, some (E.apply o c)⟩ }, false)
  | .cut =>
      if ¬ r.init then .error unrecoverable
      else if r.view.working.isNone then .error .assertion
      else .ok (r, true)

def recoverLoop (r : Replay C) : List Command → Except Err (Replay C)
  | [] => .ok r
  | c :: rest => match recoverStep E r c with
    | .error e => .error e
    | .ok (r', true) => .ok r'
    | .ok (r', false) => recoverLoop r' rest

end Logger

/-! ## Replaying entries -/

namespace Logger

variable {C : Type} (E : Engine C)

/-- The entry is not a call that throws. -/
def Passes (v : Journal.View C) : Journal.Entry Op → Prop
  | .op o => ∀ c ∈ v.working, E.throws o c = none
  | _ => True

/-- None of the calls throws. -/
def Accepted : Journal.View C → List (Journal.Entry Op) → Prop
  | _, [] => True
  | v, e :: es => Passes E v e ∧ Accepted (Journal.step E.apply v e) es

variable {E}

/-- An entry that is in place and does not throw. -/
theorem recoverStep_entry {r : Replay C} {e : Journal.Entry Op} {b : Bool} (hinit : r.init = true)
    (hnext : Journal.next r.view.working.isSome e = some b) (hok : Passes E r.view e) :
    recoverStep E r (.entry e) =
      .ok (⟨r.txid + Journal.commits [e], Journal.step E.apply r.view e, true⟩, false) := by
  obtain ⟨txid, ⟨committed, working⟩, init⟩ := r
  obtain rfl : init = true := hinit
  cases e with
  | begin =>
    cases working with
    | none => rfl
    | some c => cases hnext
  | rollback =>
    cases working with
    | none => cases hnext
    | some c => rfl
  | commit =>
    cases working with
    | none => cases hnext
    | some c => rfl
  | op o =>
    cases working with
    | none => cases hnext
    | some c =>
      simp only [recoverStep, not_true_eq_false, if_false, show E.throws o c = none from hok c rfl]
      rfl

/-- **Replaying an orderly journal** whose calls are all accepted follows it. -/
theorem recoverLoop_entries {es : List (Journal.Entry Op)} {r : Replay C} {b : Bool}
    (hinit : r.init = true) (hstatus : Journal.status r.view.working.isSome es = some b)
    (hok : Accepted E r.view es) (rest : List Command) : recoverLoop E r (es.map .entry ++ rest) =
      recoverLoop E ⟨r.txid + Journal.commits es, Journal.follow E.apply r.view es, true⟩ rest := by
  induction es generalizing r with
  | nil =>
    obtain ⟨txid, view, init⟩ := r
    obtain rfl : init = true := hinit
    rfl
  | cons e es ih =>
    cases hnext : Journal.next r.view.working.isSome e with
    | none => simp [Journal.status, hnext] at hstatus
    | some b' =>
      have hstep := recoverStep_entry hinit hnext hok.1
      have hone : Journal.status r.view.working.isSome [e] = some b' := by
        simp [Journal.status, hnext]
      have hworking : (Journal.follow E.apply r.view [e]).working.isSome = b' :=
        Journal.working_follow hone
      have hrest : Journal.status (Journal.step E.apply r.view e).working.isSome es = some b := by
        rw [show Journal.step E.apply r.view e = Journal.follow E.apply r.view [e] from rfl,
          hworking]
        simpa [Journal.status, hnext] using hstatus
      have hcommits : Journal.commits (e :: es) = Journal.commits [e] + Journal.commits es :=
        Journal.commits_append [e] es
      rw [List.map_cons, List.cons_append, recoverLoop, hstep]
      refine (ih (r := ⟨r.txid + Journal.commits [e], Journal.step E.apply r.view e, true⟩)
        rfl hrest hok.2).trans ?_
      rw [hcommits, Nat.add_assoc]
      rfl

/-- A call that throws ends the recovery. -/
theorem recoverLoop_throws {es : List (Journal.Entry Op)} {r : Replay C} {b : Bool}
    (hinit : r.init = true) (hstatus : Journal.status r.view.working.isSome es = some b)
    (hbad : ¬ Accepted E r.view es) (rest : List Command) :
    ∃ err, recoverLoop E r (es.map .entry ++ rest) = .error err := by
  induction es generalizing r with
  | nil => exact absurd trivial hbad
  | cons e es ih =>
    cases hnext : Journal.next r.view.working.isSome e with
    | none => simp [Journal.status, hnext] at hstatus
    | some b' =>
      rw [List.map_cons, List.cons_append, recoverLoop]
      by_cases hok : Passes E r.view e
      · have hone : Journal.status r.view.working.isSome [e] = some b' := by
          simp [Journal.status, hnext]
        have hworking : (Journal.follow E.apply r.view [e]).working.isSome = b' :=
          Journal.working_follow hone
        rw [recoverStep_entry hinit hnext hok]
        refine ih (r := ⟨_, Journal.step E.apply r.view e, true⟩) rfl ?_ fun hacc =>
          hbad ⟨hok, hacc⟩
        rw [show Journal.step E.apply r.view e = Journal.follow E.apply r.view [e] from rfl,
          hworking]
        simpa [Journal.status, hnext] using hstatus
      · -- the first call throws
        obtain ⟨txid, ⟨committed, working⟩, init⟩ := r
        obtain rfl : init = true := hinit
        cases e with
        | op o =>
          cases working with
          | none => cases hnext
          | some c =>
            obtain ⟨err, herr⟩ := Option.ne_none_iff_exists'.1 fun hnone => hok fun d hd =>
              Option.some.inj hd ▸ hnone
            refine ⟨err, ?_⟩
            simp only [recoverStep, not_true_eq_false, if_false, herr]
        | _ => exact absurd trivial hok

/-- A call whose records are incomplete ends the loop. -/
theorem recoverLoop_cut {r : Replay C} (hinit : r.init = true)
    (hopen : r.view.working.isSome = true) : recoverLoop E r [.cut] = .ok r := by
  obtain ⟨txid, ⟨committed, working⟩, init⟩ := r
  obtain rfl : init = true := hinit
  cases working with
  | none => cases hopen
  | some c => rfl

/-- The meta is newer than the log. -/
theorem recoverLoop_skipped {txid w : Nat} {v : Journal.View C} (h : w < txid)
    (rest : List Command) :
    recoverLoop E ⟨txid, v, false⟩ (.walTxId w :: rest) = .ok ⟨txid, v, true⟩ := by
  simp [recoverLoop, recoverStep, h]

theorem recoverLoop_read {txid w : Nat} {v : Journal.View C} (h : txid ≤ w) (rest : List Command) :
    recoverLoop E ⟨txid, v, false⟩ (.walTxId w :: rest) = recoverLoop E ⟨txid, v, true⟩ rest := by
  simp [recoverLoop, recoverStep, Nat.not_lt.2 h]

/-- A pass of the loop either commits once or leaves what is committed. -/
theorem recoverStep_grows {r r' : Replay C} {c : Command} {stop : Bool}
    (h : recoverStep E r c = .ok (r', stop)) :
    r'.txid = r.txid + 1 ∨ r'.txid = r.txid ∧ r'.view.committed = r.view.committed := by
  obtain ⟨txid, ⟨committed, working⟩, init⟩ := r
  cases c with
  | walTxId w =>
    cases init <;> cases h
    exact .inr ⟨rfl, rfl⟩
  | cut =>
    cases init <;> cases working <;> cases h
    exact .inr ⟨rfl, rfl⟩
  | entry e =>
    cases e with
    | begin =>
      cases init <;> cases working <;> cases h
      exact .inr ⟨rfl, rfl⟩
    | rollback =>
      cases init <;> cases working <;> cases h
      exact .inr ⟨rfl, rfl⟩
    | commit =>
      cases init <;> cases working <;> cases h
      exact .inl rfl
    | op o =>
      cases init with
      | false => cases h
      | true =>
        cases working with
        | none => cases h
        | some c =>
          simp only [recoverStep, not_true_eq_false, if_false] at h
          cases hthrows : E.throws o c with
          | some err =>
            rw [hthrows] at h
            cases h
          | none =>
            rw [hthrows] at h
            cases h
            exact .inr ⟨rfl, rfl⟩

/-- A recovery that commits nothing leaves what is committed. -/
theorem recoverLoop_grows {cs : List Command} {r r' : Replay C} (h : recoverLoop E r cs = .ok r') :
    r.txid ≤ r'.txid ∧ (r'.txid = r.txid → r'.view.committed = r.view.committed) := by
  induction cs generalizing r with
  | nil =>
    cases h
    exact ⟨Nat.le_refl _, fun _ => rfl⟩
  | cons c cs ih =>
    unfold recoverLoop at h
    cases hstep : recoverStep E r c with
    | error e => simp [hstep] at h
    | ok p =>
      obtain ⟨r₁, stop⟩ := p
      have hgrows := recoverStep_grows hstep
      rw [hstep] at h
      cases stop with
      | true =>
        cases h
        rcases hgrows with hgrows | ⟨htxid, hview⟩
        · exact ⟨by omega, fun heq => by omega⟩
        · exact ⟨by omega, fun _ => hview⟩
      | false =>
        obtain ⟨hle, hsame⟩ := ih h
        rcases hgrows with hgrows | ⟨htxid, hview⟩
        · exact ⟨by omega, fun heq => by omega⟩
        · exact ⟨by omega, fun heq => (hsame (by omega)).trans hview⟩

end Logger

/-! ## Reading a prefix -/

namespace Command

theorem parse_append_encode (c : Command) (hc : c ≠ .cut) (rest : List LogRecord) :
    parse (c.encode ++ rest) = c :: parse rest := by
  cases c with
  | walTxId txid => rfl
  | cut => exact absurd rfl hc
  | entry e =>
    cases e with
    | begin => rfl
    | rollback => rfl
    | commit => rfl
    | op o => cases o <;> rfl

/-- The records of a list of commands. -/
def encodeAll (cs : List Command) : List LogRecord := cs.flatMap encode

/-- **Reading a prefix of the records** gives a prefix of the commands, and perhaps one that is cut
off. -/
theorem parse_take {cs : List Command} (h : .cut ∉ cs) (n : Nat) :
    ∃ m cut, parse ((encodeAll cs).take n) = cs.take m ++ cut ∧ (cut = [] ∨ cut = [.cut] ∧
      ∃ o, cs[m]? = some (.entry (.op o))) := by
  induction cs generalizing n with
  | nil => exact ⟨0, [], by simp [encodeAll, parse], .inl rfl⟩
  | cons c cs ih =>
    have hc : c ≠ .cut := fun heq => h (heq ▸ List.mem_cons_self)
    have hcs : .cut ∉ cs := fun hm => h (List.mem_cons_of_mem _ hm)
    have hall : encodeAll (c :: cs) = c.encode ++ encodeAll cs := rfl
    rw [hall, List.take_append]
    by_cases hlen : c.encode.length ≤ n
    · obtain ⟨m, cut, hm, hcut⟩ := ih hcs (n - c.encode.length)
      refine ⟨m + 1, cut, ?_, ?_⟩
      · rw [List.take_of_length_le hlen, parse_append_encode c hc, hm]
        rfl
      · simpa using hcut
    · -- the command is cut off somewhere
      have hzero : n - c.encode.length = 0 := by omega
      rw [hzero, List.take_zero, List.append_nil]
      cases n with
      | zero => exact ⟨0, [], by simp [parse], .inl rfl⟩
      | succ n =>
        cases c with
        | walTxId txid => simp [encode] at hlen
        | cut => exact absurd rfl hc
        | entry e =>
          cases e with
          | begin => simp [encode] at hlen
          | rollback => simp [encode] at hlen
          | commit => simp [encode] at hlen
          | op o =>
            refine ⟨0, [.cut], ?_, .inr ⟨rfl, o, rfl⟩⟩
            cases o with
            | put key value isBucket =>
              have h2 : n = 0 ∨ n = 1 := by
                simp [encode] at hlen
                omega
              rcases h2 with rfl | rfl <;> rfl
            | delete key =>
              have h1 : n = 0 := by
                simp [encode] at hlen
                omega
              subst h1
              rfl

end Command

end AtomKV
