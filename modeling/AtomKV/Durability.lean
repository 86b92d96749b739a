import AtomKV.Meta

/-!
# Durability of the meta

Sessions on a database in the mode `kUpdateInPlace`: `Meta::Init`, then commits and crashes in
any order, each crash followed by `Meta::Load`. A crash inside of `Meta::Save` leaves a meta page
with a wrong checksum. What a `Load` selects is the meta of the last commit that was completed,
with one exception: `Init` leaves the transaction id 2 in the first meta page and 1 in memory, so
the first commit of that session gets the id 2 as well and loses the comparison with the page
that `Init` wrote.
-/

set_option autoImplicit false

namespace AtomKV

/-- A meta page that was being written at a crash. -/
structure TornMeta (env : MetaEnv) where
  page : MetaStruct
  formatted : Meta.Formatted env page
  incomplete : ¬ page.Complete env

/-- Where a crash strikes: between two writes of a meta page, or inside of the one that a commit
with `info` makes. Closing the database is a crash of the first kind. -/
inductive CrashPoint (env : MetaEnv) where
  | idle
  | saving (info : MetaInfo) (torn : TornMeta env)

inductive SessionEvent (env : MetaEnv) where
  | commit (info : MetaInfo)
  | crash (c : CrashPoint env)

/-- How far the database is from `Meta::Init`. -/
inductive Age where
  /-- No commit yet, in the session of `Init`. -/
  | created
  /-- One commit, and still the session of `Init`. -/
  | first
  /-- The session of `Init` ended after one commit, and there was no commit since. -/
  | closed
  | settled
  deriving DecidableEq, Repr

/-- The database, with the meta of the last completed commit. -/
structure Session where
  file : MetaFile
  last : MetaInfo
  age : Age

namespace Age

def commit : Age → Age
  | created => first
  | first => settled
  | closed => settled
  | settled => settled

def crash {env : MetaEnv} (c : CrashPoint env) : Age → Age
  | created => settled
  | first => match c with
    | .idle => closed
    | .saving _ _ => settled
  | closed => closed
  | settled => settled

end Age

/-- The meta of a transaction: `TxManager::Update` raises the id, the operations change the rest. -/
def txInfo (f : MetaFile) (info : MetaInfo) : MetaInfo :=
  { info with txid := f.shared.info.txid + 1 }

/-- What `TxManager::Commit` does to the meta. -/
def Meta.commit (env : MetaEnv) (info : MetaInfo) (f : MetaFile) : MetaFile :=
  Meta.save env (Meta.switch (Meta.reset (txInfo f info) f))

namespace CrashPoint

variable {env : MetaEnv}

/-- The meta pages after the crash. -/
def strike (f : MetaFile) : CrashPoint env → MetaFile
  | idle => f
  | saving info torn =>
      let f := Meta.switch (Meta.reset (txInfo f info) f)
      if f.curMetaIndex = 0 then { f with first := torn.page } else { f with second := torn.page }

/-- The meta that was being saved. -/
def pending (f : MetaFile) : CrashPoint env → Option MetaInfo
  | idle => none
  | saving info _ => some (txInfo f info)

end CrashPoint

namespace Session

variable {env : MetaEnv}

/-- A new database. -/
def create (env : MetaEnv) (f : MetaFile) : Session := ⟨Meta.init env f, Meta.initInfo 2, .created⟩

def step (s : Session) : SessionEvent env → Except Err Session
  | .commit info => .ok ⟨Meta.commit env info s.file, txInfo s.file info, s.age.commit⟩
  | .crash c => (Meta.load env (c.strike s.file)).map fun f => ⟨f, s.last, s.age.crash c⟩

def run (s : Session) : List (SessionEvent env) → Except Err Session
  | [] => .ok s
  | e :: es => match s.step e with
    | .ok s' => s'.run es
    | .error err => .error err

/-- After the crash `Load` selects the meta of the last commit, or the one that was being saved. -/
def Recovers (s : Session) (c : CrashPoint env) : Prop :=
  ∃ f, Meta.load env (c.strike s.file) = .ok f ∧
    (f.shared.info = s.last ∨ c.pending s.file = some f.shared.info)

/-- The crash does not lose the first commit. -/
def Survives (s : Session) (c : CrashPoint env) : Prop :=
  match s.age, c with
  | .first, .idle => s.last = Meta.initInfo 2
  | .closed, _ => s.last = Meta.initInfo 2
  | _, _ => True

/-! ## The invariant -/

/-- Meta page `i` holds `info`, and `Load` prefers it. -/
def Prefers (env : MetaEnv) (f : MetaFile) (i : Nat) (info : MetaInfo) : Prop :=
  i = 0 ∧ f.first.Complete env ∧ f.first.info = info ∧
      (f.second.info.txid < info.txid ∨ ¬ f.second.Complete env) ∨
    i = 1 ∧ f.second.Complete env ∧ f.second.info = info ∧
      (f.first.info.txid < info.txid ∨ ¬ f.first.Complete env)

/-- The first meta page is the one that `Init` wrote. -/
def FirstIsInit (env : MetaEnv) (f : MetaFile) : Prop :=
  f.first.Complete env ∧ f.first.info = Meta.initInfo 2

structure Inv (env : MetaEnv) (s : Session) : Prop where
  first : Meta.Formatted env s.file.first
  second : Meta.Formatted env s.file.second
  shared : Meta.Formatted env s.file.shared
  aged : match s.age with
    | .created => s.file.curMetaIndex = 0 ∧ FirstIsInit env s.file ∧
        s.file.second.info = Meta.initInfo 1 ∧ s.file.shared.info = Meta.initInfo 1 ∧
        s.last = Meta.initInfo 2
    | .first => s.file.curMetaIndex = 1 ∧ FirstIsInit env s.file ∧ s.file.second.Complete env ∧
        s.file.second.info = s.last ∧ s.file.shared.info = s.last ∧ s.last.txid = 2
    | .closed => s.file.curMetaIndex = 0 ∧ FirstIsInit env s.file ∧
        s.file.shared.info = Meta.initInfo 2 ∧
        (s.file.second.info.txid ≤ 2 ∨ ¬ s.file.second.Complete env) ∧ s.last.txid = 2
    | .settled => s.file.shared.info = s.last ∧ Prefers env s.file s.file.curMetaIndex s.last

theorem create_inv (f : MetaFile) : Inv env (create env f) := by
  refine ⟨⟨rfl, rfl, rfl⟩, ⟨rfl, rfl, rfl⟩, ⟨rfl, rfl, rfl⟩, rfl, ⟨rfl, rfl⟩, rfl, rfl, rfl⟩

/-! ## Commits -/

/-- The meta that a commit saves. -/
def saved (env : MetaEnv) (f : MetaFile) (info : MetaInfo) : MetaStruct :=
  let m := { f.shared with info := txInfo f info }
  { m with crc32 := m.checksum env }

theorem commit_of_zero {f : MetaFile} (info : MetaInfo) (h : f.curMetaIndex = 0) :
    Meta.commit env info f = ⟨f.first, saved env f info, saved env f info, 1⟩ := by
  unfold Meta.commit Meta.save Meta.switch Meta.reset
  simp only [h, if_true, Nat.one_ne_zero, if_false]
  rfl

theorem commit_of_one {f : MetaFile} (info : MetaInfo) (h : f.curMetaIndex = 1) :
    Meta.commit env info f = ⟨saved env f info, f.second, saved env f info, 0⟩ := by
  unfold Meta.commit Meta.save Meta.switch Meta.reset
  simp only [h, if_true, Nat.one_ne_zero, if_false]
  rfl

theorem complete_saved (f : MetaFile) (info : MetaInfo) : (saved env f info).Complete env := rfl

theorem formatted_saved {f : MetaFile} (info : MetaInfo) (h : Meta.Formatted env f.shared) :
    Meta.Formatted env (saved env f info) := ⟨h.sign, h.pageSize, h.minVersion⟩

/-- A commit writes the meta page that is not in use, and its meta is the newest. -/
theorem commit_inv {s : Session} (h : Inv env s) (info : MetaInfo) :
    Inv env ⟨Meta.commit env info s.file, txInfo s.file info, s.age.commit⟩ := by
  obtain ⟨file, last, age⟩ := s
  obtain ⟨h1, h2, h3, haged⟩ := h
  have hnew := formatted_saved info h3
  -- By what has happened to the meta pages so far, which says which of the two is written next.
  cases age with
  | created =>
    obtain ⟨hcur, hfirst, -, hshared, -⟩ := haged
    rw [commit_of_zero info hcur]
    refine ⟨h1, hnew, hnew, rfl, hfirst, rfl, rfl, rfl, ?_⟩
    -- The new page has the same id as the one that `Init` left, so neither is newer.
    show file.shared.info.txid + 1 = 2
    rw [hshared]
    rfl
  | first =>
    obtain ⟨hcur, -, -, hsecond, hshared, hlast⟩ := haged
    rw [commit_of_one info hcur]
    refine ⟨hnew, h2, hnew, rfl, .inl ⟨rfl, rfl, rfl, .inl ?_⟩⟩
    show file.second.info.txid < file.shared.info.txid + 1
    rw [hsecond, hshared]
    omega
  | closed =>
    obtain ⟨hcur, ⟨-, hinit⟩, hshared, -, -⟩ := haged
    rw [commit_of_zero info hcur]
    refine ⟨h1, hnew, hnew, rfl, .inr ⟨rfl, rfl, rfl, .inl ?_⟩⟩
    show file.first.info.txid < file.shared.info.txid + 1
    rw [hinit, hshared]
    omega
  | settled =>
    obtain ⟨hshared, hprefers⟩ := haged
    rcases hprefers with ⟨hcur, -, hinfo, -⟩ | ⟨hcur, -, hinfo, -⟩
    · rw [commit_of_zero info hcur]
      refine ⟨h1, hnew, hnew, rfl, .inr ⟨rfl, rfl, rfl, .inl ?_⟩⟩
      show file.first.info.txid < file.shared.info.txid + 1
      rw [hinfo, hshared]
      omega
    · rw [commit_of_one info hcur]
      refine ⟨hnew, h2, hnew, rfl, .inl ⟨rfl, rfl, rfl, .inl ?_⟩⟩
      show file.second.info.txid < file.shared.info.txid + 1
      rw [hinfo, hshared]
      omega

/-! ## Crashes -/

theorem strike_of_zero {f : MetaFile} (info : MetaInfo) (torn : TornMeta env)
    (h : f.curMetaIndex = 0) :
    ∃ shared cur, (CrashPoint.saving info torn).strike f = ⟨f.first, torn.page, shared, cur⟩ := by
  refine ⟨{ f.shared with info := txInfo f info }, 1, ?_⟩
  unfold CrashPoint.strike Meta.switch Meta.reset
  simp only [h, if_true, Nat.one_ne_zero, if_false]

theorem strike_of_one {f : MetaFile} (info : MetaInfo) (torn : TornMeta env)
    (h : f.curMetaIndex = 1) :
    ∃ shared cur, (CrashPoint.saving info torn).strike f = ⟨torn.page, f.second, shared, cur⟩ := by
  refine ⟨{ f.shared with info := txInfo f info }, 0, ?_⟩
  unfold CrashPoint.strike Meta.switch Meta.reset
  simp only [h, if_true, Nat.one_ne_zero, if_false]

/-- `Load` takes the preferred meta page. -/
theorem load_of_prefers {f : MetaFile} {i : Nat} {info : MetaInfo} (h1 : Meta.Formatted env f.first)
    (h2 : Meta.Formatted env f.second) (h : Prefers env f i info) :
    ∃ f', Meta.load env f = .ok f' ∧ f'.first = f.first ∧ f'.second = f.second ∧
      Meta.Formatted env f'.shared ∧ f'.shared.info = info ∧ f'.curMetaIndex = i := by
  rcases h with ⟨rfl, hc, hinfo, hother⟩ | ⟨rfl, hc, hinfo, hother⟩
  · refine ⟨_, Meta.load_first h1 hc ?_, rfl, rfl, h1, hinfo, rfl⟩
    rw [hinfo]
    exact hother.imp_left Nat.le_of_lt
  · refine ⟨_, Meta.load_second h2 hc h1 ?_, rfl, rfl, h2, hinfo, rfl⟩
    rw [hinfo]
    exact hother

/-- A crash inside of `Save` spoils the meta page that is not in use. -/
theorem Prefers.strike {f : MetaFile} {info : MetaInfo} (h1 : Meta.Formatted env f.first)
    (h2 : Meta.Formatted env f.second) (h : Prefers env f f.curMetaIndex info)
    (c : CrashPoint env) :
    Meta.Formatted env (c.strike f).first ∧ Meta.Formatted env (c.strike f).second ∧
      Prefers env (c.strike f) f.curMetaIndex info := by
  cases c with
  | idle => exact ⟨h1, h2, h⟩
  | saving new torn =>
    rcases h with ⟨hcur, hc, hinfo, -⟩ | ⟨hcur, hc, hinfo, -⟩
    · obtain ⟨shared, cur, hstrike⟩ := strike_of_zero new torn hcur
      rw [hstrike]
      exact ⟨h1, torn.formatted, .inl ⟨hcur, hc, hinfo, .inr torn.incomplete⟩⟩
    · obtain ⟨shared, cur, hstrike⟩ := strike_of_one new torn hcur
      rw [hstrike]
      exact ⟨torn.formatted, h2, .inr ⟨hcur, hc, hinfo, .inr torn.incomplete⟩⟩

/-- The meta that `Load` selects after the crash. -/
def selected (s : Session) (c : CrashPoint env) : MetaInfo :=
  match s.age, c with
  | .first, .idle => Meta.initInfo 2
  | .closed, _ => Meta.initInfo 2
  | _, _ => s.last

theorem crash_inv {s : Session} (h : Inv env s) (c : CrashPoint env) :
    ∃ f, Meta.load env (c.strike s.file) = .ok f ∧ f.shared.info = s.selected c ∧
      Inv env ⟨f, s.last, s.age.crash c⟩ := by
  obtain ⟨file, last, age⟩ := s
  obtain ⟨h1, h2, h3, haged⟩ := h
  cases age with
  | created =>
    obtain ⟨hcur, ⟨hc, hinit⟩, hsecond, -, rfl⟩ := haged
    have hprefers : Prefers env file file.curMetaIndex (Meta.initInfo 2) :=
      .inl ⟨hcur, hc, hinit, .inl (by rw [hsecond]; decide)⟩
    obtain ⟨k1, k2, k3⟩ := hprefers.strike h1 h2 c
    obtain ⟨f, hload, e1, e2, hf, hinfo, hi⟩ := load_of_prefers k1 k2 k3
    refine ⟨f, hload, hinfo, e1 ▸ k1, e2 ▸ k2, hf, hinfo, ?_⟩
    unfold Prefers at k3 ⊢
    rw [e1, e2, hi]
    exact k3
  | first =>
    obtain ⟨hcur, ⟨hc, hinit⟩, hc', hsecond, -, hlast⟩ := haged
    have htwo : file.first.info.txid = 2 := by rw [hinit]; rfl
    cases c with
    | idle =>
      -- the ids are equal, and the first page wins
      refine ⟨_, Meta.load_first h1 hc (.inl ?_), hinit, h1, h2, h1, rfl, ⟨hc, hinit⟩,
        hinit, .inl ?_, hlast⟩
      · show file.second.info.txid ≤ file.first.info.txid
        rw [hsecond, htwo]
        exact Nat.le_of_eq hlast
      · show file.second.info.txid ≤ 2
        rw [hsecond]
        exact Nat.le_of_eq hlast
    | saving new torn =>
      obtain ⟨shared, cur, hstrike⟩ := strike_of_one new torn hcur
      rw [hstrike]
      refine ⟨_, Meta.load_second h2 hc' torn.formatted (.inr torn.incomplete), hsecond,
        torn.formatted, h2, h2, hsecond, .inr ⟨rfl, hc', hsecond, .inr torn.incomplete⟩⟩
  | closed =>
    obtain ⟨hcur, ⟨hc, hinit⟩, -, hother, hlast⟩ := haged
    have htwo : file.first.info.txid = 2 := by rw [hinit]; rfl
    cases c with
    | idle =>
      refine ⟨_, Meta.load_first h1 hc ?_, hinit, h1, h2, h1, rfl, ⟨hc, hinit⟩,
        hinit, hother, hlast⟩
      show file.second.info.txid ≤ file.first.info.txid ∨ _
      rw [htwo]
      exact hother
    | saving new torn =>
      obtain ⟨shared, cur, hstrike⟩ := strike_of_zero new torn hcur
      rw [hstrike]
      exact ⟨_, Meta.load_first h1 hc (.inr torn.incomplete), hinit, h1, torn.formatted, h1, rfl,
        ⟨hc, hinit⟩, hinit, .inr torn.incomplete, hlast⟩
  | settled =>
    obtain ⟨-, hprefers⟩ := haged
    obtain ⟨k1, k2, k3⟩ := hprefers.strike h1 h2 c
    obtain ⟨f, hload, e1, e2, hf, hinfo, hi⟩ := load_of_prefers k1 k2 k3
    refine ⟨f, hload, hinfo, e1 ▸ k1, e2 ▸ k2, hf, hinfo, ?_⟩
    unfold Prefers at k3 ⊢
    rw [e1, e2, hi]
    exact k3

theorem step_inv {s : Session} (h : Inv env s) (e : SessionEvent env) :
    ∃ s', s.step e = .ok s' ∧ Inv env s' := by
  cases e with
  | commit info => exact ⟨_, rfl, commit_inv h info⟩
  | crash c =>
    obtain ⟨f, hload, -, hinv⟩ := crash_inv h c
    refine ⟨_, ?_, hinv⟩
    show (Meta.load env (c.strike s.file)).map _ = _
    rw [hload]
    rfl

theorem run_inv {s : Session} (h : Inv env s) (es : List (SessionEvent env)) :
    ∃ s', s.run es = .ok s' ∧ Inv env s' := by
  induction es generalizing s with
  | nil => exact ⟨s, rfl, h⟩
  | cons e es ih =>
    obtain ⟨s₁, hstep, h₁⟩ := step_inv h e
    obtain ⟨s₂, hrun, h₂⟩ := ih h₁
    refine ⟨s₂, ?_, h₂⟩
    unfold run
    rw [hstep]
    exact hrun

/-- Whether the last commit is found depends on the age of the database alone. -/
theorem recovers_iff {s : Session} (h : Inv env s) (c : CrashPoint env) :
    s.Recovers c ↔ s.Survives c := by
  obtain ⟨f, hload, hinfo, -⟩ := crash_inv h c
  have hrec : s.Recovers c ↔ s.selected c = s.last ∨ c.pending s.file = some (s.selected c) := by
    unfold Recovers
    rw [hload, ← hinfo]
    constructor
    · rintro ⟨f', hf, hor⟩
      obtain rfl := Except.ok.inj hf
      exact hor
    · exact fun hor => ⟨f, rfl, hor⟩
  obtain ⟨file, last, age⟩ := s
  rw [hrec]
  cases age with
  | created => exact ⟨fun _ => trivial, fun _ => .inl rfl⟩
  | first =>
    cases c with
    | idle =>
      refine ⟨fun hor => ?_, fun hlast => .inl hlast.symm⟩
      rcases hor with hor | hor
      · exact hor.symm
      · cases hor
    | saving new torn => exact ⟨fun _ => trivial, fun _ => .inl rfl⟩
  | closed =>
    refine ⟨fun hor => ?_, fun hlast => .inl (Eq.symm hlast)⟩
    rcases hor with hor | hor
    · exact hor.symm
    · -- what is being saved has a larger id than the page of `Init`
      cases c with
      | idle => cases hor
      | saving new torn =>
        have hshared : file.shared.info = Meta.initInfo 2 := h.aged.2.2.1
        have htxid := congrArg MetaInfo.txid (Option.some.inj hor)
        change file.shared.info.txid + 1 = 2 at htxid
        rw [hshared] at htxid
        cases htxid
  | settled => exact ⟨fun _ => trivial, fun _ => .inl rfl⟩

/-- **Durability.** In every run of commits and crashes from `Meta::Init`, a crash loses the last
commit exactly when it is the first one of the session of `Init`. -/
theorem run_recovers_iff (f : MetaFile) (es : List (SessionEvent env)) :
    ∃ s, (create env f).run es = .ok s ∧ ∀ c : CrashPoint env, s.Recovers c ↔ s.Survives c := by
  obtain ⟨s, hrun, hinv⟩ := run_inv (create_inv f) es
  exact ⟨s, hrun, fun c => recovers_iff hinv c⟩

/-- **The first commit is lost** when the database is closed after it. -/
theorem first_commit_lost :
    ∃ (env : MetaEnv) (f : MetaFile) (es : List (SessionEvent env)) (s : Session)
    (c : CrashPoint env), (create env f).run es = .ok s ∧ ¬ s.Recovers c := by
  let env : MetaEnv := ⟨4096, fun _ _ _ info => info.txid⟩
  let blank : MetaStruct := ⟨0, 0, 0, Meta.initInfo 0, 0⟩
  let f : MetaFile := ⟨blank, blank, blank, 0⟩
  refine ⟨env, f, [.commit { Meta.initInfo 0 with pageCount := 3, userRoot := 2 }],
    _, .idle, rfl, ?_⟩
  rintro ⟨g, hload, hlast | hpending⟩
  · obtain rfl := Except.ok.inj hload
    exact absurd hlast (by decide)
  · cases hpending

end Session

end AtomKV
