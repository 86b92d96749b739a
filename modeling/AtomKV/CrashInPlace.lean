import AtomKV.Crash
import AtomKV.Durability

/-!
# Crashes in the mode kUpdateInPlace

There is no log: a commit syncs the pages, and then saves the meta in the page that is not in use.
The process may be killed between two events or while a commit writes its meta page, any number of
times. Whatever the files hold then, `DB::Open` finds the last commit that was completed, and the
database goes on as a store with it.
-/

set_option autoImplicit false

namespace AtomKV

/-! ## The meta pages -/

/-- `Load` would find the meta that is in memory. -/
structure MetaFile.Chosen (env : MetaEnv) (f : MetaFile) : Prop where
  first : Meta.Formatted env f.first
  second : Meta.Formatted env f.second
  shared : Meta.Formatted env f.shared
  chosen : f.curMetaIndex = 0 ∧ f.first.Complete env ∧ f.first.info = f.shared.info ∧
      (f.second.info.txid ≤ f.first.info.txid ∨ ¬ f.second.Complete env) ∨
    f.curMetaIndex = 1 ∧ f.second.Complete env ∧ f.second.info = f.shared.info ∧
      (f.first.info.txid < f.second.info.txid ∨ ¬ f.first.Complete env)

namespace MetaFile

variable {env : MetaEnv} {f f' : MetaFile}

/-- Two damaged meta pages. -/
theorem not_load (h1 : ¬ f.first.Complete env) (h2 : ¬ f.second.Complete env) :
    Meta.load env f ≠ .ok f' := by
  intro hload
  unfold Meta.load at hload
  split at hload
  · cases hload
  · split at hload
    · cases hload
    · by_cases hlt : f.first.info.txid < f.second.info.txid <;> simp [hlt, h1, h2] at hload

/-- What `Load` has found. -/
theorem chosen_of_load (h1 : Meta.Formatted env f.first) (h2 : Meta.Formatted env f.second)
    (hload : Meta.load env f = .ok f') : f'.Chosen env := by
  by_cases hfirst : f.first.Complete env ∧
    (f.second.info.txid ≤ f.first.info.txid ∨ ¬ f.second.Complete env)
  · rw [Meta.load_first h1 hfirst.1 hfirst.2] at hload
    obtain rfl := Except.ok.inj hload
    exact ⟨h1, h2, h1, .inl ⟨rfl, hfirst.1, rfl, hfirst.2⟩⟩
  · by_cases hc : f.second.Complete env
    · have hother : f.first.info.txid < f.second.info.txid ∨ ¬ f.first.Complete env := by
        by_contra hnot
        obtain ⟨hle, hc1⟩ := not_or.1 hnot
        exact hfirst ⟨not_not.1 hc1, .inl (Nat.not_lt.1 hle)⟩
      rw [Meta.load_second h2 hc h1 hother] at hload
      obtain rfl := Except.ok.inj hload
      exact ⟨h1, h2, h2, .inr ⟨rfl, hc, rfl, hother⟩⟩
    · exact absurd hload (not_load (fun hc1 => hfirst ⟨hc1, .inr hc⟩) hc)

/-- A commit writes the other page, with a larger transaction id. -/
theorem Chosen.commit (h : f.Chosen env) (info : MetaInfo) :
    (Meta.commit env info f).Chosen env := by
  have hnew := Session.formatted_saved info h.shared
  have htxid : (Session.saved env f info).info.txid = f.shared.info.txid + 1 := rfl
  rcases h.chosen with ⟨hcur, -, hinfo, -⟩ | ⟨hcur, -, hinfo, -⟩
  · rw [Session.commit_of_zero info hcur]
    refine ⟨h.first, hnew, hnew, .inr ⟨rfl, Session.complete_saved f info, rfl, .inl ?_⟩⟩
    rw [htxid, hinfo]
    exact Nat.lt_succ_self _
  · rw [Session.commit_of_one info hcur]
    refine ⟨hnew, h.second, hnew, .inl ⟨rfl, Session.complete_saved f info, rfl, .inl ?_⟩⟩
    rw [htxid, hinfo]
    exact Nat.le_succ _

/-- A crash spoils no more than the other page. -/
theorem Chosen.crash (h : f.Chosen env) (c : CrashPoint env) :
    ∃ f', Meta.load env (c.strike f) = .ok f' ∧ f'.shared.info = f.shared.info ∧ f'.Chosen env := by
  obtain ⟨h1, h2, -, hchosen⟩ := h
  cases c with
  | idle =>
    rcases hchosen with ⟨-, hc, hinfo, hother⟩ | ⟨-, hc, hinfo, hother⟩
    · have hload := Meta.load_first h1 hc hother
      exact ⟨_, hload, hinfo, chosen_of_load h1 h2 hload⟩
    · have hload := Meta.load_second h2 hc h1 hother
      exact ⟨_, hload, hinfo, chosen_of_load h1 h2 hload⟩
  | saving info torn =>
    rcases hchosen with ⟨hcur, hc, hinfo, -⟩ | ⟨hcur, hc, hinfo, -⟩
    · obtain ⟨shared, cur, hstrike⟩ := Session.strike_of_zero info torn hcur
      rw [hstrike]
      have hload := Meta.load_first (f := ⟨f.first, torn.page, shared, cur⟩) h1
        hc (.inr torn.incomplete)
      exact ⟨_, hload, hinfo,
        chosen_of_load (f := ⟨f.first, torn.page, shared, cur⟩) h1 torn.formatted hload⟩
    · obtain ⟨shared, cur, hstrike⟩ := Session.strike_of_one info torn hcur
      rw [hstrike]
      have hload := Meta.load_second (f := ⟨torn.page, f.second, shared, cur⟩) h2 hc torn.formatted
        (.inr torn.incomplete)
      exact ⟨_, hload, hinfo,
        chosen_of_load (f := ⟨torn.page, f.second, shared, cur⟩) torn.formatted h2 hload⟩

end MetaFile

/-! ## The machine with its file -/

/-- `DB::Open` on what a crash has left. -/
def Manager.reopen (env : ManagerEnv) (f : MetaFile) (disk : Nat → Page) : Option Manager :=
  match Meta.load env.metaEnv f with
  | .ok file => some (Manager.reopened file ⟨disk, [], [], []⟩)
  | .error _ => none

structure Synced where
  manager : Manager
  /-- The pages after each event since the database file was synced. -/
  versions : List (Nat → Page)

inductive CrashEvent (env : MetaEnv) where
  | call (e : ManagerEvent)
  /-- The process is killed, and the database is opened again with the pages `disk`. -/
  | crash (c : CrashPoint env) (disk : Nat → Page)

namespace Synced

/-- `DB::Open`, after the file was synced. -/
def opened (file : MetaFile) (disk : Nat → Page) : Synced :=
  ⟨Manager.reopened file ⟨disk, [], [], []⟩, [disk]⟩

/-- A commit syncs the pages and saves the meta. -/
def step (env : ManagerEnv) (s : Synced) : CrashEvent env.metaEnv → Option Synced
  | .call e => (s.manager.step env e).map fun t =>
      ⟨t, if t.file.curMetaIndex = s.manager.file.curMetaIndex then t.pager.pages :: s.versions
        else [t.pager.pages]⟩
  | .crash c disk => (Manager.reopen env (c.strike s.manager.file) disk).map fun t => ⟨t, [disk]⟩

/-- What the file may hold: each page of the committed version as it was at some time, and any bytes
in the others. -/
structure Leaves (env : ManagerEnv) (s : Synced) (versions : List (Nat → Page))
    (disk : Nat → Page) : Prop where
  held : ∀ p, (s.manager.image s.manager.shared).Holds env.pageSize p → ∃ v ∈ versions, disk p = v p
  other : ∀ p, ¬ (s.manager.image s.manager.shared).Holds env.pageSize p →
    ∃ bytes, disk p = .raw bytes

/-- The callees of an event return and find room. A commit that is killed while it writes its meta
page has synced the pages before. -/
def Supplied (env : ManagerEnv) (s : Synced) : CrashEvent env.metaEnv → Prop
  | .call e => s.manager.Supplied env e
  | .crash .idle disk => s.Leaves env s.versions disk
  | .crash (.saving info _) disk => s.manager.updateTx = some info ∧
      s.manager.Returns env (.commit false Faults.none) ∧
      ∃ t, s.manager.commit env false Faults.none = some t ∧
        s.Leaves env (t.pager.pages :: s.versions) disk

/-! ## What the clients rely on -/

/-- A crash drops the working copy and the views. -/
def storeStep {env : MetaEnv} (a : SnapshotStore) : CrashEvent env → Option SnapshotStore
  | .call e => a.step e
  | .crash _ _ => some (.opened a.committed)

def Permits {env : MetaEnv} (P : ℕ) (a : SnapshotStore) : CrashEvent env → Prop
  | .call e => a.Permits P e
  | .crash _ _ => True

/-- What the calls of the writer return. -/
def Answers (env : ManagerEnv) (s : Synced) (a : SnapshotStore) : CrashEvent env.metaEnv → Prop
  | .call e => s.manager.Answers env a e
  | .crash _ _ => True

/-! ## Both machines -/

/-- The clients may rely on `a`. -/
structure Serves (env : ManagerEnv) (s : Synced) (a : SnapshotStore) : Prop where
  serves : s.manager.Serves env a
  persisted : s.manager.persistedTxid = kTxInvalidId
  metas : s.manager.file.Chosen env.metaEnv
  versions : ∀ v ∈ s.versions, ∀ p, (s.manager.image s.manager.shared).Holds env.pageSize p →
    v p = (s.manager.image s.manager.shared).pages p
  ge : 2 ≤ s.manager.shared.pageCount
  positive : 0 < s.manager.shared.txid

variable {env : ManagerEnv} {s s' : Synced} {a : SnapshotStore} {t : Manager} {e : ManagerEvent}

/-- In this mode a commit is a commit of the meta, and no other event touches the meta pages. -/
theorem file_step (hmode : env.mode = .kUpdateInPlace) (hpair : kPagePairSize ≤ env.pageSize)
    (hsound : s.manager.Sound) (hret : s.manager.Returns env e)
    (hstep : s.manager.step env e = some t) :
    t.file = s.manager.file ∧ t.shared = s.manager.shared ∨
      t.file = Meta.commit env.metaEnv t.shared s.manager.file ∧
      t.shared = txInfo s.manager.file t.shared := by
  obtain ⟨-, hfile | ⟨⟨checkpointNeeded, faults, rfl⟩, -, -⟩⟩ :=
    Manager.file_step hmode hpair hsound hret hstep
  · exact .inl ⟨hfile, congrArg (fun f => f.shared.info) hfile⟩
  · obtain ⟨info, file, u, htx, -, heq, hshared, hfile⟩ :=
      Manager.commit_eq_some hpair hsound hret hstep
    obtain ⟨-, rfl⟩ := hfile.resolve_right fun hnot => hnot.1 (.inl hmode)
    have hinfo : t.shared = info := by
      rw [heq]
      exact hshared
    have htx' : txInfo s.manager.file info = info := by
      unfold txInfo
      rw [show s.manager.file.shared.info.txid + 1 =
        info.txid from (hsound.working info htx).txid.symm]
    rw [hinfo]
    refine .inr ⟨?_, htx'.symm⟩
    unfold Meta.commit
    rw [htx', heq]
    rfl

/-- An event of the manager. -/
theorem Serves.call (ok : env.reader.Ok) (hmode : env.mode = .kUpdateInPlace) (h : s.Serves env a)
    (hsupplied : s.manager.Supplied env e) (hclient : a.Permits env.pageSize e)
    (hstep : s.manager.step env e = some t) : (∃ a', a.step e = some a' ∧
      Synced.Serves env ⟨t, if t.file.curMetaIndex = s.manager.file.curMetaIndex then
      t.pager.pages :: s.versions else [t.pager.pages]⟩ a') ∧ s.manager.Answers env a e := by
  have hmin : 256 ≤ env.pageSize := ok.pageSize.min
  have hpair : kPagePairSize ≤ env.pageSize := Nat.le_trans (by decide) hmin
  have hsound := h.serves.isolating.sound
  obtain ⟨hret, hroom⟩ := hsupplied
  obtain ⟨⟨a', ha', hserves⟩, hanswers⟩ := h.serves.step ok hret hroom hclient
    (fun _ info huse => (h.serves.isolating.retains info huse).mustCopy hsound h.persisted) hstep
  obtain ⟨htxid, hsame, hgrown⟩ := Manager.shared_step hpair hsound hret hstep
  have hpersisted := (Manager.file_step hmode hpair hsound hret hstep).1
  have hpages := (hserves.isolating.retains t.shared (.inr rfl)).kept.pages
  refine ⟨⟨a', ha', hserves, hpersisted.trans h.persisted, ?_, ?_, Nat.le_trans h.ge hgrown,
    Nat.lt_of_lt_of_le h.positive (htxid ▸ Nat.le_add_right _ _)⟩, hanswers⟩
  · rcases file_step hmode hpair hsound hret hstep with ⟨hfile, -⟩ | ⟨hfile, -⟩
    · exact hfile ▸ h.metas
    · exact hfile ▸ h.metas.commit t.shared
  · intro v hv p hp
    have hv : v ∈ if t.file.curMetaIndex = s.manager.file.curMetaIndex
      then t.pager.pages :: s.versions else [t.pager.pages] := hv
    rcases file_step hmode hpair hsound hret hstep with ⟨hfile, hshared⟩ | ⟨hfile, hshared⟩
    · rw [hfile, if_pos rfl] at hv
      rcases List.mem_cons.1 hv with rfl | hv
      · exact hpages p hp
      · have himage :=
          Manager.image_step hpair hsound hret (Nat.le_refl s.manager.shared.txid) hstep
        have hp : (t.image t.shared).Holds env.pageSize p := hp
        show v p = (t.image t.shared).pages p
        rw [hshared, himage] at hp ⊢
        exact h.versions v hv p hp
    -- a commit takes the other slot, and its pages are the only ones since the sync
    · have hcur : t.file.curMetaIndex ≠ s.manager.file.curMetaIndex := by
        rw [hfile]
        exact Manager.curMetaIndex_save_switch env.metaEnv (Meta.reset _ s.manager.file)
      rw [if_neg hcur] at hv
      obtain rfl := List.mem_singleton.1 hv
      exact hpages p hp

/-- The files after a crash have the committed version. -/
theorem Serves.left {versions : List (Nat → Page)} {disk : Nat → Page}
    (hleaves : s.Leaves env versions disk)
    (hversions : ∀ v ∈ versions, ∀ p, (s.manager.image s.manager.shared).Holds env.pageSize p →
      v p = (s.manager.image s.manager.shared).pages p) :
    (s.manager.image s.manager.shared).Left env disk := by
  refine ⟨fun p hp => ?_, hleaves.other⟩
  obtain ⟨v, hv, hdisk⟩ := hleaves.held p hp
  exact hdisk.trans (hversions v hv p hp)

/-- The pages are those of the committed version, also when the commit that was killed has
synced its own. -/
theorem Serves.crash_left (ok : env.reader.Ok) (h : s.Serves env a)
    {c : CrashPoint env.metaEnv} {disk : Nat → Page} (hsupplied : s.Supplied env (.crash c disk)) :
    (s.manager.image s.manager.shared).Left env disk := by
  have hmin : 256 ≤ env.pageSize := ok.pageSize.min
  have hpair : kPagePairSize ≤ env.pageSize := Nat.le_trans (by decide) hmin
  have hpos : 0 < env.pageSize := Nat.lt_of_lt_of_le (by decide) hmin
  have hsound := h.serves.isolating.sound
  cases c with
  | idle => exact left hsupplied h.versions
  | saving info torn =>
    obtain ⟨-, hret, t, ht, hleaves⟩ := hsupplied
    have hstep : s.manager.step env (.commit false Faults.none) = some t := ht
    have hretains := (h.serves.isolating.retains s.manager.shared (.inr rfl)).step hpair hpos hsound
      hret (fun he => by cases he) hstep
    have himage := Manager.image_step hpair hsound hret (Nat.le_refl s.manager.shared.txid) hstep
    refine left hleaves fun v hv p hp => ?_
    rcases List.mem_cons.1 hv with rfl | hv
    · rw [← himage] at hp ⊢
      exact hretains.kept.pages p hp
    · exact h.versions v hv p hp

/-- **A crash.** The last commit that was completed is found again. -/
theorem Serves.crash (h : s.Serves env a) {c : CrashPoint env.metaEnv} {disk : Nat → Page}
    (hleft : (s.manager.image s.manager.shared).Left env disk) :
    ∃ s', s.step env (.crash c disk) = some s' ∧ s'.Serves env (.opened a.committed) := by
  obtain ⟨file, hload, hinfo, hmetas⟩ := h.metas.crash c
  have hinfo : file.shared.info = s.manager.shared := hinfo
  have hopens := h.serves.opens h.ge h.positive
  have hbegins := hopens.begins hleft hinfo
  have hstep : s.step env (.crash c disk) =
      some ⟨Manager.reopened file ⟨disk, [], [], []⟩, [disk]⟩ := by
    show (Manager.reopen env (c.strike s.manager.file) disk).map _ = _
    unfold Manager.reopen
    rw [hload]
    rfl
  refine ⟨_, hstep, hbegins.serves, rfl, hmetas, ?_, ?_, ?_⟩
  · intro v hv p _
    obtain rfl := List.mem_singleton.1 hv
    rfl
  · show 2 ≤ file.shared.info.pageCount
    rw [hinfo]
    exact h.ge
  · show 0 < file.shared.info.txid
    rw [hinfo]
    exact h.positive

/-- Both machines take the event. -/
theorem Serves.step (ok : env.reader.Ok) (hmode : env.mode = .kUpdateInPlace) (h : s.Serves env a)
    {e : CrashEvent env.metaEnv} (hsupplied : s.Supplied env e) (hclient : Permits env.pageSize a e)
    (hstep : s.step env e = some s') :
    (∃ a', storeStep a e = some a' ∧ s'.Serves env a') ∧ s.Answers env a e := by
  cases e with
  | call e =>
    obtain ⟨t, ht, rfl⟩ := Option.map_eq_some_iff.1 hstep
    exact h.call ok hmode hsupplied hclient ht
  | crash c disk =>
    obtain ⟨s₁, hs₁, hserves⟩ := h.crash (h.crash_left ok hsupplied)
    obtain rfl := Option.some.inj (hs₁.symm.trans hstep)
    exact ⟨⟨_, rfl, hserves⟩, trivial⟩

/-! ## Runs -/

/-- A database that `DB::Open` has found. -/
theorem opened_serves {V : Image} {f file : MetaFile} {disk : Nat → Page} {m : Dictionary}
    (hfirst : Meta.Formatted env.metaEnv f.first) (hsecond : Meta.Formatted env.metaEnv f.second)
    (hload : Meta.load env.metaEnv f = .ok file) (hopens : V.Opens env m) (hleft : V.Left env disk)
    (hfile : file.shared.info = V.info) : (opened file disk).Serves env (.opened m) where
  serves := (hopens.begins hleft hfile).serves
  persisted := rfl
  metas := MetaFile.chosen_of_load hfirst hsecond hload
  versions := by
    intro v hv p _
    obtain rfl := List.mem_singleton.1 hv
    rfl
  ge := by
    show 2 ≤ file.shared.info.pageCount
    exact hfile ▸ hopens.ge
  positive := by
    show 0 < file.shared.info.txid
    exact hfile ▸ hopens.positive

/-- **Durability.** A database in the mode kUpdateInPlace is killed and opened again any number of
times. It is a store with snapshots through the whole run: a crash drops the views and the working
copy and nothing else. At any time `DB::Open` would find the last commit that was completed,
whatever a crash makes of the file. -/
theorem crashes_agree {V : Image} {f file : MetaFile} {disk₀ : Nat → Page} {m : Dictionary}
    {es : List (CrashEvent env.metaEnv)} (ok : env.reader.Ok) (hmode : env.mode = .kUpdateInPlace)
    (hfirst : Meta.Formatted env.metaEnv f.first) (hsecond : Meta.Formatted env.metaEnv f.second)
    (hload : Meta.load env.metaEnv f = .ok file) (hopens : V.Opens env m) (hleft : V.Left env disk₀)
    (hfile : file.shared.info = V.info)
    (halong : Steps.Along (Synced.step env) (Supplied env) (opened file disk₀) es)
    (hclient : Steps.Along storeStep (Permits env.pageSize) (.opened m) es)
    (hrun : Steps.run (Synced.step env) (opened file disk₀) es = some s) :
    (∃ a, Steps.run storeStep (.opened m) es = some a ∧ s.manager.Agrees env a ∧
      ∀ c disk, s.Supplied env (.crash c disk) → ∃ s', s.step env (.crash c disk) = some s' ∧
        s'.manager.Agrees env (.opened a.committed)) ∧
      ∀ (k : ℕ) e, es[k]? = some e →
        ∃ t b, Steps.run (Synced.step env) (opened file disk₀) (es.take k) = some t ∧
        Steps.run storeStep (.opened m) (es.take k) = some b ∧ t.manager.Agrees env b ∧
        t.Answers env b e := by
  -- a step keeps the simulation and answers as the store does
  have hstep : ∀ s a e s', Serves env s a → Supplied env s e → Permits env.pageSize a e →
      Synced.step env s e = some s' → (∃ a', storeStep a e = some a' ∧ Serves env s' a') ∧
        s.Answers env a e :=
    fun s a e s' h hsupplied hpermits hs' => h.step ok hmode hsupplied hpermits hs'
  have hstart := opened_serves hfirst hsecond hload hopens hleft hfile
  constructor
  · obtain ⟨a, ha, hserves⟩ :=
      Steps.simulates (fun s a e s' h hc hp hs' => (hstep s a e s' h hc hp hs').1) hstart halong
      hclient hrun
    refine ⟨a, ha, hserves.serves.agrees, fun c disk hsupplied => ?_⟩
    obtain ⟨s', hs', hserves'⟩ := hserves.crash (hserves.crash_left ok hsupplied)
    exact ⟨s', hs', hserves'.serves.agrees⟩
  · intro k e he
    obtain ⟨t, b, ht, hb, hserves, hanswers⟩ :=
      Steps.simulates_each (Q := fun s a e => s.Answers env a e)
      (fun s a e s' h hc hp hs' => (hstep s a e s' h hc hp hs').1)
      (fun s a e s' h hc hp hs' => (hstep s a e s' h hc hp hs').2) hstart halong hclient hrun k he
    exact ⟨t, b, ht, hb, hserves.serves.agrees, hanswers⟩

/-! ## A crash before the first commit -/

/-- Where a crash strikes, there was no commit with a root. -/
def Blank (env : ManagerEnv) (s : Synced) : CrashEvent env.metaEnv → Prop
  | .call e => s.manager.Supplied env e
  | .crash .idle _ => s.manager.shared.userRoot = kPageInvalidId
  | .crash (.saving info _) _ => s.manager.shared.userRoot = kPageInvalidId ∧
      s.manager.updateTx = some info ∧ s.manager.Returns env (.commit false Faults.none) ∧
      (s.manager.commit env false Faults.none).isSome

instance (s : Synced) (e : CrashEvent env.metaEnv) : Decidable (s.Blank env e) :=
  match e with
  | .call e => inferInstanceAs (Decidable (s.manager.Supplied env e))
  | .crash .idle _ => inferInstanceAs (Decidable (_ = _))
  | .crash (.saving _ _) _ => inferInstanceAs (Decidable (_ ∧ _ ∧ _ ∧ _))

/-- Then any bytes may be left. -/
theorem Blank.supplied {e : CrashEvent env.metaEnv} (h : s.Blank env e)
    (hraw : ∀ c disk, e = .crash c disk → ∀ p, ∃ bytes, disk p = .raw bytes) :
      s.Supplied env e := by
  have hleaves : ∀ {versions disk}, s.manager.shared.userRoot = kPageInvalidId →
      (∀ p, ∃ bytes, disk p = .raw bytes) → s.Leaves env versions disk := fun hroot hdisk =>
    ⟨fun p hp => absurd hp (Manager.not_holds hroot), fun p _ => hdisk p⟩
  cases e with
  | call e => exact h
  | crash c disk =>
    have hdisk := hraw c disk rfl
    cases c with
    | idle => exact hleaves h hdisk
    | saving info torn =>
      obtain ⟨hroot, htx, hret, hsome⟩ := h
      obtain ⟨t, ht⟩ := Option.isSome_iff_exists.1 hsome
      exact ⟨htx, hret, t, ht, hleaves hroot hdisk⟩

end Synced

instance (P : ℕ) (env : MetaEnv) (a : SnapshotStore) (e : CrashEvent env) :
    Decidable (Synced.Permits P a e) :=
  match e with
  | .call e => inferInstanceAs (Decidable (a.Permits P e))
  | .crash _ _ => inferInstanceAs (Decidable True)

/-- The first half of a meta page: the checksum is not there yet. -/
def halfMeta : TornMeta (Manager.smallManager .kUpdateInPlace).metaEnv where
  page := ⟨kSign, 256, kVersion, { Meta.initInfo 3 with pageCount := 3, userRoot := 2 }, 0⟩
  formatted := ⟨rfl, rfl, rfl⟩
  incomplete := by decide

/-- The first commit is killed, the second one is not. -/
def killedCommit : List (CrashEvent (Manager.smallManager .kUpdateInPlace).metaEnv) :=
  [.call .update, .call (.put [1] [2]),
    .crash (.saving { Meta.initInfo 3 with pageCount := 3, userRoot := 2 } halfMeta) fun _ =>
      .raw [9],
    .call .update, .call (.put [3] [4]), .call (.commit false Faults.none), .call .view,
    .call (.closeView 0), .call .update, .call (.put [3] [5])]

def emptySynced : Synced := .opened loadedFile fun _ => .raw []

theorem crashes_agree_killedCommit : ∃ s,
    Steps.run (Synced.step (Manager.smallManager .kUpdateInPlace)) emptySynced killedCommit =
      some s ∧ (∃ a, Steps.run Synced.storeStep (.opened fun _ => none) killedCommit = some a ∧
        s.manager.Agrees (Manager.smallManager .kUpdateInPlace) a ∧
        ∀ c disk, s.Supplied (Manager.smallManager .kUpdateInPlace) (.crash c disk) →
          ∃ s', s.step (Manager.smallManager .kUpdateInPlace) (.crash c disk) = some s' ∧
            s'.manager.Agrees (Manager.smallManager .kUpdateInPlace) (.opened a.committed)) ∧
      ∀ (k : ℕ) e, killedCommit[k]? = some e → ∃ t b,
        Steps.run (Synced.step (Manager.smallManager .kUpdateInPlace)) emptySynced
          (killedCommit.take k) = some t ∧
          Steps.run Synced.storeStep (.opened fun _ => none) (killedCommit.take k) = some b ∧
            t.manager.Agrees (Manager.smallManager .kUpdateInPlace) b ∧
              t.Answers (Manager.smallManager .kUpdateInPlace) b e := by
  have hsome : (Steps.run (Synced.step (Manager.smallManager .kUpdateInPlace)) emptySynced
      killedCommit).isSome := by
    decide +kernel
  obtain ⟨s, hs⟩ := Option.isSome_iff_exists.1 hsome
  have hopens : (⟨loadedFile.shared.info, fun _ => .raw []⟩ : Image).Opens
      (Manager.smallManager .kUpdateInPlace) fun _ => none :=
    Image.opens_empty (Manager.smallManager_ok _) rfl rfl (by decide) (by decide)
      (by decide) (by decide)
  have hleft : (⟨loadedFile.shared.info, fun _ => .raw []⟩ : Image).Left
      (Manager.smallManager .kUpdateInPlace) fun _ => .raw [] :=
    ⟨fun p hp => absurd hp (Manager.not_holds rfl), fun p _ => ⟨[], rfl⟩⟩
  have hblank : Steps.Along (Synced.step (Manager.smallManager .kUpdateInPlace))
      (Synced.Blank (Manager.smallManager .kUpdateInPlace)) emptySynced killedCommit := by
        decide +kernel
  have hraw : ∀ e ∈ killedCommit, ∀ c disk, e = .crash c disk →
      ∀ p, ∃ bytes, disk p = .raw bytes := by
    intro e he c disk hcrash p
    rw [hcrash] at he
    simp only [killedCommit, List.mem_cons, List.not_mem_nil, reduceCtorEq, CrashEvent.crash.injEq,
      false_or, or_false] at he
    exact ⟨[9], congrFun he.2 p⟩
  exact ⟨s, hs, Synced.crashes_agree (f := loadedFile) (Manager.smallManager_ok _) rfl
    ⟨rfl, rfl, rfl⟩ ⟨rfl, rfl, rfl⟩ rfl hopens hleft rfl
      (hblank.imp_of_mem fun s e he h => h.supplied (hraw e he)) (by decide +kernel) hs⟩

end AtomKV
