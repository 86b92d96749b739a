import AtomKV.FreeList
import AtomKV.Meta

/-!
# Exclusive ownership of pages

The page allocator over whole runs: transactions allocate and free runs, commit (with or without
saving the free list), roll back, and the database may be opened again from any committed version.
No page is in two places: owned by a caller, free, or pending. A call of `FreeToMap` that steps back
from `begin()` goes on with `end()` here; `AtomKV.ExclusivePages` says in which runs no call does.
-/

set_option autoImplicit false

namespace AtomKV

/-- A version of the database, as the callers of the pager see it: its meta and the runs
that they own. -/
structure Version where
  info : MetaInfo
  owned : List PagePair
  deriving DecidableEq, Repr

structure Allocator where
  pager : Pager
  /-- The shared meta, and the runs owned when no transaction is open. -/
  current : Version
  /-- The open transaction with its copy of the meta. -/
  tx : Option Version
  /-- What the database can be opened with again. -/
  versions : List Version

inductive AllocatorEvent where
  /-- `TxManager::Update`, which releases the runs of the transactions before `releasableTxid`. -/
  | update (releasableTxid : Nat)
  | alloc (count : Nat)
  | free (run : PagePair)
  /-- `TxManager::Commit`; in the mode `kWal` it saves the free list only when it makes a
  checkpoint. -/
  | commit (saves : Bool)
  /-- `TxManager::RollBack`, which may make a checkpoint. -/
  | rollback (saves : Bool)
  | reopen (v : Version)

namespace Allocator

/-! ## The steps -/

/-- What the open transaction `t` works on. -/
def state (s : Allocator) (t : Version) : TxState := ⟨s.pager, t.info, t.info.userRoot⟩

/-- The transaction went on to `u`, and the callers own `owned`. -/
def working (s : Allocator) (u : TxState) (owned : List PagePair) : Allocator :=
  { s with pager := u.pager, tx := some ⟨u.metaStruct, owned⟩ }

def update (releasableTxid : Nat) (s : Allocator) : Option Allocator :=
  match s.tx with
  | some _ => none
  | none =>
      -- `Txid overflow.`
      if s.current.info.txid + 1 = kTxInvalidId then none
      else some { s with
        pager := s.pager.release releasableTxid
        tx := some
          { s.current with info := { s.current.info with txid := s.current.info.txid + 1 } } }

def alloc (count : Nat) (s : Allocator) : Option Allocator :=
  match s.tx with
  | none => none
  | some t =>
      if 0 < count ∧ count < 4294967296 then
        match Pager.alloc count (s.state t) with
        | (.ok pgid, u) => some (s.working u (t.owned ++ [(pgid, count)]))
        | (.error _, u) => some (s.working u t.owned)
      else none

def free (run : PagePair) (s : Allocator) : Option Allocator :=
  match s.tx with
  | none => none
  | some t =>
      if run ∈ t.owned then
        match Pager.free run.1 run.2 (s.state t) with
        | (.ok _, u) => some (s.working u (t.owned.erase run))
        | (.error _, _) => none
      else none

/-- `Pager::SaveFreeList`, if it is called. -/
def saving (P : Nat) (saves : Bool) : TxM Unit := if saves then Pager.saveFreeList P else pure ()

def commit (P : Nat) (saves : Bool) (s : Allocator) : Option Allocator :=
  match s.tx with
  | none => none
  | some t =>
      match saving P saves (s.state t) with
      | (.ok _, u) => some
          { pager := u.pager, current := t, tx := none, versions := s.versions ++ [t] }
      | (.error _, u) =>
          -- `Meta::Reset` has been called; `~UpdateTx` rolls back
          some { s with
            pager := u.pager.rollback t.info.txid, current := ⟨t.info, s.current.owned⟩,
              tx := none }

def rollback (P : Nat) (saves : Bool) (s : Allocator) : Option Allocator :=
  match s.tx with
  | none => none
  | some t =>
      match saving P saves (s.state t) with
      | (.ok _, u) => some { s with pager := u.pager.rollback t.info.txid, tx := none }
      -- `~UpdateTx` calls `RollBack` again
      | (.error _, _) => none

def reopen (P : Nat) (v : Version) (s : Allocator) : Option Allocator :=
  if v ∈ s.versions then some ⟨s.pager.opened P v.info, v, none, s.versions⟩ else none

def step (P : Nat) (s : Allocator) : AllocatorEvent → Option Allocator
  | .update releasableTxid => s.update releasableTxid
  | .alloc count => s.alloc count
  | .free run => s.free run
  | .commit saves => s.commit P saves
  | .rollback saves => s.rollback P saves
  | .reopen v => s.reopen P v

def run (P : Nat) (s : Allocator) : List AllocatorEvent → Option Allocator
  | [] => some s
  | e :: es => match s.step P e with
    | some s' => s'.run P es
    | none => none

/-- A new database. -/
def created : Allocator where
  pager := ⟨fun _ => .raw [], [], [], []⟩
  current := ⟨Meta.initInfo 1, []⟩
  tx := none
  versions := [⟨Meta.initInfo 2, []⟩]

/-! ## What holds -/

/-- The meta and the owned runs as the open transaction sees them, or the committed ones. -/
def view (s : Allocator) : Version := s.tx.getD s.current

/-- All runs that the allocator knows. -/
def runs (s : Allocator) : List PagePair :=
  s.view.owned ++ s.pager.freeMap ++ Pager.pendingRuns s.pager.pendingMap

/-- No two runs share a page, and all lie behind the meta pages and before the end of the file. -/
def Exclusive (s : Allocator) : Prop :=
  s.runs.Pairwise Pager.Apart ∧ ∀ r ∈ s.runs, 2 ≤ r.1 ∧ r.1 + r.2 ≤ s.view.info.pageCount

/-- Whatever the pager hands out now has no page in common with a run that is owned or pending. -/
def HandsOutFresh (s : Allocator) : Prop :=
  ∀ (t : Version) (count pgid : Nat) (u : TxState), s.tx = some t → 0 < count → count < 4294967296 →
    Pager.alloc count (s.state t) = (.ok pgid, u) →
    ∀ r ∈ t.owned ++ Pager.pendingRuns s.pager.pendingMap, Pager.Apart (pgid, count) r

end Allocator

/-! ## Lists of runs -/

/-- Runs that are non-empty, share no page and lie in `[2, bound)`. -/
structure RunsOk (rs : List PagePair) (bound : ℕ) : Prop where
  pos : ∀ r ∈ rs, 0 < r.2
  once : ∀ p, runsCount rs p ≤ 1
  range : ∀ p, 0 < runsCount rs p → 2 ≤ p ∧ p < bound

namespace RunsOk

variable {rs rs' : List PagePair} {bound bound' : ℕ}

theorem nil (bound : ℕ) : RunsOk [] bound := ⟨by simp, by simp, by simp⟩

theorem mem (h : RunsOk rs bound) {r : PagePair} (hr : r ∈ rs) : 2 ≤ r.1 ∧ r.1 + r.2 ≤ bound := by
  have hpos := h.pos r hr
  have hle := runCount_le_runsCount hr
  have hfirst : 0 < runCount r r.1 := (runCount_pos_iff _ _).2 (by omega)
  have hlast : 0 < runCount r (r.1 + r.2 - 1) := (runCount_pos_iff _ _).2 (by omega)
  have h1 := h.range r.1 (Nat.lt_of_lt_of_le hfirst (hle _))
  have h2 := h.range (r.1 + r.2 - 1) (Nat.lt_of_lt_of_le hlast (hle _))
  omega

/-- Fewer pages, or a longer file. -/
theorem of_le (h : RunsOk rs bound) (hpos : ∀ r ∈ rs', 0 < r.2)
    (hle : ∀ p, runsCount rs' p ≤ runsCount rs p) (hb : bound ≤ bound') : RunsOk rs' bound' where
  pos := hpos
  once := fun p => Nat.le_trans (hle p) (h.once p)
  range := fun p hp => by
    have := h.range p (Nat.lt_of_lt_of_le hp (hle p))
    omega

theorem pairwise (h : RunsOk rs bound) : rs.Pairwise Pager.Apart := by
  induction rs with
  | nil => exact List.Pairwise.nil
  | cons r rs ih =>
    refine List.pairwise_cons.2
      ⟨fun q hq => ?_, ih (h.of_le (fun q hq => h.pos q (List.mem_cons_of_mem _ hq))
      (fun p => by rw [runsCount_cons]; omega) (Nat.le_refl _))⟩
    refine Pager.apart_of_counts (fun p => ?_) (h.pos r List.mem_cons_self)
      (h.pos q (List.mem_cons_of_mem _ hq))
    have h1 := h.once p
    have h2 := runCount_le_runsCount hq p
    rw [runsCount_cons] at h1
    omega

/-- There are no more runs than pages behind the meta pages. -/
theorem length_le (h : RunsOk rs bound) : rs.length ≤ bound - 2 := by
  have hnodup : (rs.map Prod.fst).Nodup := by
    refine List.pairwise_map.2 ((List.Pairwise.and_mem.1 h.pairwise).imp ?_)
    rintro r q ⟨hr, hq, hapart⟩ heq
    have h1 := h.pos r hr
    have h2 := h.pos q hq
    unfold Pager.Apart at hapart
    omega
  have hsub : rs.map Prod.fst ⊆ List.range' 2 (bound - 2) := by
    intro a ha
    obtain ⟨r, hr, rfl⟩ := List.mem_map.1 ha
    have h1 := h.mem hr
    have h2 := h.pos r hr
    exact List.mem_range'_1.2 (by omega)
  have := (List.subperm_of_subset hnodup hsub).length_le
  simpa using this

/-- A run behind the last page. -/
theorem grow (h : RunsOk rs bound) (hb : 2 ≤ bound) {n : ℕ} (hn : 0 < n) :
    RunsOk ((bound, n) :: rs) (bound + n) where
  pos := List.forall_mem_cons.2 ⟨hn, h.pos⟩
  once := fun p => by
    have h1 := h.once p
    have h2 := h.range p
    rw [runsCount_cons, runCount_mk]
    split_ifs <;> omega
  range := fun p hp => by
    have h2 := h.range p
    rw [runsCount_cons, runCount_mk] at hp
    split_ifs at hp <;> omega

end RunsOk

theorem runsCount_erase {rs : List PagePair} {r : PagePair} (h : r ∈ rs) (p : ℕ) :
    runsCount rs p = runCount r p + runsCount (rs.erase r) p := by
  have hperm := (List.perm_cons_erase h).map fun q => runCount q p
  have hsum := hperm.sum_eq
  rw [List.map_cons, List.sum_cons] at hsum
  exact hsum

/-! ## The maps of the pager -/

namespace Pager

theorem runsCount_pendingRuns (m : List (Nat × List PagePair)) (p : ℕ) :
    runsCount (pendingRuns m) p = pendingCount m p := by
  induction m with
  | nil => rfl
  | cons e m ih =>
    rw [pendingCount_cons, ← ih]
    exact runsCount_append _ _ p

theorem mem_pendingRuns_addPending {m : List (Nat × List PagePair)} {txid : Nat} {r q : PagePair}
    (h : q ∈ pendingRuns (addPending txid r m)) : q = r ∨ q ∈ pendingRuns m := by
  induction m with
  | nil => exact .inl (by simpa [addPending, pendingRuns] using h)
  | cons e m ih =>
    obtain ⟨t, runs⟩ := e
    have hcons : ∀ (e : Nat × List PagePair) (m : List (Nat × List PagePair)),
        pendingRuns (e :: m) = e.2 ++ pendingRuns m := fun _ _ => rfl
    unfold addPending at h
    split_ifs at h with h1 h2
    · rw [hcons] at h ⊢
      rcases List.mem_append.1 h with h | h
      · exact .inr (List.mem_append_left _ h)
      · exact (ih h).imp_right (List.mem_append_right _)
    · rw [hcons] at h ⊢
      rcases List.mem_append.1 h with h | h
      · rcases List.mem_append.1 h with h | h
        · exact .inr (List.mem_append_left _ h)
        · exact .inl (List.mem_singleton.1 h)
      · exact .inr (List.mem_append_right _ h)
    · rw [hcons] at h
      rcases List.mem_append.1 h with h | h
      · exact .inl (List.mem_singleton.1 h)
      · exact .inr h

/-- The pending runs of the other transactions. -/
def othersPending (txid : Nat) (m : List (Nat × List PagePair)) : List (Nat × List PagePair) :=
  m.filter fun e => e.1 ≠ txid

theorem othersPending_addPending (txid : Nat) (r : PagePair) (m : List (Nat × List PagePair)) :
    othersPending txid (addPending txid r m) = othersPending txid m := by
  unfold othersPending
  induction m with
  | nil => simp [addPending]
  | cons e m ih =>
    obtain ⟨t, runs⟩ := e
    unfold addPending
    split_ifs with h1 h2
    · rw [List.filter_cons, List.filter_cons, ih]
    · subst h2
      simp
    · simp [List.filter_cons]

theorem runsCount_othersPending_le (txid : Nat) (m : List (Nat × List PagePair)) (p : ℕ) :
    runsCount (pendingRuns (othersPending txid m)) p ≤ runsCount (pendingRuns m) p := by
  rw [runsCount_pendingRuns, runsCount_pendingRuns]
  unfold othersPending
  induction m with
  | nil => simp
  | cons e m ih =>
    rw [List.filter_cons, pendingCount_cons]
    split_ifs
    · rw [pendingCount_cons]
      omega
    · omega

theorem mem_pendingRuns_of_sublist {m m' : List (Nat × List PagePair)} (h : m'.Sublist m)
    {r : PagePair} (hr : r ∈ pendingRuns m') : r ∈ pendingRuns m := by
  obtain ⟨e, he, hr⟩ := List.mem_flatMap.1 hr
  exact List.mem_flatMap.2 ⟨e, h.subset he, hr⟩

/-- What the maps hold, and what the callers own. -/
structure MapsOk (pager : Pager) (owned : List PagePair) (bound : ℕ) : Prop where
  asc : Ascending pager.freeMap
  runs : RunsOk (owned ++ pager.freeMap ++ pendingRuns pager.pendingMap) bound

/-- What a rollback of the transaction `txid` to the runs `owned` will put together. -/
def ReturnsOk (pager : Pager) (owned : List PagePair) (txid : Nat) (bound : ℕ) : Prop :=
  RunsOk (owned ++ pager.freeMap ++ pager.allocRecords ++
    pendingRuns (othersPending txid pager.pendingMap)) bound

section Maps

variable {pager pager' : Pager} {owned : List PagePair} {bound : ℕ}

theorem MapsOk.owned_ok (h : MapsOk pager owned bound) : RunsOk owned bound := by
  refine h.runs.of_le (fun r hr => h.runs.pos r ?_) (fun p => ?_) (Nat.le_refl _)
  · exact List.mem_append_left _ (List.mem_append_left _ hr)
  · rw [runsCount_append, runsCount_append]
    omega

theorem MapsOk.pos_owned (h : MapsOk pager owned bound) : ∀ r ∈ owned, 0 < r.2 := h.owned_ok.pos

theorem MapsOk.pos_pending (h : MapsOk pager owned bound) :
    ∀ r ∈ pendingRuns pager.pendingMap, 0 < r.2 :=
  fun r hr => h.runs.pos r (List.mem_append_right _ hr)

theorem MapsOk.free_in (h : MapsOk pager owned bound) : ∀ r ∈ pager.freeMap, r.1 + r.2 ≤ bound :=
  fun _ hr =>
  (h.runs.mem (List.mem_append_left _ (List.mem_append_right _ hr))).2

/-- The three places a run can be in. -/
theorem forall_mem_three {a b c : List PagePair} {f : PagePair → Prop} (ha : ∀ r ∈ a, f r)
    (hb : ∀ r ∈ b, f r) (hc : ∀ r ∈ c, f r) : ∀ r ∈ a ++ b ++ c, f r := by
  intro r hr
  rcases List.mem_append.1 hr with hr | hr
  · rcases List.mem_append.1 hr with hr | hr
    · exact ha r hr
    · exact hb r hr
  · exact hc r hr

/-! ## Allocation -/

theorem MapsOk.draws (h : MapsOk pager owned bound) (hd : Draws pager pager') :
    MapsOk pager' owned bound := by
  cases hd with
  | nothing pages => exact ⟨h.asc, h.runs⟩
  | run pages pos taken =>
    have hasc := h.asc.allocFromMap taken
    refine ⟨hasc, h.runs.of_le (forall_mem_three h.pos_owned hasc.pos h.pos_pending)
      (fun p => ?_) (Nat.le_refl _)⟩
    have := runsCount_allocFromMap taken p
    simp only [runsCount_append]
    omega

theorem ReturnsOk.draws {txid : Nat} (h : ReturnsOk pager owned txid bound)
    (hasc : Ascending pager.freeMap) (hd : Draws pager pager') :
      ReturnsOk pager' owned txid bound := by
  cases hd with
  | nothing pages => exact h
  | run pages pos taken =>
    unfold ReturnsOk at h ⊢
    refine h.of_le
      (forall_mem_three (List.forall_mem_append.2 ⟨?_, (hasc.allocFromMap taken).pos⟩) ?_ ?_)
      (fun p => ?_) (Nat.le_refl _)
    · exact fun r hr => h.pos r (by simp [hr])
    · intro r hr
      rcases List.mem_append.1 hr with hr | hr
      · exact h.pos r (by simp [hr])
      · obtain rfl := List.mem_singleton.1 hr
        exact pos
    · exact fun r hr => h.pos r (List.mem_append_right _ hr)
    · have := runsCount_allocFromMap taken p
      simp only [runsCount_append, runsCount_cons, runsCount_nil]
      omega

/-- The run that is handed out goes to the caller. -/
theorem MapsOk.take (h : MapsOk pager owned bound) {count pgid : Nat}
    {freeMap records : List PagePair} (hcount : 0 < count)
    (taken : allocFromMap count pager.freeMap = some (pgid, freeMap)) :
    MapsOk { pager with freeMap := freeMap, allocRecords := records }
      (owned ++ [(pgid, count)]) bound := by
  have hasc := h.asc.allocFromMap taken
  refine ⟨hasc, h.runs.of_le (forall_mem_three ?_ hasc.pos h.pos_pending)
    (fun p => ?_) (Nat.le_refl _)⟩
  · intro r hr
    rcases List.mem_append.1 hr with hr | hr
    · exact h.pos_owned r hr
    · obtain rfl := List.mem_singleton.1 hr
      exact hcount
  · have := runsCount_allocFromMap taken p
    simp only [runsCount_append, runsCount_cons, runsCount_nil]
    omega

/-- The run behind the last page goes to the caller. -/
theorem MapsOk.grow (h : MapsOk pager owned bound) (hb : 2 ≤ bound) {count : Nat}
    (hcount : 0 < count) : MapsOk pager (owned ++ [(bound, count)]) (bound + count) := by
  have hgrown := h.runs.grow hb hcount
  refine ⟨h.asc, hgrown.of_le (forall_mem_three ?_ h.asc.pos h.pos_pending)
    (fun p => ?_) (Nat.le_refl _)⟩
  · intro r hr
    rcases List.mem_append.1 hr with hr | hr
    · exact h.pos_owned r hr
    · obtain rfl := List.mem_singleton.1 hr
      exact hcount
  · simp only [runsCount_append, runsCount_cons, runsCount_nil]
    omega

/-! ## Free and release -/

/-- `Free` of a page that exists. -/
theorem free_of_ne {pgid : Nat} (hne : pgid ≠ kPageInvalidId) (count : Nat) (u : TxState) :
    free pgid count u = (.ok (), { u with
      pager := { u.pager with
        pendingMap := addPending u.metaStruct.txid (pgid, count) u.pager.pendingMap } }) := by
  unfold free assert
  rw [Exec.require_bind hne]
  rfl

/-- An owned run becomes pending. -/
theorem MapsOk.free (h : MapsOk pager owned bound) {r : PagePair} (hr : r ∈ owned) (txid : Nat) :
    MapsOk { pager with pendingMap := addPending txid r pager.pendingMap }
      (owned.erase r) bound := by
  refine ⟨h.asc, h.runs.of_le (forall_mem_three ?_ h.asc.pos ?_) (fun p => ?_) (Nat.le_refl _)⟩
  · exact fun q hq => h.pos_owned q (List.mem_of_mem_erase hq)
  · intro q hq
    rcases mem_pendingRuns_addPending hq with rfl | hq
    · exact h.pos_owned q hr
    · exact h.pos_pending q hq
  · have h1 := runsCount_erase hr p
    have h2 := pendingCount_addPending txid r pager.pendingMap p
    simp only [runsCount_append, runsCount_pendingRuns, h2]
    omega

/-- What `Release` takes out of the pending map, and what stays there. -/
theorem pendingRuns_split (releasableTxid : Nat) (m : List (Nat × List PagePair)) :
    pendingRuns (m.takeWhile fun e => e.1 < releasableTxid) ++
      pendingRuns (m.dropWhile fun e => e.1 < releasableTxid) = pendingRuns m := by
  unfold pendingRuns
  rw [← List.flatMap_append, List.takeWhile_append_dropWhile]

theorem release_pendingMap (releasableTxid : Nat) (pager : Pager) :
    (pager.release releasableTxid).pendingMap = pager.pendingMap.dropWhile fun e =>
      e.1 < releasableTxid := rfl

/-- What `Release` frees. -/
theorem MapsOk.frees (h : MapsOk pager owned bound) (hbound : bound < 4294967296)
    (releasableTxid : Nat) :
    Frees pager.freeMap (pendingRuns (pager.pendingMap.takeWhile fun e => e.1 < releasableTxid))
      bound := by
  refine ⟨hbound, h.free_in, fun r hr => ?_, fun p => ?_⟩
  · exact (h.runs.mem
      (List.mem_append_right _ (mem_pendingRuns_of_sublist (List.takeWhile_sublist _) hr))).2
  · have h1 := h.runs.once p
    rw [← pendingRuns_split releasableTxid pager.pendingMap] at h1
    simp only [runsCount_append] at h1
    omega

theorem MapsOk.pos_due (h : MapsOk pager owned bound) (releasableTxid : Nat) :
    ∀ r ∈ pendingRuns (pager.pendingMap.takeWhile fun e => e.1 < releasableTxid), 0 < r.2 :=
  fun r hr =>
  h.pos_pending r (mem_pendingRuns_of_sublist (List.takeWhile_sublist _) hr)

theorem MapsOk.release (h : MapsOk pager owned bound) (hbound : bound < 4294967296)
    (releasableTxid : Nat) : MapsOk (pager.release releasableTxid) owned bound := by
  have hfrees := h.frees hbound releasableTxid
  have hasc := h.asc.foldl_freeToMap hfrees (h.pos_due releasableTxid)
  refine ⟨hasc, h.runs.of_le (forall_mem_three h.pos_owned hasc.pos ?_)
    (fun p => ?_) (Nat.le_refl _)⟩
  · exact fun r hr => h.pos_pending r (mem_pendingRuns_of_sublist (List.dropWhile_sublist _) hr)
  · have h1 : runsCount (pager.release releasableTxid).freeMap p = _ := hfrees.foldl_counts p
    rw [← pendingRuns_split releasableTxid pager.pendingMap]
    simp only [runsCount_append, release_pendingMap]
    omega

/-- When a transaction begins, a rollback has nothing to give back. -/
theorem MapsOk.returns (h : MapsOk pager owned bound) (hrecords : pager.allocRecords = [])
    (txid : Nat) : ReturnsOk pager owned txid bound := by
  unfold ReturnsOk
  rw [hrecords, List.append_nil]
  refine h.runs.of_le (forall_mem_three h.pos_owned h.asc.pos ?_) (fun p => ?_) (Nat.le_refl _)
  · exact fun r hr => h.pos_pending r (mem_pendingRuns_of_sublist List.filter_sublist hr)
  · have := runsCount_othersPending_le txid pager.pendingMap p
    simp only [runsCount_append]
    omega

/-! ## Rollback -/

theorem rollback_pendingMap (txid : Nat) (pager : Pager) :
    (pager.rollback txid).pendingMap = othersPending txid pager.pendingMap := rfl

/-- What `Rollback` frees. -/
theorem ReturnsOk.frees {txid : Nat} (h : ReturnsOk pager owned txid bound)
    (hbound : bound < 4294967296) : Frees pager.freeMap pager.allocRecords bound := by
  unfold ReturnsOk at h
  refine ⟨hbound, fun r hr => (h.mem (by simp [hr])).2, fun r hr => (h.mem (by simp [hr])).2,
    fun p => ?_⟩
  have := h.once p
  simp only [runsCount_append] at this
  omega

theorem ReturnsOk.pos_records {txid : Nat} (h : ReturnsOk pager owned txid bound) :
    ∀ r ∈ pager.allocRecords, 0 < r.2 := fun r hr =>
  h.pos r (List.mem_append_left _ (List.mem_append_right _ hr))

theorem ReturnsOk.rollback {txid : Nat} (h : ReturnsOk pager owned txid bound)
    (hasc : Ascending pager.freeMap) (hbound : bound < 4294967296) :
      MapsOk (pager.rollback txid) owned bound := by
  have hfrees := h.frees hbound
  have hasc' := hasc.foldl_freeToMap hfrees h.pos_records
  unfold ReturnsOk at h
  refine ⟨hasc', h.of_le (forall_mem_three ?_ hasc'.pos ?_) (fun p => ?_) (Nat.le_refl _)⟩
  · exact fun r hr => h.pos r (by simp [hr])
  · exact fun r hr => h.pos r (List.mem_append_right _ hr)
  · have h1 : runsCount (pager.rollback txid).freeMap p = _ := hfrees.foldl_counts p
    simp only [runsCount_append, rollback_pendingMap]
    omega

end Maps

end Pager

/-! ## The invariant -/

/-- A meta that never had a free list, with its file of at least the two meta pages. -/
structure MetaOk (info : MetaInfo) : Prop where
  ge : 2 ≤ info.pageCount
  lt : info.pageCount < 4294967296
  noList : info.freeListPgid = kPageInvalidId
  noPages : info.freeListPageCount = 0
  noPairs : info.freePairCount = 0

/-- A version that the database can be opened with. -/
structure VersionOk (v : Version) : Prop where
  info : MetaOk v.info
  owned : RunsOk v.owned v.info.pageCount

namespace Allocator

/-- What holds inside of a transaction. -/
structure TxOk (s : Allocator) (t : Version) : Prop where
  info : MetaOk t.info
  maps : s.pager.MapsOk t.owned t.info.pageCount
  grown : s.current.info.pageCount ≤ t.info.pageCount
  returns : s.pager.ReturnsOk s.current.owned t.info.txid s.current.info.pageCount

structure Inv (s : Allocator) : Prop where
  versions : ∀ v ∈ s.versions, VersionOk v
  current : VersionOk s.current
  idle : s.tx = none → s.pager.MapsOk s.current.owned s.current.info.pageCount
  busy : ∀ t, s.tx = some t → s.TxOk t

/-- What a state owes when no transaction is open. -/
theorem Inv.of_idle {s : Allocator} (hversions : ∀ v ∈ s.versions, VersionOk v)
    (hinfo : MetaOk s.current.info) (htx : s.tx = none)
    (hmaps : s.pager.MapsOk s.current.owned s.current.info.pageCount) : Inv s where
  versions := hversions
  current := ⟨hinfo, hmaps.owned_ok⟩
  idle := fun _ => hmaps
  busy := fun t ht => by
    rw [htx] at ht
    cases ht

/-- What a step inside of a transaction owes. -/
theorem Inv.working {s : Allocator} (h : Inv s) {u : TxState} {owned : List PagePair}
    (ht : (s.working u owned).TxOk ⟨u.metaStruct, owned⟩) : Inv (s.working u owned) where
  versions := h.versions
  current := h.current
  idle := fun hnone => by cases hnone
  busy := fun t hsome => by
    obtain rfl := Option.some.inj hsome
    exact ht

theorem created_inv : Inv created :=
  .of_idle
    (fun v hv => by
      obtain rfl := List.mem_singleton.1 hv
      exact ⟨⟨by decide, by decide, rfl, rfl, rfl⟩, RunsOk.nil _⟩)
    ⟨by decide, by decide, rfl, rfl, rfl⟩ rfl ⟨Pager.Ascending.nil, RunsOk.nil _⟩

/-! ## One lemma for each step -/

section Steps

variable {P : Nat} {s s' : Allocator}

theorem update_inv {releasableTxid : Nat} (h : Inv s) (hstep : s.update releasableTxid = some s') :
    Inv s' := by
  unfold update at hstep
  cases htx : s.tx with
  | some t => simp [htx] at hstep
  | none =>
    simp only [htx] at hstep
    split_ifs at hstep
    obtain rfl := Option.some.inj hstep
    have hmaps := (h.idle htx).release h.current.info.lt releasableTxid
    refine ⟨h.versions, h.current, fun hnone => by (cases hnone), fun t ht => ?_⟩
    obtain rfl := Option.some.inj ht
    have hinfo := h.current.info
    exact ⟨⟨hinfo.ge, hinfo.lt, hinfo.noList, hinfo.noPages, hinfo.noPairs⟩, hmaps, Nat.le_refl _,
      hmaps.returns rfl _⟩

theorem alloc_inv {count : Nat} (h : Inv s) (hstep : s.alloc count = some s') : Inv s' := by
  unfold alloc at hstep
  cases htx : s.tx with
  | none => simp [htx] at hstep
  | some t =>
    simp only [htx] at hstep
    obtain ⟨hinfo, hmaps, hgrown, hreturns⟩ := h.busy t htx
    split_ifs at hstep with hcount
    cases hmap : Pager.allocFromMap count s.pager.freeMap with
    | some r =>
      obtain ⟨pgid, freeMap⟩ := r
      rw [Pager.alloc_of_some (s := s.state t) hmap] at hstep
      obtain rfl := Option.some.inj hstep
      exact h.working
        ⟨hinfo, hmaps.take hcount.1 hmap, hgrown, hreturns.draws hmaps.asc (.run _ hcount.1 hmap)⟩
    | none =>
      by_cases hroom : u32 (t.info.pageCount + count) < t.info.pageCount
      -- the page count wraps in 32 bits: Alloc raises before it changes anything
      · obtain ⟨e, he⟩ := Pager.alloc_raises (s := s.state t) hmap hroom
        rw [he] at hstep
        obtain rfl := Option.some.inj hstep
        exact h.working ⟨hinfo, hmaps, hgrown, hreturns⟩
      · rw [Pager.alloc_of_none (s := s.state t) hmap hroom] at hstep
        obtain rfl := Option.some.inj hstep
        obtain ⟨hsum, hlt⟩ := Pager.u32_add_of_not_lt hinfo.lt hcount.2 hroom
        have hpc : u32 ((s.state t).metaStruct.pageCount + count) = t.info.pageCount + count := hsum
        refine h.working ⟨⟨?_, ?_, hinfo.noList, hinfo.noPages, hinfo.noPairs⟩, ?_, ?_, hreturns⟩
        · show 2 ≤ u32 _
          have := hinfo.ge
          omega
        · show u32 _ < _
          omega
        · show s.pager.MapsOk _ (u32 _)
          rw [hpc]
          exact hmaps.grow hinfo.ge hcount.1
        · show s.current.info.pageCount ≤ u32 _
          omega

theorem free_inv {r : PagePair} (h : Inv s) (hstep : s.free r = some s') : Inv s' := by
  unfold free at hstep
  cases htx : s.tx with
  | none => simp [htx] at hstep
  | some t =>
    simp only [htx] at hstep
    obtain ⟨hinfo, hmaps, hgrown, hreturns⟩ := h.busy t htx
    split_ifs at hstep with hr
    have hne : r.1 ≠ kPageInvalidId := by
      have h1 := hmaps.owned_ok.mem hr
      have h2 := hmaps.pos_owned r hr
      have h3 := hinfo.lt
      unfold kPageInvalidId
      omega
    rw [Pager.free_of_ne hne] at hstep
    obtain rfl := Option.some.inj hstep
    refine h.working ⟨hinfo, hmaps.free hr _, hgrown, ?_⟩
    unfold Pager.ReturnsOk at hreturns ⊢
    have hothers := Pager.othersPending_addPending t.info.txid r s.pager.pendingMap
    show RunsOk (_ ++ _ ++ _ ++ Pager.pendingRuns
      (Pager.othersPending t.info.txid (Pager.addPending t.info.txid r s.pager.pendingMap))) _
    rw [hothers]
    exact hreturns

/-- Saving the free list takes at most one run from the free map. -/
theorem saving_cases (hP : kPagePairSize ≤ P) (saves : Bool) {t : Version} (hinfo : MetaOk t.info)
    (hmaps : s.pager.MapsOk t.owned t.info.pageCount) :
    (∃ u, saving P saves (s.state t) = (.ok (), u) ∧ s.pager.Draws u.pager) ∨
      ∃ e u, saving P saves (s.state t) = (.error e, u) ∧ u.pager = s.pager := by
  cases saves with
  | false => exact .inl ⟨s.state t, rfl, .nothing s.pager.pages⟩
  | true =>
    have hsave := Pager.saveFreeList_of_invalid (P := P) (s := s.state t) hinfo.noList
    have hfew : s.pager.freeMap.length + (Pager.pendingRuns s.pager.pendingMap).length <
        4294967296 := by
      have h1 := hmaps.runs.length_le
      have h2 := hinfo.lt
      rw [List.length_append, List.length_append] at h1
      omega
    unfold saving
    rw [if_pos rfl, hsave]
    exact Pager.writeFreeList_draws hP (s := s.state t) hfew

theorem commit_inv {saves : Bool} (hP : kPagePairSize ≤ P) (h : Inv s)
    (hstep : s.commit P saves = some s') : Inv s' := by
  unfold commit at hstep
  cases htx : s.tx with
  | none => simp [htx] at hstep
  | some t =>
    simp only [htx] at hstep
    obtain ⟨hinfo, hmaps, hgrown, hreturns⟩ := h.busy t htx
    rcases saving_cases hP saves hinfo hmaps with ⟨u, hu, hdraws⟩ | ⟨e, u, hu, hpager⟩
    · rw [hu] at hstep
      obtain rfl := Option.some.inj hstep
      refine .of_idle (fun v hv => ?_) hinfo rfl (hmaps.draws hdraws)
      rcases List.mem_append.1 hv with hv | hv
      · exact h.versions v hv
      · obtain rfl := List.mem_singleton.1 hv
        exact ⟨hinfo, hmaps.owned_ok⟩
    · -- the transaction is rolled back under its own meta
      rw [hu] at hstep
      obtain rfl := Option.some.inj hstep
      have hback := hreturns.rollback hmaps.asc h.current.info.lt
      refine .of_idle h.versions hinfo rfl ⟨?_, ?_⟩
      · show Pager.Ascending (u.pager.rollback _).freeMap
        rw [hpager]
        exact hback.asc
      · show RunsOk
          (_ ++ (u.pager.rollback _).freeMap ++ Pager.pendingRuns (u.pager.rollback _).pendingMap) _
        rw [hpager]
        exact hback.runs.of_le hback.runs.pos (fun p => Nat.le_refl _) hgrown

theorem rollback_inv {saves : Bool} (hP : kPagePairSize ≤ P) (h : Inv s)
    (hstep : s.rollback P saves = some s') : Inv s' := by
  unfold rollback at hstep
  cases htx : s.tx with
  | none => simp [htx] at hstep
  | some t =>
    simp only [htx] at hstep
    obtain ⟨hinfo, hmaps, -, hreturns⟩ := h.busy t htx
    rcases saving_cases hP saves hinfo hmaps with ⟨u, hu, hdraws⟩ | ⟨e, u, hu, -⟩
    · rw [hu] at hstep
      obtain rfl := Option.some.inj hstep
      have hback :=
        (hreturns.draws hmaps.asc hdraws).rollback (hmaps.draws hdraws).asc h.current.info.lt
      exact .of_idle h.versions h.current.info rfl hback
    · rw [hu] at hstep
      cases hstep

theorem reopen_inv {v : Version} (h : Inv s) (hstep : s.reopen P v = some s') : Inv s' := by
  unfold reopen at hstep
  split_ifs at hstep with hv
  obtain rfl := Option.some.inj hstep
  obtain ⟨hinfo, howned⟩ := h.versions v hv
  refine .of_idle h.versions hinfo rfl ?_
  show (s.pager.opened P v.info).MapsOk v.owned v.info.pageCount
  rw [Pager.opened_of_invalid hinfo.noList]
  refine ⟨Pager.Ascending.nil,
    howned.of_le (fun r hr => howned.pos r ?_) (fun p => ?_) (Nat.le_refl _)⟩
  · simpa [Pager.pendingRuns] using hr
  · simp [Pager.pendingRuns]

theorem step_inv {e : AllocatorEvent} (hP : kPagePairSize ≤ P) (h : Inv s)
    (hstep : s.step P e = some s') : Inv s' := by
  cases e with
  | update releasableTxid => exact update_inv h hstep
  | alloc count => exact alloc_inv h hstep
  | free r => exact free_inv h hstep
  | commit saves => exact commit_inv hP h hstep
  | rollback saves => exact rollback_inv hP h hstep
  | reopen v => exact reopen_inv h hstep

theorem run_inv {es : List AllocatorEvent} (hP : kPagePairSize ≤ P) (h : Inv s)
    (hrun : s.run P es = some s') : Inv s' := by
  induction es generalizing s with
  | nil =>
    obtain rfl := Option.some.inj hrun
    exact h
  | cons e es ih =>
    unfold run at hrun
    cases hstep : s.step P e with
    | none => simp [hstep] at hrun
    | some s₁ =>
      rw [hstep] at hrun
      exact ih (step_inv hP h hstep) hrun

end Steps

/-! ## Exclusive ownership -/

/-- The maps describe the version in view. -/
theorem Inv.maps {s : Allocator} (h : Inv s) :
    s.pager.MapsOk s.view.owned s.view.info.pageCount := by
  unfold view
  cases htx : s.tx with
  | none => exact h.idle htx
  | some t => exact (h.busy t htx).maps

theorem Inv.exclusive {s : Allocator} (h : Inv s) : s.Exclusive :=
  ⟨h.maps.runs.pairwise, fun _ hr => h.maps.runs.mem hr⟩

theorem Inv.handsOutFresh {s : Allocator} (h : Inv s) : s.HandsOutFresh := by
  intro t count pgid u htx hpos hlt halloc r hr
  -- the step that makes this allocation leads to an exclusive state again
  have hstep : s.alloc count = some (s.working u (t.owned ++ [(pgid, count)])) := by
    unfold alloc
    simp only [htx]
    rw [if_pos ⟨hpos, hlt⟩, halloc]
  have hnext := (alloc_inv h hstep).exclusive.1
  have hpending : u.pager.pendingMap = s.pager.pendingMap := by
    cases hmap : Pager.allocFromMap count s.pager.freeMap with
    | some q =>
      rw [Pager.alloc_of_some (s := s.state t) hmap] at halloc
      obtain ⟨-, rfl⟩ := Prod.mk.inj halloc
      rfl
    | none =>
      by_cases hroom : u32 (t.info.pageCount + count) < t.info.pageCount
      · obtain ⟨e, he⟩ := Pager.alloc_raises (s := s.state t) hmap hroom
        rw [he] at halloc
        cases halloc
      · rw [Pager.alloc_of_none (s := s.state t) hmap hroom] at halloc
        obtain ⟨-, rfl⟩ := Prod.mk.inj halloc
        rfl
  have hruns : (s.working u (t.owned ++ [(pgid, count)])).runs =
      t.owned ++ [(pgid, count)] ++ u.pager.freeMap ++ Pager.pendingRuns s.pager.pendingMap := by
    rw [← hpending]
    rfl
  rw [hruns] at hnext
  obtain ⟨hleft, -, hcross⟩ := List.pairwise_append.1 hnext
  rcases List.mem_append.1 hr with hr | hr
  · obtain ⟨howned, -, -⟩ := List.pairwise_append.1 hleft
    exact ((List.pairwise_append.1 howned).2.2 r hr _ List.mem_cons_self).symm
  · exact hcross (pgid, count) (by simp) r hr

end Allocator

end AtomKV
