import AtomKV.Coalescing

/-!
# Rolling back a transaction

`Pager::Rollback` gives back from the allocation records what was taken from the free map, in the
order in which it was taken, and drops the pending entry of the transaction; the growth of the file
goes with the transaction's meta. The same pages are free again, provided no call of `FreeToMap`
steps back from `begin()`.
-/

set_option autoImplicit false

namespace AtomKV

/-- Runs that are freed in this order into the pages `F`: each one that is followed by a page of `F`
or of an earlier
    run has such a page before it. -/
def Preceded (F : Nat → Prop) : List PagePair → Prop
  | [] => True
  | r :: rs => (F (r.1 + r.2) → ∃ p < r.1, F p) ∧
      Preceded (fun p => F p ∨ (r.1 ≤ p ∧ p < r.1 + r.2)) rs

/-- A call of `FreeToMap` that does not step back from `begin()`. -/
def StaysInside (m : List PagePair) (pgid count : Nat) : Prop :=
  ¬ Pager.StepsBeforeBegin m pgid count

namespace Pager

/-! ## When `FreeToMap` steps back from `begin()` -/

section Inside

variable {m rs : List PagePair} {pgid count : Nat} {bound : ℕ}

theorem covered_of_mem (hm : Ascending m) {r : PagePair} (hr : r ∈ m) : 0 < runsCount m r.1 := by
  have hpos := hm.pos r hr
  have hfirst : 0 < runCount r r.1 := (runCount_pos_iff _ _).2 (by omega)
  exact Nat.lt_of_lt_of_le hfirst (runCount_le_runsCount hr _)

/-- The runs of the map start in ascending order. -/
theorem Ascending.starts (hm : Ascending m) : m.Pairwise fun r r' => r.1 < r'.1 := by
  refine (List.Pairwise.and_mem.1 hm.ordered).imp ?_
  rintro r r' ⟨hr, -, hle⟩
  have := hm.pos r hr
  omega

theorem below_eq_nil_iff (hm : Ascending m) :
    below m pgid = [] ↔ ¬ ∃ p < pgid, 0 < runsCount m p := by
  constructor
  · rintro hnil ⟨p, hp, hcovered⟩
    obtain ⟨r, hr, hlow, -⟩ := runsCount_pos hcovered
    -- the first run of the map starts no later than `r`
    cases m with
    | nil => cases hr
    | cons q rest =>
      have hq : q.1 ≤ r.1 := by
        rcases List.mem_cons.1 hr with rfl | hr
        · exact Nat.le_refl _
        · exact Nat.le_of_lt ((List.pairwise_cons.1 hm.starts).1 r hr)
      unfold below at hnil
      rw [List.takeWhile_cons_of_pos (by simpa using by omega)] at hnil
      cases hnil
  · intro hnone
    cases m with
    | nil => rfl
    | cons q rest =>
      have hq : ¬ q.1 < pgid := fun hlt => hnone ⟨q.1, hlt, covered_of_mem hm List.mem_cons_self⟩
      exact List.takeWhile_cons_of_neg (by simpa using hq)

/-- The page behind the run is free and none before it is. -/
theorem stepsBeforeBegin_iff (hm : Ascending m) (h : Takes m pgid count bound) :
    StepsBeforeBegin m pgid count ↔
    0 < runsCount m (pgid + count) ∧ ¬ ∃ p < pgid, 0 < runsCount m p := by
  have hend : u32 (pgid + count) = pgid + count :=
    u32_of_lt (by have := h.bound_lt; have := h.run_in; omega)
  unfold StepsBeforeBegin
  rw [below_eq_nil_iff hm, hend, and_comm]
  refine and_congr_left fun hnone => ?_
  have hall : above m pgid = m := by
    have happend : below m pgid ++ above m pgid = m := List.takeWhile_append_dropWhile
    rwa [(below_eq_nil_iff hm).2 hnone, List.nil_append] at happend
  rw [hall]
  -- no run starts inside of the freed one
  have hstart : ∀ r ∈ m, pgid + count ≤ r.1 := fun r hr => by
    by_contra hlt
    have hcovered := covered_of_mem hm hr
    have hlow : pgid ≤ r.1 := by
      by_contra hless
      exact hnone ⟨r.1, Nat.lt_of_not_le hless, hcovered⟩
    have honce := h.once r.1
    have hin : 0 < runCount (pgid, count) r.1 :=
      (runCount_pos_iff _ _).2 ⟨hlow, Nat.lt_of_not_le hlt⟩
    omega
  constructor
  · rintro ⟨next, hnext, heq⟩
    rw [← heq]
    exact covered_of_mem hm (List.mem_of_mem_head? hnext)
  · intro hcovered
    obtain ⟨r, hr, hlow, -⟩ := runsCount_pos hcovered
    cases m with
    | nil => cases hr
    | cons q rest =>
      refine ⟨q, rfl, ?_⟩
      have hq := hstart q List.mem_cons_self
      rcases List.mem_cons.1 hr with rfl | hr
      · omega
      · have := (List.pairwise_cons.1 hm.starts).1 r hr
        omega

/-- Calls one after the other stay inside of the map exactly when the runs are preceded. The
last run may be
    empty. -/
theorem eachCall_inside_iff (hm : Ascending m) (h : Frees m rs bound)
    (hpos : ∀ r ∈ rs.dropLast, 0 < r.2) :
    EachCall StaysInside m rs ↔ Preceded (fun p => 0 < runsCount m p) rs := by
  induction rs generalizing m with
  | nil => exact Iff.rfl
  | cons r rs ih =>
    have hfirst : StaysInside m r.1 r.2 ↔
        (0 < runsCount m (r.1 + r.2) → ∃ p < r.1, 0 < runsCount m p) := by
      unfold StaysInside
      rw [stepsBeforeBegin_iff hm h.takes, not_and_not_right]
    refine and_congr hfirst ?_
    cases rs with
    | nil => exact Iff.rfl
    | cons q rs =>
      rw [List.dropLast_cons_cons] at hpos
      obtain ⟨hr, hrest⟩ := List.forall_mem_cons.1 hpos
      have hcovers : (fun p => 0 < runsCount (Pager.freeToMap m r.1 r.2) p) =
          fun p => 0 < runsCount m p ∨ (r.1 ≤ p ∧ p < r.1 + r.2) := by
        funext p
        rw [(freeToMap_spec h.takes).1 p, Nat.add_pos_iff_pos_or_pos, runCount_pos_iff]
      rw [ih (hm.freeToMap h.takes hr) h.tail hrest, hcovers]

end Inside

/-! ## What a rollback can undo -/

/-- The state after some calls of the transaction `txid`, which began with the maps of `start`. -/
structure Undoable (txid : Nat) (start pager : Pager) (bound : ℕ) : Prop where
  asc : Ascending pager.freeMap
  frees : Frees pager.freeMap pager.allocRecords bound
  counts : ∀ p, runsCount pager.freeMap p + runsCount pager.allocRecords p =
    runsCount start.freeMap p
  others : othersPending txid pager.pendingMap = start.pendingMap

namespace Undoable

variable {txid : Nat} {start pager : Pager} {bound : ℕ}

/-- A run that was taken from the free map. -/
theorem take (h : Undoable txid start pager bound) {count pgid : Nat} {freeMap : List PagePair}
    (taken : allocFromMap count pager.freeMap = some (pgid, freeMap)) (pages : Nat → Page) :
    Undoable txid start ⟨pages, freeMap, pager.pendingMap, pager.allocRecords ++ [(pgid, count)]⟩
      bound := by
  obtain ⟨hrun, hin⟩ := allocFromMap_in taken h.frees.map_in
  have hsplit := runsCount_allocFromMap taken
  refine ⟨h.asc.allocFromMap taken, ⟨h.frees.bound_lt, hin, ?_, fun p => ?_⟩, fun p => ?_, h.others⟩
  · intro r hr
    rcases List.mem_append.1 hr with hr | hr
    · exact h.frees.runs_in r hr
    · obtain rfl := List.mem_singleton.1 hr
      exact hrun
  · have := h.frees.once p
    have := hsplit p
    simp only [runsCount_append, runsCount_cons, runsCount_nil]
    omega
  · have := h.counts p
    have := hsplit p
    simp only [runsCount_append, runsCount_cons, runsCount_nil]
    omega

/-- A run that becomes pending. -/
theorem pend (h : Undoable txid start pager bound) (r : PagePair) :
    Undoable txid start { pager with pendingMap := addPending txid r pager.pendingMap } bound :=
  ⟨h.asc, h.frees, h.counts, (othersPending_addPending txid r pager.pendingMap).trans h.others⟩

/-- The rollback brings the pages and the pending runs back. -/
theorem rollback (h : Undoable txid start pager bound) :
    (∀ p, runsCount (pager.rollback txid).freeMap p = runsCount start.freeMap p) ∧
      (pager.rollback txid).pendingMap = start.pendingMap :=
  ⟨fun p => (h.frees.foldl_counts p).trans (h.counts p), h.others⟩

end Undoable

/-- What `Alloc` does to the pager, whether it returns or throws. -/
theorem alloc_pager (count : Nat) (u : TxState) :
    (alloc count u).2.metaStruct.txid = u.metaStruct.txid ∧ ((alloc count u).2.pager = u.pager ∨
      ∃ pgid freeMap, allocFromMap count u.pager.freeMap = some (pgid, freeMap) ∧
        (alloc count u).2.pager = ⟨u.pager.pages, freeMap, u.pager.pendingMap,
          u.pager.allocRecords ++ [(pgid, count)]⟩) := by
  cases hmap : allocFromMap count u.pager.freeMap with
  | some r =>
    obtain ⟨pgid, freeMap⟩ := r
    rw [alloc_of_some hmap]
    exact ⟨rfl, .inr ⟨pgid, freeMap, rfl, rfl⟩⟩
  | none =>
    by_cases hroom : u32 (u.metaStruct.pageCount + count) < u.metaStruct.pageCount
    · obtain ⟨e, he⟩ := alloc_raises hmap hroom
      rw [he]
      exact ⟨rfl, .inl rfl⟩
    · rw [alloc_of_none hmap hroom]
      exact ⟨rfl, .inl rfl⟩

/-- What `Free` does, whether its assertion holds or not. -/
theorem free_pager (pgid count : Nat) (u : TxState) :
    (free pgid count u).2 = u ∨ (free pgid count u).2 = { u with
      pager := { u.pager with
        pendingMap := addPending u.metaStruct.txid (pgid, count) u.pager.pendingMap } } := by
  by_cases hne : pgid = kPageInvalidId
  · left
    unfold free assert
    rw [Exec.require_bind_not (not_not.2 hne)]
  · right
    rw [free_of_ne hne]

end Pager

/-! ## The calls of a transaction -/

/-- A call of the open transaction, with any arguments. -/
inductive PagerCall where
  | alloc (count : Nat)
  | free (pgid count : Nat)

namespace PagerCall

/-- The state behind the call; an exception leaves its own state. -/
def exec (u : TxState) : PagerCall → TxState
  | alloc count => (Pager.alloc count u).2
  | free pgid count => (Pager.free pgid count u).2

/-- `Alloc` is never called for no page. -/
def Asks : PagerCall → Prop
  | alloc count => 0 < count
  | free _ _ => True

instance (c : PagerCall) : Decidable c.Asks := by
  cases c with
  | alloc count => exact inferInstanceAs (Decidable (0 < count))
  | free pgid count => exact inferInstanceAs (Decidable True)

end PagerCall

/-- What the calls of a transaction keep. -/
structure Undo (txid : Nat) (start : Pager) (bound : ℕ) (u : TxState) : Prop where
  undoable : Pager.Undoable txid start u.pager bound
  pos : ∀ r ∈ u.pager.allocRecords, 0 < r.2
  txid : u.metaStruct.txid = txid

section Calls

variable {txid : Nat} {start : Pager} {bound : ℕ} {u : TxState}

theorem Undo.exec (h : Undo txid start bound u) {c : PagerCall} (hc : c.Asks) :
    Undo txid start bound (c.exec u) := by
  cases c with
  | alloc count =>
    obtain ⟨htxid, hsame | ⟨pgid, freeMap, taken, hpager⟩⟩ := Pager.alloc_pager count u
    -- the allocation raised, and the pager is as it was
    · refine ⟨?_, ?_, htxid.trans h.txid⟩
      · show Pager.Undoable txid start (Pager.alloc count u).2.pager bound
        rw [hsame]
        exact h.undoable
      · show ∀ r ∈ (Pager.alloc count u).2.pager.allocRecords, 0 < r.2
        rw [hsame]
        exact h.pos
    -- the run is recorded in alloc_records_, from which Rollback takes it back
    · refine ⟨?_, ?_, htxid.trans h.txid⟩
      · show Pager.Undoable txid start (Pager.alloc count u).2.pager bound
        rw [hpager]
        exact h.undoable.take taken _
      · show ∀ r ∈ (Pager.alloc count u).2.pager.allocRecords, 0 < r.2
        rw [hpager]
        intro r hr
        rcases List.mem_append.1 hr with hr | hr
        · exact h.pos r hr
        · obtain rfl := List.mem_singleton.1 hr
          exact hc
  | free pgid count =>
    rcases Pager.free_pager pgid count u with hsame | hpend
    · show Undo txid start bound (Pager.free pgid count u).2
      rw [hsame]
      exact h
    · show Undo txid start bound (Pager.free pgid count u).2
      rw [hpend, h.txid]
      exact ⟨h.undoable.pend _, h.pos, h.txid⟩

theorem Undo.calls (h : Undo txid start bound u) {calls : List PagerCall}
    (hcalls : ∀ c ∈ calls, c.Asks) : Undo txid start bound (calls.foldl PagerCall.exec u) := by
  induction calls generalizing u with
  | nil => exact h
  | cons c calls ih =>
    obtain ⟨hc, hrest⟩ := List.forall_mem_cons.1 hcalls
    exact ih (h.exec hc) hrest

/-! ## A checkpoint before the rollback -/

theorem Undo.freeSavedList (h : Undo txid start bound u) :
    Undo txid start bound (Pager.freeSavedList u).2 := by
  by_cases hnone : u.metaStruct.freeListPgid = kPageInvalidId
  · rw [Pager.freeSavedList_of_invalid hnone]
    exact h
  · have hfree : Pager.freeSavedList u =
        Pager.free u.metaStruct.freeListPgid u.metaStruct.freeListPageCount u := by
      unfold Pager.freeSavedList
      rw [Exec.read_bind]
      simp only [ne_eq, hnone, not_false_eq_true, if_true]
    rw [hfree]
    exact h.exec (c := .free u.metaStruct.freeListPgid u.metaStruct.freeListPageCount) trivial

/-- Writing the free list takes at most one more run. -/
theorem Undo.writeFreeList {P : Nat} (h : Undo txid start bound u) :
    Pager.Undoable txid start (Pager.writeFreeList P u).2.pager bound ∧
      ∀ r ∈ (Pager.writeFreeList P u).2.pager.allocRecords.dropLast, 0 < r.2 := by
  have hdrop : ∀ r ∈ u.pager.allocRecords.dropLast, 0 < r.2 := fun r hr =>
    h.pos r (List.dropLast_subset _ hr)
  cases hmap : Pager.allocFromMap (Pager.listPages P u.pager) u.pager.freeMap with
  | some r =>
    obtain ⟨pgid, freeMap⟩ := r
    rw [Pager.writeFreeList_of_some hmap]
    refine ⟨h.undoable.take hmap _, fun r hr => ?_⟩
    have hr' : r ∈ (u.pager.allocRecords ++ [(pgid, Pager.listPages P u.pager)]).dropLast := hr
    rw [List.dropLast_concat] at hr'
    exact h.pos r hr'
  | none =>
    by_cases hroom : u32 (u.metaStruct.pageCount + Pager.listPages P u.pager) <
      u.metaStruct.pageCount
    · obtain ⟨e, he⟩ := Pager.writeFreeList_raises hmap hroom
      rw [he]
      exact ⟨h.undoable, hdrop⟩
    · rw [Pager.writeFreeList_of_none hmap hroom]
      exact ⟨⟨h.undoable.asc, h.undoable.frees, h.undoable.counts, h.undoable.others⟩, hdrop⟩

theorem Undo.saving {P : Nat} (h : Undo txid start bound u) (saves : Bool) :
    Pager.Undoable txid start (Allocator.saving P saves u).2.pager bound ∧
      ∀ r ∈ (Allocator.saving P saves u).2.pager.allocRecords.dropLast, 0 < r.2 := by
  cases saves with
  | false => exact ⟨h.undoable, fun r hr => h.pos r (List.dropLast_subset _ hr)⟩
  | true =>
    have hfreed := h.freeSavedList
    show Pager.Undoable txid start (Pager.saveFreeList P u).2.pager bound ∧
      ∀ r ∈ (Pager.saveFreeList P u).2.pager.allocRecords.dropLast, 0 < r.2
    unfold Pager.saveFreeList
    obtain ⟨r, u', hr⟩ : ∃ r u', Pager.freeSavedList u = (r, u') := ⟨_, _, rfl⟩
    rw [hr] at hfreed
    cases r with
    | ok a =>
      rw [Exec.bind_of_ok hr]
      exact hfreed.writeFreeList
    | error e =>
      rw [Exec.bind_of_error hr]
      exact ⟨hfreed.undoable, fun r hr => hfreed.pos r (List.dropLast_subset _ hr)⟩

end Calls

/-! ## The dates of the pending runs -/

namespace Allocator

/-- No pending run is younger than the transaction in view, and that one is new. -/
structure Dated (s : Allocator) : Prop where
  pending : ∀ e ∈ s.pager.pendingMap, e.1 ≤ s.view.info.txid
  next : ∀ t, s.tx = some t → t.info.txid = s.current.info.txid + 1

section Dates

variable {P : Nat} {s s' : Allocator}

theorem created_dated : Dated created :=
  ⟨fun _ h => (List.not_mem_nil h).elim, fun _ h => by cases h⟩

/-- A step inside of a transaction that only adds to the entry of this transaction. -/
theorem Dated.working (h : Dated s) {t : Version} (htx : s.tx = some t) {u : TxState}
    {owned : List PagePair} (htxid : u.metaStruct.txid = t.info.txid)
    (hpending : ∀ e ∈ u.pager.pendingMap, e.1 = t.info.txid ∨ e ∈ s.pager.pendingMap) :
    Dated (s.working u owned) := by
  have hview : s.view.info.txid = t.info.txid := by
    unfold view
    rw [htx]
    rfl
  refine ⟨fun e he => ?_, fun t' ht' => ?_⟩
  · show e.1 ≤ u.metaStruct.txid
    rw [htxid]
    rcases hpending e he with heq | he
    · exact Nat.le_of_eq heq
    · exact (h.pending e he).trans (Nat.le_of_eq hview)
  · obtain rfl := Option.some.inj ht'
    exact htxid.trans (h.next t htx)

theorem update_dated {releasableTxid : Nat} (h : Dated s)
    (hstep : s.update releasableTxid = some s') : Dated s' := by
  unfold update at hstep
  cases htx : s.tx with
  | some t => simp [htx] at hstep
  | none =>
    simp only [htx] at hstep
    split_ifs at hstep
    obtain rfl := Option.some.inj hstep
    refine ⟨fun e he => ?_, fun t ht => ?_⟩
    · have hold := h.pending e ((List.dropWhile_sublist _).subset he)
      unfold view at hold
      rw [htx] at hold
      exact Nat.le_succ_of_le hold
    · obtain rfl := Option.some.inj ht
      rfl

theorem alloc_dated {count : Nat} (h : Dated s) (hstep : s.alloc count = some s') : Dated s' := by
  unfold alloc at hstep
  cases htx : s.tx with
  | none => simp [htx] at hstep
  | some t =>
    simp only [htx] at hstep
    split_ifs at hstep with hcount
    obtain ⟨htxid, hpager⟩ := Pager.alloc_pager count (s.state t)
    have hpending : (Pager.alloc count (s.state t)).2.pager.pendingMap = s.pager.pendingMap := by
      rcases hpager with hsame | ⟨pgid, freeMap, -, hpager⟩
      · rw [hsame]
        rfl
      · rw [hpager]
        rfl
    have hall : ∀ owned, Dated (s.working (Pager.alloc count (s.state t)).2 owned) := fun owned =>
      h.working htx htxid fun e he => .inr (hpending ▸ he)
    obtain ⟨r, u, hr⟩ : ∃ r u, Pager.alloc count (s.state t) = (r, u) := ⟨_, _, rfl⟩
    rw [hr] at hstep hall
    cases r with
    | ok pgid =>
      obtain rfl := Option.some.inj hstep
      exact hall _
    | error e =>
      obtain rfl := Option.some.inj hstep
      exact hall _

theorem free_dated {r : PagePair} (h : Dated s) (hstep : s.free r = some s') : Dated s' := by
  unfold free at hstep
  cases htx : s.tx with
  | none => simp [htx] at hstep
  | some t =>
    simp only [htx] at hstep
    split_ifs at hstep with hr
    have hall : ∀ owned, Dated (s.working (Pager.free r.1 r.2 (s.state t)).2 owned) :=
      fun owned => by
      rcases Pager.free_pager r.1 r.2 (s.state t) with hsame | hpend
      · rw [hsame]
        exact h.working htx rfl fun e he => .inr he
      · rw [hpend]
        exact h.working htx rfl fun e he => Pager.mem_addPending he
    obtain ⟨q, u, hq⟩ : ∃ q u, Pager.free r.1 r.2 (s.state t) = (q, u) := ⟨_, _, rfl⟩
    rw [hq] at hstep hall
    cases q with
    | ok a =>
      obtain rfl := Option.some.inj hstep
      exact hall _
    | error e => cases hstep

/-- The entries that a rollback leaves are older than the transaction. -/
theorem lt_of_mem_rollback (h : Dated s) {t : Version} (htx : s.tx = some t) {pager : Pager}
    (hpending : pager.pendingMap = s.pager.pendingMap) :
    ∀ e ∈ (pager.rollback t.info.txid).pendingMap, e.1 < t.info.txid := by
  intro e he
  obtain ⟨hmem, hne⟩ := List.mem_filter.1 he
  have hold := h.pending e (hpending ▸ hmem)
  unfold view at hold
  rw [htx] at hold
  exact Nat.lt_of_le_of_ne hold (by simpa using hne)

theorem commit_dated {saves : Bool} (hP : kPagePairSize ≤ P) (h : Dated s) (hinv : Inv s)
    (hstep : s.commit P saves = some s') : Dated s' := by
  unfold commit at hstep
  cases htx : s.tx with
  | none => simp [htx] at hstep
  | some t =>
    simp only [htx] at hstep
    obtain ⟨hinfo, hmaps, -, -⟩ := hinv.busy t htx
    rcases saving_cases hP saves hinfo hmaps with ⟨u, hu, hdraws⟩ | ⟨e, u, hu, hpager⟩
    · rw [hu] at hstep
      obtain rfl := Option.some.inj hstep
      refine ⟨fun e he => ?_, fun t ht => by cases ht⟩
      have hold := h.pending e (hdraws.pendingMap_eq ▸ he)
      unfold view at hold
      rwa [htx] at hold
    · rw [hu] at hstep
      obtain rfl := Option.some.inj hstep
      refine ⟨fun e he => ?_, fun t ht => by cases ht⟩
      exact Nat.le_of_lt (lt_of_mem_rollback h htx (congrArg Pager.pendingMap hpager) e he)

theorem rollback_dated {saves : Bool} (hP : kPagePairSize ≤ P) (h : Dated s) (hinv : Inv s)
    (hstep : s.rollback P saves = some s') : Dated s' := by
  unfold rollback at hstep
  cases htx : s.tx with
  | none => simp [htx] at hstep
  | some t =>
    simp only [htx] at hstep
    obtain ⟨hinfo, hmaps, -, -⟩ := hinv.busy t htx
    rcases saving_cases hP saves hinfo hmaps with ⟨u, hu, hdraws⟩ | ⟨e, u, hu, -⟩
    · rw [hu] at hstep
      obtain rfl := Option.some.inj hstep
      refine ⟨fun e he => ?_, fun t ht => by cases ht⟩
      have hlt := lt_of_mem_rollback h htx hdraws.pendingMap_eq e he
      have hnext := h.next t htx
      show e.1 ≤ s.current.info.txid
      omega
    · rw [hu] at hstep
      cases hstep

theorem reopen_dated {v : Version} (hinv : Inv s) (hstep : s.reopen P v = some s') : Dated s' := by
  unfold reopen at hstep
  split_ifs at hstep with hv
  obtain rfl := Option.some.inj hstep
  have hnone := (hinv.versions v hv).info.noList
  rw [Pager.opened_of_invalid hnone]
  exact ⟨fun _ h => (List.not_mem_nil h).elim, fun _ h => by cases h⟩

theorem step_dated {e : AllocatorEvent} (hP : kPagePairSize ≤ P) (h : Dated s) (hinv : Inv s)
    (hstep : s.step P e = some s') : Dated s' := by
  cases e with
  | update releasableTxid => exact update_dated h hstep
  | alloc count => exact alloc_dated h hstep
  | free r => exact free_dated h hstep
  | commit saves => exact commit_dated hP h hinv hstep
  | rollback saves => exact rollback_dated hP h hinv hstep
  | reopen v => exact reopen_dated hinv hstep

theorem run_dated {es : List AllocatorEvent} (hP : kPagePairSize ≤ P) (h : Dated s) (hinv : Inv s)
    (hrun : s.run P es = some s') : Dated s' := by
  induction es generalizing s with
  | nil =>
    obtain rfl := Option.some.inj hrun
    exact h
  | cons e es ih =>
    unfold run at hrun
    cases hstep : s.step P e with
    | none => simp [hstep] at hrun
    | some s₁ =>
      rw [hstep] at hrun
      exact ih (step_dated hP h hinv hstep) (step_inv hP hinv hstep) hrun

end Dates

/-! ## Rollback -/

/-- The open transaction after some calls. Who owns which run plays no part in a rollback. -/
def after (s : Allocator) (calls : List PagerCall) : Allocator :=
  match s.tx with
  | none => s
  | some t => s.working (calls.foldl PagerCall.exec (s.state t)) t.owned

/-- The rollback of `s'` to `s₂` stays inside of the free map and brings back what there was in `s`.
-/
structure Restores (P : Nat) (saves : Bool) (s s' s₂ : Allocator) : Prop where
  inside : EachCall StaysInside (s'.calls P (.rollback saves)).1 (s'.calls P (.rollback saves)).2
  pages : ∀ p, 0 < runsCount s₂.pager.freeMap p ↔ 0 < runsCount s.pager.freeMap p
  pending : s₂.pager.pendingMap = s.pager.pendingMap
  pageCount : s₂.view.info.pageCount = s.view.info.pageCount

/-- The pages that are free when `Pager::Rollback` is called, and the allocation records. -/
def RecordsPreceded (P : Nat) (saves : Bool) (s : Allocator) : Prop :=
  Preceded (fun p => 0 < runsCount (s.calls P (.rollback saves)).1 p)
    (s.calls P (.rollback saves)).2

section Restoring

variable {P : Nat} {s s₁ : Allocator} {releasableTxid : Nat}

/-- What a transaction finds when it begins: nothing to undo, and no pending run of its own. -/
theorem begin_undo (hinv : Inv s) (hdated : Dated s) (hupdate : s.update releasableTxid = some s₁) :
    ∃ t, s₁.tx = some t ∧ s₁.current = s.current ∧ t.info.pageCount = s.current.info.pageCount ∧
      Undo t.info.txid s₁.pager s.current.info.pageCount (s₁.state t) := by
  have hinv' := update_inv hinv hupdate
  unfold update at hupdate
  cases htx : s.tx with
  | some t => simp [htx] at hupdate
  | none =>
    simp only [htx] at hupdate
    split_ifs at hupdate
    obtain rfl := Option.some.inj hupdate
    refine ⟨_, rfl, rfl, rfl, ?_⟩
    obtain ⟨-, hmaps, -, hreturns⟩ := hinv'.busy _ rfl
    have hnone : (s.pager.release releasableTxid).allocRecords = [] := rfl
    refine ⟨⟨hmaps.asc, hreturns.frees hinv.current.info.lt, fun p => ?_, ?_⟩, ?_, rfl⟩
    · show _ + runsCount (s.pager.release releasableTxid).allocRecords p = _
      rw [hnone]
      rfl
    · -- all entries are of earlier transactions
      show Pager.othersPending _ (s.pager.release releasableTxid).pendingMap = _
      refine List.filter_eq_self.2 fun e he => ?_
      have hold := hdated.pending e ((List.dropWhile_sublist _).subset he)
      unfold view at hold
      rw [htx] at hold
      have hlt : e.1 < s.current.info.txid + 1 := Nat.lt_succ_of_le hold
      simpa using Nat.ne_of_lt hlt
    · exact fun r hr => (List.not_mem_nil hr).elim

/-- **Rollback.** After `Update` and any calls of `Alloc` and `Free`, with or without a checkpoint,
the rollback brings back the free pages, the pending runs and the size of the file exactly when each
record that is followed by a free page has a free page before it. -/
theorem rollback_restores_iff (hP : kPagePairSize ≤ P) {es : List AllocatorEvent}
    (hrun : created.run P es = some s) (hupdate : s.update releasableTxid = some s₁)
    {calls : List PagerCall} (hcalls : ∀ c ∈ calls, c.Asks) :
    (∃ s₂, (s₁.after calls).rollback P false = some s₂) ∧
      ∀ (saves : Bool) (s₂ : Allocator), (s₁.after calls).rollback P saves = some s₂ →
        (Restores P saves s₁ (s₁.after calls) s₂ ↔ (s₁.after calls).RecordsPreceded P saves) := by
  have hinv := run_inv hP created_inv hrun
  have hdated := run_dated hP created_dated created_inv hrun
  obtain ⟨t, htx, hcurrent, hpageCount, hundo⟩ := begin_undo hinv hdated hupdate
  have hafter := hundo.calls hcalls
  set u := calls.foldl PagerCall.exec (s₁.state t) with hu
  have hs : s₁.after calls = s₁.working u t.owned := by
    unfold after
    rw [htx]
  rw [hs]
  have hstate : Undo t.info.txid s₁.pager s.current.info.pageCount
      ((s₁.working u t.owned).state ⟨u.metaStruct, t.owned⟩) :=
        ⟨hafter.undoable, hafter.pos, hafter.txid⟩
  refine ⟨⟨_, rfl⟩, fun saves s₂ hroll => ?_⟩
  -- Saving the free list before the rollback makes calls of its own, which are undone with the
  -- rest.
  obtain ⟨hundoable, hpos⟩ := hstate.saving (P := P) saves
  obtain ⟨r, u', hr⟩ : ∃ r u',
      saving P saves ((s₁.working u t.owned).state ⟨u.metaStruct, t.owned⟩) = (r, u') :=
    ⟨_, _, rfl⟩
  rw [hr] at hundoable hpos
  have hmade : (s₁.working u t.owned).calls P (.rollback saves) =
      (u'.pager.freeMap, u'.pager.allocRecords) := by
    unfold Allocator.calls
    have htx : (s₁.working u t.owned).tx = some ⟨u.metaStruct, t.owned⟩ := rfl
    simp only [htx, hr]
  have hinside := Pager.eachCall_inside_iff hundoable.asc hundoable.frees hpos
  unfold RecordsPreceded
  rw [hmade, ← hinside]
  constructor
  · rintro ⟨h, -, -, -⟩
    rwa [hmade] at h
  · intro h
    unfold rollback at hroll
    have htx' : (s₁.working u t.owned).tx = some ⟨u.metaStruct, t.owned⟩ := rfl
    simp only [htx', hr] at hroll
    cases r with
    | error e => cases hroll
    | ok a =>
      obtain rfl := Option.some.inj hroll
      obtain ⟨hpages, hpending⟩ := hundoable.rollback
      rw [← hafter.txid] at hpages hpending
      -- The free pages, the pending runs, and the page count of the meta that is current again.
      refine ⟨?_, fun p => ?_, hpending, ?_⟩
      · rwa [hmade]
      · show 0 < runsCount (u'.pager.rollback u.metaStruct.txid).freeMap p ↔ _
        rw [hpages p]
      · show s₁.current.info.pageCount = s₁.view.info.pageCount
        unfold view
        rw [htx, hcurrent]
        exact hpageCount.symm

/-- Pages 2, 4 and 5 become free. -/
def freeingRun : List AllocatorEvent :=
  [.update 0, .alloc 1, .alloc 1, .alloc 2, .free (2, 1), .free (4, 2), .commit false]

def mixedCalls : List PagerCall := [.alloc 2, .alloc 3, .free 4 2, .free 3 1]

/-- The run of page 4 is taken, the file grows, and pages of both kinds are freed. -/
theorem rollback_restores_freeingRun : ∃ s s₁ s₂, created.run 4096 freeingRun = some s ∧
    s.update 3 = some s₁ ∧ (s₁.after mixedCalls).rollback 4096 false = some s₂ ∧
    Restores 4096 false s₁ (s₁.after mixedCalls) s₂ := by
  obtain ⟨s, s₁, hs, hs₁, hcalls⟩ : ∃ s s₁, created.run 4096 freeingRun = some s ∧
      s.update 3 = some s₁ ∧ (s₁.after mixedCalls).calls 4096 (.rollback false) =
        ([(2, 1)], [(4, 2)]) := ⟨_, _, rfl, rfl, rfl⟩
  have hasks : ∀ c ∈ mixedCalls, c.Asks := by decide
  obtain ⟨⟨s₂, hs₂⟩, hiff⟩ := rollback_restores_iff (by decide) hs hs₁ hasks
  refine ⟨s, s₁, s₂, hs, hs₁, hs₂, (hiff false s₂ hs₂).2 ?_⟩
  unfold RecordsPreceded
  rw [hcalls]
  exact ⟨fun _ => ⟨2, by decide, by decide⟩, trivial⟩

/-- A run of two pages becomes free. -/
def oneRun : List AllocatorEvent := [.update 0, .alloc 2, .free (2, 2), .commit false]

/-- **A step before `begin()`**: the first of two free pages is taken and given back. -/
theorem not_rollback_restores : ∃ s s₁ s₂, created.run 4096 oneRun = some s ∧ s.update 3 = some s₁ ∧
    (s₁.after [.alloc 1]).rollback 4096 false = some s₂ ∧
    ¬ Restores 4096 false s₁ (s₁.after [.alloc 1]) s₂ := by
  obtain ⟨s, s₁, s₂, hs, hs₁, hs₂, hcalls⟩ : ∃ s s₁ s₂, created.run 4096 oneRun = some s ∧
      s.update 3 = some s₁ ∧ (s₁.after [.alloc 1]).rollback 4096 false = some s₂ ∧
        (s₁.after [.alloc 1]).calls 4096 (.rollback false) = ([(3, 1)], [(2, 1)]) :=
          ⟨_, _, _, rfl, rfl, rfl, rfl⟩
  refine ⟨s, s₁, s₂, hs, hs₁, hs₂, fun h => ?_⟩
  have hinside := h.inside
  rw [hcalls] at hinside
  exact hinside.1 ⟨rfl, (3, 1), rfl, rfl⟩

end Restoring

end Allocator

end AtomKV
