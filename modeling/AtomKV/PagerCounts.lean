import AtomKV.Pager
import AtomKV.Lib.Runs

/-!
# What the pager's maps hold, page by page

Every page id is counted in the free map, in the pending map, or past the end of the file. The
operations of the pager move pages between these places and the caller, and no page is lost on the
way: each lemma here is an equation between counts.
-/

set_option autoImplicit false

namespace AtomKV

namespace Pager

/-- How often `p` is pending. -/
def pendingCount (m : List (Nat × List PagePair)) (p : Nat) : ℕ :=
  (m.map fun e => runsCount e.2 p).sum

/-- How often `p` is pending for the transaction `t`. -/
def pendingCountAt (m : List (Nat × List PagePair)) (t : Nat) (p : Nat) : ℕ :=
  (m.map fun e => if e.1 = t then runsCount e.2 p else 0).sum

@[simp] theorem pendingCount_nil (p : Nat) : pendingCount [] p = 0 := rfl

@[simp] theorem pendingCount_cons (e : Nat × List PagePair) (m : List (Nat × List PagePair))
    (p : Nat) : pendingCount (e :: m) p = runsCount e.2 p + pendingCount m p := by
  simp [pendingCount]

@[simp] theorem pendingCountAt_nil (t : Nat) (p : Nat) : pendingCountAt [] t p = 0 := rfl

@[simp] theorem pendingCountAt_cons (e : Nat × List PagePair) (m : List (Nat × List PagePair))
    (t : Nat) (p : Nat) : pendingCountAt (e :: m) t p =
      (if e.1 = t then runsCount e.2 p else 0) + pendingCountAt m t p := by
  simp [pendingCountAt]

theorem runsCount_le_pendingCount {m : List (Nat × List PagePair)} {e : Nat × List PagePair}
    (he : e ∈ m) (p : Nat) : runsCount e.2 p ≤ pendingCount m p := by
  induction m with
  | nil => cases he
  | cons e' m ih =>
    rw [pendingCount_cons]
    rcases List.mem_cons.1 he with rfl | he
    · exact Nat.le_add_right _ _
    · exact Nat.le_trans (ih he) (Nat.le_add_left _ _)

theorem pendingCount_addPending (txid : Nat) (r : PagePair) (m : List (Nat × List PagePair))
    (p : Nat) : pendingCount (addPending txid r m) p = pendingCount m p + runCount r p := by
  induction m with
  | nil => simp [addPending]
  | cons e m ih =>
    obtain ⟨t, runs⟩ := e
    unfold addPending
    split_ifs with h1 h2
    · rw [pendingCount_cons, pendingCount_cons, ih]
      omega
    · simp
      omega
    · simp
      omega

theorem pendingCountAt_addPending (txid : Nat) (r : PagePair) (m : List (Nat × List PagePair))
    (t : Nat) (p : Nat) :
    pendingCountAt (addPending txid r m) t p =
      pendingCountAt m t p + if txid = t then runCount r p else 0 := by
  induction m with
  | nil => simp [addPending]
  | cons e m ih =>
    obtain ⟨t', runs⟩ := e
    unfold addPending
    by_cases h1 : t' < txid
    · rw [if_pos h1, pendingCountAt_cons, pendingCountAt_cons, ih]
      omega
    · by_cases h2 : t' = txid
      · subst h2
        rw [if_neg h1, if_pos rfl]
        simp only [pendingCountAt_cons, runsCount_append, runsCount_cons, runsCount_nil]
        by_cases h3 : t' = t
        · simp only [if_pos h3]
          omega
        · simp only [if_neg h3]
          omega
      · rw [if_neg h1, if_neg h2]
        simp only [pendingCountAt_cons, runsCount_cons, runsCount_nil, Nat.add_zero]
        omega

/-! ## Pending runs of one transaction each -/

/-- Every run of the pending map ends at or before `bound`. -/
def PendingIn (m : List (Nat × List PagePair)) (bound : ℕ) : Prop :=
  ∀ e ∈ m, ∀ r ∈ e.2, r.1 + r.2 ≤ bound

theorem PendingIn.addPending {m : List (Nat × List PagePair)} {bound : ℕ} (h : PendingIn m bound)
    (txid : Nat) {r : PagePair} (hr : r.1 + r.2 ≤ bound) :
      PendingIn (addPending txid r m) bound := by
  induction m with
  | nil =>
    intro e he q hq
    obtain rfl := List.mem_singleton.1 he
    obtain rfl := List.mem_singleton.1 hq
    exact hr
  | cons e m ih =>
    obtain ⟨t, runs⟩ := e
    have hm : PendingIn m bound := fun e he => h e (List.mem_cons_of_mem _ he)
    have hruns := h (t, runs) List.mem_cons_self
    unfold Pager.addPending
    split_ifs with h1 h2
    · exact List.forall_mem_cons.2 ⟨hruns, ih hm⟩
    · refine List.forall_mem_cons.2 ⟨fun q hq => ?_, hm⟩
      rcases List.mem_append.1 hq with hq | hq
      · exact hruns q hq
      · obtain rfl := List.mem_singleton.1 hq
        exact hr
    · refine List.forall_mem_cons.2 ⟨fun q hq => ?_, h⟩
      obtain rfl := List.mem_singleton.1 hq
      exact hr

theorem PendingIn.mono {m : List (Nat × List PagePair)} {bound bound' : ℕ} (h : PendingIn m bound)
    (hb : bound ≤ bound') : PendingIn m bound' :=
  fun e he r hr => Nat.le_trans (h e he r hr) hb

/-- The transactions of the pending map come in ascending order. -/
def PendingSorted (m : List (Nat × List PagePair)) : Prop :=
  m.Pairwise fun e e' => e.1 < e'.1

/-- The entry of the transaction changes and no other. -/
theorem mem_addPending {m : List (Nat × List PagePair)} {txid : Nat} {r : PagePair}
    {e : Nat × List PagePair} (he : e ∈ addPending txid r m) : e.1 = txid ∨ e ∈ m := by
  induction m with
  | nil => exact .inl (congrArg Prod.fst (List.mem_singleton.1 he))
  | cons e' m ih =>
    obtain ⟨t, runs⟩ := e'
    unfold addPending at he
    split_ifs at he with h1 h2
    · rcases List.mem_cons.1 he with rfl | he
      · exact .inr List.mem_cons_self
      · exact (ih he).imp_right (List.mem_cons_of_mem _)
    · rcases List.mem_cons.1 he with rfl | he
      · exact .inl h2
      · exact .inr (List.mem_cons_of_mem _ he)
    · rcases List.mem_cons.1 he with rfl | he
      · exact .inl rfl
      · exact .inr he

theorem PendingSorted.addPending {m : List (Nat × List PagePair)} (h : PendingSorted m) (txid : Nat)
    (r : PagePair) : PendingSorted (addPending txid r m) := by
  induction m with
  | nil => simp [Pager.addPending, PendingSorted]
  | cons e m ih =>
    obtain ⟨t, runs⟩ := e
    obtain ⟨hlt, hm⟩ := List.pairwise_cons.1 h
    unfold Pager.addPending
    split_ifs with h1 h2
    · refine List.pairwise_cons.2 ⟨fun e he => ?_, ih hm⟩
      rcases mem_addPending he with h | he
      · exact h ▸ h1
      · exact hlt e he
    · exact List.pairwise_cons.2 ⟨hlt, hm⟩
    · refine List.pairwise_cons.2 ⟨fun e he => ?_, h⟩
      have h3 : txid < t := by omega
      rcases List.mem_cons.1 he with rfl | he
      · exact h3
      · exact Nat.lt_trans h3 (hlt e he)

/-! ## Taking runs out of the free map -/

/-- The run that is handed out leaves the map and nothing else does. -/
theorem runsCount_allocFromMap {count : Nat} {m m' : List PagePair} {pgid : Nat}
    (h : allocFromMap count m = some (pgid, m')) (p : Nat) :
    runsCount m p = runCount (pgid, count) p + runsCount m' p := by
  induction m generalizing m' with
  | nil => simp [allocFromMap] at h
  | cons r rest ih =>
    obtain ⟨start, freeCount⟩ := r
    unfold allocFromMap at h
    split_ifs at h with h1 h2
    · obtain ⟨⟨q, m''⟩, hq, he⟩ := Option.map_eq_some_iff.1 h
      obtain ⟨rfl, rfl⟩ := Prod.mk.inj he
      have key := ih hq
      simp only [runsCount_cons, key]
      omega
    · obtain ⟨rfl, rfl⟩ := Prod.mk.inj (Option.some.inj h)
      have hsplit := runCount_add start count (freeCount - count) p
      rw [Nat.add_sub_cancel' (Nat.le_of_lt h2)] at hsplit
      simp only [runsCount_cons, hsplit]
      omega
    · obtain ⟨rfl, rfl⟩ := Prod.mk.inj (Option.some.inj h)
      obtain rfl : freeCount = count := by omega
      rw [runsCount_cons]

/-- What is handed out and what stays lies where the map's runs lay. -/
theorem allocFromMap_in {count : Nat} {m m' : List PagePair} {pgid : Nat} {bound : ℕ}
    (h : allocFromMap count m = some (pgid, m')) (hm : ∀ r ∈ m, r.1 + r.2 ≤ bound) :
    pgid + count ≤ bound ∧ ∀ r ∈ m', r.1 + r.2 ≤ bound := by
  induction m generalizing m' with
  | nil => simp [allocFromMap] at h
  | cons r rest ih =>
    obtain ⟨start, freeCount⟩ := r
    have hrest : ∀ r ∈ rest, r.1 + r.2 ≤ bound := fun r hr => hm r (List.mem_cons_of_mem _ hr)
    have hfirst : start + freeCount ≤ bound := hm (start, freeCount) List.mem_cons_self
    unfold allocFromMap at h
    split_ifs at h with h1 h2
    · obtain ⟨⟨q, m''⟩, hq, he⟩ := Option.map_eq_some_iff.1 h
      obtain ⟨rfl, rfl⟩ := Prod.mk.inj he
      obtain ⟨hrun, hm''⟩ := ih hq hrest
      exact ⟨hrun, List.forall_mem_cons.2 ⟨hfirst, hm''⟩⟩
    · obtain ⟨rfl, rfl⟩ := Prod.mk.inj (Option.some.inj h)
      refine ⟨by omega, List.forall_mem_cons.2 ⟨?_, hrest⟩⟩
      show start + count + (freeCount - count) ≤ bound
      omega
    · obtain ⟨rfl, rfl⟩ := Prod.mk.inj (Option.some.inj h)
      exact ⟨by omega, hrest⟩

/-! ## Putting runs into the free map -/

/-- What a free map must satisfy to take the run `(pgid, count)`: no page is covered twice, and all
runs end at or before `bound`. -/
structure Takes (m : List PagePair) (pgid : Nat) (count : Nat) (bound : ℕ) : Prop where
  bound_lt : bound < 4294967296
  run_in : pgid + count ≤ bound
  runs_in : ∀ r ∈ m, r.1 + r.2 ≤ bound
  once : ∀ p, runsCount m p + runCount (pgid, count) p ≤ 1

section FreeToMap

variable {m : List PagePair} {pgid : Nat} {count : Nat} {bound : ℕ}

/-- A run of the map that starts where the freed run starts has to be empty, or the freed run is. -/
theorem Takes.empty_of_start_eq (h : Takes m pgid count bound) {r : PagePair} (hr : r ∈ m)
    (he : r.1 = pgid) : r.2 = 0 ∨ count = 0 := by
  by_contra hne
  have hp : 0 < runCount r pgid := (runCount_pos_iff _ _).2 (by omega)
  have hq : 0 < runCount (pgid, count) pgid :=
    (runCount_pos_iff _ _).2 ⟨Nat.le_refl _, show pgid < pgid + count by omega⟩
  have := runCount_le_runsCount hr pgid
  have := h.once pgid
  omega

/-- The way `FreeToMap` ends: the run goes in as it is, or it extends the run before it. -/
def joinBelow (below : List PagePair) (pgid count : Nat) (above : List PagePair) : List PagePair :=
  match below.getLast? with
  | some pred =>
      if u32 (pred.1 + pred.2) = pgid then below.dropLast ++ (pred.1, u32 (pred.2 + count)) :: above
      else below ++ (pgid, count) :: above
  | none => (pgid, count) :: above

/-- Runs that lie in the range of `PageId`, and whose property goes over to a run and the one
right behind it. -/
structure Joins (Q : PagePair → Prop) : Prop where
  lt : ∀ {r : PagePair}, Q r → r.1 + r.2 < 4294967296
  join : ∀ {a n k : Nat}, Q (a, n) → Q (a + n, k) → Q (a, n + k)

theorem Joins.bounded (hlt : bound < 4294967296) : Joins fun r => r.1 + r.2 ≤ bound where
  lt := fun h => Nat.lt_of_le_of_lt h hlt
  join := fun _ h' => (Nat.add_assoc _ _ _).symm.trans_le h'

section Joins

variable {Q : PagePair → Prop}

theorem forall_mem_insert {below above : List PagePair} {r : PagePair} (hbelow : ∀ r ∈ below, Q r)
    (hr : Q r) (habove : ∀ r ∈ above, Q r) : ∀ q ∈ below ++ r :: above, Q q := by
  intro q hq
  rcases List.mem_append.1 hq with hq | hq
  · exact hbelow q hq
  · rcases List.mem_cons.1 hq with rfl | hq
    · exact hr
    · exact habove q hq

theorem Joins.joinBelow (hQ : Joins Q) {below above : List PagePair} {pgid count : Nat}
    (hbelow : ∀ r ∈ below, Q r) (hrun : Q (pgid, count)) (habove : ∀ r ∈ above, Q r) :
      ∀ r ∈ joinBelow below pgid count above, Q r := by
  unfold Pager.joinBelow
  cases hl : below.getLast? with
  | none => exact List.forall_mem_cons.2 ⟨hrun, habove⟩
  | some pred =>
    obtain ⟨start, len⟩ := pred
    have hpred : Q (start, len) := hbelow _ (List.mem_of_getLast? hl)
    have hplt : start + len < 4294967296 := hQ.lt hpred
    have hlt : pgid + count < 4294967296 := hQ.lt hrun
    by_cases he : u32 (start + len) = pgid
    · simp only [if_pos he]
      rw [u32_of_lt hplt] at he
      subst he
      rw [u32_of_lt (by omega)]
      exact forall_mem_insert (fun r hr => hbelow r (List.dropLast_subset _ hr))
        (hQ.join hpred hrun) habove
    · simp only [if_neg he]
      exact forall_mem_insert hbelow hrun habove

/-- A property of runs that goes over to joined runs holds in the map after the run has been freed.
-/
theorem Joins.freeToMap (hQ : Joins Q) (hm : ∀ r ∈ m, Q r) (hrun : Q (pgid, count)) :
    ∀ r ∈ freeToMap m pgid count, Q r := by
  have hb : ∀ r ∈ m.takeWhile (fun r => r.1 < pgid), Q r :=
    fun r hr => hm r ((List.takeWhile_sublist _).subset hr)
  have ha : ∀ r ∈ m.dropWhile (fun r => r.1 < pgid), Q r :=
    fun r hr => hm r ((List.dropWhile_sublist _).subset hr)
  have hlt : pgid + count < 4294967296 := hQ.lt hrun
  unfold Pager.freeToMap
  generalize m.takeWhile (fun r => r.1 < pgid) = below at hb ⊢
  generalize m.dropWhile (fun r => r.1 < pgid) = above at ha ⊢
  cases above with
  | nil => exact hQ.joinBelow hb hrun ha
  | cons next rest =>
    obtain ⟨start, len⟩ := next
    obtain ⟨hnext, hrest⟩ := List.forall_mem_cons.1 ha
    have hnlt : start + len < 4294967296 := hQ.lt hnext
    by_cases h1 : start = u32 (pgid + count)
    · -- the successor is swallowed
      simp only [if_pos h1]
      rw [u32_of_lt hlt] at h1
      subst h1
      rw [u32_of_lt (by omega)]
      exact hQ.joinBelow hb (hQ.join hrun hnext) hrest
    · simp only [if_neg h1]
      by_cases h2 : u32 (start + len) = pgid
      · simp only [if_pos h2]
        rw [u32_of_lt hnlt] at h2
        subst h2
        rw [u32_of_lt (by omega)]
        exact forall_mem_insert hb (hQ.join hnext hrun) hrest
      · simp only [if_neg h2]
        by_cases h3 : start = pgid
        · simp only [if_pos h3]
          exact hm
        · simp only [if_neg h3]
          exact forall_mem_insert hb hrun ha

/-- The same for runs that are freed one after the other. -/
theorem Joins.foldl_freeToMap (hQ : Joins Q) {rs : List PagePair} (hm : ∀ r ∈ m, Q r)
    (hrs : ∀ r ∈ rs, Q r) : ∀ r ∈ rs.foldl (fun m r => Pager.freeToMap m r.1 r.2) m, Q r := by
  induction rs generalizing m with
  | nil => exact hm
  | cons r rs ih =>
    obtain ⟨hr, hrest⟩ := List.forall_mem_cons.1 hrs
    exact ih (hQ.freeToMap hm hr) hrest

end Joins

theorem runsCount_joinBelow {below above : List PagePair} (hlt : bound < 4294967296)
    (hrun : pgid + count ≤ bound) (hbelow : ∀ r ∈ below, r.1 + r.2 ≤ bound) (p : ℕ) :
    runsCount (joinBelow below pgid count above) p =
      runsCount below p + runCount (pgid, count) p + runsCount above p := by
  unfold joinBelow
  cases hl : below.getLast? with
  | none =>
    obtain rfl : below = [] := List.getLast?_eq_none_iff.1 hl
    simp
  | some pred =>
    obtain ⟨start, len⟩ := pred
    have hp : start + len ≤ bound := hbelow (start, len) (List.mem_of_getLast? hl)
    by_cases he : u32 (start + len) = pgid
    · simp only [if_pos he]
      rw [u32_of_lt (by omega)] at he
      rw [u32_of_lt (show len + count < 4294967296 by omega)]
      have h1 := runsCount_dropLast_add hl p
      have h2 := runCount_add start len count p
      rw [he] at h2
      simp only [runsCount_append, runsCount_cons, h2]
      omega
    · simp only [if_neg he, runsCount_append, runsCount_cons]
      omega

/-- Freeing a run adds exactly its pages. -/
theorem runsCount_freeToMap (h : Takes m pgid count bound) (p : ℕ) :
    runsCount (freeToMap m pgid count) p = runsCount m p + runCount (pgid, count) p := by
  have hrun := h.run_in
  have hlt := h.bound_lt
  have hsplit := runsCount_takeWhile_add_dropWhile (fun r => r.1 < pgid) m p
  have hb : ∀ r ∈ m.takeWhile (fun r => r.1 < pgid), r ∈ m :=
    fun r hr => (List.takeWhile_sublist _).subset hr
  have ha : ∀ r ∈ m.dropWhile (fun r => r.1 < pgid), r ∈ m :=
    fun r hr => (List.dropWhile_sublist _).subset hr
  unfold freeToMap
  generalize m.takeWhile (fun r => r.1 < pgid) = below at hsplit hb ⊢
  generalize m.dropWhile (fun r => r.1 < pgid) = above at hsplit ha ⊢
  have hbelow : ∀ r ∈ below, r.1 + r.2 ≤ bound := fun r hr => h.runs_in r (hb r hr)
  rw [← hsplit]
  -- The run joins the one behind it, or one that ends at it, or it goes in between the two.
  cases above with
  | nil => exact (runsCount_joinBelow hlt hrun hbelow p).trans (by rw [runsCount_nil]; omega)
  | cons next rest =>
    obtain ⟨start, len⟩ := next
    have hnext : (start, len) ∈ m := ha (start, len) List.mem_cons_self
    have hend : start + len ≤ bound := h.runs_in (start, len) hnext
    by_cases h1 : start = u32 (pgid + count)
    · simp only [if_pos h1]
      rw [u32_of_lt (by omega)] at h1
      rw [u32_of_lt (show count + len < 4294967296 by omega)]
      refine (runsCount_joinBelow hlt (show pgid + (count + len) ≤ bound by omega) hbelow p).trans
        ?_
      rw [runsCount_cons, runCount_add, ← h1]
      omega
    · simp only [if_neg h1]
      by_cases h2 : u32 (start + len) = pgid
      · simp only [if_pos h2]
        rw [u32_of_lt (by omega)] at h2
        rw [u32_of_lt (show len + count < 4294967296 by omega)]
        have h3 := runCount_add start len count p
        rw [h2] at h3
        simp only [runsCount_append, runsCount_cons, h3]
        omega
      -- No run of the map starts where the freed run does.
      · have h3 : start ≠ pgid := by
          intro he
          rw [u32_of_lt (by omega)] at h1 h2
          have := h.empty_of_start_eq hnext he
          omega
        simp only [if_neg h2, if_neg h3, runsCount_append, runsCount_cons]
        omega

/-- Freeing a run adds exactly its pages, and keeps the runs of the map in range. -/
theorem freeToMap_spec (h : Takes m pgid count bound) :
    (∀ p, runsCount (freeToMap m pgid count) p = runsCount m p + runCount (pgid, count) p) ∧
      ∀ r ∈ freeToMap m pgid count, r.1 + r.2 ≤ bound :=
  ⟨runsCount_freeToMap h, (Joins.bounded h.bound_lt).freeToMap h.runs_in h.run_in⟩

/-- Freeing a list of runs, one after the other. -/
theorem foldl_freeToMap_spec {rs : List PagePair} (hbound : bound < 4294967296)
    (hm : ∀ r ∈ m, r.1 + r.2 ≤ bound) (hrs : ∀ r ∈ rs, r.1 + r.2 ≤ bound)
    (honce : ∀ p, runsCount m p + runsCount rs p ≤ 1) :
    (∀ p, runsCount (rs.foldl (fun m r => freeToMap m r.1 r.2) m) p =
        runsCount m p + runsCount rs p) ∧
      ∀ r ∈ rs.foldl (fun m r => freeToMap m r.1 r.2) m, r.1 + r.2 ≤ bound := by
  induction rs generalizing m with
  | nil => exact ⟨fun p => by simp, hm⟩
  | cons r rs ih =>
    obtain ⟨start, len⟩ := r
    have htakes : Takes m start len bound :=
      { bound_lt := hbound
        run_in := hrs (start, len) List.mem_cons_self
        runs_in := hm
        once := fun p => by
          have := honce p
          rw [runsCount_cons] at this
          omega }
    obtain ⟨hcount, hin⟩ := freeToMap_spec htakes
    have key := ih hin (fun r hr => hrs r (List.mem_cons_of_mem _ hr)) fun p => by
      have h1 := honce p
      have h2 := hcount p
      rw [runsCount_cons] at h1
      omega
    refine ⟨fun p => ?_, key.2⟩
    rw [List.foldl_cons, key.1 p, hcount p, runsCount_cons]
    omega

end FreeToMap

end Pager

end AtomKV
