import AtomKV.Allocator
import Mathlib.Data.List.Pairwise

/-!
# Runs that touch

`FreeToMap` is meant to keep the free map without two runs that touch. It looks at the successor
first. When the successor touches, the iterator steps back, even from `begin()`; when it does not,
the predecessor is never looked at. This module says for which calls the map stays as it should, and
what holds in runs made of such calls.
-/

set_option autoImplicit false

namespace AtomKV

/-- Runs that cover `n` numbers in a row, and of which no two touch, cover them with one run. -/
theorem exists_run_of_covered {rs : List (ℕ × ℕ)} (hrs : rs.Pairwise fun r r' => r.1 + r.2 < r'.1)
    {p n : ℕ} (hcovered : ∀ q, p ≤ q → q < p + (n + 1) → 0 < runsCount rs q) :
    ∃ r ∈ rs, r.1 ≤ p ∧ p + (n + 1) ≤ r.1 + r.2 := by
  induction n with
  | zero => exact runsCount_pos (hcovered p (Nat.le_refl _) (Nat.lt_succ_self _))
  | succ n ih =>
    obtain ⟨r, hr, hlow, hhigh⟩ := ih fun q hq hlt => hcovered q hq (by omega)
    obtain ⟨r', hr', hlow', hhigh'⟩ := runsCount_pos (hcovered (p + (n + 1)) (by omega) (by omega))
    by_cases heq : r = r'
    · subst heq
      exact ⟨r, hr, hlow, by omega⟩
    · -- two runs of the list do not touch
      have hsymm : Std.Symm fun a b : ℕ × ℕ => a.1 + a.2 < b.1 ∨ b.1 + b.2 < a.1 :=
        ⟨fun _ _ => Or.symm⟩
      have hpair : rs.Pairwise fun a b => a.1 + a.2 < b.1 ∨ b.1 + b.2 < a.1 := hrs.imp Or.inl
      have hapart := hpair.forall hr hr' heq
      omega

namespace Pager

/-- Non-empty runs of which no two share a page or touch. -/
structure Separate (m : List PagePair) : Prop where
  ordered : m.Pairwise fun r r' => r.1 + r.2 < r'.1
  pos : ∀ r ∈ m, 0 < r.2

/-- `tmp_iter--` at `begin()`. -/
def StepsBeforeBegin (m : List PagePair) (pgid count : Nat) : Prop :=
  below m pgid = [] ∧ ∃ next ∈ (above m pgid).head?, next.1 = u32 (pgid + count)

/-- What a call of `FreeToMap` should do. -/
structure Coalesces (m : List PagePair) (pgid count : Nat) : Prop where
  inside : ¬ StepsBeforeBegin m pgid count
  separate : Separate (freeToMap m pgid count)
  pages : ∀ p, runsCount (freeToMap m pgid count) p = runsCount m p + runCount (pgid, count) p

/-- When a run follows directly, some run lies before; when one follows at a distance only, no
run ends where the
    freed one starts. -/
def Joinable (m : List PagePair) (pgid count : Nat) : Prop :=
  ((∃ r ∈ m, r.1 = pgid + count) → ∃ r ∈ m, r.1 < pgid) ∧
    ((∃ r ∈ m, pgid + count < r.1) → (∃ r ∈ m, r.1 = pgid + count) ∨ ∀ r ∈ m, r.1 + r.2 ≠ pgid)

instance (m : List PagePair) (pgid count : Nat) : Decidable (Joinable m pgid count) :=
  inferInstanceAs (Decidable (_ ∧ _))

namespace Separate

variable {m xs ys : List PagePair} {pgid count : Nat}

theorem nil : Separate [] := ⟨.nil, fun _ h => (List.not_mem_nil h).elim⟩

theorem ascending (h : Separate m) : Ascending m := ⟨h.ordered.imp Nat.le_of_lt, h.pos⟩

/-- A run between two parts that it does not touch. -/
theorem insert (h : Separate (xs ++ ys)) (hcount : 0 < count) (hlow : ∀ r ∈ xs, r.1 + r.2 < pgid)
    (hhigh : ∀ r ∈ ys, pgid + count < r.1) : Separate (xs ++ (pgid, count) :: ys) := by
  obtain ⟨hxs, hys, hcross⟩ := List.pairwise_append.1 h.ordered
  refine ⟨List.pairwise_append.2 ⟨hxs, List.pairwise_cons.2 ⟨hhigh, hys⟩, fun x hx q hq => ?_⟩,
    fun q hq => ?_⟩
  · rcases List.mem_cons.1 hq with rfl | hq
    · exact hlow x hx
    · exact hcross x hx q hq
  · rcases List.mem_append.1 hq with hq | hq
    · exact h.pos q (List.mem_append_left _ hq)
    · rcases List.mem_cons.1 hq with rfl | hq
      · exact hcount
      · exact h.pos q (List.mem_append_right _ hq)

theorem of_insert (h : Separate (xs ++ (pgid, count) :: ys)) : ∀ r ∈ xs, r.1 + r.2 < pgid :=
  fun r hr =>
  (List.pairwise_append.1 h.ordered).2.2 r hr (pgid, count) List.mem_cons_self

/-- A run that touches nothing above goes into the run it follows, or stands alone. -/
theorem joinPred (h : Separate (xs ++ ys)) (hcount : 0 < count) (hlow : ∀ r ∈ xs, r.1 + r.2 ≤ pgid)
    (hhigh : ∀ r ∈ ys, pgid + count < r.1) : Separate (joinPred xs pgid count ys) := by
  obtain rfl | ⟨zs, ⟨start, len⟩, rfl⟩ := List.eq_nil_or_concat' xs
  · rw [joinPred_nil]
    exact h.insert hcount (fun r hr => (List.not_mem_nil hr).elim) hhigh
  · rw [joinPred_concat]
    have hlast : start + len ≤ pgid := hlow (start, len) (by simp)
    have hpos : 0 < len := h.pos (start, len) (by simp)
    have hzs : ∀ r ∈ zs, r.1 + r.2 < start := fun r hr =>
      (List.pairwise_append.1 (List.pairwise_append.1 h.ordered).1).2.2 r hr (start, len)
        (List.mem_singleton.2 rfl)
    have hrest : Separate (zs ++ ys) := by
      refine ⟨h.ordered.sublist ?_, fun r hr => h.pos r ?_⟩
      · exact (List.sublist_append_left zs [(start, len)]).append_right ys
      · rcases List.mem_append.1 hr with hr | hr
        · exact List.mem_append_left _ (List.mem_append_left _ hr)
        · exact List.mem_append_right _ hr
    split_ifs with he
    · refine hrest.insert (Nat.add_pos_left hpos _) hzs fun r hr => ?_
      have := hhigh r hr
      omega
    · rw [List.append_cons]
      refine h.insert hcount (fun r hr => ?_) hhigh
      rcases List.mem_append.1 hr with hr | hr
      · have := hzs r hr
        omega
      · obtain rfl := List.mem_singleton.1 hr
        exact Nat.lt_of_le_of_ne hlast he

end Separate

/-! ## One call -/

section Call

variable {m : List PagePair} {pgid count : Nat} {bound : ℕ}

/-- A call of `FreeToMap` does what it should exactly when the runs around the freed one let it. -/
theorem coalesces_iff_joinable (hm : Separate m) (h : Takes m pgid count bound)
    (hcount : 0 < count) : Coalesces m pgid count ↔ Joinable m pgid count := by
  have ha := hm.ascending.around h hcount
  have hpages := (freeToMap_spec h).1
  have hmem : ∀ r, r ∈ m ↔ r ∈ below m pgid ∨ r ∈ above m pgid := fun r => by
    rw [← List.mem_append, ha.append]
  have hsplit : Separate (below m pgid ++ above m pgid) := by
    rw [ha.append]
    exact hm
  have hend : u32 (pgid + count) = pgid + count :=
    u32_of_lt (by have := h.bound_lt; have := h.run_in; omega)
  have hbelow : ∀ r ∈ below m pgid, r.1 < pgid := fun r hr => by
    have := ha.low r hr
    have := hm.pos r ((hmem r).2 (.inl hr))
    omega
  rcases ha.freeToMap_cases hm.ascending h hcount
    with ⟨hnil, he⟩ | ⟨len, rest, hcons, he⟩ | ⟨next, rest, hcons, hlt, he⟩
  · -- no run above
    have hall : ∀ r ∈ m, r.1 < pgid := fun r hr => by
      rcases (hmem r).1 hr with hr | hr
      · exact hbelow r hr
      · rw [hnil] at hr
        cases hr
    refine iff_of_true ⟨?_, ?_, hpages⟩ ⟨?_, ?_⟩
    · rintro ⟨-, next, hnext, -⟩
      rw [hnil] at hnext
      cases hnext
    · rw [he]
      rw [hnil] at hsplit
      exact hsplit.joinPred hcount ha.low fun r hr => (List.not_mem_nil hr).elim
    · rintro ⟨r, hr, heq⟩
      have := hall r hr
      omega
    · rintro ⟨r, hr, hlt⟩
      have := hall r hr
      omega
  · -- the successor touches
    have hnext : (pgid + count, len) ∈ m := (hmem _).2 (.inr (hcons ▸ List.mem_cons_self))
    have hrest : ∀ r ∈ rest, pgid + (count + len) < r.1 := fun r hr => by
      rw [hcons] at hsplit
      have := (List.pairwise_cons.1 (List.pairwise_append.1 hsplit.ordered).2.1).1 r hr
      simp only at this
      omega
    have hseparate : Separate (freeToMap m pgid count) := by
      rw [he]
      refine Separate.joinPred ⟨?_, ?_⟩ (Nat.add_pos_left hcount _) ha.low hrest
      · rw [hcons] at hsplit
        exact hsplit.ordered.sublist (List.Sublist.append_left (List.sublist_cons_self _ _) _)
      · intro r hr
        refine hm.pos r ((hmem r).2 ((List.mem_append.1 hr).imp_right fun hr => ?_))
        rw [hcons]
        exact List.mem_cons_of_mem _ hr
    constructor
    · rintro ⟨hinside, -, -⟩
      refine ⟨fun _ => ?_, fun _ => .inl ⟨_, hnext, rfl⟩⟩
      obtain ⟨r, hr⟩ := List.exists_mem_of_ne_nil _ fun hnil =>
        hinside ⟨hnil, (pgid + count, len), by rw [hcons]; rfl, hend.symm⟩
      exact ⟨r, (hmem r).2 (.inl hr), hbelow r hr⟩
    · rintro ⟨hpred, -⟩
      refine ⟨?_, hseparate, hpages⟩
      rintro ⟨hnil, -⟩
      obtain ⟨r, hr, hlt⟩ := hpred ⟨_, hnext, rfl⟩
      rcases (hmem r).1 hr with hr | hr
      · rw [hnil] at hr
        cases hr
      · have := ha.high r hr
        omega
  · -- the successor is at a distance
    have hnext : next ∈ m := (hmem _).2 (.inr (hcons ▸ List.mem_cons_self))
    have habove : ∀ r ∈ above m pgid, pgid + count < r.1 := fun r hr => by
      rw [hcons] at hsplit hr
      rcases List.mem_cons.1 hr with rfl | hr
      · exact hlt
      · have := (List.pairwise_cons.1 (List.pairwise_append.1 hsplit.ordered).2.1).1 r hr
        omega
    have hnone : ¬ ∃ r ∈ m, r.1 = pgid + count := by
      rintro ⟨r, hr, heq⟩
      rcases (hmem r).1 hr with hr | hr
      · have := hbelow r hr
        omega
      · have := habove r hr
        omega
    rw [← hcons] at he
    constructor
    · rintro ⟨-, hseparate, -⟩
      refine ⟨fun hex => absurd hex hnone, fun _ => .inr fun r hr => ?_⟩
      rw [he] at hseparate
      rcases (hmem r).1 hr with hr | hr
      · exact Nat.ne_of_lt (hseparate.of_insert r hr)
      · have := habove r hr
        omega
    · rintro ⟨-, hpred⟩
      refine ⟨?_, ?_, hpages⟩
      · rintro ⟨-, r, hr, heq⟩
        exact hnone ⟨r, (hmem r).2 (.inr (List.mem_of_mem_head? hr)), heq.trans hend⟩
      · rw [he]
        refine hsplit.insert hcount (fun r hr => ?_) habove
        have hne := (hpred ⟨next, hnext, hlt⟩).resolve_left hnone r ((hmem r).2 (.inl hr))
        exact Nat.lt_of_le_of_ne (ha.low r hr) hne

end Call

/-! ## Allocation -/

section Alloc

variable {m m' : List PagePair} {pgid count : Nat}

/-- `AllocFromMap` takes the first pages of a run, so that nothing new touches. -/
theorem Separate.allocFromMap (hm : Separate m) (h : allocFromMap count m = some (pgid, m')) :
    Separate m' := by
  induction m generalizing m' with
  | nil => cases h
  | cons r rest ih =>
    obtain ⟨start, freeCount⟩ := r
    obtain ⟨hfirst, hord⟩ := List.pairwise_cons.1 hm.ordered
    have hrest : Separate rest := ⟨hord, fun q hq => hm.pos q (List.mem_cons_of_mem _ hq)⟩
    unfold Pager.allocFromMap at h
    split_ifs at h with h1 h2
    · obtain ⟨⟨q, m''⟩, hq, he⟩ := Option.map_eq_some_iff.1 h
      obtain ⟨rfl, rfl⟩ := Prod.mk.inj he
      have hih := ih hrest hq
      refine ⟨List.pairwise_cons.2 ⟨fun r' hr' => ?_, hih.ordered⟩,
        List.forall_mem_cons.2 ⟨hm.pos _ List.mem_cons_self, hih.pos⟩⟩
      obtain ⟨r, hr, hle⟩ := allocFromMap_start hq r' hr'
      exact Nat.lt_of_lt_of_le (hfirst r hr) hle
    · obtain ⟨rfl, rfl⟩ := Prod.mk.inj (Option.some.inj h)
      refine ⟨List.pairwise_cons.2 ⟨fun r' hr' => ?_, hord⟩,
        List.forall_mem_cons.2 ⟨Nat.sub_pos_of_lt h2, hrest.pos⟩⟩
      have := hfirst r' hr'
      simp only at this ⊢
      omega
    · obtain ⟨rfl, rfl⟩ := Prod.mk.inj (Option.some.inj h)
      exact hrest

theorem lt_of_allocFromMap_none (h : allocFromMap count m = none) : ∀ r ∈ m, r.2 < count := by
  induction m with
  | nil => exact fun _ hr => (List.not_mem_nil hr).elim
  | cons r rest ih =>
    obtain ⟨start, freeCount⟩ := r
    unfold Pager.allocFromMap at h
    split_ifs at h with h1 h2
    exact List.forall_mem_cons.2 ⟨h1, ih (Option.map_eq_none_iff.1 h)⟩

/-- With no two runs that touch, `AllocFromMap` finds `count` pages in a row if there are any. -/
theorem Separate.allocFromMap_none (hm : Separate m) (hcount : 0 < count)
    (h : Pager.allocFromMap count m = none) :
    ¬ ∃ p, ∀ q, p ≤ q → q < p + count → 0 < runsCount m q := by
  rintro ⟨p, hcovered⟩
  obtain ⟨n, rfl⟩ := Nat.exists_eq_succ_of_ne_zero (Nat.ne_of_gt hcount)
  obtain ⟨r, hr, hlow, hhigh⟩ := exists_run_of_covered hm.ordered hcovered
  have := lt_of_allocFromMap_none h r hr
  omega

end Alloc

end Pager

/-! ## Whole runs -/

/-- A property of the calls of `FreeToMap` that are made one after the other, the first one on
the map `m`. -/
def EachCall (Q : List PagePair → Nat → Nat → Prop) (m : List PagePair) : List PagePair → Prop
  | [] => True
  | r :: rs => Q m r.1 r.2 ∧ EachCall Q (Pager.freeToMap m r.1 r.2) rs

instance EachCall.decidable (Q : List PagePair → Nat → Nat → Prop)
    [∀ m pgid count, Decidable (Q m pgid count)] (m : List PagePair) : (rs : List PagePair) →
    Decidable (EachCall Q m rs)
  | [] => inferInstanceAs (Decidable True)
  | r :: rs => by
      have := EachCall.decidable Q (Pager.freeToMap m r.1 r.2) rs
      exact inferInstanceAs (Decidable (_ ∧ _))

namespace Allocator

/-- The free map at the first call of `FreeToMap` in a step, and the runs of the calls. -/
def calls (P : Nat) (s : Allocator) : AllocatorEvent → List PagePair × List PagePair
  | .update releasableTxid =>
      (s.pager.freeMap,
        Pager.pendingRuns (s.pager.pendingMap.takeWhile fun e => e.1 < releasableTxid))
  | .alloc _ => (s.pager.freeMap, [])
  | .free _ => (s.pager.freeMap, [])
  | .commit saves =>
      match s.tx with
      | none => (s.pager.freeMap, [])
      | some t =>
          match saving P saves (s.state t) with
          | (.ok _, u) => (u.pager.freeMap, [])
          | (.error _, u) => (u.pager.freeMap, u.pager.allocRecords)
  | .rollback saves =>
      match s.tx with
      | none => (s.pager.freeMap, [])
      | some t =>
          match saving P saves (s.state t) with
          | (_, u) => (u.pager.freeMap, u.pager.allocRecords)
  | .reopen v =>
      if v.info.freeListPgid = kPageInvalidId then ([], [])
      else ([],
        (Pager.decodePairs v.info.freePairCount (Pager.readBytes P s.pager v.info.freeListPgid
        (v.info.freePairCount * kPagePairSize))).filter fun r => r.2 ≠ 0)

/-- A property of every call of `FreeToMap` in a run. -/
def EveryCall (Q : List PagePair → Nat → Nat → Prop) (P : Nat) (s : Allocator) :
    List AllocatorEvent → Prop
  | [] => True
  | e :: es => EachCall Q (s.calls P e).1 (s.calls P e).2 ∧
      match s.step P e with
      | some s' => s'.EveryCall Q P es
      | none => True

/-- `Alloc(count)` of the open transaction extends the file only when no `count` free pages
lie in a row. -/
def ExtendsLast (s : Allocator) : Prop :=
  ∀ (t : Version) (count pgid : Nat) (u : TxState), s.tx = some t → 0 < count →
    Pager.alloc count (s.state t) = (.ok pgid, u) → u.metaStruct.pageCount ≠ t.info.pageCount →
    ¬ ∃ p, ∀ q, p ≤ q → q < p + count → 0 < runsCount s.pager.freeMap q

/-! ## What the calls of one step do -/

section Steps

variable {m rs : List PagePair} {bound : ℕ}

/-- Calls one after the other: each does what it should exactly when the runs around it let it. -/
theorem eachCall_iff (hm : Pager.Separate m) (h : Pager.Frees m rs bound)
    (hpos : ∀ r ∈ rs, 0 < r.2) : (EachCall Pager.Coalesces m rs ↔ EachCall Pager.Joinable m rs) ∧
      (EachCall Pager.Joinable m rs →
        Pager.Separate (rs.foldl (fun m r => Pager.freeToMap m r.1 r.2) m)) := by
  induction rs generalizing m with
  | nil => exact ⟨Iff.rfl, fun _ => hm⟩
  | cons r rs ih =>
    obtain ⟨hr, hrs⟩ := List.forall_mem_cons.1 hpos
    have hcall := Pager.coalesces_iff_joinable hm h.takes hr
    constructor
    · constructor
      · rintro ⟨hfirst, hrest⟩
        exact ⟨hcall.1 hfirst, (ih hfirst.separate h.tail hrs).1.1 hrest⟩
      · rintro ⟨hfirst, hrest⟩
        have hdone := hcall.2 hfirst
        exact ⟨hdone, (ih hdone.separate h.tail hrs).1.2 hrest⟩
    · rintro ⟨hfirst, hrest⟩
      exact (ih (hcall.2 hfirst).separate h.tail hrs).2 hrest

/-- What a step does to the free map: the calls, and before or behind them at most an allocation. -/
structure Calls (P : Nat) (s : Allocator) (e : AllocatorEvent) (s' : Allocator) : Prop where
  frees : ∃ bound, Pager.Frees (s.calls P e).1 (s.calls P e).2 bound
  pos : ∀ r ∈ (s.calls P e).2, 0 < r.2
  asc : Pager.Ascending (s.calls P e).1
  before : Pager.Separate s.pager.freeMap → Pager.Separate (s.calls P e).1
  behind : Pager.Separate
    ((s.calls P e).2.foldl (fun m r => Pager.freeToMap m r.1 r.2) (s.calls P e).1) →
    Pager.Separate s'.pager.freeMap

theorem separate_draws {pager pager' : Pager} (h : Pager.Separate pager.freeMap)
    (hd : pager.Draws pager') : Pager.Separate pager'.freeMap := by
  cases hd with
  | nothing pages => exact h
  | run pages pos taken => exact h.allocFromMap taken

variable {P : Nat} {s s' : Allocator}

theorem frees_nil {owned : List PagePair} {pager : Pager} (h : pager.MapsOk owned bound)
    (hbound : bound < 4294967296) : Pager.Frees pager.freeMap [] bound where
  bound_lt := hbound
  map_in := h.free_in
  runs_in := fun _ hr => (List.not_mem_nil hr).elim
  once := fun p => by
    have := h.runs.once p
    simp only [runsCount_append, runsCount_nil] at this ⊢
    omega

/-- A step that makes no call. -/
theorem Calls.of_none {e : AllocatorEvent} (h : Inv s)
    (hcalls : s.calls P e = (s.pager.freeMap, []))
    (hbehind : Pager.Separate s.pager.freeMap → Pager.Separate s'.pager.freeMap) :
      Calls P s e s' := by
  have hlt : s.view.info.pageCount < 4294967296 := by
    unfold view
    cases htx : s.tx with
    | none => exact h.current.info.lt
    | some t => exact (h.busy t htx).info.lt
  constructor
  · rw [hcalls]
    exact ⟨_, frees_nil h.maps hlt⟩
  · rw [hcalls]
    exact fun _ hr => (List.not_mem_nil hr).elim
  · rw [hcalls]
    exact h.maps.asc
  · rw [hcalls]
    exact id
  · rw [hcalls]
    exact hbehind

theorem update_calls {releasableTxid : Nat} (h : Inv s)
    (hstep : s.update releasableTxid = some s') : Calls P s (.update releasableTxid) s' := by
  unfold update at hstep
  cases htx : s.tx with
  | some t => simp [htx] at hstep
  | none =>
    simp only [htx] at hstep
    split_ifs at hstep
    obtain rfl := Option.some.inj hstep
    exact ⟨⟨_, (h.idle htx).frees h.current.info.lt releasableTxid⟩,
      (h.idle htx).pos_due releasableTxid, (h.idle htx).asc, id, id⟩

theorem alloc_calls {count : Nat} (h : Inv s) (hstep : s.alloc count = some s') :
    Calls P s (.alloc count) s' := by
  refine Calls.of_none h rfl fun hm => ?_
  unfold alloc at hstep
  cases htx : s.tx with
  | none => simp [htx] at hstep
  | some t =>
    simp only [htx] at hstep
    split_ifs at hstep with hcount
    cases hmap : Pager.allocFromMap count s.pager.freeMap with
    | some r =>
      obtain ⟨pgid, freeMap⟩ := r
      rw [Pager.alloc_of_some (s := s.state t) hmap] at hstep
      obtain rfl := Option.some.inj hstep
      exact hm.allocFromMap hmap
    | none =>
      by_cases hroom : u32 (t.info.pageCount + count) < t.info.pageCount
      · obtain ⟨e, he⟩ := Pager.alloc_raises (s := s.state t) hmap hroom
        rw [he] at hstep
        obtain rfl := Option.some.inj hstep
        exact hm
      · rw [Pager.alloc_of_none (s := s.state t) hmap hroom] at hstep
        obtain rfl := Option.some.inj hstep
        exact hm

theorem free_calls {r : PagePair} (h : Inv s) (hstep : s.free r = some s') :
    Calls P s (.free r) s' := by
  refine Calls.of_none h rfl fun hm => ?_
  unfold free at hstep
  cases htx : s.tx with
  | none => simp [htx] at hstep
  | some t =>
    simp only [htx] at hstep
    split_ifs at hstep with hr
    by_cases hne : r.1 = kPageInvalidId
    · unfold Pager.free assert at hstep
      rw [Exec.require_bind_not (not_not.2 hne)] at hstep
      cases hstep
    · rw [Pager.free_of_ne hne] at hstep
      obtain rfl := Option.some.inj hstep
      exact hm

theorem commit_calls {saves : Bool} (hP : kPagePairSize ≤ P) (h : Inv s)
    (hstep : s.commit P saves = some s') : Calls P s (.commit saves) s' := by
  unfold commit at hstep
  cases htx : s.tx with
  | none => simp [htx] at hstep
  | some t =>
    simp only [htx] at hstep
    obtain ⟨hinfo, hmaps, hgrown, hreturns⟩ := h.busy t htx
    rcases saving_cases hP saves hinfo hmaps with ⟨u, hu, hdraws⟩ | ⟨e, u, hu, hpager⟩
    -- the list is saved: the commit itself files no run
    · have hcalls : s.calls P (.commit saves) = (u.pager.freeMap, []) := by
        simp only [calls, htx, hu]
      rw [hu] at hstep
      obtain rfl := Option.some.inj hstep
      refine ⟨?_, ?_, ?_, ?_, ?_⟩ <;> rw [hcalls]
      · exact ⟨_, frees_nil (hmaps.draws hdraws) hinfo.lt⟩
      · exact fun _ hr => (List.not_mem_nil hr).elim
      · exact (hmaps.draws hdraws).asc
      · exact fun hm => separate_draws hm hdraws
      · exact id
    -- SaveFreeList throws: the rollback files the runs of alloc_records_
    · have hcalls : s.calls P (.commit saves) = (s.pager.freeMap, s.pager.allocRecords) := by
        simp only [calls, htx, hu, hpager]
      rw [hu] at hstep
      obtain rfl := Option.some.inj hstep
      refine ⟨?_, ?_, ?_, ?_, ?_⟩ <;> rw [hcalls]
      · exact ⟨_, hreturns.frees h.current.info.lt⟩
      · exact hreturns.pos_records
      · exact hmaps.asc
      · exact id
      · show _ → Pager.Separate (u.pager.rollback _).freeMap
        rw [hpager]
        exact id

theorem rollback_calls {saves : Bool} (hP : kPagePairSize ≤ P) (h : Inv s)
    (hstep : s.rollback P saves = some s') : Calls P s (.rollback saves) s' := by
  unfold rollback at hstep
  cases htx : s.tx with
  | none => simp [htx] at hstep
  | some t =>
    simp only [htx] at hstep
    obtain ⟨hinfo, hmaps, -, hreturns⟩ := h.busy t htx
    rcases saving_cases hP saves hinfo hmaps with ⟨u, hu, hdraws⟩ | ⟨e, u, hu, -⟩
    · have hcalls : s.calls P (.rollback saves) = (u.pager.freeMap, u.pager.allocRecords) := by
        simp only [calls, htx, hu]
      rw [hu] at hstep
      obtain rfl := Option.some.inj hstep
      refine ⟨?_, ?_, ?_, ?_, ?_⟩ <;> rw [hcalls]
      · exact ⟨_, (hreturns.draws hmaps.asc hdraws).frees h.current.info.lt⟩
      · exact (hreturns.draws hmaps.asc hdraws).pos_records
      · exact (hmaps.draws hdraws).asc
      · exact fun hm => separate_draws hm hdraws
      · exact id
    · rw [hu] at hstep
      cases hstep

theorem reopen_calls {v : Version} (h : Inv s) (hstep : s.reopen P v = some s') :
    Calls P s (.reopen v) s' := by
  unfold reopen at hstep
  split_ifs at hstep with hv
  obtain rfl := Option.some.inj hstep
  have hnone := (h.versions v hv).info.noList
  have hcalls : s.calls P (.reopen v) = ([], []) := if_pos hnone
  refine ⟨?_, ?_, ?_, ?_, ?_⟩ <;> rw [hcalls]
  · refine ⟨2, by decide, ?_, ?_, fun p => ?_⟩
    · exact fun r hr => (List.not_mem_nil hr).elim
    · exact fun r hr => (List.not_mem_nil hr).elim
    · exact Nat.zero_le 1
  · exact fun _ hr => (List.not_mem_nil hr).elim
  · exact .nil
  · exact fun _ => .nil
  · rw [Pager.opened_of_invalid hnone]
    exact id

theorem step_calls {e : AllocatorEvent} (hP : kPagePairSize ≤ P) (h : Inv s)
    (hstep : s.step P e = some s') : Calls P s e s' := by
  cases e with
  | update releasableTxid => exact update_calls h hstep
  | alloc count => exact alloc_calls h hstep
  | free r => exact free_calls h hstep
  | commit saves => exact commit_calls hP h hstep
  | rollback saves => exact rollback_calls hP h hstep
  | reopen v => exact reopen_calls h hstep

/-! ## The whole run -/

theorem everyCall_iff {es : List AllocatorEvent} (hP : kPagePairSize ≤ P) (h : Inv s)
    (hm : Pager.Separate s.pager.freeMap) (hrun : s.run P es = some s') :
    (s.EveryCall Pager.Coalesces P es ↔ s.EveryCall Pager.Joinable P es) ∧
      (s.EveryCall Pager.Joinable P es → Pager.Separate s'.pager.freeMap) := by
  induction es generalizing s with
  | nil =>
    obtain rfl := Option.some.inj hrun
    exact ⟨Iff.rfl, fun _ => hm⟩
  | cons e es ih =>
    unfold run at hrun
    cases hstep : s.step P e with
    | none => simp [hstep] at hrun
    | some s₁ =>
      rw [hstep] at hrun
      obtain ⟨⟨bound, hfrees⟩, hpos, -, hbefore, hbehind⟩ := step_calls hP h hstep
      obtain ⟨hiff, hseparate⟩ := eachCall_iff (hbefore hm) hfrees hpos
      -- the run of `e :: es` is the calls of `e` and then those of `es` from the state behind it
      have hunfold : ∀ Q, s.EveryCall Q P (e :: es) ↔
          EachCall Q (s.calls P e).1 (s.calls P e).2 ∧ s₁.EveryCall Q P es := fun Q => by
        rw [EveryCall, hstep]
      rw [hunfold, hunfold]
      constructor
      · constructor
        · rintro ⟨hnow, hlater⟩
          have hjoin := hiff.1 hnow
          exact ⟨hjoin, (ih (step_inv hP h hstep) (hbehind (hseparate hjoin)) hrun).1.1 hlater⟩
        · rintro ⟨hnow, hlater⟩
          exact ⟨hiff.2 hnow, (ih (step_inv hP h hstep) (hbehind (hseparate hnow)) hrun).1.2 hlater⟩
      · rintro ⟨hnow, hlater⟩
        exact (ih (step_inv hP h hstep) (hbehind (hseparate hnow)) hrun).2 hlater

theorem extendsLast (hm : Pager.Separate s.pager.freeMap) : s.ExtendsLast := by
  intro t count pgid u _ hcount halloc hgrown
  cases hmap : Pager.allocFromMap count s.pager.freeMap with
  | some r =>
    rw [Pager.alloc_of_some (s := s.state t) hmap] at halloc
    obtain ⟨-, rfl⟩ := Prod.mk.inj halloc
    exact absurd rfl hgrown
  | none => exact hm.allocFromMap_none hcount hmap

end Steps

/-- **Coalescing.** A call of `FreeToMap` on a map without runs that touch does what it should
exactly when the runs around the freed one let it; and in every run of the allocator of which all
calls are so, the free map never has runs that touch and the file is extended only for want of free
pages in a row. -/
theorem coalescing_iff {m : List PagePair} {pgid count : Nat} {bound : ℕ} (hm : Pager.Separate m)
    (h : Pager.Takes m pgid count bound) (hcount : 0 < count) {P : Nat} (hP : kPagePairSize ≤ P)
    {es : List AllocatorEvent} {s : Allocator} (hrun : created.run P es = some s) :
    (Pager.Coalesces m pgid count ↔ Pager.Joinable m pgid count) ∧
      (created.EveryCall Pager.Coalesces P es ↔ created.EveryCall Pager.Joinable P es) ∧
      (created.EveryCall Pager.Joinable P es → Pager.Separate s.pager.freeMap ∧ s.ExtendsLast) := by
  obtain ⟨hiff, hseparate⟩ := everyCall_iff hP created_inv .nil hrun
  refine ⟨Pager.coalesces_iff_joinable hm h hcount, hiff, fun hall => ?_⟩
  exact ⟨hseparate hall, extendsLast (hseparate hall)⟩

/-! ## Three runs -/

/-- Two pages are freed, the one behind the other first. -/
def joiningRun : List AllocatorEvent :=
  [.update 0, .alloc 1, .alloc 1, .free (2, 1), .free (3, 1), .commit false, .update 3]

/-- The page before the first free one is freed. -/
def beforeBeginRun : List AllocatorEvent :=
  [.update 0, .alloc 1, .alloc 1, .free (3, 1), .commit false, .update 3, .free (2, 1),
    .commit false, .update 4]

/-- The page behind a free one is freed while another free one is further above. -/
def touchingRun : List AllocatorEvent :=
  [.update 0, .alloc 1, .alloc 1, .alloc 1, .alloc 1, .free (2, 1), .free (5, 1), .commit false,
    .update 3, .free (3, 1), .commit false, .update 4]

theorem coalescing_joiningRun : ∃ s, created.run 4096 joiningRun = some s ∧
    Pager.Coalesces [(2, 1), (7, 2)] 5 2 ∧ created.EveryCall Pager.Coalesces 4096 joiningRun ∧
    Pager.Separate s.pager.freeMap ∧ s.ExtendsLast := by
  obtain ⟨s, hs⟩ : ∃ s, created.run 4096 joiningRun = some s := ⟨_, rfl⟩
  have hm : Pager.Separate [(2, 1), (7, 2)] := ⟨by decide, by decide⟩
  have htakes : Pager.Takes [(2, 1), (7, 2)] 5 2 9 := by
    refine ⟨by decide, by decide, by decide, fun p => ?_⟩
    simp only [runsCount_cons, runsCount_nil, runCount_mk]
    split_ifs <;> omega
  have hcalls : created.EveryCall Pager.Joinable 4096 joiningRun := by
    repeat' first | exact True.intro | refine ⟨by decide, ?_⟩
  obtain ⟨hone, hall, hend⟩ := coalescing_iff hm htakes (by decide) (by decide) hs
  exact ⟨s, hs, hone.2 (by decide), hall.2 hcalls, hend hcalls⟩

/-- With the free pages 2, 3 and 5 in a run each, `Alloc(2)` extends the file. -/
theorem not_extendsLast {s : Allocator} {t : Version} (htx : s.tx = some t)
    (hmap : s.pager.freeMap = [(2, 1), (3, 1), (5, 1)]) (hcount : t.info.pageCount = 6) :
      ¬ s.ExtendsLast := by
  intro hext
  have hnone : Pager.allocFromMap 2 (s.state t).pager.freeMap = none := by
    show Pager.allocFromMap 2 s.pager.freeMap = none
    rw [hmap]
    rfl
  have hroom : ¬ u32 ((s.state t).metaStruct.pageCount + 2) < (s.state t).metaStruct.pageCount := by
    show ¬ u32 (t.info.pageCount + 2) < t.info.pageCount
    rw [hcount]
    decide
  refine hext t 2 _ _ htx (by decide) (Pager.alloc_of_none hnone hroom) ?_
    ⟨2, fun q hlow hhigh => ?_⟩
  · show u32 (t.info.pageCount + 2) ≠ t.info.pageCount
    rw [hcount]
    decide
  · rw [hmap]
    obtain rfl | rfl : q = 2 ∨ q = 3 := by omega
    · decide
    · decide

/-- **A step before `begin()`, and free pages in a row that are not found.** -/
theorem not_coalescing : (∃ s, created.run 4096 beforeBeginRun = some s ∧
      ¬ created.EveryCall Pager.Coalesces 4096 beforeBeginRun) ∧
      ∃ s, created.run 4096 touchingRun = some s ∧ s.pager.freeMap = [(2, 1), (3, 1), (5, 1)] ∧
        ¬ Pager.Separate s.pager.freeMap ∧ ¬ s.ExtendsLast := by
  constructor
  · refine ⟨_, rfl, fun hall => ?_⟩
    -- the last event frees page 2 in front of page 3
    obtain ⟨hlast, -⟩ := hall.2.2.2.2.2.2.2.2.1
    exact hlast.inside ⟨rfl, (3, 1), rfl, rfl⟩
  · obtain ⟨s, hs, hmap, ⟨t, htx, hcount⟩⟩ : ∃ s, created.run 4096 touchingRun = some s ∧
        s.pager.freeMap = [(2, 1), (3, 1), (5, 1)] ∧ ∃ t, s.tx = some t ∧ t.info.pageCount = 6 :=
      ⟨_, rfl, rfl, _, rfl, rfl⟩
    refine ⟨s, hs, hmap, fun hm => ?_, not_extendsLast htx hmap hcount⟩
    have hord := hm.ordered
    rw [hmap] at hord
    exact absurd hord (by decide)

end Allocator

end AtomKV
