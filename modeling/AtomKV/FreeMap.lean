import AtomKV.PagerCounts
import Mathlib.Data.List.TakeWhile

/-!
# The order of the free map

`free_map_` is a `std::map` from the first page of a run to its length. The operations of the pager
keep its runs in order, apart from each other and non-empty, so the list that models it is the map's
contents in iteration order and the assertions of `AllocFromMap` hold.
-/

set_option autoImplicit false

namespace AtomKV

namespace Pager

/-- Two runs that share no page. -/
def Apart (r r' : PagePair) : Prop := r.1 + r.2 ≤ r'.1 ∨ r'.1 + r'.2 ≤ r.1

theorem apart_of_counts {r r' : PagePair} (h : ∀ p, runCount r p + runCount r' p ≤ 1) (hr : 0 < r.2)
    (hr' : 0 < r'.2) : Apart r r' := by
  by_contra hnot
  unfold Apart at hnot
  -- the later start lies in both runs
  have h1 : 0 < runCount r (max r.1 r'.1) := (runCount_pos_iff _ _).2 (by omega)
  have h2 : 0 < runCount r' (max r.1 r'.1) := (runCount_pos_iff _ _).2 (by omega)
  have := h (max r.1 r'.1)
  omega

/-- Every run is non-empty and ends before the next one starts. -/
structure Ascending (m : List PagePair) : Prop where
  ordered : m.Pairwise fun r r' => r.1 + r.2 ≤ r'.1
  pos : ∀ r ∈ m, 0 < r.2

namespace Ascending

theorem nil : Ascending [] := ⟨List.Pairwise.nil, by simp⟩

theorem tail {r : PagePair} {m : List PagePair} (h : Ascending (r :: m)) : Ascending m :=
  ⟨(List.pairwise_cons.1 h.ordered).2, fun q hq => h.pos q (List.mem_cons_of_mem _ hq)⟩

theorem cons {r : PagePair} {m : List PagePair} (h : Ascending m) (hr : 0 < r.2)
    (hle : ∀ q ∈ m, r.1 + r.2 ≤ q.1) : Ascending (r :: m) :=
  ⟨List.pairwise_cons.2 ⟨hle, h.ordered⟩, List.forall_mem_cons.2 ⟨hr, h.pos⟩⟩

/-- Two adjacent runs become one. -/
theorem join {xs ys : List PagePair} {a n b k : Nat} (h : Ascending (xs ++ (a, n) :: (b, k) :: ys))
    (hab : a + n = b) : Ascending (xs ++ (a, n + k) :: ys) := by
  obtain ⟨hord, hpos⟩ := h
  obtain ⟨hxs, hrest, hcross⟩ := List.pairwise_append.1 hord
  obtain ⟨-, hrest'⟩ := List.pairwise_cons.1 hrest
  obtain ⟨hb, hys⟩ := List.pairwise_cons.1 hrest'
  constructor
  · refine List.pairwise_append.2
      ⟨hxs, List.pairwise_cons.2 ⟨fun q hq => ?_, hys⟩, fun x hx q hq => ?_⟩
    · have := hb q hq
      show a + (n + k) ≤ q.1
      simp only at this
      omega
    · rcases List.mem_cons.1 hq with rfl | hq
      · exact hcross x hx (a, n) List.mem_cons_self
      · exact hcross x hx q (List.mem_cons_of_mem _ (List.mem_cons_of_mem _ hq))
  · intro q hq
    rcases List.mem_append.1 hq with hq | hq
    · exact hpos q (List.mem_append_left _ hq)
    · rcases List.mem_cons.1 hq with rfl | hq
      · have : 0 < n := hpos (a, n) (List.mem_append_right _ List.mem_cons_self)
        show 0 < n + k
        omega
      · exact hpos q (List.mem_append_right _ (List.mem_cons_of_mem _ (List.mem_cons_of_mem _ hq)))

/-- A run may be put in where it belongs. -/
theorem insert {below above : List PagePair} {pgid count : Nat} (h : Ascending (below ++ above))
    (hcount : 0 < count) (hbelow : ∀ r ∈ below, r.1 + r.2 ≤ pgid)
    (habove : ∀ r ∈ above, pgid + count ≤ r.1) : Ascending (below ++ (pgid, count) :: above) := by
  obtain ⟨hord, hpos⟩ := h
  obtain ⟨h1, h2, hcross⟩ := List.pairwise_append.1 hord
  constructor
  · refine List.pairwise_append.2 ⟨h1, List.pairwise_cons.2 ⟨habove, h2⟩, fun x hx q hq => ?_⟩
    rcases List.mem_cons.1 hq with rfl | hq
    · exact hbelow x hx
    · exact hcross x hx q hq
  · intro q hq
    rcases List.mem_append.1 hq with hq | hq
    · exact hpos q (List.mem_append_left _ hq)
    · rcases List.mem_cons.1 hq with rfl | hq
      · exact hcount
      · exact hpos q (List.mem_append_right _ hq)

end Ascending

/-- What stays in the map starts at or after a run that was there. -/
theorem allocFromMap_start {count : Nat} {m m' : List PagePair} {pgid : Nat}
    (h : allocFromMap count m = some (pgid, m')) : ∀ r' ∈ m', ∃ r ∈ m, r.1 ≤ r'.1 := by
  induction m generalizing m' with
  | nil => simp [allocFromMap] at h
  | cons r rest ih =>
    obtain ⟨start, freeCount⟩ := r
    unfold allocFromMap at h
    split_ifs at h with h1 h2
    · obtain ⟨⟨q, m''⟩, hq, he⟩ := Option.map_eq_some_iff.1 h
      obtain ⟨rfl, rfl⟩ := Prod.mk.inj he
      refine List.forall_mem_cons.2 ⟨⟨_, List.mem_cons_self, Nat.le_refl _⟩, fun r' hr' => ?_⟩
      obtain ⟨r, hr, hle⟩ := ih hq r' hr'
      exact ⟨r, List.mem_cons_of_mem _ hr, hle⟩
    · obtain ⟨rfl, rfl⟩ := Prod.mk.inj (Option.some.inj h)
      refine List.forall_mem_cons.2
        ⟨⟨_, List.mem_cons_self, Nat.le_add_right _ _⟩, fun r' hr' => ?_⟩
      exact ⟨r', List.mem_cons_of_mem _ hr', Nat.le_refl _⟩
    · obtain ⟨rfl, rfl⟩ := Prod.mk.inj (Option.some.inj h)
      exact fun r' hr' => ⟨r', List.mem_cons_of_mem _ hr', Nat.le_refl _⟩

/-- `AllocFromMap` keeps the order; its assertions on the run it takes and on the insertion of
the rest hold. -/
theorem Ascending.allocFromMap {count : Nat} {m m' : List PagePair} {pgid : Nat} (hm : Ascending m)
    (h : allocFromMap count m = some (pgid, m')) : Ascending m' := by
  induction m generalizing m' with
  | nil => simp [Pager.allocFromMap] at h
  | cons r rest ih =>
    obtain ⟨start, freeCount⟩ := r
    have hfirst := (List.pairwise_cons.1 hm.ordered).1
    unfold Pager.allocFromMap at h
    split_ifs at h with h1 h2
    · obtain ⟨⟨q, m''⟩, hq, he⟩ := Option.map_eq_some_iff.1 h
      obtain ⟨rfl, rfl⟩ := Prod.mk.inj he
      refine (ih hm.tail hq).cons (hm.pos _ List.mem_cons_self) fun r' hr' => ?_
      obtain ⟨r, hr, hle⟩ := allocFromMap_start hq r' hr'
      exact Nat.le_trans (hfirst r hr) hle
    · obtain ⟨rfl, rfl⟩ := Prod.mk.inj (Option.some.inj h)
      refine hm.tail.cons (Nat.sub_pos_of_lt h2) fun r' hr' => ?_
      have := hfirst r' hr'
      simp only at this ⊢
      omega
    · obtain ⟨rfl, rfl⟩ := Prod.mk.inj (Option.some.inj h)
      exact hm.tail

/-- The runs before the place of the freed one. -/
def below (m : List PagePair) (pgid : Nat) : List PagePair := m.takeWhile fun r => r.1 < pgid

/-- The runs from the place of the freed one on, where `lower_bound` points. -/
def above (m : List PagePair) (pgid : Nat) : List PagePair := m.dropWhile fun r => r.1 < pgid

/-- The freed run, put behind `below` and in front of `above`; it goes into the run that it follows.
-/
def joinPred (below : List PagePair) (pgid count : Nat) (above : List PagePair) : List PagePair :=
  match below.getLast? with
  | some pred =>
      if pred.1 + pred.2 = pgid then below.dropLast ++ (pred.1, pred.2 + count) :: above
      else below ++ (pgid, count) :: above
  | none => below ++ (pgid, count) :: above

theorem joinPred_nil (pgid count : Nat) (above : List PagePair) :
    joinPred [] pgid count above = (pgid, count) :: above := rfl

theorem joinPred_concat (xs : List PagePair) (start len pgid count : Nat) (above : List PagePair) :
    joinPred (xs ++ [(start, len)]) pgid count above =
      if start + len = pgid then xs ++ (start, len + count) :: above
      else xs ++ (start, len) :: (pgid, count) :: above := by
  unfold joinPred
  rw [List.getLast?_concat, List.dropLast_concat]
  simp only [List.append_assoc, List.singleton_append]

/-- Where the freed run lies. -/
structure Around (m : List PagePair) (pgid count : Nat) : Prop where
  append : below m pgid ++ above m pgid = m
  low : ∀ r ∈ below m pgid, r.1 + r.2 ≤ pgid
  high : ∀ r ∈ above m pgid, pgid + count ≤ r.1

section Placing

variable {m : List PagePair} {pgid count : Nat} {bound : ℕ}

theorem Ascending.around (hm : Ascending m) (h : Takes m pgid count bound) (hcount : 0 < count) :
    Around m pgid count := by
  have hbelow : ∀ r ∈ below m pgid, r.1 < pgid := fun r hr => by
    simpa using List.mem_takeWhile_imp hr
  have hin : ∀ r ∈ m, Apart r (pgid, count) := fun r hr => by
    refine apart_of_counts (fun p => ?_) (hm.pos r hr) hcount
    have h1 := h.once p
    have h2 := runCount_le_runsCount hr p
    omega
  -- the runs above start behind the freed one
  have habove : ∀ r ∈ above m pgid, pgid ≤ r.1 := fun r hr => by
    obtain ⟨q, rest, hq⟩ := List.exists_cons_of_ne_nil (List.ne_nil_of_mem hr)
    have hhead : ¬ q.1 < pgid := by
      have hnot := List.head?_dropWhile_not (fun r : PagePair => decide (r.1 < pgid)) m
      rw [show m.dropWhile _ = q :: rest from hq] at hnot
      simpa using hnot
    have hord : (q :: rest).Pairwise fun r r' => r.1 + r.2 ≤ r'.1 := by
      rw [← hq]
      exact hm.ordered.sublist (List.dropWhile_sublist _)
    rw [hq] at hr
    rcases List.mem_cons.1 hr with rfl | hr
    · omega
    · have := (List.pairwise_cons.1 hord).1 r hr
      omega
  have happend : below m pgid ++ above m pgid = m := List.takeWhile_append_dropWhile
  refine ⟨happend, fun r hr => ?_, fun r hr => ?_⟩
  · have h1 := hin r (happend ▸ List.mem_append_left _ hr)
    have h2 := hbelow r hr
    unfold Apart at h1
    omega
  · have h1 := hin r (happend ▸ List.mem_append_right _ hr)
    have h2 := habove r hr
    have h3 := hm.pos r (happend ▸ List.mem_append_right _ hr)
    unfold Apart at h1
    omega

/-- The paths of `FreeToMap` that a run which is apart from the map can take. -/
theorem Around.freeToMap_cases (ha : Around m pgid count) (hm : Ascending m)
    (h : Takes m pgid count bound) (hcount : 0 < count) :
    (above m pgid = [] ∧ Pager.freeToMap m pgid count = joinPred (below m pgid) pgid count []) ∨
      (∃ len rest, above m pgid = (pgid + count, len) :: rest ∧
        Pager.freeToMap m pgid count = joinPred (below m pgid) pgid (count + len) rest) ∨
      ∃ next rest, above m pgid = next :: rest ∧ pgid + count < next.1 ∧
        Pager.freeToMap m pgid count = below m pgid ++ (pgid, count) :: next :: rest := by
  have hlt := h.bound_lt
  have hrun := h.run_in
  have hin : ∀ r ∈ m, r.1 + r.2 ≤ bound := h.runs_in
  -- no sum of the code wraps
  have hpred : ∀ (n : Nat) (rest : List PagePair), pgid + n ≤ bound →
      (match (below m pgid).getLast? with
        | some pred =>
            if u32 (pred.1 + pred.2) = pgid
              then (below m pgid).dropLast ++ (pred.1, u32 (pred.2 + n)) :: rest
            else below m pgid ++ (pgid, n) :: rest
        | none => (pgid, n) :: rest) = joinPred (below m pgid) pgid n rest := by
    intro n rest hn
    unfold joinPred
    cases hl : (below m pgid).getLast? with
    | none => rw [List.getLast?_eq_none_iff.1 hl, List.nil_append]
    | some pred =>
      have hmem : pred ∈ m := ha.append ▸ List.mem_append_left _ (List.mem_of_getLast? hl)
      have hpredIn := hin pred hmem
      simp only [u32_of_lt (show pred.1 + pred.2 < 4294967296 by omega)]
      by_cases he : pred.1 + pred.2 = pgid
      · rw [if_pos he, if_pos he, u32_of_lt (by omega)]
      · rw [if_neg he, if_neg he]
  cases hcase : above m pgid with
  | nil =>
    refine .inl ⟨rfl, ?_⟩
    unfold Pager.freeToMap
    rw [show m.dropWhile _ = [] from hcase]
    exact hpred count [] hrun
  | cons next rest =>
    obtain ⟨start, len⟩ := next
    have hmem : (start, len) ∈ above m pgid := hcase ▸ List.mem_cons_self
    have hmemm : (start, len) ∈ m := ha.append ▸ List.mem_append_right _ hmem
    have hend : start + len ≤ bound := hin _ hmemm
    have hstart : pgid + count ≤ start := ha.high _ hmem
    have hpos : 0 < len := hm.pos _ hmemm
    by_cases htouch : start = pgid + count
    · subst htouch
      refine .inr (.inl ⟨len, rest, rfl, ?_⟩)
      unfold Pager.freeToMap
      rw [show m.dropWhile _ = (pgid + count, len) :: rest from hcase]
      simp only [u32_of_lt (show pgid + count < 4294967296 by omega),
        u32_of_lt (show count + len < 4294967296 by omega), if_true]
      exact hpred (count + len) rest (by omega)
    · refine .inr (.inr ⟨_, rest, rfl, Nat.lt_of_le_of_ne hstart (Ne.symm htouch), ?_⟩)
      unfold Pager.freeToMap
      rw [show m.dropWhile _ = (start, len) :: rest from hcase]
      simp only [u32_of_lt (show pgid + count < 4294967296 by omega), if_neg htouch,
        u32_of_lt (show start + len < 4294967296 by omega)]
      rw [if_neg (by omega), if_neg (by omega)]
      rfl

end Placing

/-- Joining with the run before keeps the order. -/
theorem Ascending.joinPred {below above : List PagePair} {pgid count : Nat}
    (h : Ascending (below ++ (pgid, count) :: above)) :
      Ascending (joinPred below pgid count above) := by
  obtain rfl | ⟨xs, ⟨start, len⟩, rfl⟩ := List.eq_nil_or_concat' below
  · exact h
  · rw [joinPred_concat]
    rw [List.append_assoc] at h
    split_ifs with he
    · exact h.join he
    · exact h

/-- `FreeToMap` keeps the order. -/
theorem Ascending.freeToMap {m : List PagePair} {pgid count : Nat} {bound : ℕ} (hm : Ascending m)
    (h : Takes m pgid count bound) (hcount : 0 < count) : Ascending (freeToMap m pgid count) := by
  have ha := hm.around h hcount
  have hsplit : Ascending (below m pgid ++ above m pgid) := by
    rw [ha.append]
    exact hm
  have hinsert := hsplit.insert hcount ha.low ha.high
  rcases ha.freeToMap_cases hm h hcount
    with ⟨hnil, he⟩ | ⟨len, rest, hcons, he⟩ | ⟨next, rest, hcons, -, he⟩
  · rw [hnil] at hinsert
    rw [he]
    exact hinsert.joinPred
  · rw [hcons] at hinsert
    rw [he]
    exact (hinsert.join rfl).joinPred
  · rw [hcons] at hinsert
    rw [he]
    exact hinsert

/-! ## Several calls -/

/-- Runs that are freed one after the other into the map `m`. -/
structure Frees (m rs : List PagePair) (bound : ℕ) : Prop where
  bound_lt : bound < 4294967296
  map_in : ∀ r ∈ m, r.1 + r.2 ≤ bound
  runs_in : ∀ r ∈ rs, r.1 + r.2 ≤ bound
  once : ∀ p, runsCount m p + runsCount rs p ≤ 1

namespace Frees

variable {m rs : List PagePair} {r : PagePair} {bound : ℕ}

theorem takes (h : Frees m (r :: rs) bound) : Takes m r.1 r.2 bound where
  bound_lt := h.bound_lt
  run_in := h.runs_in r List.mem_cons_self
  runs_in := h.map_in
  once := fun p => by
    have := h.once p
    rw [runsCount_cons] at this
    show runsCount m p + runCount r p ≤ 1
    omega

theorem tail (h : Frees m (r :: rs) bound) : Frees (Pager.freeToMap m r.1 r.2) rs bound where
  bound_lt := h.bound_lt
  map_in := (freeToMap_spec h.takes).2
  runs_in := fun q hq => h.runs_in q (List.mem_cons_of_mem _ hq)
  once := fun p => by
    have h1 := h.once p
    have h2 : _ = _ + runCount r p := (freeToMap_spec h.takes).1 p
    rw [runsCount_cons] at h1
    omega

theorem foldl_counts (h : Frees m rs bound) (p : ℕ) :
    runsCount (rs.foldl (fun m r => Pager.freeToMap m r.1 r.2) m) p =
      runsCount m p + runsCount rs p :=
  (foldl_freeToMap_spec h.bound_lt h.map_in h.runs_in h.once).1 p

end Frees

/-- Freeing a list of runs keeps the order. -/
theorem Ascending.foldl_freeToMap {m rs : List PagePair} {bound : ℕ} (hm : Ascending m)
    (h : Frees m rs bound) (hpos : ∀ r ∈ rs, 0 < r.2) :
      Ascending (rs.foldl (fun m r => Pager.freeToMap m r.1 r.2) m) := by
  induction rs generalizing m with
  | nil => exact hm
  | cons r rs ih =>
    obtain ⟨hr, hrest⟩ := List.forall_mem_cons.1 hpos
    exact ih (hm.freeToMap h.takes hr) h.tail hrest

end Pager

end AtomKV
