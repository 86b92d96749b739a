import AtomKV.CommitFailure
import AtomKV.Rollback

/-!
# The round trip of the free list

`SaveFreeList` writes the free runs and behind them the pending ones into pages of their own,
`LoadFreeList` frees them one after the other into an empty map. The pages come back exactly,
provided that no pending run makes `FreeToMap` step back from `begin()`.
-/

set_option autoImplicit false

namespace AtomKV

namespace Pager

/-! ## Pairs of numbers -/

theorem encodeU32_eq (n : Nat) : encodeU32 n =
    [UInt8.ofNat n, UInt8.ofNat (n / 256), UInt8.ofNat (n / 65536),
      UInt8.ofNat (n / 16777216)] := by
  simp [encodeU32, List.range_succ]

theorem decodeU32_encodeU32 {n : Nat} (hn : n < 4294967296) (rest : Bytes) :
    decodeU32 (encodeU32 n ++ rest) = n := by
  rw [encodeU32_eq]
  simp only [decodeU32, List.cons_append, List.take_succ_cons, List.take_zero, List.foldr_cons,
    List.foldr_nil, UInt8.toNat_ofNat']
  omega

theorem length_encodeU32 (n : Nat) : (encodeU32 n).length = 4 := by
  rw [encodeU32_eq]
  rfl

theorem decodePairs_succ (n : Nat) (bytes : Bytes) :
    decodePairs (n + 1) bytes = (decodeU32 bytes, decodeU32 (bytes.drop 4)) :: decodePairs
      n (bytes.drop 8) := by
  unfold decodePairs
  rw [List.range_succ_eq_map, List.map_cons, List.map_map]
  refine congrArg₂ _ rfl (List.map_congr_left fun i _ => ?_)
  simp only [Function.comp_apply, List.drop_drop]
  congr 3
  · omega
  · omega

/-- The pairs are read as they were written. -/
theorem decodePairs_encodePairs {pairs : List PagePair}
    (h : ∀ r ∈ pairs, r.1 < 4294967296 ∧ r.2 < 4294967296) :
      decodePairs pairs.length (encodePairs pairs) = pairs := by
  induction pairs with
  | nil => rfl
  | cons r pairs ih =>
    obtain ⟨⟨h1, h2⟩, hrest⟩ := List.forall_mem_cons.1 h
    have hcons : encodePairs (r :: pairs) = encodeU32 r.1 ++ (encodeU32 r.2 ++ encodePairs pairs) :=
      List.append_assoc _ _ _
    have hsecond : (encodePairs (r :: pairs)).drop 4 = encodeU32 r.2 ++ encodePairs pairs := by
      rw [hcons, ← length_encodeU32 r.1, List.drop_left]
    have hthird : (encodePairs (r :: pairs)).drop 8 = encodePairs pairs := by
      rw [show 8 = 4 + 4 from rfl, ← List.drop_drop, hsecond,
        ← length_encodeU32 r.2, List.drop_left]
    rw [List.length_cons, decodePairs_succ, hsecond, hthird, ih hrest, hcons,
      decodeU32_encodeU32 h1, decodeU32_encodeU32 h2]

/-- What is written from the start of a page on is read back. -/
theorem readBytes_writeByBytes {P : Nat} (hP : 0 < P) (pager : Pager) (pgid : Nat) (buf : Bytes) :
    readBytes P (writeByBytes P pager pgid 0 buf) pgid buf.length = buf := by
  refine List.ext_getElem? fun j => ?_
  rw [getElem?_readBytes hP, byteAt_writeByBytes hP]
  by_cases hj : j < buf.length
  · rw [if_pos hj, if_pos (by omega)]
    congr 1
    omega
  · rw [if_neg hj, List.getElem?_eq_none (by omega)]

/-! ## What is saved and what is loaded -/

/-- The run of the list that was saved before. -/
def savedRun (info : MetaInfo) : List PagePair :=
  if info.freeListPgid = kPageInvalidId then [] else [(info.freeListPgid, info.freeListPageCount)]

/-- A state with disjoint runs: those of the free map, the pending ones, and those that become
pending. Runs of one
    page or more are fewer than `2 ^ 32` anyway. -/
structure Listable (u : TxState) (more : List PagePair) : Prop where
  lt : u.metaStruct.pageCount < 4294967296
  asc : Ascending u.pager.freeMap
  inFile : ∀ r ∈ u.pager.freeMap ++ pendingRuns u.pager.pendingMap ++ more, r.1 + r.2 ≤
    u.metaStruct.pageCount
  once : ∀ p, runsCount (u.pager.freeMap ++ pendingRuns u.pager.pendingMap ++ more) p ≤ 1
  few : u.pager.listed + more.length < 4294967296

/-- The pairs that `LoadFreeList` reads. -/
def storedList (P : Nat) (info : MetaInfo) (pager : Pager) : List PagePair :=
  decodePairs info.freePairCount
    (readBytes P pager info.freeListPgid (info.freePairCount * kPagePairSize))

/-- The calls of `FreeToMap` that `LoadFreeList` makes. -/
def loadCalls (P : Nat) (info : MetaInfo) (pager : Pager) : List PagePair :=
  if info.freeListPgid = kPageInvalidId then [] else (storedList P info pager).filter fun r =>
    r.2 ≠ 0

theorem loadFreeList_freeMap (P : Nat) (info : MetaInfo) (pager : Pager) :
    (opened P info pager).freeMap =
      (loadCalls P info pager).foldl (fun m r => freeToMap m r.1 r.2) [] := by
  have hskip : ∀ (rs m : List PagePair), rs.foldl
      (fun m r => if r.2 = 0 then m else freeToMap m r.1 r.2) m =
      (rs.filter fun r => r.2 ≠ 0).foldl (fun m r => freeToMap m r.1 r.2) m := by
    intro rs
    induction rs with
    | nil => exact fun m => rfl
    | cons r rs ih =>
      intro m
      by_cases hzero : r.2 = 0
      · rw [List.foldl_cons, if_pos hzero, ih, List.filter_cons_of_neg (by simpa using hzero)]
      · rw [List.foldl_cons, if_neg hzero, ih, List.filter_cons_of_pos (by simpa using hzero),
          List.foldl_cons]
  unfold opened loadFreeList loadCalls
  by_cases hnone : info.freeListPgid = kPageInvalidId
  · rw [if_pos hnone, if_pos hnone]
    rfl
  · rw [if_neg hnone, if_neg hnone]
    exact hskip _ _

/-- The bytes of the buffer that `SaveFreeList` fills. -/
def bufferSize (u : TxState) : Nat := (freeSavedList u).2.pager.pairCount * kPagePairSize

/-- `SaveFreeList` led from `u` to `u'`: what is loaded, and where the list lies. -/
structure RoundTrip (P : Nat) (u u' : TxState) : Prop where
  inside : EachCall StaysInside [] (loadCalls P u'.metaStruct u'.pager)
  pages : ∀ p, 0 < runsCount (opened P u'.metaStruct u'.pager).freeMap p ↔
    0 < runsCount u'.pager.freeMap p ∨ 0 < runsCount (pendingRuns u'.pager.pendingMap) p
  ownPages : ∀ p, 0 < runsCount (storedList P u'.metaStruct u'.pager) p →
    runCount (u'.metaStruct.freeListPgid, u'.metaStruct.freeListPageCount) p = 0
  inBuffer : u'.metaStruct.freePairCount * kPagePairSize ≤ bufferSize u
  inPages : u'.metaStruct.freePairCount * kPagePairSize ≤ u'.metaStruct.freeListPageCount * P

/-- The pending runs that are saved. The run of the list saved before is freed first. -/
def savedPending (u : TxState) : List (Nat × List PagePair) :=
  if u.metaStruct.freeListPgid = kPageInvalidId then u.pager.pendingMap
  else addPending u.metaStruct.txid (u.metaStruct.freeListPgid, u.metaStruct.freeListPageCount)
    u.pager.pendingMap

/-- The free runs that are saved. The list has its pages from one of them, or from behind
the last page. -/
def savedFree (P : Nat) (pager : Pager) : List PagePair :=
  match allocFromMap (listPages P pager) pager.freeMap with
  | some (_, freeMap) => freeMap
  | none => pager.freeMap

/-- The pending runs in the order in which they will be saved: each one that is followed by a free
page or one of an earlier run has such a page before it. -/
def PendingPreceded (P : Nat) (u : TxState) : Prop :=
  Preceded (fun p => 0 < runsCount (savedFree P { u.pager with pendingMap := savedPending u }) p)
    ((pendingRuns (savedPending u)).filter fun r => r.2 ≠ 0)

/-! ## Saving -/

section Saving

variable {P : Nat} {u : TxState}

theorem freeSavedList_eq (u : TxState) : freeSavedList u =
      (.ok (), { u with pager := { u.pager with pendingMap := savedPending u } }) := by
  unfold savedPending
  by_cases hnone : u.metaStruct.freeListPgid = kPageInvalidId
  · rw [freeSavedList_of_invalid hnone, if_pos hnone]
  · have hfree : freeSavedList u =
        free u.metaStruct.freeListPgid u.metaStruct.freeListPageCount u := by
      unfold freeSavedList
      rw [Exec.read_bind]
      simp only [ne_eq, hnone, not_false_eq_true, if_true]
    rw [hfree, free_of_ne hnone, if_neg hnone]

theorem writeFreeList_maps {u' : TxState} (hwrite : writeFreeList P u = (.ok (), u')) :
    u'.pager.freeMap = savedFree P u.pager ∧ u'.pager.pendingMap = u.pager.pendingMap := by
  unfold savedFree
  cases hmap : allocFromMap (listPages P u.pager) u.pager.freeMap with
  | some r =>
    obtain ⟨pgid, freeMap⟩ := r
    rw [writeFreeList_of_some hmap] at hwrite
    obtain ⟨-, rfl⟩ := Prod.mk.inj hwrite
    exact ⟨rfl, rfl⟩
  | none =>
    by_cases hroom : u32 (u.metaStruct.pageCount + listPages P u.pager) < u.metaStruct.pageCount
    · obtain ⟨e, he⟩ := writeFreeList_raises hmap hroom
      rw [he] at hwrite
      cases hwrite
    · rw [writeFreeList_of_none hmap hroom] at hwrite
      obtain ⟨-, rfl⟩ := Prod.mk.inj hwrite
      exact ⟨rfl, rfl⟩

/-- The maps of the pager after the list was saved. -/
theorem saveFreeList_maps {u' : TxState} (hsave : saveFreeList P u = (.ok (), u')) :
    u'.pager.freeMap = savedFree P { u.pager with pendingMap := savedPending u } ∧
      u'.pager.pendingMap = savedPending u := by
  obtain ⟨u₁, hfreed, hpager⟩ : ∃ u₁, freeSavedList u = (.ok (), u₁) ∧
      u₁.pager = { u.pager with pendingMap := savedPending u } := ⟨_, freeSavedList_eq u, rfl⟩
  unfold saveFreeList at hsave
  rw [Exec.bind_of_ok hfreed] at hsave
  obtain ⟨hfree, hpending⟩ := writeFreeList_maps hsave
  rw [hpager] at hfree hpending
  exact ⟨hfree, hpending⟩

theorem Listable.freed (h : Listable u (savedRun u.metaStruct)) :
    ∃ u₁, freeSavedList u = (.ok (), u₁) ∧ Listable u₁ [] ∧ u₁.metaStruct = u.metaStruct := by
  refine ⟨_, freeSavedList_eq u, ?_, rfl⟩
  unfold savedPending
  by_cases hnone : u.metaStruct.freeListPgid = kPageInvalidId
  · unfold savedRun at h
    rw [if_pos hnone] at h ⊢
    exact h
  · unfold savedRun at h
    rw [if_neg hnone] at h ⊢
    refine ⟨h.lt, h.asc, fun r hr => ?_, fun p => ?_, ?_⟩
    · rw [List.append_nil] at hr
      refine h.inFile r ?_
      rcases List.mem_append.1 hr with hr | hr
      · exact List.mem_append_left _ (List.mem_append_left _ hr)
      · rcases mem_pendingRuns_addPending hr with rfl | hr
        · exact List.mem_append_right _ (List.mem_singleton.2 rfl)
        · exact List.mem_append_left _ (List.mem_append_right _ hr)
    · have h1 := h.once p
      have h2 := pendingCount_addPending u.metaStruct.txid
        (u.metaStruct.freeListPgid, u.metaStruct.freeListPageCount) u.pager.pendingMap p
      simp only [runsCount_append, runsCount_cons, runsCount_nil, runsCount_pendingRuns, h2] at h1 ⊢
      omega
    · have h1 := h.few
      unfold listed at h1 ⊢
      simp only [length_pendingRuns_addPending, List.length_cons, List.length_nil] at h1 ⊢
      omega

/-- What `u'` holds after the list of `u` was written: the runs left, and the run of the list
apart from them. -/
structure Saved (P : Nat) (u u' : TxState) : Prop where
  asc : Ascending u'.pager.freeMap
  pages : u'.metaStruct.freeListPageCount = listPages P u.pager
  count : u'.metaStruct.freePairCount = u'.pager.listed
  fewer : u'.pager.listed ≤ u.pager.listed
  small : ∀ r ∈ u'.pager.freeMap ++ pendingRuns u'.pager.pendingMap, r.1 + r.2 < 4294967296
  once : ∀ p, runsCount (u'.pager.freeMap ++ pendingRuns u'.pager.pendingMap) p +
    runCount (u'.metaStruct.freeListPgid, u'.metaStruct.freeListPageCount) p ≤ 1
  none : u'.metaStruct.freeListPgid = kPageInvalidId → u'.pager.listed = 0
  written : ∃ pager, u'.pager = writeByBytes P pager u'.metaStruct.freeListPgid 0
    (encodePairs (u'.pager.freeMap ++ pendingRuns u'.pager.pendingMap))

theorem listPages_pos (hP : kPagePairSize ≤ P) (h : Listable u []) (hsome : 0 < u.pager.listed) :
    0 < listPages P u.pager := by
  refine Nat.pos_of_ne_zero fun hzero => ?_
  rw [listPages_eq_zero_iff hP] at hzero
  have hfew : u.pager.listed < 4294967296 := h.few
  unfold pairCount at hzero
  unfold listed at hsome hfew
  rw [u32_of_lt hfew] at hzero
  omega

/-- The list lies in a run of the free map. -/
theorem saved_of_some (hP : kPagePairSize ≤ P) (h : Listable u []) {pgid : Nat}
    {freeMap : List PagePair}
    (taken : allocFromMap (listPages P u.pager) u.pager.freeMap = some (pgid, freeMap)) :
    Saved P u (savedList P (listPages P u.pager) pgid { u with
      pager := { u.pager with
        freeMap := freeMap,
          allocRecords := u.pager.allocRecords ++ [(pgid, listPages P u.pager)] } }) := by
  have hin : ∀ r ∈ u.pager.freeMap ++ pendingRuns u.pager.pendingMap, r.1 + r.2 ≤
      u.metaStruct.pageCount := fun r hr =>
    h.inFile r (List.mem_append_left _ hr)
  have hlt := h.lt
  obtain ⟨hrun, hmap⟩ := allocFromMap_in taken fun r hr => hin r (List.mem_append_left _ hr)
  have hlen := length_allocFromMap taken
  have hsplit := runsCount_allocFromMap taken
  have hfew : u.pager.listed < 4294967296 := h.few
  have hlisted : freeMap.length + (pendingRuns u.pager.pendingMap).length ≤ u.pager.listed :=
    Nat.add_le_add_right hlen _
  -- A free map that is not empty makes the list at least a page long.
  have hpos : 0 < listPages P u.pager := by
    refine listPages_pos hP h (Nat.add_pos_left (List.length_pos_iff.2 fun hnil => ?_) _)
    rw [hnil] at taken
    cases taken
  refine ⟨h.asc.allocFromMap taken, rfl, ?_, hlisted, fun r hr => ?_, fun p => ?_,
    fun hinvalid => ?_, ⟨_, rfl⟩⟩
  · show u32 (freeMap ++ pendingRuns u.pager.pendingMap).length =
      freeMap.length + (pendingRuns u.pager.pendingMap).length
    rw [List.length_append, u32_of_lt (by omega)]
  · rcases List.mem_append.1 hr with hr | hr
    · have := hmap r hr
      omega
    · have := hin r (List.mem_append_right _ hr)
      omega
  · have h1 := h.once p
    have h2 := hsplit p
    simp only [List.append_nil, runsCount_append] at h1
    show runsCount (freeMap ++ pendingRuns u.pager.pendingMap) p + runCount
      (pgid, listPages P u.pager) p ≤ 1
    rw [runsCount_append]
    omega
  -- A run in the file lies below the id that stands for no list.
  · have hvalue : pgid = kPageInvalidId := hinvalid
    unfold kPageInvalidId at hvalue
    omega

/-- The list lies behind the last page. -/
theorem saved_of_none (hP : kPagePairSize ≤ P) (h : Listable u [])
    (hroom : ¬ u32 (u.metaStruct.pageCount + listPages P u.pager) < u.metaStruct.pageCount) :
    Saved P u (savedList P (listPages P u.pager) u.metaStruct.pageCount { u with
      metaStruct := { u.metaStruct with
        pageCount := u32 (u.metaStruct.pageCount + listPages P u.pager) } }) := by
  have hin : ∀ r ∈ u.pager.freeMap ++ pendingRuns u.pager.pendingMap, r.1 + r.2 ≤
      u.metaStruct.pageCount := fun r hr =>
    h.inFile r (List.mem_append_left _ hr)
  have hlt := h.lt
  have hfew : u.pager.listed < 4294967296 := h.few
  have hpages : listPages P u.pager < 4294967296 := Nat.mod_lt _ (by omega)
  obtain ⟨-, hsum⟩ := u32_add_of_not_lt hlt hpages hroom
  refine ⟨h.asc, rfl, ?_, Nat.le_refl _, fun r hr => ?_, fun p => ?_, fun hinvalid => ?_, ⟨_, rfl⟩⟩
  · show u32 (u.pager.freeMap ++ pendingRuns u.pager.pendingMap).length = u.pager.listed
    rw [List.length_append]
    exact u32_of_lt hfew
  · have := hin r hr
    omega
  · have h1 := h.once p
    rw [List.append_nil] at h1
    show runsCount (u.pager.freeMap ++ pendingRuns u.pager.pendingMap) p +
      runCount (u.metaStruct.pageCount, listPages P u.pager) p ≤ 1
    -- all runs end before the new pages
    rw [runCount_mk]
    split_ifs with hp
    · have hzero : runsCount (u.pager.freeMap ++ pendingRuns u.pager.pendingMap) p = 0 := by
        refine Nat.eq_zero_of_not_pos fun hpos => ?_
        obtain ⟨r, hr, -, hhigh⟩ := runsCount_pos hpos
        have := hin r hr
        omega
      omega
    · omega
  · have hvalue : u.metaStruct.pageCount = kPageInvalidId := hinvalid
    by_contra hsome
    have := listPages_pos hP h (Nat.pos_of_ne_zero hsome)
    unfold kPageInvalidId at hvalue
    omega

theorem saveFreeList_saved (hP : kPagePairSize ≤ P) (h : Listable u (savedRun u.metaStruct))
    {u' : TxState} (hsave : saveFreeList P u = (.ok (), u')) : Saved P (freeSavedList u).2 u' ∧
    Listable (freeSavedList u).2 [] := by
  obtain ⟨u₁, hfreed, h₁, -⟩ := h.freed
  unfold saveFreeList at hsave
  rw [Exec.bind_of_ok hfreed] at hsave
  rw [hfreed]
  refine ⟨?_, h₁⟩
  cases hmap : allocFromMap (listPages P u₁.pager) u₁.pager.freeMap with
  | some r =>
    obtain ⟨pgid, freeMap⟩ := r
    rw [writeFreeList_of_some hmap] at hsave
    obtain ⟨-, rfl⟩ := Prod.mk.inj hsave
    exact saved_of_some hP h₁ hmap
  | none =>
    by_cases hroom : u32 (u₁.metaStruct.pageCount + listPages P u₁.pager) < u₁.metaStruct.pageCount
    · obtain ⟨e, he⟩ := writeFreeList_raises hmap hroom
      rw [he] at hsave
      cases hsave
    · rw [writeFreeList_of_none hmap hroom] at hsave
      obtain ⟨-, rfl⟩ := Prod.mk.inj hsave
      exact saved_of_none hP h₁ hroom

end Saving

/-! ## Loading -/

/-- Free runs in ascending order are preceded, and what comes behind them sees their pages. -/
theorem preceded_append {m : List PagePair} (hm : Ascending m) (F : Nat → Prop)
    (hF : ∀ p, F p → ∀ r ∈ m, p < r.1) (rs : List PagePair) : Preceded F (m ++ rs) ↔
    Preceded (fun p => F p ∨ 0 < runsCount m p) rs := by
  induction m generalizing F with
  | nil =>
    have hsame : (fun p => F p ∨ 0 < runsCount [] p) = F := by
      funext p
      simp
    rw [hsame]
    rfl
  | cons r m ih =>
    obtain ⟨hfirst, -⟩ := List.pairwise_cons.1 hm.ordered
    have hnone : ¬ F (r.1 + r.2) := fun hp => by
      have := hF _ hp r List.mem_cons_self
      omega
    have hrest := ih hm.tail (fun p => F p ∨ (r.1 ≤ p ∧ p < r.1 + r.2)) fun p hp q hq => by
      rcases hp with hp | hp
      · exact hF p hp q (List.mem_cons_of_mem _ hq)
      · have := hfirst q hq
        omega
    have hsame : (fun p => (F p ∨ (r.1 ≤ p ∧ p < r.1 + r.2)) ∨ 0 < runsCount m p) =
        fun p => F p ∨ 0 < runsCount (r :: m) p := by
      funext p
      rw [runsCount_cons, Nat.add_pos_iff_pos_or_pos, runCount_pos_iff, or_assoc]
    rw [hsame] at hrest
    rw [List.cons_append, Preceded, hrest]
    exact ⟨fun h => h.2, fun h => ⟨fun hp => absurd hp hnone, h⟩⟩

theorem runsCount_filter (rs : List PagePair) (p : ℕ) :
    runsCount (rs.filter fun r => r.2 ≠ 0) p = runsCount rs p := by
  induction rs with
  | nil => rfl
  | cons r rs ih =>
    by_cases hzero : r.2 = 0
    · have hcount : runCount r p = 0 := by
        obtain ⟨a, n⟩ := r
        simp only at hzero
        rw [hzero, runCount_zero]
      rw [List.filter_cons_of_neg (by simpa using hzero), ih, runsCount_cons, hcount, Nat.zero_add]
    · rw [List.filter_cons_of_pos (by simpa using hzero), runsCount_cons, runsCount_cons, ih]

section Loading

variable {P : Nat} {u u' : TxState}

/-- The stored list is the list that was saved. -/
theorem Saved.storedList (hP : 0 < P) (h : Saved P u u') :
    storedList P u'.metaStruct u'.pager = u'.pager.freeMap ++ pendingRuns u'.pager.pendingMap := by
  obtain ⟨pager, hwritten⟩ := h.written
  have hlen : u'.metaStruct.freePairCount =
      (u'.pager.freeMap ++ pendingRuns u'.pager.pendingMap).length := by
    rw [h.count, List.length_append]
    rfl
  have hbytes : u'.metaStruct.freePairCount * kPagePairSize =
      (encodePairs (u'.pager.freeMap ++ pendingRuns u'.pager.pendingMap)).length := by
    rw [hlen, length_encodePairs, Nat.mul_comm]
    rfl
  have hread : readBytes P u'.pager u'.metaStruct.freeListPgid
      (u'.metaStruct.freePairCount * kPagePairSize) =
      encodePairs (u'.pager.freeMap ++ pendingRuns u'.pager.pendingMap) := by
    rw [hbytes]
    have hback := readBytes_writeByBytes hP pager u'.metaStruct.freeListPgid
      (encodePairs (u'.pager.freeMap ++ pendingRuns u'.pager.pendingMap))
    rwa [← hwritten] at hback
  unfold Pager.storedList
  rw [hread, hlen]
  refine decodePairs_encodePairs fun r hr => ?_
  have := h.small r hr
  omega

/-- The calls of the loader: the free runs, and behind them the pending runs of a page or more. -/
theorem Saved.loadCalls (hP : 0 < P) (h : Saved P u u') : loadCalls P u'.metaStruct u'.pager =
    u'.pager.freeMap ++ (pendingRuns u'.pager.pendingMap).filter fun r => r.2 ≠ 0 := by
  unfold Pager.loadCalls
  split_ifs with hnone
  · have hempty := h.none hnone
    unfold listed at hempty
    rw [List.length_eq_zero_iff.1 (by omega : u'.pager.freeMap.length = 0),
      List.length_eq_zero_iff.1 (by omega : (pendingRuns u'.pager.pendingMap).length = 0)]
    rfl
  · rw [h.storedList hP, List.filter_append]
    congr 1
    refine List.filter_eq_self.2 fun r hr => ?_
    have := h.asc.pos r hr
    simpa using Nat.ne_of_gt this

theorem Saved.frees (hP : 0 < P) (h : Saved P u u') :
    Frees [] (Pager.loadCalls P u'.metaStruct u'.pager) 4294967295 where
  bound_lt := by decide
  map_in := fun _ hr => (List.not_mem_nil hr).elim
  runs_in := fun r hr => by
    rw [h.loadCalls hP] at hr
    have hmem : r ∈ u'.pager.freeMap ++ pendingRuns u'.pager.pendingMap := by
      rcases List.mem_append.1 hr with hr | hr
      · exact List.mem_append_left _ hr
      · exact List.mem_append_right _ (List.mem_filter.1 hr).1
    have := h.small r hmem
    omega
  once := fun p => by
    have := h.once p
    rw [h.loadCalls hP, runsCount_nil, runsCount_append, runsCount_filter]
    rw [runsCount_append] at this
    omega

/-- **The round trip of the free list.** It is exact, and the loader stays inside of the map,
exactly when the pending runs are preceded. -/
theorem roundTrip_iff (hP : kPagePairSize ≤ P) (h : Listable u (savedRun u.metaStruct))
    (hsave : saveFreeList P u = (.ok (), u')) : RoundTrip P u u' ↔ PendingPreceded P u := by
  have hpos : 0 < P := Nat.lt_of_lt_of_le (by decide) hP
  obtain ⟨hsaved, hlistable⟩ := saveFreeList_saved hP h hsave
  have hcalls := hsaved.loadCalls hpos
  obtain ⟨hfree, hpending⟩ := saveFreeList_maps hsave
  -- The loader makes a call of `FreeToMap` for each run that was saved, in the order of the list.
  have hinside : EachCall StaysInside [] (Pager.loadCalls P u'.metaStruct u'.pager) ↔
      PendingPreceded P u := by
    unfold PendingPreceded
    rw [← hfree, ← hpending, eachCall_inside_iff .nil (hsaved.frees hpos), hcalls,
      preceded_append hsaved.asc]
    · have hsame : (fun p => 0 < runsCount [] p ∨ 0 < runsCount u'.pager.freeMap p) =
          fun p => 0 < runsCount u'.pager.freeMap p := by
        funext p
        simp
      rw [hsame]
    · intro p hp
      cases hp
    -- No run of the list is empty: the runs of the map never are, and the others were filtered.
    · intro r hr
      have hr := List.dropLast_subset _ hr
      rw [hcalls] at hr
      rcases List.mem_append.1 hr with hr | hr
      · exact hsaved.asc.pos r hr
      · have hne := (List.mem_filter.1 hr).2
        exact Nat.pos_of_ne_zero (by simpa using hne)
  refine ⟨fun hrt => hinside.1 hrt.inside,
    fun hpre => ⟨hinside.2 hpre, fun p => ?_, fun p hp => ?_, ?_, ?_⟩⟩
  · rw [loadFreeList_freeMap, (hsaved.frees hpos).foldl_counts, runsCount_nil, Nat.zero_add, hcalls,
      runsCount_append, runsCount_filter, Nat.add_pos_iff_pos_or_pos]
  · have := hsaved.once p
    rw [hsaved.storedList hpos] at hp
    omega
  · unfold bufferSize
    have hfew : (freeSavedList u).2.pager.listed < 4294967296 := hlistable.few
    have hcount : (freeSavedList u).2.pager.pairCount = (freeSavedList u).2.pager.listed :=
      u32_of_lt hfew
    rw [hcount, hsaved.count]
    exact Nat.mul_le_mul_right _ hsaved.fewer
  · rw [hsaved.count, hsaved.pages, Nat.mul_comm]
    exact le_listPages hP hlistable.few hsaved.fewer

/-! ## Two lists -/

/-- A transaction in a file of ten pages, of which the list saved before has page 9. -/
def listState (freeMap pending : List PagePair) : TxState where
  pager := ⟨fun _ => .raw [], freeMap, [(3, pending)], []⟩
  metaStruct := ⟨10, kPageInvalidId, 9, 1, 1, 4⟩
  rootPgid := kPageInvalidId

theorem listState_listable (freeMap pending : List PagePair) (hasc : Ascending freeMap)
    (hin : ∀ r ∈ freeMap ++ pending ++ [(9, 1)], r.1 + r.2 ≤ 10)
    (honce : ∀ p, runsCount (freeMap ++ pending ++ [(9, 1)]) p ≤ 1)
    (hfew : freeMap.length + pending.length ≤ 10) :
    Listable (listState freeMap pending) (savedRun (listState freeMap pending).metaStruct) := by
  have hpending : pendingRuns (listState freeMap pending).pager.pendingMap = pending :=
    List.append_nil _
  have hcount : 10 < 4294967296 := by decide
  refine ⟨hcount, hasc, ?_, ?_, ?_⟩
  · rw [hpending]
    exact hin
  · rw [hpending]
    exact honce
  · unfold listed
    rw [hpending]
    show freeMap.length + pending.length + 1 < 4294967296
    omega

theorem roundTrip_listState :
    ∃ u', saveFreeList 4096 (listState [(2, 2), (6, 1)] [(7, 2), (4, 1)]) = (.ok (), u') ∧
    RoundTrip 4096 (listState [(2, 2), (6, 1)] [(7, 2), (4, 1)]) u' := by
  obtain ⟨u', hsave⟩ : ∃ u', saveFreeList 4096 (listState [(2, 2), (6, 1)] [(7, 2), (4, 1)]) =
    (.ok (), u') := ⟨_, rfl⟩
  refine ⟨u', hsave,
    (roundTrip_iff (by decide)
      (listState_listable _ _ ⟨by decide, by decide⟩ (by decide) ?_ (by decide))
    hsave).2 ?_⟩
  · intro p
    simp only [List.cons_append, List.nil_append, runsCount_cons, runsCount_nil, runCount_mk]
    split_ifs <;> omega
  · have hpending : savedPending (listState [(2, 2), (6, 1)] [(7, 2), (4, 1)]) =
        [(3, [(7, 2), (4, 1)]), (4, [(9, 1)])] := rfl
    have hfree : savedFree 4096 { (listState [(2, 2), (6, 1)] [(7, 2), (4, 1)]).pager with
        pendingMap := [(3, [(7, 2), (4, 1)]), (4, [(9, 1)])] } = [(3, 1), (6, 1)] := rfl
    unfold PendingPreceded
    rw [hpending, hfree]
    refine ⟨fun _ => ⟨3, by decide, by decide⟩, fun _ => ⟨3, by decide, .inl (by decide)⟩,
      fun _ => ⟨3, by decide, ?_⟩, trivial⟩
    exact .inl (.inl (by decide))

/-- **A step before `begin()`**: two pages that became pending in descending order. -/
theorem not_roundTrip : ∃ u', saveFreeList 4096 (listState [] [(6, 1), (5, 1)]) = (.ok (), u') ∧
    ¬ RoundTrip 4096 (listState [] [(6, 1), (5, 1)]) u' := by
  obtain ⟨u', hsave, hmap, hpending⟩ : ∃ u', saveFreeList 4096 (listState [] [(6, 1), (5, 1)]) =
      (.ok (), u') ∧ u'.pager.freeMap = [] ∧ u'.pager.pendingMap =
        [(3, [(6, 1), (5, 1)]), (4, [(9, 1)])] := ⟨_, rfl, rfl, rfl⟩
  have hlistable := listState_listable [] [(6, 1), (5, 1)] .nil (by decide) (fun p => by
    simp only [List.cons_append, List.nil_append, runsCount_cons, runsCount_nil, runCount_mk]
    split_ifs <;> omega) (by decide)
  have hcalls := (saveFreeList_saved (by decide) hlistable hsave).1.loadCalls (by decide)
  refine ⟨u', hsave, fun h => ?_⟩
  have hinside := h.inside
  rw [hcalls, hmap, hpending] at hinside
  exact hinside.2.1 ⟨rfl, (6, 1), rfl, rfl⟩

end Loading

end Pager

end AtomKV
