import AtomKV.FreeMap

/-!
# The saved free list

`Pager::SaveFreeList` writes the free map and the pending runs into pages of the file,
`Pager::LoadFreeList` reads them back when a database is opened.
-/

set_option autoImplicit false

namespace AtomKV

namespace Pager

/-! ## The code -/

/-- The four bytes of a `PageId` or `PageCount`, the lowest one first. -/
def encodeU32 (n : Nat) : Bytes :=
  (List.range 4).map fun i => UInt8.ofNat (n / 256 ^ i)

def decodeU32 (bytes : Bytes) : Nat := (bytes.take 4).foldr (fun b n => b.toNat + 256 * n) 0

/-- An array of `PagePair`. -/
def encodePairs (pairs : List PagePair) : Bytes :=
  pairs.flatMap fun r => encodeU32 r.1 ++ encodeU32 r.2

def decodePairs (count : Nat) (bytes : Bytes) : List PagePair :=
  (List.range count).map fun i =>
    (decodeU32 (bytes.drop (8 * i)), decodeU32 (bytes.drop (8 * i + 4)))

/-- The runs of the pending map in iteration order. -/
def pendingRuns (m : List (Nat × List PagePair)) : List PagePair := m.flatMap Prod.snd

/-- The number of pairs that `SaveFreeList` counts. -/
def pairCount (pager : Pager) : Nat :=
  u32 (pager.freeMap.length + (pendingRuns pager.pendingMap).length)

/-- The pages that `SaveFreeList` asks for. -/
def listPages (P : Nat) (pager : Pager) : Nat :=
  u32 (getPageCount P (pager.pairCount * kPagePairSize))

/-- The start of `Pager::SaveFreeList`: the pages of the list saved before become pending. -/
def freeSavedList : TxM Unit := do
  let s ← Exec.read
  if s.metaStruct.freeListPgid ≠ kPageInvalidId then
    free s.metaStruct.freeListPgid s.metaStruct.freeListPageCount
  else return ()

/-- `meta.free_list_page_count` is set before the allocation. -/
def withListPages (pages : Nat) (s : TxState) : TxState :=
  { s with metaStruct := { s.metaStruct with freeListPageCount := pages } }

/-- The rest of `Pager::SaveFreeList`. -/
def writeFreeList (P : Nat) : TxM Unit := do
  let s ← Exec.read
  let pages := listPages P s.pager
  Exec.change (withListPages pages)
  let pgid ← alloc pages
  Exec.change fun s =>
    let pairs := s.pager.freeMap ++ pendingRuns s.pager.pendingMap
    { s with
      metaStruct := { s.metaStruct with freeListPgid := pgid, freePairCount := u32 pairs.length }
      pager := writeByBytes P s.pager pgid 0 (encodePairs pairs) }

/-- `Pager::SaveFreeList`. -/
def saveFreeList (P : Nat) : TxM Unit := do
  freeSavedList
  writeFreeList P

/-- `Pager::LoadFreeList`, run on the shared meta. -/
def loadFreeList (P : Nat) (info : MetaInfo) (pager : Pager) : Pager :=
  if info.freeListPgid = kPageInvalidId then pager
  else
    let freeList := decodePairs info.freePairCount
      (readBytes P pager info.freeListPgid (info.freePairCount * kPagePairSize))
    { pager with
      freeMap := freeList.foldl (fun m r => if r.2 = 0 then m else freeToMap m r.1 r.2)
        pager.freeMap }

/-- The pager of a database that is being opened: its maps are empty, then the free list is loaded.
-/
def opened (P : Nat) (info : MetaInfo) (pager : Pager) : Pager :=
  loadFreeList P info { pager with freeMap := [], pendingMap := [], allocRecords := [] }

/-! ## Allocation, case by case -/

theorem alloc_of_some {s : TxState} {count pgid : Nat} {freeMap : List PagePair}
    (h : allocFromMap count s.pager.freeMap = some (pgid, freeMap)) :
    alloc count s = (.ok pgid, { s with
      pager := { s.pager with
        freeMap := freeMap, allocRecords := s.pager.allocRecords ++ [(pgid, count)] } }) := by
  unfold alloc
  rw [Exec.read_bind]
  simp only [h]
  rfl

theorem alloc_of_none {s : TxState} {count : Nat} (h : allocFromMap count s.pager.freeMap = none)
    (hroom : ¬ u32 (s.metaStruct.pageCount + count) < s.metaStruct.pageCount) :
    alloc count s = (.ok s.metaStruct.pageCount,
      { s with metaStruct :=
        { s.metaStruct with pageCount := u32 (s.metaStruct.pageCount + count) } }) := by
  unfold alloc
  rw [Exec.read_bind]
  simp only [h, if_neg hroom]
  rfl

theorem alloc_raises {s : TxState} {count : Nat} (h : allocFromMap count s.pager.freeMap = none)
    (hroom : u32 (s.metaStruct.pageCount + count) < s.metaStruct.pageCount) :
    ∃ e, alloc count s = (.error e, s) := by
  refine ⟨.runtimeError "Page allocation failed, there are not enough available pages.", ?_⟩
  unfold alloc
  rw [Exec.read_bind]
  simp only [h, if_pos hroom]
  rfl

/-- A growth of the file that is not refused does not wrap. -/
theorem u32_add_of_not_lt {pageCount count : Nat} (hpc : pageCount < 4294967296)
    (hc : count < 4294967296) (h : ¬ u32 (pageCount + count) < pageCount) :
    u32 (pageCount + count) = pageCount + count ∧ pageCount + count < 4294967296 := by
  unfold u32 at h ⊢
  omega

/-! ## Saving -/

/-- What an allocation may take from the pager: a run of the free map goes to the allocation
records. -/
inductive Draws (pager : Pager) : Pager → Prop where
  | nothing (pages : Nat → Page) : Draws pager { pager with pages := pages }
  | run (pages : Nat → Page) {pgid count : Nat} {freeMap : List PagePair} (pos : 0 < count)
      (taken : allocFromMap count pager.freeMap = some (pgid, freeMap)) :
      Draws pager ⟨pages, freeMap, pager.pendingMap, pager.allocRecords ++ [(pgid, count)]⟩

theorem Draws.pendingMap_eq {pager pager' : Pager} (h : pager.Draws pager') :
    pager'.pendingMap = pager.pendingMap := by
  cases h with
  | nothing pages => rfl
  | run pages pos taken => rfl

theorem freeSavedList_of_invalid {s : TxState} (h : s.metaStruct.freeListPgid = kPageInvalidId) :
    freeSavedList s = (.ok (), s) := by
  unfold freeSavedList
  rw [Exec.read_bind]
  simp only [h, ne_eq, not_true_eq_false, if_false]
  rfl

/-- The list takes no page exactly when there is nothing to save. -/
theorem listPages_eq_zero_iff {P : Nat} (hP : kPagePairSize ≤ P) (pager : Pager) :
    listPages P pager = 0 ↔ pager.pairCount = 0 := by
  unfold kPagePairSize at hP
  have hlt : pager.pairCount < 4294967296 := Nat.mod_lt _ (by omega)
  unfold listPages getPageCount kPagePairSize
  generalize pager.pairCount = n at hlt ⊢
  have hdiv : n * 8 / P ≤ n := by
    refine Nat.div_le_of_le_mul ?_
    rw [Nat.mul_comm]
    exact Nat.mul_le_mul_right n hP
  constructor
  · intro h
    have hdvd := Nat.div_add_mod (n * 8) P
    by_cases hmod : n * 8 % P = 0
    · rw [if_neg (not_not.2 hmod), u32_of_lt (Nat.lt_of_le_of_lt hdiv hlt)] at h
      rw [h, hmod] at hdvd
      omega
    · -- with a remainder the quotient is not the whole
      have hless : n * 8 / P < n := by
        rw [Nat.div_lt_iff_lt_mul (by omega)]
        have h1 : n * 8 ≤ n * P := Nat.mul_le_mul_left n hP
        rcases Nat.lt_or_eq_of_le h1 with h2 | h2
        · exact h2
        · rw [h2, Nat.mul_mod_left] at hmod
          exact absurd rfl hmod
      rw [if_pos hmod, u32_of_lt (Nat.lt_of_le_of_lt hless hlt)] at h
      cases h
  · rintro rfl
    simp [u32]

/-- What `SaveFreeList` writes into the meta and the pages, once it has its pages. -/
def savedList (P : Nat) (pages pgid : Nat) (s : TxState) : TxState :=
  let pairs := s.pager.freeMap ++ pendingRuns s.pager.pendingMap
  { s with
    metaStruct := { s.metaStruct with
      freeListPgid := pgid, freeListPageCount := pages, freePairCount := u32 pairs.length }
    pager := writeByBytes P s.pager pgid 0 (encodePairs pairs) }

theorem writeFreeList_of_some {P : Nat} {s : TxState} {pgid : Nat} {freeMap : List PagePair}
    (h : allocFromMap (listPages P s.pager) s.pager.freeMap = some (pgid, freeMap)) :
    writeFreeList P s = (.ok (), savedList P (listPages P s.pager) pgid { s with
      pager := { s.pager with
        freeMap := freeMap,
          allocRecords := s.pager.allocRecords ++ [(pgid, listPages P s.pager)] } }) := by
  have halloc := alloc_of_some (s := withListPages (listPages P s.pager) s) h
  unfold writeFreeList
  rw [Exec.read_bind, Exec.change_bind, Exec.bind_of_ok halloc]
  rfl

theorem writeFreeList_of_none {P : Nat} {s : TxState}
    (h : allocFromMap (listPages P s.pager) s.pager.freeMap = none)
    (hroom : ¬ u32 (s.metaStruct.pageCount + listPages P s.pager) < s.metaStruct.pageCount) :
    writeFreeList P s = (.ok (), savedList P (listPages P s.pager) s.metaStruct.pageCount { s with
      metaStruct := { s.metaStruct with
        pageCount := u32 (s.metaStruct.pageCount + listPages P s.pager) } }) := by
  have halloc := alloc_of_none (s := withListPages (listPages P s.pager) s) h hroom
  unfold writeFreeList
  rw [Exec.read_bind, Exec.change_bind, Exec.bind_of_ok halloc]
  rfl

theorem writeFreeList_raises {P : Nat} {s : TxState}
    (h : allocFromMap (listPages P s.pager) s.pager.freeMap = none)
    (hroom : u32 (s.metaStruct.pageCount + listPages P s.pager) < s.metaStruct.pageCount) :
    ∃ e, writeFreeList P s = (.error e, withListPages (listPages P s.pager) s) := by
  obtain ⟨e, he⟩ := alloc_raises (s := withListPages (listPages P s.pager) s) h hroom
  refine ⟨e, ?_⟩
  unfold writeFreeList
  rw [Exec.read_bind, Exec.change_bind, Exec.bind_of_error he]

/-- All that saving the list does to the pager's maps. -/
theorem writeFreeList_draws {P : Nat} (hP : kPagePairSize ≤ P) {s : TxState}
    (hfew : s.pager.freeMap.length + (pendingRuns s.pager.pendingMap).length < 4294967296) :
    (∃ s', writeFreeList P s = (.ok (), s') ∧ Draws s.pager s'.pager) ∨
      ∃ e s', writeFreeList P s = (.error e, s') ∧ s'.pager = s.pager := by
  cases halloc : allocFromMap (listPages P s.pager) s.pager.freeMap with
  | some r =>
    obtain ⟨pgid, freeMap⟩ := r
    refine .inl ⟨_, writeFreeList_of_some halloc, .run _ ?_ halloc⟩
    refine Nat.pos_of_ne_zero fun hzero => ?_
    -- the free map is not empty, so there is something to save
    rw [listPages_eq_zero_iff hP] at hzero
    unfold pairCount at hzero
    rw [u32_of_lt hfew] at hzero
    have hempty : s.pager.freeMap = [] := List.length_eq_zero_iff.1 (by omega)
    rw [hempty] at halloc
    cases halloc
  | none =>
    by_cases hroom : u32 (s.metaStruct.pageCount + listPages P s.pager) < s.metaStruct.pageCount
    · obtain ⟨e, he⟩ := writeFreeList_raises halloc hroom
      exact .inr ⟨e, _, he, rfl⟩
    · exact .inl ⟨_, writeFreeList_of_none halloc hroom, .nothing _⟩

/-- Nothing was ever saved. -/
theorem saveFreeList_of_invalid {P : Nat} {s : TxState}
    (h : s.metaStruct.freeListPgid = kPageInvalidId) : saveFreeList P s = writeFreeList P s := by
  unfold saveFreeList
  rw [Exec.bind_of_ok (freeSavedList_of_invalid h)]

theorem opened_of_invalid {P : Nat} {info : MetaInfo} (h : info.freeListPgid = kPageInvalidId)
    (pager : Pager) :
    opened P info pager = { pager with freeMap := [], pendingMap := [], allocRecords := [] } := by
  unfold opened loadFreeList
  rw [if_pos h]

end Pager

end AtomKV
