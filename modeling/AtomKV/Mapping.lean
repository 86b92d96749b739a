import AtomKV.PagerCounts

/-!
# The file mapping

Where a page lies in the file: `Pager::GetPtr`, the growth of the mapping in `Pager::Alloc` and
`DBImpl::Remmap`, and the size that `~DBImpl` leaves. `PageId` and `PageCount` have 32 bits and
`PageSize` has 16, so each product of the two is computed modulo `2 ^ 32`. What follows are the
exact conditions under which it is the product.
-/

set_option autoImplicit false

namespace AtomKV

/-- The mapped file, as the open write transaction sees it. -/
structure MappedFile where
  pageSize : Nat
  pageCount : Nat
  freeMap : List PagePair
  mapSize : Nat
  fileSize : Nat

/-! ## The code -/

/-- `Pager::GetPtr`, as an offset from the start of the mapping. -/
def Pager.getPtr (P : Nat) (pgid offset : Nat) : Nat := u32 (pgid * P) + offset

/-- `max_expand_size` in `DBImpl::Remmap`. -/
def kMaxExpandSize : Nat := 1024 * 1024 * 1024

/-- The loop of `DBImpl::Remmap`. -/
def DBImpl.doubleLoop (newSize : Nat) : Nat → Nat → Nat
  | 0, mapSize => mapSize
  | n + 1, mapSize => if newSize < mapSize * 2 then mapSize * 2
      else doubleLoop newSize n (mapSize * 2)

/-- The size that `DBImpl::Remmap` chooses. -/
def DBImpl.remmapSize (newSize : Nat) : Nat :=
  if newSize ≤ kMaxExpandSize then doubleLoop newSize 31 1 else newSize + newSize % kMaxExpandSize

/-- `DBImpl::Remmap`. -/
def DBImpl.remmap (newSize : Nat) (f : MappedFile) : Except Err MappedFile :=
  let mapSize := remmapSize newSize
  if mapSize % f.pageSize = 0 then .ok { f with mapSize := mapSize, fileSize := mapSize }
    else .error .assertion

/-- `Pager::Alloc` with the mapping. -/
def Pager.allocMapped (count : Nat) (f : MappedFile) : Except Err (Nat × MappedFile) :=
  match allocFromMap count f.freeMap with
  | some (pgid, freeMap) => .ok (pgid, { f with freeMap := freeMap })
  | none =>
      let pageCount := u32 (f.pageCount + count)
      if pageCount < f.pageCount then
        .error (.runtimeError "Page allocation failed, there are not enough available pages.")
      else
        let grown := { f with pageCount := pageCount }
        let minSize := u32 (pageCount * f.pageSize)
        if f.mapSize < minSize then (DBImpl.remmap minSize grown).map fun f' => (f.pageCount, f')
        else .ok (f.pageCount, grown)

/-- The size of the file after `~DBImpl`. -/
def DBImpl.closedSize (f : MappedFile) : Nat :=
  let newSize := u32 (f.pageSize * f.pageCount)
  if 0 < newSize then newSize else f.fileSize

/-! ## Page sizes -/

/-- A page size of a system that `DB::Open` accepts. -/
def AcceptedPageSize (P : Nat) : Prop := ∃ k, k ≤ 15 ∧ P = 2 ^ k

theorem AcceptedPageSize.pos {P : Nat} (h : AcceptedPageSize P) : 0 < P := by
  obtain ⟨k, -, rfl⟩ := h
  exact Nat.two_pow_pos k

theorem AcceptedPageSize.dvd_two_pow {P n : Nat} (h : AcceptedPageSize P)
    (hn : 15 ≤ n) : P ∣ 2 ^ n := by
  obtain ⟨k, hk, rfl⟩ := h
  exact Nat.pow_dvd_pow 2 (Nat.le_trans hk hn)

/-- A power of two above the page size is a multiple of it. -/
theorem AcceptedPageSize.dvd_of_lt {P n : Nat} (h : AcceptedPageSize P) (hlt : P < 2 ^ n) :
    P ∣ 2 ^ n := by
  obtain ⟨k, -, rfl⟩ := h
  have hk : k < n := (Nat.pow_lt_pow_iff_right (by omega)).1 hlt
  exact Nat.pow_dvd_pow 2 (Nat.le_of_lt hk)

/-- The file is mapped up to its last page. -/
structure Mapped (f : MappedFile) : Prop where
  pageSize : AcceptedPageSize f.pageSize
  count_ge : kPageInitCount ≤ f.pageCount
  count_le : f.pageCount ≤ kPageMaxCount
  covered : f.pageCount * f.pageSize ≤ f.mapSize
  aligned : f.pageSize ∣ f.mapSize
  freeIn : ∀ r ∈ f.freeMap, r.1 + r.2 ≤ f.pageCount

/-! ## Page addresses -/

/-- Pages lie where their ids say, and have no byte in common. -/
def MappedFile.PagesApart (f : MappedFile) : Prop :=
  (∀ pgid < f.pageCount, ∀ offset, Pager.getPtr f.pageSize pgid offset =
    pgid * f.pageSize + offset) ∧ ∀ p < f.pageCount, ∀ q < f.pageCount, p ≠ q →
    ∀ i < f.pageSize, ∀ j < f.pageSize,
      Pager.getPtr f.pageSize p i ≠ Pager.getPtr f.pageSize q j

theorem u32_eq_iff {x : Nat} : u32 x = x ↔ x < 4294967296 := by
  unfold u32
  omega

theorem MappedFile.pagesApart_iff {f : MappedFile} (h : Mapped f) :
    f.PagesApart ↔ (f.pageCount - 1) * f.pageSize < 4294967296 := by
  have hcount := h.count_ge
  unfold kPageInitCount at hcount
  constructor
  · rintro ⟨hexact, -⟩
    have hlast := hexact (f.pageCount - 1) (by omega) 0
    exact u32_eq_iff.1 hlast
  · intro hlt
    have hexact : ∀ pgid < f.pageCount, u32 (pgid * f.pageSize) = pgid * f.pageSize := by
      intro pgid hp
      refine u32_of_lt (Nat.lt_of_le_of_lt ?_ hlt)
      exact Nat.mul_le_mul_right _ (by omega)
    refine ⟨fun pgid hp offset => ?_, fun p hp q hq hne i hi j hj heq => ?_⟩
    · unfold Pager.getPtr
      rw [hexact pgid hp]
    · unfold Pager.getPtr at heq
      rw [hexact p hp, hexact q hq] at heq
      -- both sides are in the page of the larger id
      rcases Nat.lt_or_gt_of_ne hne with hlt' | hlt'
      · have hstep : (p + 1) * f.pageSize ≤ q * f.pageSize := Nat.mul_le_mul_right _ hlt'
        rw [Nat.succ_mul] at hstep
        omega
      · have hstep : (q + 1) * f.pageSize ≤ p * f.pageSize := Nat.mul_le_mul_right _ hlt'
        rw [Nat.succ_mul] at hstep
        omega

/-! ## Growing -/

theorem DBImpl.doubleLoop_eq (newSize : Nat) (n m : Nat) (hn : newSize < 2 ^ (n + m))
    (hn0 : 0 < n) : ∃ j, j ≤ n + m ∧ doubleLoop newSize n (2 ^ m) = 2 ^ j ∧ newSize < 2 ^ j := by
  induction n generalizing m with
  | zero => exact absurd hn0 (by omega)
  | succ n ih =>
    unfold doubleLoop
    rw [← pow_succ]
    by_cases hlt : newSize < 2 ^ (m + 1)
    · exact ⟨m + 1, by omega, if_pos hlt, hlt⟩
    · rw [if_neg hlt]
      have hn' : newSize < 2 ^ (n + (m + 1)) := by
        rwa [show n + 1 + m = n + (m + 1) by omega] at hn
      rcases Nat.eq_zero_or_pos n with rfl | hpos
      · rw [Nat.zero_add] at hn'
        exact absurd hn' hlt
      · obtain ⟨j, hj, heq, hlt'⟩ := ih (m + 1) hn' hpos
        exact ⟨j, by omega, heq, hlt'⟩

/-- The new mapping is large enough and consists of pages; it exceeds what was asked for by
less than 2 GiB. -/
theorem DBImpl.remmapSize_spec {P newSize : Nat} (hP : AcceptedPageSize P) (hdvd : P ∣ newSize)
    (hlt : P < newSize) : newSize ≤ remmapSize newSize ∧ P ∣ remmapSize newSize ∧
    remmapSize newSize < newSize + 2147483648 := by
  unfold remmapSize
  by_cases hsmall : newSize ≤ kMaxExpandSize
  · rw [if_pos hsmall]
    have h31 : newSize < 2 ^ (31 + 0) := by
      unfold kMaxExpandSize at hsmall
      omega
    obtain ⟨j, hj, heq, hlt'⟩ := DBImpl.doubleLoop_eq newSize 31 0 h31 (by omega)
    rw [pow_zero] at heq
    rw [heq]
    have h2 : 2 ^ j ≤ 2 ^ 31 := Nat.pow_le_pow_right (by omega) (by omega)
    exact ⟨Nat.le_of_lt hlt', hP.dvd_of_lt (Nat.lt_of_lt_of_le hlt (Nat.le_of_lt hlt')), by omega⟩
  · rw [if_neg hsmall]
    have hexpand : P ∣ kMaxExpandSize := hP.dvd_two_pow (n := 30) (by omega)
    refine ⟨Nat.le_add_right _ _, Nat.dvd_add hdvd ((Nat.dvd_mod_iff hexpand).2 hdvd), ?_⟩
    have : newSize % kMaxExpandSize < kMaxExpandSize := Nat.mod_lt _ (by decide)
    unfold kMaxExpandSize at *
    omega

/-- A returned run is mapped, and the mapping consists of pages. -/
def MappedFile.AllocMaps (f : MappedFile) (count : Nat) : Prop :=
  ∀ pgid f', Pager.allocMapped count f = .ok (pgid, f') →
    (pgid + count) * f.pageSize ≤ f'.mapSize ∧ f.pageSize ∣ f'.mapSize

/-- What `Alloc` needs: a free run, or an end of the file below 4 GiB or inside of the mapping. -/
def MappedFile.CanGrow (f : MappedFile) (count : Nat) : Prop :=
  Pager.allocFromMap count f.freeMap ≠ none ∨ (f.pageCount + count) * f.pageSize < 4294967296 ∨
    (f.pageCount + count) * f.pageSize ≤ f.mapSize

theorem MappedFile.allocMaps_iff {f : MappedFile} {count : Nat} (h : Mapped f)
    (hcount : f.pageCount + count ≤ kPageMaxCount) : f.AllocMaps count ↔ f.CanGrow count := by
  have hpos := h.pageSize.pos
  have hinit := h.count_ge
  unfold kPageInitCount at hinit
  cases hm : Pager.allocFromMap count f.freeMap with
  | some r =>
    obtain ⟨pgid, freeMap⟩ := r
    have halloc : Pager.allocMapped count f = .ok (pgid, { f with freeMap := freeMap }) := by
      unfold Pager.allocMapped
      rw [hm]
    have hin := (Pager.allocFromMap_in hm h.freeIn).1
    refine ⟨fun _ => .inl (by rw [hm]; exact Option.some_ne_none _), fun _ pgid' f' hrun => ?_⟩
    obtain ⟨rfl, rfl⟩ := Prod.mk.inj (Except.ok.inj (halloc.symm.trans hrun))
    exact ⟨Nat.le_trans (Nat.mul_le_mul_right _ hin) h.covered, h.aligned⟩
  | none =>
    have hmax : kPageMaxCount < 4294967296 := by decide
    have hu : u32 (f.pageCount + count) = f.pageCount + count := u32_of_lt (by omega)
    set need := (f.pageCount + count) * f.pageSize with hneed
    have halloc : Pager.allocMapped count f =
        if f.mapSize < u32 need then
          (DBImpl.remmap (u32 need) { f with pageCount := f.pageCount + count }).map fun f' =>
            (f.pageCount, f')
        else .ok (f.pageCount, { f with pageCount := f.pageCount + count }) := by
      unfold Pager.allocMapped
      rw [hm]
      simp only [hu, if_neg (show ¬ f.pageCount + count < f.pageCount by omega), hneed]
    have hcan : f.CanGrow count ↔ need < 4294967296 ∨ need ≤ f.mapSize := by
      unfold MappedFile.CanGrow
      rw [hm]
      simp [hneed]
    have hdvd : f.pageSize ∣ u32 need :=
      (Nat.dvd_mod_iff (h.pageSize.dvd_two_pow (n := 32) (by omega))).2 ⟨_, Nat.mul_comm _ _⟩
    have hcovered := h.covered
    have htwo : 2 * f.pageSize ≤ f.pageCount * f.pageSize := Nat.mul_le_mul_right _ hinit
    rw [hcan]
    unfold MappedFile.AllocMaps
    by_cases hremap : f.mapSize < u32 need
    · -- the file is mapped anew
      obtain ⟨h1, h2, h3⟩ := DBImpl.remmapSize_spec h.pageSize hdvd (by omega)
      have hrun : Pager.allocMapped count f = .ok (f.pageCount, { f with
          pageCount := f.pageCount + count
          mapSize := DBImpl.remmapSize (u32 need)
          fileSize := DBImpl.remmapSize (u32 need) }) := by
        rw [halloc, if_pos hremap]
        unfold DBImpl.remmap
        simp only [Nat.mod_eq_zero_of_dvd h2, if_true]
        rfl
      constructor
      · intro hmaps
        have hle : need ≤ DBImpl.remmapSize (u32 need) := (hmaps _ _ hrun).1
        unfold u32 at hle h3
        left
        omega
      · intro hfits pgid f' hrun'
        obtain ⟨rfl, rfl⟩ := Prod.mk.inj (Except.ok.inj (hrun.symm.trans hrun'))
        refine ⟨?_, h2⟩
        show need ≤ DBImpl.remmapSize (u32 need)
        rcases hfits with hlt | hle
        · have hexact : u32 need = need := u32_of_lt hlt
          omega
        · have : u32 need ≤ need := Nat.mod_le _ _
          omega
    · have hrun : Pager.allocMapped count f =
          .ok (f.pageCount, { f with pageCount := f.pageCount + count }) := by
        rw [halloc, if_neg hremap]
      constructor
      · intro hmaps
        exact .inr (hmaps _ _ hrun).1
      · intro hfits pgid f' hrun'
        obtain ⟨rfl, rfl⟩ := Prod.mk.inj (Except.ok.inj (hrun.symm.trans hrun'))
        refine ⟨?_, h.aligned⟩
        show need ≤ f.mapSize
        rcases hfits with hlt | hle
        · rw [u32_of_lt hlt] at hremap
          omega
        · exact hle

/-- `Alloc` returns: a free run, or the pages behind the last one. -/
theorem Pager.allocMapped_returns {f : MappedFile} {count : Nat} (h : Mapped f)
    (hcount : f.pageCount + count ≤ kPageMaxCount) :
    ∃ pgid f', Pager.allocMapped count f = .ok (pgid, f') ∧ f'.pageSize = f.pageSize ∧
      f.pageSize ∣ f'.mapSize ∧ ((∃ freeMap, allocFromMap count f.freeMap = some (pgid, freeMap)) ∨
        allocFromMap count f.freeMap = none ∧ pgid = f.pageCount) := by
  cases hm : Pager.allocFromMap count f.freeMap with
  | some r =>
    obtain ⟨pgid, freeMap⟩ := r
    refine ⟨pgid, { f with freeMap := freeMap }, ?_, rfl, h.aligned, .inl ⟨freeMap, rfl⟩⟩
    unfold Pager.allocMapped
    rw [hm]
  | none =>
    -- the file grows; the product in the test of the mapping is one of 32 bits
    have hmax : kPageMaxCount < 4294967296 := by decide
    have hu : u32 (f.pageCount + count) = f.pageCount + count := u32_of_lt (by omega)
    have hroom : ¬ f.pageCount + count < f.pageCount := by omega
    unfold Pager.allocMapped
    simp only [hm, hu, if_neg hroom]
    by_cases hremap : f.mapSize < u32 ((f.pageCount + count) * f.pageSize)
    · have hdvd : f.pageSize ∣ u32 ((f.pageCount + count) * f.pageSize) :=
        (Nat.dvd_mod_iff (h.pageSize.dvd_two_pow (n := 32) (by omega))).2 ⟨_, Nat.mul_comm _ _⟩
      have htwo : 2 * f.pageSize ≤ f.pageCount * f.pageSize := Nat.mul_le_mul_right _ h.count_ge
      have hpos := h.pageSize.pos
      have hcovered := h.covered
      obtain ⟨-, haligned, -⟩ := DBImpl.remmapSize_spec h.pageSize hdvd (by omega)
      rw [if_pos hremap]
      unfold DBImpl.remmap
      simp only [Nat.mod_eq_zero_of_dvd haligned, if_true]
      exact ⟨_, _, rfl, rfl, haligned, .inr ⟨trivial, rfl⟩⟩
    · rw [if_neg hremap]
      exact ⟨_, _, rfl, rfl, h.aligned, .inr ⟨trivial, rfl⟩⟩

/-! ## Closing -/

/-- The file keeps its pages when the database is closed. -/
def MappedFile.ClosesWhole (f : MappedFile) : Prop := f.pageCount * f.pageSize ≤ DBImpl.closedSize f

/-- The pages end below 4 GiB, or at a multiple of it, where the file is left as it is. -/
def MappedFile.CanClose (f : MappedFile) : Prop :=
  f.pageCount * f.pageSize < 4294967296 ∨
    4294967296 ∣ f.pageCount * f.pageSize ∧ f.pageCount * f.pageSize ≤ f.fileSize

theorem MappedFile.closesWhole_iff (f : MappedFile) : f.ClosesWhole ↔ f.CanClose := by
  unfold MappedFile.ClosesWhole MappedFile.CanClose DBImpl.closedSize
  rw [Nat.mul_comm f.pageSize]
  generalize f.pageCount * f.pageSize = size
  unfold u32
  show size ≤ (if 0 < size % 4294967296 then size % 4294967296 else f.fileSize) ↔ _
  split_ifs <;> omega

/-! ## All three -/

/-- **Page addresses.** -/
theorem MappedFile.addresses_iff {f : MappedFile} {count : Nat} (h : Mapped f)
    (hcount : f.pageCount + count ≤ kPageMaxCount) :
    (f.PagesApart ∧ f.AllocMaps count ∧ f.ClosesWhole) ↔
      (f.pageCount - 1) * f.pageSize < 4294967296 ∧ f.CanGrow count ∧ f.CanClose := by
  rw [f.closesWhole_iff, MappedFile.pagesApart_iff h, MappedFile.allocMaps_iff h hcount]

/-- A new file of 4 KiB pages. -/
theorem MappedFile.addresses_new :
    let f : MappedFile := ⟨4096, 2, [], 8192, 8192⟩
    f.PagesApart ∧ f.AllocMaps 1 ∧ f.ClosesWhole :=
  (MappedFile.addresses_iff ⟨⟨12, by decide, by decide⟩, by decide, by decide, by decide, by decide,
    fun _ hr => absurd hr List.not_mem_nil⟩ (by decide)).2
    ⟨by decide, .inr (.inl (by decide)), .inl (by decide)⟩

/-- **Addresses wrap.** In a file of 4 GiB and one page the last page lies on the first. -/
theorem MappedFile.addresses_wrap : ∃ (f : MappedFile) (count : Nat), Mapped f ∧
    f.pageCount + count ≤ kPageMaxCount ∧ ¬ (f.PagesApart ∧ f.AllocMaps count ∧ f.ClosesWhole) := by
  refine ⟨⟨4096, 1048577, [], 4294971392, 4294971392⟩, 1,
    ⟨⟨12, by decide, by decide⟩, by decide, by decide,
    by decide, by decide, fun _ hr => absurd hr List.not_mem_nil⟩, by decide, ?_⟩
  rintro ⟨⟨hexact, -⟩, -, -⟩
  have hlast := hexact 1048576 (by decide) 0
  revert hlast
  decide

/-! ## Runs -/

/-- An allocation keeps the file mapped. -/
theorem Mapped.alloc {f f' : MappedFile} {count pgid : Nat} (h : Mapped f)
    (hcount : f.pageCount + count ≤ kPageMaxCount) (hgrow : f.CanGrow count)
    (hrun : Pager.allocMapped count f = .ok (pgid, f')) : Mapped f' := by
  have hmaps := (MappedFile.allocMaps_iff h hcount).2 hgrow pgid f' hrun
  have hmax : kPageMaxCount < 4294967296 := by decide
  have hu : u32 (f.pageCount + count) = f.pageCount + count := u32_of_lt (by omega)
  unfold Pager.allocMapped at hrun
  cases hm : Pager.allocFromMap count f.freeMap with
  | some r =>
    obtain ⟨q, freeMap⟩ := r
    rw [hm] at hrun
    obtain ⟨rfl, rfl⟩ := Prod.mk.inj (Except.ok.inj hrun)
    exact { h with freeIn := (Pager.allocFromMap_in hm h.freeIn).2 }
  | none =>
    rw [hm] at hrun
    simp only [hu, if_neg (show ¬ f.pageCount + count < f.pageCount by omega)] at hrun
    -- with or without a new mapping the file has grown by `count` pages
    have hgrown : f'.pageSize = f.pageSize → f'.pageCount = f.pageCount + count →
        f'.freeMap = f.freeMap → pgid = f.pageCount → Mapped f' := by
      rintro h1 h2 h3 rfl
      refine ⟨h1 ▸ h.pageSize, ?_, by rw [h2]; exact hcount, by rw [h1, h2]; exact hmaps.1, by
        rw [h1]; exact hmaps.2, fun r hr => ?_⟩
      · have := h.count_ge
        omega
      · rw [h3] at hr
        have := h.freeIn r hr
        omega
    split at hrun
    · unfold DBImpl.remmap at hrun
      simp only at hrun
      split at hrun
      · obtain ⟨rfl, rfl⟩ := Prod.mk.inj (Except.ok.inj hrun)
        exact hgrown rfl rfl rfl rfl
      · cases hrun
    · obtain ⟨rfl, rfl⟩ := Prod.mk.inj (Except.ok.inj hrun)
      exact hgrown rfl rfl rfl rfl

/-- `Alloc` with the mapping hands out what `Alloc` without it does. -/
theorem Pager.alloc_of_allocMapped {f f' : MappedFile} {s : TxState} {count pgid : Nat}
    (hcount : f.pageCount = s.metaStruct.pageCount) (hfree : f.freeMap = s.pager.freeMap)
    (hrun : Pager.allocMapped count f = .ok (pgid, f')) :
    ∃ s', Pager.alloc count s = (.ok pgid, s') ∧ f'.pageCount = s'.metaStruct.pageCount ∧
      f'.freeMap = s'.pager.freeMap ∧ s'.pager.pages = s.pager.pages := by
  unfold Pager.allocMapped at hrun
  unfold Pager.alloc
  rw [Exec.read_bind, ← hfree]
  cases hm : Pager.allocFromMap count f.freeMap with
  | some r =>
    obtain ⟨q, freeMap⟩ := r
    rw [hm] at hrun
    obtain ⟨rfl, rfl⟩ := Prod.mk.inj (Except.ok.inj hrun)
    exact ⟨_, rfl, hcount, rfl, rfl⟩
  | none =>
    rw [hm] at hrun
    simp only [hcount] at hrun ⊢
    split at hrun
    · cases hrun
    · next hle =>
      rw [if_neg hle]
      split at hrun
      · unfold DBImpl.remmap at hrun
        simp only at hrun
        split at hrun
        · obtain ⟨rfl, rfl⟩ := Prod.mk.inj (Except.ok.inj hrun)
          exact ⟨_, rfl, rfl, hfree, rfl⟩
        · cases hrun
      · obtain ⟨rfl, rfl⟩ := Prod.mk.inj (Except.ok.inj hrun)
        exact ⟨_, rfl, rfl, hfree, rfl⟩

end AtomKV
