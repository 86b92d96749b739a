import AtomKV.Layout
import AtomKV.LeafUpdate
import AtomKV.Mapping

/-!
# Records in overflow pages

A record that is too long for its leaf is written to a run of pages, and the leaf has a stub of four
bytes. The stub goes with the slot when the leaf is copied or compacted. `Delete` frees the run, and
computes its length from the slot.

A record may have more than 4 GiB, so that the addresses of its pages count here: `Alloc` may leave
the mapping too short for the run, and the run may start where `GetPtr` wraps.
-/

set_option autoImplicit false

namespace AtomKV

/-! ## The calls that store a record -/

/-- The calls of `StoreRecord` in a leaf: an insertion, or an update of the record that is there. -/
inductive StoreCall where
  | insert
  | update (old : Entry)

namespace StoreCall

/-- The records that are replaced. -/
def olds : StoreCall → List Entry
  | insert => []
  | update old => [old]

def exec (env : Env) (q i : Nat) (key value : Bytes) : StoreCall → TxM Bool
  | insert => LeafNode.insert env q i key value
  | update _ => LeafNode.update env q i key value

end StoreCall

/-- What happens to a leaf while its records stay. -/
inductive Relocation where
  /-- `Node::Copy`. -/
  | copy
  /-- The compaction in `RequestSpaceFor`. -/
  | compact

/-- The page id of the leaf after it was copied and compacted. -/
def relocate (env : Env) (q : Nat) : List Relocation → TxM Nat
  | [] => pure q
  | .copy :: steps => do
      let q' ← Node.copy q
      relocate env q' steps
  | .compact :: steps => do
      let n ← Pager.getNode q
      let n ← Exec.lift (n.compactify env.pageSize)
      Pager.setNode q n
      relocate env q steps

/-- `f` is the mapped file of the state, and its pages have addresses of their own. -/
structure TxState.MappedBy (P : Nat) (s : TxState) (f : MappedFile) : Prop where
  pageSize : f.pageSize = P
  pageCount : f.pageCount = s.metaStruct.pageCount
  freeMap : f.freeMap = s.pager.freeMap
  mapped : Mapped f
  apart : f.PagesApart

/-- The two writes of `StoreRecordToOverflowPages` start where the run is, and the run is mapped. -/
structure MappedFile.Places (f : MappedFile) (run : Nat) (key value : Bytes) : Prop where
  keyAt : Pager.getPtr f.pageSize run 0 = run * f.pageSize
  valueAt : value ≠ [] → Pager.getPtr f.pageSize (run + key.length / f.pageSize)
    (key.length % f.pageSize) = run * f.pageSize + key.length
  mapped : (run + Pager.getPageCount f.pageSize (key.length + value.length)) * f.pageSize ≤
    f.mapSize

/-- The page of the run in which the last of the two writes starts. -/
def lastWrite (P : Nat) (key value : Bytes) : Nat := if value = [] then 0 else key.length / P

/-- The size of the record fits into 32 bits; its run is free, or ends below 4 GiB or inside of the
mapping and has no write that starts where `GetPtr` wraps. -/
structure MappedFile.RoomFor (f : MappedFile) (key value : Bytes) : Prop where
  size : key.length + value.length < 4294967296
  grow : f.CanGrow (Pager.getPageCount f.pageSize (key.length + value.length))
  starts : Pager.allocFromMap (Pager.getPageCount f.pageSize (key.length + value.length))
    f.freeMap = none → (f.pageCount + lastWrite f.pageSize key value) * f.pageSize < 4294967296

/-- **The record makes the round trip.** `Alloc` has given a run for it, the record is written to
the mapped pages of this run, and nothing else but the leaf was written. Wherever the leaf is after
up to `b` steps, the slot has the key and the value, and `Delete` frees the run. A copy takes a
page, and is looked at as long as the file ends below 4 GiB. -/
structure RoundTrips (env : Env) (f : MappedFile) (b q i : Nat) (key value : Bytes) (s s' : TxState)
    (run : Nat) : Prop where
  placed : ∃ f', Pager.allocMapped (Pager.getPageCount env.pageSize (key.length + value.length)) f =
    .ok (run, f') ∧ f'.Places run key value
  inside : ∀ p, p ≠ q →
    (p < run ∨ run + Pager.getPageCount env.pageSize (key.length + value.length) ≤ p) →
    s'.pager.pages p = s.pager.pages p
  kept : ∀ steps : List Relocation, steps.length ≤ b → Exec.Ok (relocate env q steps) s' fun q' t =>
    (Relocation.copy ∈ steps → t.metaStruct.pageCount * env.pageSize < 4294967296) →
      Node.getKey env q' i t = (.ok key, t) ∧ LeafNode.getValue env q' i t = (.ok value, t) ∧
        ∃ u, LeafNode.delete env q' i t = (.ok (), u) ∧ u.pager.pendingMap =
          Pager.addPending t.metaStruct.txid
            (run, Pager.getPageCount env.pageSize (key.length + value.length)) t.pager.pendingMap

/-! ## The place of the run -/

section Place

variable {P : Nat} {f : MappedFile} {run : Nat} {key value : Bytes} {s : TxState}

/-- The writes start where they should when the last of them starts below 4 GiB. -/
theorem MappedFile.places_iff : f.Places run key value ↔
    (run + lastWrite f.pageSize key value) * f.pageSize < 4294967296 ∧
      (run + Pager.getPageCount f.pageSize (key.length + value.length)) * f.pageSize ≤
        f.mapSize := by
  have hsplit : key.length / f.pageSize * f.pageSize + key.length % f.pageSize = key.length :=
    Nat.div_add_mod' _ _
  unfold lastWrite
  constructor
  · rintro ⟨hkey, hvalue, hmapped⟩
    refine ⟨?_, hmapped⟩
    by_cases hnil : value = []
    · rw [if_pos hnil]
      exact u32_eq_iff.1 hkey
    · rw [if_neg hnil]
      have hat := hvalue hnil
      unfold Pager.getPtr at hat
      apply u32_eq_iff.1
      rw [Nat.add_mul] at hat ⊢
      omega
  · rintro ⟨hstart, hmapped⟩
    have hkey : run * f.pageSize < 4294967296 := by
      rw [Nat.add_mul] at hstart
      omega
    refine ⟨u32_of_lt hkey, fun hnil => ?_, hmapped⟩
    rw [if_neg hnil] at hstart
    unfold Pager.getPtr
    rw [u32_of_lt hstart, Nat.add_mul]
    omega

/-- The last write starts in the run. -/
theorem lastWrite_lt (hP : 0 < P) (hsize : 0 < key.length + value.length) :
    lastWrite P key value < Pager.getPageCount P (key.length + value.length) := by
  have hle := Pager.le_getPageCount_mul hP (key.length + value.length)
  apply Nat.lt_of_mul_lt_mul_right (a := P)
  unfold lastWrite
  by_cases hnil : value = []
  · rw [if_pos hnil, Nat.zero_mul]
    exact Nat.lt_of_lt_of_le hsize hle
  · rw [if_neg hnil]
    have hpos : 0 < value.length := List.length_pos_iff.2 hnil
    have hdiv := Nat.div_mul_le_self key.length P
    omega

/-- **The place of the run.** -/
theorem MappedFile.roomFor_iff (hmap : s.MappedBy P f) (hsize : 0 < key.length + value.length)
    (hcount : f.pageCount + Pager.getPageCount f.pageSize (key.length + value.length) ≤
      kPageMaxCount) :
    ((∃ run f', Pager.allocMapped (Pager.getPageCount f.pageSize (key.length + value.length)) f =
        .ok (run, f') ∧ f'.Places run key value) ∧ key.length + value.length < 4294967296) ↔
        f.RoomFor key value := by
  obtain ⟨run, f', halloc, hsame, haligned, hrun⟩ := Pager.allocMapped_returns hmap.mapped hcount
  have hgrow := MappedFile.allocMaps_iff hmap.mapped hcount
  have hplaces : f'.Places run key value ↔ _ := MappedFile.places_iff
  rw [hsame] at hplaces
  constructor
  · rintro ⟨⟨run', f'', halloc', hplaced⟩, hlt⟩
    obtain ⟨rfl, rfl⟩ := Prod.mk.inj (Except.ok.inj (halloc.symm.trans halloc'))
    obtain ⟨hstart, hmapped⟩ := hplaces.1 hplaced
    refine ⟨hlt, hgrow.1 fun pgid g hg => ?_, fun hnone => ?_⟩
    · obtain ⟨rfl, rfl⟩ := Prod.mk.inj (Except.ok.inj (halloc.symm.trans hg))
      exact ⟨hmapped, haligned⟩
    · rcases hrun with ⟨freeMap, hsome⟩ | ⟨-, rfl⟩
      · rw [hnone] at hsome
        cases hsome
      · exact hstart
  · rintro ⟨hlt, hcan, hstarts⟩
    refine ⟨⟨run, f', halloc, hplaces.2 ⟨?_, (hgrow.2 hcan run f' halloc).1⟩⟩, hlt⟩
    rcases hrun with ⟨freeMap, hsome⟩ | ⟨hnone, rfl⟩
    · -- the pages of a free run are pages of the file
      have hin := (Pager.allocFromMap_in hsome hmap.mapped.freeIn).1
      have hlast := lastWrite_lt hmap.mapped.pageSize.pos hsize
      have hend := (MappedFile.pagesApart_iff hmap.mapped).1 hmap.apart
      refine Nat.lt_of_le_of_lt (Nat.mul_le_mul_right _ ?_) hend
      omega
    · exact hstarts hnone

end Place

/-! ## What a call writes -/

/-- `t` differs from `s` in pages of `W`, and `Alloc` works on the same. -/
structure TxState.Agrees (W : Nat → Prop) (s t : TxState) : Prop where
  freeMap : t.pager.freeMap = s.pager.freeMap
  metaStruct : t.metaStruct = s.metaStruct
  pages : ∀ p, ¬ W p → t.pager.pages p = s.pager.pages p

/-- The stub of the slot `i` refers to `run`. -/
def TxState.StubAt (q i run : Nat) (t : TxState) : Prop :=
  ∃ n slot, t.pager.pages q = .node n ∧ n.slots[i]? = some slot ∧ slot.record = .overflow run

/-- `Alloc` has given a run of `N` pages in `s`, and only this run and the page `q` are different.
-/
def TxState.Stored (N q : Nat) (s : TxState) (run : Nat) (t : TxState) : Prop :=
  (Pager.alloc N s).1 = .ok run ∧ ∀ p, p ≠ q → (p < run ∨ run + N ≤ p) →
    t.pager.pages p = s.pager.pages p

namespace TxState

variable {W : Nat → Prop} {s t : TxState} {N q i run : Nat} {env : Env}

theorem Agrees.refl (W : Nat → Prop) (s : TxState) : Agrees W s s := ⟨rfl, rfl, fun _ _ => rfl⟩

/-- A page of `W` is written. -/
theorem Agrees.setNode (hq : W q) (n : Node) :
    Exec.Keeps (Agrees W s) (Pager.setNode q n) fun _ => True := by
  refine Exec.Keeps.change fun t ht => ⟨ht.freeMap, ht.metaStruct, fun p hp => ?_⟩
  have hne : p ≠ q := fun heq => hp (heq ▸ hq)
  exact (Function.update_of_ne hne ..).trans (ht.pages p hp)

/-- `Alloc` does not look at the pages. -/
theorem Agrees.alloc (N : Nat) :
    Exec.Yields (Agrees W s) (Pager.alloc N) fun run t => (Pager.alloc N s).1 = .ok run ∧
      ∀ p, ¬ W p → t.pager.pages p = s.pager.pages p := by
  intro t ht run u hrun
  unfold Pager.alloc at hrun ⊢
  rw [Exec.read_bind] at hrun ⊢
  rw [ht.freeMap, ht.metaStruct] at hrun
  cases hmap : Pager.allocFromMap N s.pager.freeMap with
  | some r =>
    rw [hmap] at hrun
    cases hrun
    exact ⟨rfl, ht.pages⟩
  | none =>
    rw [hmap] at hrun
    dsimp only at hrun ⊢
    split_ifs at hrun ⊢
    · cases hrun
    · cases hrun
      exact ⟨rfl, ht.pages⟩

theorem Stored.setNode (n : Node) :
    Exec.Keeps (Stored N q s run) (Pager.setNode q n) fun _ => True :=
  Exec.Keeps.change fun _ ht =>
    ⟨ht.1, fun p hp hout => (Function.update_of_ne hp ..).trans (ht.2 p hp hout)⟩

variable {I : TxState → Prop}

theorem yields_getNode (q : Nat) :
    Exec.Yields I (Pager.getNode q) fun n t => I t ∧ t.pager.pages q = .node n := by
  unfold Pager.getNode assert
  refine (Exec.Keeps.require.imp fun _ _ => trivial).then_yields fun _ => ?_
  refine (Exec.Keeps.require.imp fun _ _ => trivial).then_yields fun _ => ?_
  intro t ht n u hrun
  rw [Exec.read_bind] at hrun
  cases hpage : t.pager.pages q with
  | node n' =>
    rw [hpage] at hrun
    cases hrun
    exact ⟨ht, hpage⟩
  | raw bytes =>
    rw [hpage] at hrun
    cases hrun

theorem yields_getSlot (n : Node) (i : Nat) :
    Exec.Yields I (n.getSlot i) fun slot t => I t ∧ n.slots[i]? = some slot := by
  intro t ht slot u hrun
  unfold Node.getSlot at hrun
  cases hslot : n.slots[i]? with
  | none =>
    rw [hslot] at hrun
    cases hrun
  | some slot' =>
    rw [hslot] at hrun
    cases hrun
    exact ⟨ht, rfl⟩

/-- The slot gets its stub. -/
theorem Stored.setStub {n : Node} {slot : Slot} (hslot : n.slots[i]? = some slot)
    (hrecord : slot.record = .overflow run) :
    Exec.Yields (Stored N q s run) (Pager.setNode q n) fun _ t => Stored N q s run t ∧
    StubAt q i run t := by
  intro t ht u v hrun
  have hkept := (Stored.setNode n).yields t ht u v hrun
  refine ⟨hkept.2, n, slot, ?_, hslot, hrecord⟩
  cases hrun
  exact Function.update_self ..

theorem Stored.placeRecord (env : Env) (size : Nat) :
    Exec.Yields (Stored N q s run) (Node.placeRecord env q i size (.overflow run)) fun _ t =>
      Stored N q s run t ∧ StubAt q i run t := by
  unfold Node.placeRecord assert
  refine (yields_getNode q).bind fun n => Exec.Yields.weaken ?_ fun t ht => ht.1
  refine (Exec.Keeps.require.imp fun _ _ => trivial).then_yields fun _ => ?_
  refine (yields_getSlot n i).bind fun slot t ht => ?_
  obtain ⟨hi, -⟩ := List.getElem?_eq_some_iff.1 ht.2
  have hset : Exec.Yields (Stored N q s run) (do
      Pager.setNode q { n with
        dataOffset := i16 (n.dataOffset - size)
        spaceUsed := u16 ((n.spaceUsed : Int) + size)
        slots := n.slots.set i { slot with
          recordOffset := (i16 (n.dataOffset - size) % 32768).toNat, record := .overflow run } }
      Exec.lift (Node.checkLayout env.pageSize { n with
        dataOffset := i16 (n.dataOffset - size)
        spaceUsed := u16 ((n.spaceUsed : Int) + size)
        slots := n.slots.set i { slot with
          recordOffset := (i16 (n.dataOffset - size) % 32768).toNat, record := .overflow run } }))
            fun _ t =>
      Stored N q s run t ∧ StubAt q i run t :=
    (Stored.setStub (List.getElem?_set_self hi) rfl).bind fun _ =>
      (Exec.Keeps.lift fun _ _ => trivial).yields.imp fun _ t ht => ht.2
  exact hset t ht.1

/-- **`StoreRecord`** writes the leaf and the run that it has allocated. -/
theorem Agrees.storeRecord (hP : PageRange env.pageSize) {key value : Bytes}
    (hover : Node.maxInline env.pageSize < key.length + value.length) :
    Exec.Yields (Agrees (· = q) s) (Node.storeRecord env q i key value) fun _ t =>
      ∃ run, Stored (Pager.getPageCount env.pageSize (key.length + value.length)) q s run t ∧
        StubAt q i run t := by
  have hPpos : 0 < env.pageSize := Nat.lt_of_lt_of_le (by decide) hP.min
  -- the run is allocated and filled, and no page outside of it is written
  have hstore : Exec.Yields (Agrees (· = q) s) (Node.storeRecordToOverflowPages env key value)
      fun run t =>
      Stored (Pager.getPageCount env.pageSize (key.length + value.length)) q s run t := by
    rw [Node.storeRecordToOverflowPages_eq]
    refine (Agrees.alloc _).bind fun run => ?_
    refine (Exec.Yields.change
      (L := Stored (Pager.getPageCount env.pageSize (key.length + value.length)) q s run)
      fun t ht => ⟨ht.1, fun p hp hout => ?_⟩).bind fun _ => Exec.Yields.pure fun _ ht => ht
    exact (Pager.writeRecord_pages hPpos t.pager run key value hout).trans (ht.2 p hp)
  unfold Node.storeRecord
  by_cases hkey : key.length > env.pageSize ∨ key.length > kKeyMaxSize
  · simp only [if_pos hkey]
    exact Exec.Yields.raise_bind
  · by_cases hvalue : value.length > kValueMaxSize
    · simp only [if_neg hkey, if_pos hvalue]
      exact Exec.Yields.raise_bind
    simp only [if_neg hkey, if_neg hvalue]
    refine (yields_getNode q).bind fun n => Exec.Yields.weaken ?_ fun t ht => ht.1
    refine (yields_getSlot n i).bind fun slot => Exec.Yields.weaken ?_ fun t ht => ht.1
    refine (Agrees.setNode (W := (· = q)) rfl _).then_yields fun _ => ?_
    rw [Node.maxInlineRecordSize_eq hP]
    show Exec.Yields _ (ite _ _ _) _
    rw [if_pos hover]
    refine hstore.bind fun run => ?_
    exact (Stored.placeRecord env _).imp fun _ t ht => ⟨run, ht⟩

/-- A call that has stored the record. -/
theorem Agrees.exec (hP : PageRange env.pageSize) {key value : Bytes} (call : StoreCall)
    (hover : Node.maxInline env.pageSize < key.length + value.length) :
    Exec.Yields (Agrees (· = q) s) (call.exec env q i key value) fun ok t => ok = true →
      ∃ run, Stored (Pager.getPageCount env.pageSize (key.length + value.length)) q s run t ∧
        StubAt q i run t := by
  have hset : ∀ n, Exec.Keeps (Agrees (· = q) s) (Pager.setNode q n) fun _ => True :=
    Agrees.setNode rfl
  cases call with
  | insert =>
    show Exec.Yields _ (LeafNode.insert env q i key value) _
    unfold LeafNode.insert assert
    refine (yields_getNode q).bind fun n => Exec.Yields.weaken ?_ fun t ht => ht.1
    refine (Exec.Keeps.require.imp fun _ _ => trivial).then_yields fun _ => ?_
    refine (Exec.Keeps.lift fun _ _ => trivial).then_yields fun request => ?_
    obtain ⟨success, n'⟩ := request
    cases success with
    | false => exact Exec.Yields.pure fun _ _ hfalse => nomatch hfalse
    | true =>
      refine (hset _).then_yields fun _ => ?_
      exact (storeRecord hP hover).bind fun _ => Exec.Yields.pure fun t ht _ => ht
  | update old =>
    show Exec.Yields _ (LeafNode.update env q i key value) _
    unfold LeafNode.update
    refine (yields_getNode q).bind fun n => Exec.Yields.weaken ?_ fun t ht => ht.1
    refine (yields_getSlot n i).bind fun saved => Exec.Yields.weaken ?_ fun t ht => ht.1
    refine (hset _).then_yields fun _ => ?_
    refine (Exec.Keeps.lift fun _ _ => trivial).then_yields fun request => ?_
    obtain ⟨success, n'⟩ := request
    cases success with
    | false =>
      refine (yields_getSlot n' i).bind fun slot => Exec.Yields.weaken ?_ fun t ht => ht.1
      exact (hset _).then_yields fun _ => Exec.Yields.pure fun _ _ hfalse => nomatch hfalse
    | true =>
      refine (hset _).then_yields fun _ => (storeRecord hP hover).bind fun _ => ?_
      refine (yields_getNode q).bind fun n'' => Exec.Yields.weaken ?_ fun t ht => ht.1
      exact (Exec.Keeps.lift fun _ _ => trivial).then_yields fun _ =>
        Exec.Yields.pure fun t ht _ => ht

end TxState

/-! ## Freeing the run -/

/-- `Delete` of a record with a stub. -/
theorem LeafNode.delete_frees {env : Env} {q i run : Nat} {n : Node} {slot : Slot} {s t : TxState}
    (hn : s.pager.pages q = .node n) (hslot : n.slots[i]? = some slot)
    (hrecord : slot.record = .overflow run) (hrun : LeafNode.delete env q i s = (.ok (), t)) :
    t.pager.pendingMap = Pager.addPending s.metaStruct.txid
      (run, Pager.getPageCount env.pageSize (u32 (slot.keySize + slot.word)))
        s.pager.pendingMap := by
  unfold LeafNode.delete at hrun
  obtain ⟨n', s₁, hget, hrun⟩ := Exec.bind_eq_ok hrun
  obtain ⟨rfl, hn'⟩ := TxState.yields_getNode (I := (· = s)) q s rfl n' s₁ hget
  obtain rfl : n = n' := Page.node.inj (hn.symm.trans hn')
  rw [getSlot_of_getElem? hslot, Exec.pure_bind_apply] at hrun
  simp only [hrecord] at hrun
  obtain ⟨_, s₂, hfree, hrun⟩ := Exec.bind_eq_ok hrun
  unfold Pager.free assert at hfree
  obtain ⟨_, s₃, hrequire, hchange⟩ := Exec.bind_eq_ok hfree
  have hsame := Exec.ReadOnly.require (p := run ≠ kPageInvalidId) (e := Err.assertion) s₁
  rw [hrequire] at hsame
  obtain rfl : s₃ = s₁ := hsame
  obtain rfl := (Prod.mk.inj hchange).2
  obtain ⟨_, s₄, hset, hcheck⟩ := Exec.bind_eq_ok hrun
  obtain rfl := (Prod.mk.inj hset).2
  obtain rfl := (Prod.mk.inj hcheck).2
  rfl

/-- Two runs of one entry. -/
theorem Pager.addPending_inj {txid : Nat} {r r' : PagePair} {m : List (Nat × List PagePair)}
    (h : addPending txid r m = addPending txid r' m) : r = r' := by
  induction m with
  | nil =>
    obtain ⟨h, -⟩ := List.cons.inj h
    exact (List.cons.inj (Prod.mk.inj h).2).1
  | cons x m ih =>
    obtain ⟨t, runs⟩ := x
    simp only [addPending] at h
    split_ifs at h
    · exact ih (List.cons.inj h).2
    · have hruns := (Prod.mk.inj (List.cons.inj h).1).2
      exact (List.cons.inj (List.append_cancel_left hruns)).1
    · exact (List.cons.inj (Prod.mk.inj (List.cons.inj h).1).2).1

/-- In 32 bits the size of a record is the same, or its pages are fewer. -/
theorem Pager.getPageCount_u32_iff {P size : Nat} (hP : PageRange P) (hsize : size < 8589934592) :
    getPageCount P (u32 size) = getPageCount P size ↔ size < 4294967296 := by
  have hpos : 0 < P := Nat.lt_of_lt_of_le (by decide) hP.min
  constructor
  · intro h
    by_contra hlt
    have hu : u32 size = size - 4294967296 := by
      unfold u32
      omega
    have hmax : P ≤ 4294967296 := hP.lt_max.le.trans (by decide)
    have hstep : (u32 size + P - 1) / P + 1 ≤ (size + P - 1) / P := by
      rw [← Nat.add_div_right _ hpos]
      exact Nat.div_le_div_right (by omega)
    rw [getPageCount_eq hpos, getPageCount_eq hpos] at h
    omega
  · intro h
    rw [u32_of_lt h]

namespace Own

variable {Γ : PageScope} {b r : ℕ} {O : Multiset Obj} {s : TxState} {q t : Nat} {es : List Entry}

/-- A compaction. -/
theorem compactify (h : Own Γ b r (.node q (.leaf t es) ::ₘ O) s) (hq : ¬ Γ.keep q) :
    ∃ n n' s', Pager.getNode q s = (.ok n, s) ∧ n.compactify Γ.P = .ok n' ∧
      Pager.setNode q n' s = (.ok (), s') ∧ Own Γ b r (.node q (.leaf t es) ::ₘ O) s' := by
  obtain ⟨n, hrep, hown⟩ := h.unfold_node
  obtain ⟨n', hcompact, hcore, -, -, hsized⟩ := hrep.sized.compactify Γ.hP
  obtain ⟨s', hset, h'⟩ := hown.setNode hq n'
  exact ⟨n, n', s', hown.getNode, hcompact, hset, h'.fold_node rfl (hrep.of_core hcore hsized)⟩

/-- **The records stay** when the leaf is copied and compacted. -/
theorem relocate (steps : List Relocation)
    (h : Own Γ (b + steps.length) r (.node q (.leaf t es) ::ₘ O) s) (hq : ¬ Γ.keep q) :
    Exec.Ok (relocate Γ.env q steps) s fun q' s' => ¬ Γ.keep q' ∧
      ∃ t', Own Γ b r (.node q' (.leaf t' es) ::ₘ O) s' := by
  induction steps generalizing q t s with
  | nil => exact Exec.Ok.pure ⟨hq, t, h⟩
  | cons step steps ih =>
    have hlen : b + (step :: steps).length = b + steps.length + 1 := rfl
    rw [hlen] at h
    cases step with
    | copy =>
      refine h.copy.bind fun q' s' hcopy => ?_
      exact ih hcopy.2.2.1 hcopy.1
    | compact =>
      obtain ⟨n, n', s', hget, hcompact, hset, h'⟩ := h.compactify hq
      obtain ⟨q', s'', hrun, hpost⟩ := ih (h'.room_mono _ (Nat.le_add_right _ 1)) hq
      refine Exec.Ok.intro q' s'' ?_ hpost
      unfold AtomKV.relocate
      rw [Exec.bind_of_ok hget, hcompact, Exec.lift_ok_bind, Exec.bind_of_ok hset]
      exact hrun

end Own

/-! ## The round trip -/

section RoundTrip

variable {Γ : PageScope} {b r : ℕ} {O : Multiset Obj} {s s' : TxState} {q t : Nat}
  {es₁ es₂ : List Entry} {key value : Bytes}

/-- A call that has stored the record leaves it in the leaf. -/
theorem StoreCall.stores (call : StoreCall) (h : Own Γ (b + recordPages Γ.P key value) r
      (.node q (.leaf t (es₁ ++ call.olds ++ es₂)) ::ₘ O) s)
    (hq : ¬ Γ.keep q) (hadm : Admissible Γ.P key value)
    (hrun : call.exec Γ.env q es₁.length key value s = (.ok true, s')) :
    ∃ bucket run O', Own Γ b r (.node q (.leaf t (es₁ ++ ⟨key, value, bucket, run⟩ :: es₂)) ::ₘ O')
      s' := by
  cases call with
  | insert =>
    have hleaf : Own Γ (b + recordPages Γ.P key value) r
        (.node q (.leaf t (es₁ ++ es₂)) ::ₘ O) s := by
      have hnil : es₁ ++ StoreCall.insert.olds ++ es₂ = es₁ ++ es₂ := by
        show es₁ ++ [] ++ es₂ = _
        rw [List.append_nil]
      rw [hnil] at h
      exact h
    change LeafNode.insert Γ.env q es₁.length key value s = (.ok true, s') at hrun
    -- `Insert` answers `true` only with room for the record and for one slot more.
    by_cases hfit : Fits Γ.P (es₁ ++ es₂) key value
    · by_cases hslots : SlotFits Γ.P (es₁ ++ es₂)
      · obtain ⟨-, ⟨bucket, run, hown⟩, -⟩ :=
          (hleaf.leafInsert_ok hq hadm hfit hslots).eq_of_eq hrun
        exact ⟨bucket, run, O, hown⟩
      · obtain ⟨err, s₁, herror⟩ := hleaf.leafInsert_error hq hfit hslots
        rw [herror] at hrun
        cases hrun
    · rw [hleaf.leafInsert_refused hfit] at hrun
      cases hrun
  | update old =>
    have hleaf : Own Γ (b + recordPages Γ.P key value) r
        (.node q (.leaf t (es₁ ++ old :: es₂)) ::ₘ O) s := by
      have hone : es₁ ++ (StoreCall.update old).olds ++ es₂ = es₁ ++ old :: es₂ := by
        show es₁ ++ [old] ++ es₂ = _
        rw [List.append_assoc]
        rfl
      rw [hone] at h
      exact h
    change LeafNode.update Γ.env q es₁.length key value s = (.ok true, s') at hrun
    obtain ⟨n, hrep, -, hn, -⟩ := hleaf.read_node
    obtain ⟨l₁, slot, l₂, hs⟩ := hrep.around rfl
    -- `Update` answers `true` only when its request is granted without a failing compaction.
    by_cases hfits : n.UpdateFits Γ.P slot key value
    · obtain ⟨-, ⟨run, hown⟩, -⟩ := (hleaf.leafUpdate_ok hq hn hs.getElem? hadm hfits).eq_of_eq hrun
      exact ⟨old.isBucket, run, _, hown⟩
    · by_cases hfit : Fits Γ.P (es₁ ++ es₂) key value
      · obtain ⟨s₁, -, herror, -⟩ := hleaf.leafUpdate_error hq hn hs.getElem? hfit hfits
        rw [herror] at hrun
        cases hrun
      · rw [hleaf.leafUpdate_refused hq hfit] at hrun
        cases hrun

/-- The slot of a record with a run. -/
theorem Own.stubAt {O' : Multiset Obj} {e : Entry}
    (h : Own Γ b r (.node q (.leaf t (es₁ ++ e :: es₂)) ::ₘ O') s)
    (hover : Node.maxInline Γ.P < e.size) :
    ∃ n slot, s.pager.pages q = .node n ∧ n.slots[es₁.length]? = some slot ∧
      slot.record = .overflow e.run ∧ slot.keySize + slot.word = e.size := by
  obtain ⟨n, hrep, -, hn, -⟩ := h.read_node
  obtain ⟨l₁, slot, l₂, hs⟩ := hrep.leaf_slots
  refine ⟨n, slot, hn, ?_, ?_, ?_⟩
  · rw [hs.slots, ← hs.length]
    simp
  · exact (Prod.mk.inj hs.head).1.trans (if_pos hover)
  · rw [(Prod.mk.inj hs.head).2, (Prod.mk.inj hs.part).1]
    rfl

/-- **Records in overflow pages make the round trip** exactly when the file has room for the run and
their size fits into 32 bits. -/
theorem LeafNode.overflow_roundTrips_iff (call : StoreCall) {f : MappedFile}
    (h : Own Γ (b + recordPages Γ.P key value) r
      (.node q (.leaf t (es₁ ++ call.olds ++ es₂)) ::ₘ O) s)
    (hmap : s.MappedBy Γ.P f) (hq : ¬ Γ.keep q) (hadm : Admissible Γ.P key value)
    (hover : Node.maxInline Γ.P < key.length + value.length)
    (hrun : call.exec Γ.env q es₁.length key value s = (.ok true, s')) :
    (∃ run, RoundTrips Γ.env f b q es₁.length key value s s' run) ↔ f.RoomFor key value := by
  obtain ⟨bucket, run, O', hown⟩ := call.stores h hq hadm hrun
  have hsize : key.length + value.length < 8589934592 := by
    have h1 : key.length ≤ kKeyMaxSize := hadm.key_le
    have h2 : value.length ≤ kValueMaxSize := hadm.value_le
    unfold kKeyMaxSize at h1
    unfold kValueMaxSize at h2
    omega
  have hcount : f.pageCount + Pager.getPageCount f.pageSize (key.length + value.length) ≤
      kPageMaxCount := by
    have hroom := h.room
    rw [recordPages_of_overflow hover] at hroom
    rw [hmap.pageCount, hmap.pageSize]
    omega
  have hplace := MappedFile.roomFor_iff hmap (Nat.zero_lt_of_lt hover) hcount
  rw [← hplace, hmap.pageSize]
  -- the run in the slot is the one that was allocated
  obtain ⟨run', ⟨halloc, hpages⟩, n, slot, hn, hslot, hrecord⟩ :=
    TxState.Agrees.exec Γ.hP call hover s (TxState.Agrees.refl _ s) true s' hrun rfl
  obtain ⟨n₁, slot₁, hn₁, hslot₁, hrecord₁, -⟩ := hown.stubAt hover
  obtain rfl : n = n₁ := Page.node.inj (hn.symm.trans hn₁)
  obtain rfl : slot = slot₁ := Option.some.inj (hslot.symm.trans hslot₁)
  obtain rfl : run' = run := Record.overflow.inj (hrecord.symm.trans hrecord₁)
  have hsame : ∀ {run f'}, Pager.allocMapped (Pager.getPageCount Γ.P (key.length + value.length))
      f = .ok (run, f') → run = run' := by
    intro run f' hrun
    obtain ⟨u, hu, -⟩ := Pager.alloc_of_allocMapped hmap.pageCount hmap.freeMap hrun
    rw [hu] at halloc
    exact Except.ok.inj halloc
  -- what `Delete` frees, wherever the leaf is
  have hdelete : ∀ {q' t' : Nat} {u v : TxState},
      Own Γ 0 r (.node q' (.leaf t' (es₁ ++ ⟨key, value, bucket, run'⟩ :: es₂)) ::ₘ O') u →
      LeafNode.delete Γ.env q' es₁.length u = (.ok (), v) →
        v.pager.pendingMap = Pager.addPending u.metaStruct.txid
        (run', Pager.getPageCount Γ.P (u32 (key.length + value.length))) u.pager.pendingMap := by
    intro q' t' u v hu hrun'
    obtain ⟨n₂, slot₂, hn₂, hslot₂, hrecord₂, hsum⟩ := hu.stubAt hover
    have hfrees := LeafNode.delete_frees hn₂ hslot₂ hrecord₂ hrun'
    rw [hsum] at hfrees
    exact hfrees
  constructor
  · rintro ⟨run, hround⟩
    obtain ⟨f', hf', hplaced⟩ := hround.placed
    obtain rfl := hsame hf'
    refine ⟨⟨run, f', hf', hplaced⟩, ?_⟩
    obtain ⟨q', s₁, hnone, hleaf⟩ := hround.kept [] (Nat.zero_le _)
    obtain ⟨-, -, v, hv, hpending⟩ := hleaf fun hcopy => absurd hcopy List.not_mem_nil
    cases hnone
    have hfrees := hdelete (hown.room_mono 0 (Nat.zero_le _)) hv
    rw [hfrees] at hpending
    exact (Pager.getPageCount_u32_iff Γ.hP hsize).1 (Prod.mk.inj (Pager.addPending_inj hpending)).2
  · rintro ⟨⟨run, f', hf', hplaced⟩, hlt⟩
    obtain rfl := hsame hf'
    refine ⟨run, ⟨f', hf', hplaced⟩, hpages, fun steps hsteps => ?_⟩
    have hroom : Own Γ (0 + steps.length) r
        (.node q (.leaf t (es₁ ++ ⟨key, value, bucket, run⟩ :: es₂)) ::ₘ O') s' :=
      hown.room_mono _ (by omega)
    refine (hroom.relocate steps hq).imp fun q' u hu _ => ?_
    obtain ⟨hq', t', hu⟩ := hu
    have hmem : (es₁ ++ ⟨key, value, bucket, run⟩ :: es₂)[es₁.length]? =
      some ⟨key, value, bucket, run⟩ := by simp
    obtain ⟨v, G, hv, -⟩ := hu.leafDelete hq'
    refine ⟨hu.getKey (Multiset.mem_cons_self _ _) hmem,
      hu.getValue (Multiset.mem_cons_self _ _) hmem, v, hv, ?_⟩
    rw [hdelete hu hv, u32_of_lt hlt]

end RoundTrip

section Example

/-- A file with an empty leaf. -/
def emptyLeaf : TxState := layout 256 freshMeta 2 [(2, .leaf 1 [])]

theorem own_emptyLeaf {b : ℕ} (hb : b + 3 ≤ kPageMaxCount) :
    Own (layoutScope smallEnv smallEnv_ok freshMeta 1) b 2 (.node 2 (.leaf 1 []) ::ₘ 0) emptyLeaf :=
  @own_layout smallEnv smallEnv_ok freshMeta 2 b [(2, .leaf 1 [])] (by decide) (by decide) (by
    show 1 + 2 + b ≤ kPageMaxCount
    omega)

/-- The mapping that `Remmap` has made for its three pages. -/
def smallFile : MappedFile := ⟨256, 3, [], 1024, 1024⟩

theorem emptyLeaf_mappedBy : emptyLeaf.MappedBy 256 smallFile where
  pageSize := rfl
  pageCount := rfl
  freeMap := rfl
  mapped := ⟨⟨8, by decide, by decide⟩, by decide, by decide, by decide, by decide,
    fun _ hr => absurd hr List.not_mem_nil⟩
  apart :=
    (MappedFile.pagesApart_iff
      ⟨⟨8, by decide, by decide⟩, by decide, by decide, by decide, by decide,
    fun _ hr => absurd hr List.not_mem_nil⟩).2 (by decide)

/-- A value that is written to a page. -/
def pageLongValue : Bytes := List.replicate 200 7

/-- With this value the file has `2 ^ 32` bytes. -/
def gigabytesValue : Bytes := List.replicate 4294966527 0

/-- The leaf with the stub of one record. -/
def stubLeaf : TxState := ((StoreCall.insert).exec smallEnv 2 0 [1] pageLongValue emptyLeaf).2

/-- A record of one page; its leaf is copied and compacted up to two times. -/
theorem LeafNode.overflow_roundTrips_longValue :
    ∃ run, RoundTrips smallEnv smallFile 2 2 0 [1] pageLongValue emptyLeaf stubLeaf run := by
  have hrun : (StoreCall.insert).exec smallEnv 2 0 [1] pageLongValue emptyLeaf =
      (.ok true, stubLeaf) :=
    Prod.ext (by decide +kernel) (by rw [stubLeaf])
  have hown : Own (layoutScope smallEnv smallEnv_ok freshMeta 1)
      (2 + recordPages (layoutScope smallEnv smallEnv_ok freshMeta 1).P [1] pageLongValue) 2
      (.node 2 (.leaf 1 ([] ++ StoreCall.insert.olds ++ [])) ::ₘ 0) emptyLeaf :=
        own_emptyLeaf (by decide +kernel)
  have hroom : smallFile.RoomFor [1] pageLongValue :=
    ⟨by decide +kernel, .inr (.inl (by decide +kernel)), fun _ => by decide +kernel⟩
  exact (@LeafNode.overflow_roundTrips_iff
    (layoutScope smallEnv smallEnv_ok freshMeta 1).toPageScope 2 2 0 emptyLeaf
    stubLeaf 2 1 [] [] [1] pageLongValue .insert smallFile hown emptyLeaf_mappedBy (fun h => h)
    (admissible_small (by decide) (List.length_replicate.trans_le (by decide)))
      (by decide +kernel) hrun).2 hroom

/-- **A record of nearly 4 GiB.** `Alloc` computes 0 for the size of the file with its run, and
leaves the mapping as it is. -/
theorem LeafNode.not_overflow_roundTrips : ∃ s', Admissible 256 [1] gigabytesValue ∧
    emptyLeaf.MappedBy 256 smallFile ∧ LeafNode.insert smallEnv 2 0 [1] gigabytesValue emptyLeaf =
      (.ok true, s') ∧ ¬ ∃ run, RoundTrips smallEnv smallFile 0 2 0 [1] gigabytesValue
        emptyLeaf s' run := by
  have hlen : gigabytesValue.length = 4294966527 := List.length_replicate
  have hadm : Admissible 256 [1] gigabytesValue := ⟨by decide, by decide, hlen.le.trans (by decide)⟩
  have hover : Node.maxInline 256 < ([1] : Bytes).length + gigabytesValue.length := by
    rw [hlen]
    decide
  have hpages : recordPages 256 [1] gigabytesValue = 16777213 := by
    rw [recordPages_of_overflow hover, hlen]
    decide +kernel
  have hown : Own (layoutScope smallEnv smallEnv_ok freshMeta 1)
      (0 + recordPages (layoutScope smallEnv smallEnv_ok freshMeta 1).P [1] gigabytesValue) 2
      (.node 2 (.leaf 1 ([] ++ StoreCall.insert.olds ++ [])) ::ₘ 0) emptyLeaf := own_emptyLeaf (by
    rw [show (layoutScope smallEnv smallEnv_ok freshMeta 1).P = 256 from rfl, hpages]
    decide)
  have hstub : recordStub 256 [1] gigabytesValue = kOverflowRecordSize := by
    unfold recordStub Node.stubSize
    exact if_pos hover
  have hfit : Fits 256 ([] ++ []) [1] gigabytesValue := by
    unfold Fits
    rw [hstub]
    decide
  obtain ⟨ok, s', hrun, rfl, -⟩ :=
    @Own.leafInsert_ok (layoutScope smallEnv smallEnv_ok freshMeta 1).toPageScope
    0 2 0 emptyLeaf 2 1 [] [] [1] gigabytesValue hown (fun h => h) hadm hfit (by decide)
  refine ⟨s', hadm, emptyLeaf_mappedBy, hrun, fun hround => ?_⟩
  have hroom :=
    (@LeafNode.overflow_roundTrips_iff (layoutScope smallEnv smallEnv_ok freshMeta 1).toPageScope
      0 2 0
    emptyLeaf s' 2 1 [] [] [1] gigabytesValue .insert smallFile hown emptyLeaf_mappedBy
      (fun h => h) hadm hover hrun).1
    hround
  -- the file would end at `2 ^ 32`
  have hgrow : smallFile.CanGrow
    (Pager.getPageCount 256 (([1] : Bytes).length + gigabytesValue.length)) := hroom.grow
  rw [← recordPages_of_overflow hover, hpages] at hgrow
  rcases hgrow with hfree | hlt | hmapped
  · exact hfree rfl
  · exact absurd hlt (by decide)
  · exact absurd hmapped (by decide)

end Example

end AtomKV
