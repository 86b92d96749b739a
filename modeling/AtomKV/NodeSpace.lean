import AtomKV.Node
import AtomKV.Lib.ListAt
import AtomKV.Lib.Spans
import Mathlib.Algebra.BigOperators.Group.List.Basic
import Mathlib.Algebra.GroupWithZero.Nat

/-!
# The space inside a node

A node's header is in order (`Sized`) when `space_used` is the sum of the record sizes and the
records fit between the slots and the end of the page. In such a node the space computations of
`node.cpp` succeed and give the expected numbers, compaction succeeds, and a request is granted
exactly when the space that is left after compaction suffices.
-/

set_option autoImplicit false

namespace AtomKV

/-- The page sizes in use: powers of two from 256 on whose `data_offset` fits into 16 bits. -/
structure PageSizeOk (P : Nat) : Prop where
  min : 256 ≤ P
  lt_max : P < 32768
  dvd : P % 8 = 0

/-- The page sizes for which the space computations of a node are right. -/
structure PageRange (P : Nat) : Prop where
  min : 256 ≤ P
  lt_max : P < 32768
  even : P % 2 = 0

theorem PageSizeOk.range {P : Nat} (hP : PageSizeOk P) : PageRange P :=
  ⟨hP.min, hP.lt_max,
    Nat.mod_eq_zero_of_dvd ((by decide : 2 ∣ 8).trans (Nat.dvd_of_mod_eq_zero hP.dvd))⟩

namespace Node

/-- `MaxInlineRecordSize` as a number. -/
def maxInline (P : Nat) : Nat := (P - 34) / 2

/-- The space a record of `size` bytes takes inside the page. -/
def stubSize (P : Nat) (size : Nat) : Nat :=
  if maxInline P < size then kOverflowRecordSize else size

/-- Header, padding and slots. -/
def slotBytes (n : Node) : Nat := 18 + 8 * n.count

/-- The records lie between the slots and the end of the page, and the slots do not take all of it.
-/
structure Bounded (P : Nat) (n : Node) : Prop where
  lo : (n.slotBytes : Int) ≤ n.dataOffset
  hi : n.dataOffset + n.spaceUsed ≤ P
  lt : n.slotBytes < P

/-- The sum of the record sizes. -/
def slotsSpace (isLeaf : Bool) (slots : List Slot) : Nat := (slots.map (recordSize isLeaf)).sum

/-- The bytes of the page in which the records are. -/
def spans (isLeaf : Bool) (slots : List Slot) : List (Nat × Nat) :=
  slots.map fun slot => (slot.recordOffset, recordSize isLeaf slot)

/-- The header agrees with the slots, and the records have their own bytes behind `data_offset`. -/
structure Sized (P : Nat) (n : Node) : Prop extends Bounded P n where
  used : n.spaceUsed = slotsSpace n.isLeaf n.slots
  laid : Spans.Laid P n.dataOffset (spans n.isLeaf n.slots)

/-- A node without the offsets of its records. -/
def core (n : Node) : Node :=
  { n with slots := n.slots.map fun slot => { slot with recordOffset := 0 }, dataOffset := 0 }

theorem ok_bind {α β : Type} (a : α) (f : α → Except Err β) : (Except.ok a >>= f) = f a := rfl

theorem check_pos {p : Prop} [Decidable p] (hp : p) : check p = .ok () := if_pos hp

section Space

variable {P : Nat} {n : Node}

theorem stubSize_le (hP : PageRange P) (size : Nat) : stubSize P size ≤ maxInline P := by
  have := hP.min
  unfold stubSize maxInline kOverflowRecordSize
  split <;> omega

theorem maxInlineRecordSize_eq (hP : PageRange P) : maxInlineRecordSize P = .ok (maxInline P) := by
  have h1 := hP.min
  have h2 := hP.lt_max
  have h3 := hP.even
  have h4 : u16 ((P : Int) - kNodeHeaderSize - kPaddingSize) = P - 18 := by
    unfold u16 kNodeHeaderSize kPaddingSize
    omega
  have h5 : u16 (((P - 18 : Nat) : Int) - kSlotSize * 2) = P - 34 := by
    unfold u16 kSlotSize
    omega
  have h6 : (P - 34) % 2 = 0 := by omega
  unfold maxInlineRecordSize
  simp only [h4, h5, check_pos h6, ok_bind]
  rfl

/-- In a page of a multiple of eight bytes, slots that fit leave something of it. -/
theorem slotBytes_lt (hP : PageSizeOk P) (h : n.slotBytes ≤ P) : n.slotBytes < P := by
  have h3 := hP.dvd
  unfold slotBytes at *
  omega

theorem Bounded.slotSpace (h : Bounded P n) : n.slotSpace P = .ok n.slotBytes := by
  have h1 : kNodeHeaderSize + kPaddingSize + kSlotSize * n.count = n.slotBytes := rfl
  unfold Node.slotSpace
  simp only [h1, check_pos h.lt, ok_bind]
  rfl

theorem Bounded.freeSpace (h : Bounded P n) (hP : PageRange P) :
    n.freeSpace P = .ok (n.dataOffset - n.slotBytes).toNat := by
  have h1 := h.lo
  have h2 := h.hi
  have h3 := hP.lt_max
  have h4 : n.dataOffset - n.slotBytes < P := by
    have : 18 ≤ n.slotBytes := Nat.le_add_right _ _
    omega
  have h5 : u16 (n.dataOffset - n.slotBytes) = (n.dataOffset - n.slotBytes).toNat := by
    unfold u16
    omega
  unfold Node.freeSpace
  simp only [h.slotSpace, ok_bind, check_pos h1, check_pos h4, h5]
  rfl

theorem Bounded.freeSpaceAfterCompaction (h : Bounded P n) (hP : PageRange P) :
    n.freeSpaceAfterCompaction P = .ok (P - n.slotBytes - n.spaceUsed) := by
  have h1 : n.slotBytes + n.spaceUsed ≤ P := by
    have := h.lo
    have := h.hi
    omega
  have h2 := hP.lt_max
  have h3 : u16 ((P : Int) - n.slotBytes - n.spaceUsed) = P - n.slotBytes - n.spaceUsed := by
    unfold u16
    omega
  have h4 : P - n.slotBytes - n.spaceUsed < P := by
    have : 18 ≤ n.slotBytes := Nat.le_add_right _ _
    have := hP.min
    omega
  unfold Node.freeSpaceAfterCompaction
  simp only [h.slotSpace, ok_bind, check_pos h1, h3, check_pos h4]
  rfl

/-- The fill rate compares slots and records with the page less header and padding. -/
theorem Bounded.getFillRate (h : Bounded P n) (hP : PageRange P) :
    n.getFillRate P = .ok (8 * n.count + n.spaceUsed, P - 18) := by
  have h1 : n.slotBytes + n.spaceUsed ≤ P := by
    have := h.lo
    have := h.hi
    omega
  have h2 : P - 18 - (P - n.slotBytes - n.spaceUsed) = 8 * n.count + n.spaceUsed := by
    unfold slotBytes at *
    omega
  unfold Node.getFillRate
  rw [h.freeSpaceAfterCompaction hP]
  show Except.ok (P - 18 - (P - n.slotBytes - n.spaceUsed), P - 18) = _
  rw [h2]

theorem Bounded.checkLayout (h : Bounded P n) (hP : PageRange P) : n.checkLayout P = .ok () := by
  have h1 : (n.slotBytes : Int) + (n.dataOffset - n.slotBytes).toNat = n.dataOffset := by
    have := h.lo
    omega
  unfold Node.checkLayout
  simp only [h.slotSpace, h.freeSpace hP, ok_bind, check_pos h1]

/-- Slots up to the end of the page fail the assertion in `SlotSpace`. -/
theorem checkLayout_error (h : P ≤ n.slotBytes) : n.checkLayout P = .error .assertion := by
  have h1 : ¬ kNodeHeaderSize + kPaddingSize + kSlotSize * n.count < P := Nat.not_lt.2 h
  unfold Node.checkLayout Node.slotSpace check
  simp only [if_neg h1]
  rfl

end Space

/-! ## Compaction -/

section Compaction

variable {P : Nat} {n : Node}

@[simp] theorem slotsSpace_nil (isLeaf : Bool) : slotsSpace isLeaf [] = 0 := rfl

@[simp] theorem slotsSpace_cons (isLeaf : Bool) (slot : Slot) (slots : List Slot) :
    slotsSpace isLeaf (slot :: slots) = recordSize isLeaf slot + slotsSpace isLeaf slots := by
  simp [slotsSpace]

@[simp] theorem slotsSpace_append (isLeaf : Bool) (l₁ l₂ : List Slot) :
    slotsSpace isLeaf (l₁ ++ l₂) = slotsSpace isLeaf l₁ + slotsSpace isLeaf l₂ := by
  simp [slotsSpace]

@[simp] theorem spans_cons (isLeaf : Bool) (slot : Slot) (slots : List Slot) :
    spans isLeaf (slot :: slots) = (slot.recordOffset, recordSize isLeaf slot) ::
      spans isLeaf slots := rfl

@[simp] theorem spans_append (isLeaf : Bool) (l₁ l₂ : List Slot) :
    spans isLeaf (l₁ ++ l₂) = spans isLeaf l₁ ++ spans isLeaf l₂ := List.map_append

/-- Slots whose records are as long and at the same places. -/
theorem spans_congr {isLeaf : Bool} {l l' : List Slot}
    (hoffset : l'.map Slot.recordOffset = l.map Slot.recordOffset)
    (hsize : l'.map (recordSize isLeaf) = l.map (recordSize isLeaf)) :
      spans isLeaf l' = spans isLeaf l := by
  have key : ∀ m : List Slot,
      spans isLeaf m = (m.map Slot.recordOffset).zip (m.map (recordSize isLeaf)) := fun m => by
    unfold spans
    rw [List.zip_map', List.map_congr_left]
    intro slot _
    rfl
  rw [key, key, hoffset, hsize]

/-- Laying out the records moves the slots' offsets, lowers `data_offset` by the records' sizes and
adds them to `space_used`. -/
theorem copyRecordRange_eq (isLeaf : Bool) (slots : List Slot) (dataOffset : Int) (spaceUsed : Nat)
    (h0 : (slotsSpace isLeaf slots : Int) ≤ dataOffset) (h1 : dataOffset < 32768)
    (h2 : spaceUsed + slotsSpace isLeaf slots < 32768) :
    ∃ slots', copyRecordRange isLeaf slots dataOffset spaceUsed =
        (slots', dataOffset - slotsSpace isLeaf slots, spaceUsed + slotsSpace isLeaf slots) ∧
      (slots'.map fun slot => { slot with recordOffset := 0 }) =
        (slots.map fun slot => { slot with recordOffset := 0 }) ∧
      Spans.Laid dataOffset.toNat (dataOffset - slotsSpace isLeaf slots) (spans isLeaf slots') := by
  induction slots generalizing dataOffset spaceUsed with
  | nil => exact ⟨[], by simp [copyRecordRange], rfl, .nil _ _⟩
  | cons slot rest ih =>
    rw [slotsSpace_cons] at h0 h2
    have h3 : i16 (dataOffset - recordSize isLeaf slot) = dataOffset - recordSize isLeaf slot :=
      i16_of_range (by omega) (by omega)
    have h4 : u16 ((spaceUsed : Int) + recordSize isLeaf slot) =
        spaceUsed + recordSize isLeaf slot := by
      unfold u16
      omega
    obtain ⟨slots', hrest, hmap, hlaid⟩ := ih (dataOffset - recordSize isLeaf slot)
      (spaceUsed + recordSize isLeaf slot) (by omega) (by omega) (by omega)
    have h5 : dataOffset - recordSize isLeaf slot - slotsSpace isLeaf rest =
        dataOffset - (recordSize isLeaf slot + slotsSpace isLeaf rest : Nat) := by omega
    have h6 : ((dataOffset - recordSize isLeaf slot) % 32768).toNat =
        (dataOffset - recordSize isLeaf slot).toNat := by omega
    have h7 : (dataOffset - recordSize isLeaf slot).toNat + recordSize isLeaf slot =
        dataOffset.toNat := by
      omega
    refine ⟨{ slot with
      recordOffset := ((dataOffset - recordSize isLeaf slot) % 32768).toNat } :: slots', ?_, ?_, ?_⟩
    · simp only [copyRecordRange, h3, h4, hrest, slotsSpace_cons, h5, Nat.add_assoc]
    · simp only [List.map_cons, hmap]
    · rw [h5] at hlaid
      rw [slotsSpace_cons, spans_cons, h6, ← h7]
      exact hlaid.consTop (by omega) (recordSize isLeaf slot)

/-- Compaction succeeds when `space_used` is right, and then leaves no hole. -/
theorem compactify_ok (hP : PageRange P) (h : Bounded P n)
    (hused : n.spaceUsed = slotsSpace n.isLeaf n.slots) :
    ∃ n', n.compactify P = .ok n' ∧ n'.core = n.core ∧ n'.dataOffset = P - n.spaceUsed ∧
      Spans.Laid P n'.dataOffset (spans n'.isLeaf n'.slots) := by
  have h1 := hP.lt_max
  have h2 := h.lo
  have h3 := h.hi
  have h4 : i16 P = P := i16_of_range (by omega) (by omega)
  obtain ⟨slots', hcopy, hmap, hlaid⟩ :=
    copyRecordRange_eq n.isLeaf n.slots P 0 (by omega) (by omega) (by omega)
  refine ⟨{ n with slots := slots', dataOffset := P - n.spaceUsed }, ?_, ?_, rfl, ?_⟩
  · have h5 : n.spaceUsed = 0 + slotsSpace n.isLeaf n.slots := by omega
    unfold Node.compactify
    simp only [h4, hcopy, check, if_pos h5]
    rw [← hused]
    rfl
  · simp only [core, hmap]
  · rw [Int.toNat_natCast, ← hused] at hlaid
    exact hlaid

/-- Compaction fails when `space_used` is not the sum of the record sizes. -/
theorem compactify_error (hP : PageRange P) (hlt : slotsSpace n.isLeaf n.slots ≤ P)
    (hused : n.spaceUsed ≠ slotsSpace n.isLeaf n.slots) : n.compactify P = .error .assertion := by
  have h1 := hP.lt_max
  have h4 : i16 P = P := i16_of_range (by omega) (by omega)
  obtain ⟨slots', hcopy, -, -⟩ := copyRecordRange_eq n.isLeaf n.slots P 0 (by omega) (by omega)
    (by omega)
  have h5 : ¬ n.spaceUsed = 0 + slotsSpace n.isLeaf n.slots := by omega
  unfold Node.compactify
  simp only [h4, hcopy, check, if_neg h5]
  rfl

theorem recordSize_map_offset (isLeaf : Bool) (slots : List Slot) :
    slotsSpace isLeaf (slots.map fun slot => { slot with recordOffset := 0 }) =
      slotsSpace isLeaf slots := by
  simp only [slotsSpace, List.map_map]
  rfl

theorem isLeaf_core (n : Node) : n.core.isLeaf = n.isLeaf := rfl

theorem count_core (n : Node) : n.core.count = n.count := by
  simp [core, count]

theorem slotsSpace_core (n : Node) : slotsSpace n.core.isLeaf n.core.slots =
    slotsSpace n.isLeaf n.slots := recordSize_map_offset _ _

/-- Nodes that differ in the places of their records only agree on everything else. -/
theorem eq_of_core {n n' : Node} (h : n'.core = n.core) :
    n'.spaceUsed = n.spaceUsed ∧ n'.isLeaf = n.isLeaf ∧ n'.count = n.count ∧
      slotsSpace n'.isLeaf n'.slots = slotsSpace n.isLeaf n.slots := by
  refine ⟨?_, ?_, ?_, ?_⟩
  · have : n'.core.spaceUsed = n.core.spaceUsed := by rw [h]
    exact this
  · rw [← isLeaf_core n', h, isLeaf_core]
  · rw [← count_core n', h, count_core]
  · rw [← slotsSpace_core n', h, slotsSpace_core]

/-- `RequestSpaceFor` by cases: there is room as it is, there is room after compaction, or
there is none. -/
theorem requestSpaceFor_eq (hP : PageRange P) (h : Bounded P n) (keySize valueSize : Nat)
    (slotNeeded : Bool) :
    n.requestSpaceFor P keySize valueSize slotNeeded =
      if spaceNeeded (stubSize P (keySize + valueSize)) slotNeeded ≤
          (n.dataOffset - n.slotBytes).toNat then .ok (true, n)
      else if spaceNeeded (stubSize P (keySize + valueSize)) slotNeeded ≤
          P - n.slotBytes - n.spaceUsed then (n.compactify P).map fun n' => (true, n')
      else .ok (false, n) := by
  have hneed : (if maxInline P < keySize + valueSize then spaceNeeded kOverflowRecordSize slotNeeded
      else spaceNeeded (keySize + valueSize) slotNeeded) =
      spaceNeeded (stubSize P (keySize + valueSize)) slotNeeded := by
    unfold stubSize
    split <;> rfl
  unfold Node.requestSpaceFor
  simp only [maxInlineRecordSize_eq hP, h.freeSpace hP, h.freeSpaceAfterCompaction hP,
    ok_bind, hneed]
  by_cases h1 : spaceNeeded (stubSize P (keySize + valueSize)) slotNeeded ≤
      (n.dataOffset - n.slotBytes).toNat
  · simp only [if_pos h1]
    rfl
  · by_cases h2 : spaceNeeded (stubSize P (keySize + valueSize)) slotNeeded ≤
        P - n.slotBytes - n.spaceUsed
    · simp only [if_neg h1, if_pos h2]
      cases n.compactify P <;> rfl
    · simp only [if_neg h1, if_neg h2]
      rfl

/-- A node in order is in order after compaction. -/
theorem Sized.compactify (hP : PageRange P) (h : Sized P n) :
    ∃ n', n.compactify P = .ok n' ∧ n'.core = n.core ∧ n'.dataOffset = P - n.spaceUsed ∧
      n'.slotBytes = n.slotBytes ∧ Sized P n' := by
  have hlo := h.lo
  have hhi := h.hi
  obtain ⟨n', hcompact, hcore, hoff, hlaid⟩ := compactify_ok hP h.toBounded h.used
  obtain ⟨e1, e2, e3, e4⟩ := eq_of_core hcore
  have e5 : n'.slotBytes = n.slotBytes := by simp only [slotBytes, e3]
  have e6 : n'.slotBytes < P := by
    rw [e5]
    exact h.lt
  have e7 : n'.spaceUsed = slotsSpace n'.isLeaf n'.slots := by
    rw [e1, e4]
    exact h.used
  exact ⟨n', hcompact, hcore, hoff, e5, ⟨⟨by omega, by omega, e6⟩, e7, hlaid⟩⟩

/-- **Requests for space.** The request is granted when the space after compaction suffices, and the
node that comes back then has that space in one piece. -/
theorem requestSpaceFor_ok (hP : PageRange P) (h : Sized P n) (keySize valueSize : Nat)
    (slotNeeded : Bool) :
    ∃ n', n.requestSpaceFor P keySize valueSize slotNeeded =
        .ok (decide (spaceNeeded (stubSize P (keySize + valueSize)) slotNeeded ≤
          P - n.slotBytes - n.spaceUsed), n') ∧
      n'.core = n.core ∧ Sized P n' ∧
      (spaceNeeded (stubSize P (keySize + valueSize)) slotNeeded ≤ P - n.slotBytes - n.spaceUsed →
        (n'.slotBytes : Int) + spaceNeeded (stubSize P (keySize + valueSize)) slotNeeded ≤
          n'.dataOffset) := by
  have hlo := h.lo
  have hhi := h.hi
  rw [requestSpaceFor_eq hP h.toBounded]
  generalize spaceNeeded (stubSize P (keySize + valueSize)) slotNeeded = need
  by_cases h1 : need ≤ (n.dataOffset - n.slotBytes).toNat
  · have h2 : need ≤ P - n.slotBytes - n.spaceUsed := by omega
    refine ⟨n, ?_, rfl, h, fun _ => by omega⟩
    rw [if_pos h1, decide_eq_true h2]
  · by_cases h2 : need ≤ P - n.slotBytes - n.spaceUsed
    · obtain ⟨n', hcompact, hcore, hoff, hbytes, hsized⟩ := h.compactify hP
      refine ⟨n', ?_, hcore, hsized, fun _ => by omega⟩
      rw [if_neg h1, if_pos h2, decide_eq_true h2, hcompact]
      rfl
    · refine ⟨n, ?_, rfl, h, fun h3 => absurd h3 h2⟩
      rw [if_neg h1, if_neg h2, decide_eq_false h2]

end Compaction

end Node

end AtomKV
