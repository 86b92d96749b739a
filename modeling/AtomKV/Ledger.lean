import AtomKV.NodeSpace

/-!
# The numbers of a node, without widths

`data_offset`, `space_used`, `record_offset` and `key_size` are stored in 16, 16, 15 and 15 bits. A
`Ledger` holds the same numbers as integers, and each operation of a node has its counterpart here,
computed without a bound. As long as a node is in order, compaction and the request for space do to
the header what they do to the ledger.
-/

set_option autoImplicit false

namespace AtomKV

/-- What a slot says about its record: where it starts, how many bytes of the page it takes, how
long its key is. -/
@[ext] structure Cell where
  offset : Int
  size : Nat
  keySize : Nat
  deriving DecidableEq

/-- The numbers of a node. -/
@[ext] structure Ledger where
  dataOffset : Int
  spaceUsed : Int
  cells : List Cell
  deriving DecidableEq

namespace Ledger

/-- An empty node. -/
def empty (P : Nat) : Ledger := ⟨P, 0, []⟩

def slotSpace (a : Ledger) : Int := 18 + 8 * a.cells.length

def freeSpace (a : Ledger) : Int := a.dataOffset - a.slotSpace

def freeSpaceAfterCompaction (P : Nat) (a : Ledger) : Int := P - a.slotSpace - a.spaceUsed

/-- The records one below the other, from `top` downwards. -/
def lay : Int → List Cell → List Cell × Int
  | top, [] => ([], top)
  | top, cell :: cells =>
      let rest := lay (top - cell.size) cells
      ({ cell with offset := top - cell.size } :: rest.1, rest.2)

def compactify (P : Nat) (a : Ledger) : Ledger :=
  { a with cells := (lay P a.cells).1, dataOffset := (lay P a.cells).2 }

/-- Room for `needed` bytes in one piece. -/
def request (P : Nat) (a : Ledger) (needed : Nat) : Ledger :=
  if (needed : Int) ≤ a.freeSpace then a else a.compactify P

/-- A record below the others, for the slot `i`. -/
def place (a : Ledger) (i size keySize : Nat) : Ledger :=
  ⟨a.dataOffset - size, a.spaceUsed + size, a.cells.set i ⟨a.dataOffset - size, size, keySize⟩⟩

/-- A slot without a record. -/
def openSlot (a : Ledger) (i : Nat) : Ledger := { a with cells := a.cells.insertIdx i ⟨0, 0, 0⟩ }

/-- The record of the slot `i` goes, the slot stays. -/
def vacate (a : Ledger) (i : Nat) : Ledger :=
  match a.cells[i]? with
  | some cell => ⟨a.dataOffset, a.spaceUsed - cell.size, a.cells.set i ⟨cell.offset, 0, 0⟩⟩
  | none => a

/-- Slot and record go. -/
def delete (a : Ledger) (i : Nat) : Ledger :=
  match a.cells[i]? with
  | some cell => ⟨a.dataOffset, a.spaceUsed - cell.size, a.cells.eraseIdx i⟩
  | none => a

def insert (P : Nat) (a : Ledger) (i size keySize : Nat) : Ledger :=
  ((a.request P (size + kSlotSize)).openSlot i).place i size keySize

def update (P : Nat) (a : Ledger) (i size keySize : Nat) : Ledger :=
  ((a.vacate i).request P size).place i size keySize

section

variable {cells₁ cells₂ : List Cell} {cell : Cell} {d u : Int}

theorem place_length (size keySize : Nat) :
    (⟨d, u, cells₁ ++ cell :: cells₂⟩ : Ledger).place cells₁.length size keySize =
      ⟨d - size, u + size, cells₁ ++ ⟨d - size, size, keySize⟩ :: cells₂⟩ := by
  unfold place
  rw [ListAt.set_length]

theorem openSlot_length : (⟨d, u, cells₁ ++ cells₂⟩ : Ledger).openSlot cells₁.length =
      ⟨d, u, cells₁ ++ ⟨0, 0, 0⟩ :: cells₂⟩ := by
  unfold openSlot
  rw [ListAt.insertIdx_length]

theorem vacate_length :
    (⟨d, u, cells₁ ++ cell :: cells₂⟩ : Ledger).vacate cells₁.length =
      ⟨d, u - cell.size, cells₁ ++ ⟨cell.offset, 0, 0⟩ :: cells₂⟩ := by
  unfold vacate
  simp only [List.getElem?_append_right (Nat.le_refl _), Nat.sub_self, List.getElem?_cons_zero]
  rw [ListAt.set_length]

theorem delete_length : (⟨d, u, cells₁ ++ cell :: cells₂⟩ : Ledger).delete cells₁.length =
      ⟨d, u - cell.size, cells₁ ++ cells₂⟩ := by
  unfold delete
  simp only [List.getElem?_append_right (Nat.le_refl _), Nat.sub_self, List.getElem?_cons_zero]
  rw [ListAt.eraseIdx_length]

end

end Ledger

/-! ## The ledger of a node -/

namespace Node

/-- A slot's numbers as they are stored. -/
def cell (isLeaf : Bool) (slot : Slot) : Cell :=
  ⟨slot.recordOffset, recordSize isLeaf slot, slot.keySize⟩

/-- The numbers of a node as they are stored. -/
def ledger (n : Node) : Ledger := ⟨n.dataOffset, n.spaceUsed, n.slots.map (cell n.isLeaf)⟩

section

variable {P : Nat} {n n' : Node}

theorem ledger_of_slots {l : List Slot} (h : n.slots = l) :
    n.ledger = ⟨n.dataOffset, n.spaceUsed, l.map (cell n.isLeaf)⟩ := by
  subst h
  rfl

theorem ledger_length (n : Node) : n.ledger.cells.length = n.count := List.length_map _

theorem ledger_slotSpace (n : Node) : n.ledger.slotSpace = n.slotBytes := by
  unfold Ledger.slotSpace ledger slotBytes count
  rw [List.length_map]
  omega

theorem ledger_freeSpace (n : Node) : n.ledger.freeSpace = n.dataOffset - n.slotBytes := by
  unfold Ledger.freeSpace
  rw [ledger_slotSpace]
  rfl

/-- Records at the same places with keys of the same lengths. -/
theorem cells_eq {isLeaf : Bool} {l l' : List Slot} (hspans : spans isLeaf l' = spans isLeaf l)
    (hkeys : l'.map Slot.keySize = l.map Slot.keySize) : l'.map (cell isLeaf) =
      l.map (cell isLeaf) := by
  have key : ∀ m : List Slot, m.map (cell isLeaf) =
      List.zipWith (fun r keySize => ⟨r.1, r.2, keySize⟩) (spans isLeaf m) (m.map Slot.keySize) :=
        fun m => by
    induction m with
    | nil => rfl
    | cons slot m ih =>
      rw [List.map_cons, ih]
      rfl
  rw [key, key, hspans, hkeys]

/-- A record is placed in a new slot, whatever the slot held. -/
theorem place_openSlot {n₁ : Node} {l₁ l₂ : List Slot} {slot : Slot}
    (hslots : n₁.slots = l₁ ++ slot :: l₂)
    (hcells : (l₁ ++ l₂).map (cell n₁.isLeaf) = n.slots.map (cell n.isLeaf))
    (hoffset : n₁.dataOffset = n.dataOffset) (hused : n₁.spaceUsed = n.spaceUsed)
    (size keySize : Nat) : n₁.ledger.place l₁.length size keySize =
      (n.ledger.openSlot l₁.length).place l₁.length size keySize := by
  have hlen : (l₁.map (cell n₁.isLeaf)).length = l₁.length := List.length_map _
  rw [ledger_of_slots hslots, hoffset, hused, List.map_append, List.map_cons]
  unfold ledger
  rw [← hcells, List.map_append, ← hlen, Ledger.place_length, Ledger.openSlot_length,
    Ledger.place_length]

/-- A slot goes with its record. -/
theorem ledger_delete {n₁ : Node} {l₁ l₂ : List Slot} {slot : Slot}
    (hslots : n.slots = l₁ ++ slot :: l₂)
    (hcells : n₁.slots.map (cell n₁.isLeaf) = (l₁ ++ l₂).map (cell n.isLeaf))
    (hoffset : n₁.dataOffset = n.dataOffset)
    (hused : n₁.spaceUsed + recordSize n.isLeaf slot = n.spaceUsed) :
      n₁.ledger = n.ledger.delete l₁.length := by
  have hlen : (l₁.map (cell n.isLeaf)).length = l₁.length := List.length_map _
  have hused' : (n₁.spaceUsed : Int) = n.spaceUsed - (cell n.isLeaf slot).size := by
    show (n₁.spaceUsed : Int) = n.spaceUsed - recordSize n.isLeaf slot
    omega
  rw [ledger_of_slots hslots, List.map_append, List.map_cons, ← hlen, Ledger.delete_length]
  unfold ledger
  rw [hoffset, hused', hcells, List.map_append]

/-- The records are copied to the places where the ledger puts them. -/
theorem copyRecordRange_ledger (isLeaf : Bool) (slots : List Slot) (dataOffset : Int)
    (spaceUsed : Nat) (h0 : (slotsSpace isLeaf slots : Int) ≤ dataOffset)
    (h1 : dataOffset < 32768) :
    ((copyRecordRange isLeaf slots dataOffset spaceUsed).1.map (cell isLeaf),
      (copyRecordRange isLeaf slots dataOffset spaceUsed).2.1) =
        Ledger.lay dataOffset (slots.map (cell isLeaf)) := by
  induction slots generalizing dataOffset spaceUsed with
  | nil => rfl
  | cons slot rest ih =>
    rw [slotsSpace_cons] at h0
    have h3 : i16 (dataOffset - recordSize isLeaf slot) = dataOffset - recordSize isLeaf slot :=
      i16_of_range (by omega) (by omega)
    have h6 : (((dataOffset - recordSize isLeaf slot) % 32768).toNat : Int) =
        dataOffset - recordSize isLeaf slot := by
      omega
    have hrest :=
      ih (dataOffset - recordSize isLeaf slot) (u16 ((spaceUsed : Int) + recordSize isLeaf slot))
      (by omega) (by omega)
    have hcell : cell isLeaf { slot with
        recordOffset := ((dataOffset - recordSize isLeaf slot) % 32768).toNat } =
        { cell isLeaf slot with offset := dataOffset - recordSize isLeaf slot } := by
      unfold cell
      rw [h6]
      rfl
    simp only [copyRecordRange, h3, List.map_cons, Ledger.lay, hcell]
    rw [← show _ = Ledger.lay (dataOffset - (cell isLeaf slot).size)
      (rest.map (cell isLeaf)) from hrest]
    rfl

/-- A compaction that succeeds does to the header what it does to the ledger. -/
theorem compactify_ledger (hP : P < 32768) (hspace : slotsSpace n.isLeaf n.slots ≤ P)
    (h : n.compactify P = .ok n') : n'.ledger = n.ledger.compactify P := by
  have h4 : i16 P = P := i16_of_range (by omega) (by omega)
  have hcopy := copyRecordRange_ledger n.isLeaf n.slots P 0 (by omega) (by omega)
  unfold Node.compactify at h
  rw [h4] at h
  by_cases hused : n.spaceUsed = (copyRecordRange n.isLeaf n.slots P 0).2.2
  · simp only [check_pos hused, ok_bind] at h
    obtain rfl := Except.ok.inj h
    unfold Ledger.compactify
    rw [show n.ledger.cells = n.slots.map (cell n.isLeaf) from rfl, ← hcopy]
    rfl
  · have hfails : check (n.spaceUsed = (copyRecordRange n.isLeaf n.slots P 0).2.2) =
      .error .assertion := if_neg hused
    simp only [hfails] at h
    cases h

/-- A request that is granted does to the header what it does to the ledger. -/
theorem requestSpaceFor_ledger (hP : PageRange P) (h : Bounded P n)
    (hspace : slotsSpace n.isLeaf n.slots ≤ P) {keySize valueSize : Nat} {slotNeeded : Bool}
    (hreq : n.requestSpaceFor P keySize valueSize slotNeeded = .ok (true, n')) :
    n'.ledger = n.ledger.request P (spaceNeeded (stubSize P (keySize + valueSize)) slotNeeded) := by
  have hlo := h.lo
  rw [requestSpaceFor_eq hP h] at hreq
  revert hreq
  generalize spaceNeeded (stubSize P (keySize + valueSize)) slotNeeded = need
  intro hreq
  unfold Ledger.request
  rw [ledger_freeSpace]
  by_cases hfree : need ≤ (n.dataOffset - n.slotBytes).toNat
  · rw [if_pos hfree] at hreq
    obtain rfl := (Prod.mk.inj (Except.ok.inj hreq)).2
    rw [if_pos (by omega)]
  · rw [if_neg hfree] at hreq
    rw [if_neg (by omega)]
    split at hreq
    · cases hcompact : n.compactify P with
      | error err =>
        rw [hcompact] at hreq
        cases hreq
      | ok m =>
        rw [hcompact] at hreq
        obtain rfl := (Prod.mk.inj (Except.ok.inj hreq)).2
        exact compactify_ledger hP.lt_max hspace hcompact
    · cases hreq

end

end Node

/-- The numbers of the node in the page `q` change as `f` says. -/
def Books (q : Nat) (f : Ledger → Ledger) (s s' : TxState) : Prop :=
  ∀ n, s.pager.pages q = .node n → ∃ n', s'.pager.pages q = .node n' ∧ n'.ledger = f n.ledger

theorem Books.intro {q : Nat} {f : Ledger → Ledger} {s s' : TxState} {n n' : Node}
    (hn : s.pager.pages q = .node n) (hn' : s'.pager.pages q = .node n')
    (h : n'.ledger = f n.ledger) : Books q f s s' := by
  intro m hm
  obtain rfl : n = m := Page.node.inj (hn.symm.trans hm)
  exact ⟨n', hn', h⟩

theorem Books.congr {q : Nat} {f g : Ledger → Ledger} {s s' : TxState} {n : Node}
    (h : Books q f s s') (hn : s.pager.pages q = .node n) (hfg : f n.ledger = g n.ledger) :
      Books q g s s' := by
  obtain ⟨n', hn', hledger⟩ := h n hn
  exact Books.intro hn hn' (hledger.trans hfg)

/-- One step after another. -/
theorem Books.trans {q : Nat} {f g : Ledger → Ledger} {s s₁ s₂ : TxState} (h : Books q f s s₁)
    (h₁ : Books q g s₁ s₂) : Books q (fun a => g (f a)) s s₂ := by
  intro n hn
  obtain ⟨n₁, hn₁, hledger₁⟩ := h n hn
  obtain ⟨n₂, hn₂, hledger₂⟩ := h₁ n₁ hn₁
  exact ⟨n₂, hn₂, by rw [hledger₂, hledger₁]⟩

/-- The page `q` holds a node with the numbers `a`. -/
def NumbersAt (q : Nat) (a : Ledger) (s : TxState) : Prop :=
  ∃ n, s.pager.pages q = .node n ∧ n.ledger = a

theorem Books.numbersAt {q : Nat} {f : Ledger → Ledger} {a : Ledger} {s s' : TxState}
    (h : Books q f s s') (ha : NumbersAt q a s) : NumbersAt q (f a) s' := by
  obtain ⟨n, hn, rfl⟩ := ha
  exact h n hn

end AtomKV
