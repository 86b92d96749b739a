import AtomKV.Ledger
import AtomKV.NodeRead

/-!
# Storing a record

`StoreRecord` fills a slot whose record is not counted in the header. Here it is followed through a
page that the transaction holds: the record goes into the page, or into a fresh run of overflow
pages, and the header is in order afterwards.
-/

set_option autoImplicit false

namespace AtomKV

/-- The number of overflow pages that a record needs. -/
def recordPages (P : Nat) (key value : Bytes) : Nat :=
  Entry.pages P ⟨key, value, false, 0⟩

theorem Entry.pages_eq (P : Nat) (e : Entry) : e.pages P = recordPages P e.key e.value := rfl

theorem recordPages_of_overflow {P : Nat} {key value : Bytes}
    (hover : Node.maxInline P < key.length + value.length) :
    recordPages P key value = Pager.getPageCount P (key.length + value.length) := if_pos hover

/-- The sizes of a record that may be stored. -/
def Admissible (P : Nat) (key value : Bytes) : Prop := Entry.Ok P ⟨key, value, false, 0⟩

theorem Entry.Ok.of_admissible {P : Nat} {key value : Bytes} (h : Admissible P key value)
    (isBucket : Bool) (run : Nat) : Entry.Ok P ⟨key, value, isBucket, run⟩ :=
  ⟨h.key_le_page, h.key_le, h.value_le⟩

theorem Entry.Ok.admissible {P : Nat} {e : Entry} (h : e.Ok P) : Admissible P e.key e.value :=
  ⟨h.key_le_page, h.key_le, h.value_le⟩

/-- A key that may be stored with a value may be stored alone. -/
theorem Admissible.key {P : Nat} {key value : Bytes} (h : Admissible P key value) :
    Admissible P key [] := ⟨h.key_le_page, h.key_le, Nat.zero_le _⟩

/-- `StoreRecordToOverflowPages` allocates a run and writes the record to it. -/
theorem Node.storeRecordToOverflowPages_eq (env : Env) (key value : Bytes) :
    Node.storeRecordToOverflowPages env key value = (do
      let pgid ← Pager.alloc (Pager.getPageCount env.pageSize (key.length + value.length))
      Exec.change fun s => { s with pager := Pager.writeRecord env.pageSize s.pager pgid key value }
      return pgid) := by
  unfold Node.storeRecordToOverflowPages Pager.writeRecord
  by_cases hv : value = []
  · simp only [hv, ne_eq, not_true_eq_false, if_false]
  · simp only [ne_eq, hv, not_false_eq_true, if_true]
    rfl

/-- A node with slot `i` filled by the record `e`. -/
def Node.filled (P : Nat) (n : Node) (l₁ l₂ : List Slot) (e : Entry) (offset : Nat)
    (dataOffset : Int) (word : Nat) : Node :=
  { n with
    slots := l₁ ++ ⟨offset, e.record P, e.key.length, e.isBucket, word⟩ :: l₂
    dataOffset := dataOffset
    spaceUsed := n.spaceUsed + e.stub P }

/-- A filled slot in the ledger. -/
theorem Node.filled_ledger {n : Node} {l₁ l₂ : List Slot} {slot slot' : Slot} {offset size : Nat}
    (hslots : n.slots = l₁ ++ slot :: l₂) (hoffset : (offset : Int) = n.dataOffset - size)
    (hsize : Node.recordSize n.isLeaf slot' = size) :
    Node.ledger { n with
        slots := l₁ ++ { slot' with recordOffset := offset } :: l₂
        dataOffset := n.dataOffset - size
        spaceUsed := n.spaceUsed + size } = n.ledger.place l₁.length size slot'.keySize := by
  have hcell : Node.cell n.isLeaf { slot' with recordOffset := offset } =
      ⟨n.dataOffset - size, size, slot'.keySize⟩ := by
    unfold Node.cell
    rw [hoffset, ← hsize]
    rfl
  have hlen : (l₁.map (Node.cell n.isLeaf)).length = l₁.length := List.length_map _
  rw [Node.ledger_of_slots hslots, List.map_append, List.map_cons, ← hlen,
    Ledger.place_length, ← hcell]
  unfold Node.ledger
  rw [List.map_append, List.map_cons]
  rfl

namespace Own

variable {Γ : PageScope} {b r : ℕ} {O : Multiset Obj} {s : TxState} {q : Nat}

theorem storeRecordToOverflowPages {key value : Bytes}
    (h : Own Γ (b + Pager.getPageCount Γ.P (key.length + value.length)) r O s) :
    Exec.Ok (Node.storeRecordToOverflowPages Γ.env key value) s fun run s' =>
      Own Γ b r (.run run (key ++ value) ::ₘ O) s' := by
  rw [Node.storeRecordToOverflowPages_eq]
  refine h.alloc.bind fun run s' h' => ?_
  exact Exec.Ok.of_eq rfl h'.writeRecord

/-- What the slot needs before a record is put into it. -/
structure Vacant (P : Nat) (n : Node) (l₁ : List Slot) (slot : Slot) (l₂ : List Slot) (need : Nat) :
    Prop where
  slots : n.slots = l₁ ++ slot :: l₂
  bounded : Node.Bounded P n
  used : n.spaceUsed = Node.slotsSpace n.isLeaf (l₁ ++ l₂)
  laid : Spans.Laid P n.dataOffset (Node.spans n.isLeaf (l₁ ++ l₂))
  room : (n.slotBytes : Int) + need ≤ n.dataOffset

/-- A vacant slot that has been filled, at the new start of the records. -/
theorem Vacant.sized {n : Node} {l₁ l₂ : List Slot} {slot : Slot} {size : Nat} {record : Record}
    (hP : PageRange Γ.P) (hv : Vacant Γ.P n l₁ slot l₂ size)
    (hsize : Node.recordSize n.isLeaf { slot with record := record } = size) :
    Node.Sized Γ.P { n with
      slots := l₁ ++ { slot with
        recordOffset := ((n.dataOffset - size) % 32768).toNat, record := record } :: l₂
      dataOffset := n.dataOffset - size
      spaceUsed := n.spaceUsed + size } ∧
    (((n.dataOffset - size) % 32768).toNat : Int) = n.dataOffset - size := by
  have hlo := hv.bounded.lo
  have hhi := hv.bounded.hi
  have hroom := hv.room
  have hmax := hP.lt_max
  obtain ⟨hslots, hbounded, hused, hlaid, -⟩ := hv
  set n' : Node := { n with
    slots := l₁ ++ { slot with
      recordOffset := ((n.dataOffset - size) % 32768).toNat, record := record } :: l₂
    dataOffset := n.dataOffset - size
    spaceUsed := n.spaceUsed + size } with hn'
  have hbytes : n'.slotBytes = n.slotBytes := by
    simp [Node.slotBytes, Node.count, hn', hslots]
  -- `record_offset` has 15 bits, and the new start of the records fits in them.
  have hoffset : (((n.dataOffset - size) % 32768).toNat : Int) = n.dataOffset - size := by omega
  have hsize' : Node.recordSize n.isLeaf { slot with
      recordOffset := ((n.dataOffset - size) % 32768).toNat, record := record } = size := hsize
  refine ⟨⟨⟨?_, ?_, hbytes ▸ hbounded.lt⟩, ?_, ?_⟩, hoffset⟩
  · rw [hbytes]
    show (n.slotBytes : Int) ≤ n.dataOffset - size
    omega
  · show n.dataOffset - size + (n.spaceUsed + size : Nat) ≤ _
    omega
  · show n.spaceUsed + size = Node.slotsSpace n.isLeaf (l₁ ++ _ :: l₂)
    rw [Node.slotsSpace_append] at hused
    rw [Node.slotsSpace_append, Node.slotsSpace_cons, hsize', hused]
    omega
  · show Spans.Laid Γ.P (n.dataOffset - size) (Node.spans n.isLeaf (l₁ ++ _ :: l₂))
    rw [Node.spans_append] at hlaid
    rw [Node.spans_append, Node.spans_cons, hsize']
    have hinsert := hlaid.insert (r := (((n.dataOffset - size) % 32768).toNat, size))
      (by omega) (by omega)
    rw [hoffset] at hinsert
    exact hinsert

/-- The last part of `StoreRecord`, in a node that is in order but for its `space_used`. -/
theorem placeRecord_uncounted {n : Node} {l₁ l₂ : List Slot} {slot : Slot} {size used : Nat}
    {record : Record} (h : Own Γ b r (.page q (.node { n with spaceUsed := used }) ::ₘ O) s)
    (hq : ¬ Γ.keep q) (hv : Vacant Γ.P n l₁ slot l₂ size)
    (hsize : Node.recordSize n.isLeaf { slot with record := record } = size) :
    ∃ (s' : TxState) (offset : Nat) (n' : Node), Node.placeRecord Γ.env q l₁.length size record s =
      (.ok (), s') ∧ (offset : Int) = n.dataOffset - size ∧
      n' = { n with
        slots := l₁ ++ { slot with recordOffset := offset, record := record } :: l₂
        dataOffset := n.dataOffset - size
        spaceUsed := u16 ((used : Int) + size) } ∧
      n'.checkLayout Γ.P = .ok () ∧ Own Γ b r (.page q (.node n') ::ₘ O) s' := by
  have hlo := hv.bounded.lo
  have hhi := hv.bounded.hi
  have hroom := hv.room
  have hmax := Γ.hP.lt_max
  have hoff : i16 (n.dataOffset - size) = n.dataOffset - size := i16_of_range (by omega) (by omega)
  have hle : size ≤ u64 n.dataOffset := by
    have := u64_of_range (x := n.dataOffset) (by omega) (by omega)
    omega
  have hslot : Node.getSlot { n with spaceUsed := used } l₁.length = pure slot :=
    getSlot_of_getElem? (by simp [hv.slots])
  obtain ⟨hsized, hoffset⟩ := hv.sized Γ.hP hsize
  set n' : Node := { n with
    slots := l₁ ++ { slot with
      recordOffset := ((n.dataOffset - size) % 32768).toNat, record := record } :: l₂
    dataOffset := n.dataOffset - size
    spaceUsed := u16 ((used : Int) + size) } with hn'
  obtain ⟨s', hset, hown⟩ := h.setNode hq n'
  -- the assertion at the end does not look at `space_used`
  have hcheck : n'.checkLayout Γ.P = .ok () := hsized.checkLayout Γ.hP
  refine ⟨s', _, n', ?_, hoffset, rfl, hcheck, hown⟩
  unfold Node.placeRecord assert
  rw [Exec.bind_of_ok h.getNode, Exec.require_bind hle, hslot, Exec.pure_bind_apply, hoff,
    hv.slots, ListAt.set_length]
  show (do Pager.setNode q n'; Exec.lift (n'.checkLayout Γ.P)) s = _
  rw [Exec.bind_of_ok hset, hcheck]
  rfl

theorem placeRecord {n : Node} {l₁ l₂ : List Slot} {slot : Slot} {size : Nat} {record : Record}
    (h : Own Γ b r (.page q (.node n) ::ₘ O) s) (hq : ¬ Γ.keep q)
    (hv : Vacant Γ.P n l₁ slot l₂ size)
    (hsize : Node.recordSize n.isLeaf { slot with record := record } = size) :
    Exec.Ok (Node.placeRecord Γ.env q l₁.length size record) s fun _ s' =>
      ∃ (offset : Nat) (n' : Node), (offset : Int) = n.dataOffset - size ∧
      n' = { n with
        slots := l₁ ++ { slot with recordOffset := offset, record := record } :: l₂
        dataOffset := n.dataOffset - size
        spaceUsed := n.spaceUsed + size } ∧
      Node.Sized Γ.P n' ∧ Own Γ b r (.page q (.node n') ::ₘ O) s' := by
  obtain ⟨hsized, hoffset⟩ := hv.sized Γ.hP hsize
  have h₀ : Own Γ b r (.page q (.node { n with spaceUsed := n.spaceUsed }) ::ₘ O) s := h
  obtain ⟨s', offset, n', hrun, hoffset', rfl, -, hown⟩ := h₀.placeRecord_uncounted hq hv hsize
  obtain rfl : offset = ((n.dataOffset - size) % 32768).toNat :=
    Int.ofNat.inj (hoffset'.trans hoffset.symm)
  have hspace : u16 ((n.spaceUsed : Int) + size) = n.spaceUsed + size := by
    have hlo := hv.bounded.lo
    have hhi := hv.bounded.hi
    have hroom := hv.room
    have hmax := Γ.hP.lt_max
    unfold u16
    omega
  rw [hspace] at hown
  exact Exec.Ok.intro () s' hrun ⟨_, _, hoffset, rfl, hsized, hown⟩

/-- The first half of `StoreRecord`: the sizes are in the slot. -/
theorem storeRecord_run {n : Node} {l₁ l₂ : List Slot} {slot : Slot} {key value : Bytes}
    (h : Own Γ b r (.page q (.node n) ::ₘ O) s) (hq : ¬ Γ.keep q)
    (hslots : n.slots = l₁ ++ slot :: l₂) (hadm : Admissible Γ.P key value) :
    ∃ s₁, Own Γ b r (.page q (.node { n with slots := l₁ ++ { slot with
          keySize := key.length, word := if n.isLeaf then value.length else slot.word } :: l₂ }) ::ₘ
            O) s₁ ∧
      Node.storeRecord Γ.env q l₁.length key value s =
        (if Node.maxInline Γ.P < key.length + value.length then do
          let run ← Node.storeRecordToOverflowPages Γ.env key value
          Node.placeRecord Γ.env q l₁.length kOverflowRecordSize (.overflow run)
        else
          Node.placeRecord Γ.env q l₁.length (key.length + value.length)
            (.inlined (key ++ value)) : TxM Unit) s₁ := by
  have hkey : ¬ (key.length > Γ.P ∨ key.length > kKeyMaxSize) := by
    have h1 := hadm.key_le_page
    have h2 := hadm.key_le
    simp only at h1 h2
    omega
  have hvalue : ¬ value.length > kValueMaxSize := by
    have h3 := hadm.value_le
    simp only at h3
    omega
  have hslot : n.getSlot l₁.length = pure slot := getSlot_of_getElem? (by simp [hslots])
  obtain ⟨s₁, hset, hown⟩ := h.setNode hq { n with slots := l₁ ++ { slot with
    keySize := key.length, word := if n.isLeaf then value.length else slot.word } :: l₂ }
  refine ⟨s₁, hown, ?_⟩
  unfold Node.storeRecord
  simp only [if_neg hkey, if_neg hvalue]
  rw [Exec.bind_of_ok h.getNode, hslot, Exec.pure_bind_apply, hslots,
    ListAt.set_length]
  rw [Exec.bind_of_ok hset, Node.maxInlineRecordSize_eq Γ.hP, Exec.lift_ok_bind]

/-- **`StoreRecord`.** -/
theorem storeRecord {n : Node} {l₁ l₂ : List Slot} {slot : Slot} {key value : Bytes}
    (h : Own Γ (b + recordPages Γ.P key value) r (.page q (.node n) ::ₘ O) s) (hq : ¬ Γ.keep q)
    (hv : Vacant Γ.P n l₁ slot l₂ (Node.stubSize Γ.P (key.length + value.length)))
    (hadm : Admissible Γ.P key value) (hbranch : n.isLeaf = false → value = []) :
    Exec.Ok (Node.storeRecord Γ.env q l₁.length key value) s fun _ s' => ∃ run offset d n',
      n' = Node.filled Γ.P n l₁ l₂ ⟨key, value, slot.isBucket, run⟩ offset d
        (if n.isLeaf then value.length else slot.word) ∧
      n'.ledger = n.ledger.place l₁.length (Node.stubSize Γ.P (key.length + value.length))
        key.length ∧
      Node.Sized Γ.P n' ∧
      Own Γ b r (.page q (.node n') ::ₘ (recordsOf Γ.P [⟨key, value, slot.isBucket, run⟩] + O))
        s' := by
  set slot' : Slot := { slot with
    keySize := key.length
    word := if n.isLeaf then value.length else slot.word } with hslot'
  set n₁ : Node := { n with slots := l₁ ++ slot' :: l₂ } with hn₁
  have hbytes : n₁.slotBytes = n.slotBytes := by
    simp [Node.slotBytes, Node.count, hn₁, hv.slots]
  have hv₁ : ∀ size, size = Node.stubSize Γ.P (key.length + value.length) →
      Vacant Γ.P n₁ l₁ slot' l₂ size := by
    rintro size rfl
    refine ⟨rfl, ⟨?_, hv.bounded.hi, hbytes ▸ hv.bounded.lt⟩, hv.used, hv.laid, ?_⟩
    · rw [hbytes]
      exact hv.bounded.lo
    · rw [hbytes]
      exact hv.room
  obtain ⟨s₁, hown, hrun⟩ := h.storeRecord_run hq hv.slots hadm
  -- The two branches of `StoreRecord` end alike, with a stub or with the record itself.
  have hput : ∀ run size record, record = Entry.record Γ.P ⟨key, value, slot.isBucket, run⟩ →
      size = Node.stubSize Γ.P (key.length + value.length) →
      ∀ s₂, Own Γ b r (.page q (.node n₁) ::ₘ
        (recordsOf Γ.P [⟨key, value, slot.isBucket, run⟩] + O)) s₂ →
      Exec.Ok (Node.placeRecord Γ.env q l₁.length size record) s₂ fun _ s' => ∃ run offset d n',
        n' = Node.filled Γ.P n l₁ l₂ ⟨key, value, slot.isBucket, run⟩ offset d
          (if n.isLeaf then value.length else slot.word) ∧
        n'.ledger = n.ledger.place l₁.length (Node.stubSize Γ.P (key.length + value.length))
          key.length ∧
        Node.Sized Γ.P n' ∧
        Own Γ b r (.page q (.node n') ::ₘ (recordsOf Γ.P [⟨key, value, slot.isBucket, run⟩] + O))
          s' := by
    rintro run size record rfl rfl s₂ h₂
    have hsize : Node.recordSize n₁.isLeaf { slot' with
        record := Entry.record Γ.P ⟨key, value, slot.isBucket, run⟩ } =
        Node.stubSize Γ.P (key.length + value.length) :=
      recordSize_eq (e := ⟨key, value, slot.isBucket, run⟩) rfl
        (fun hl => if_pos (show n.isLeaf = true from hl)) hbranch
    refine (placeRecord h₂ hq (hv₁ _ rfl) hsize).imp fun _ s' hplaced => ?_
    obtain ⟨offset, n', hoffset, hn', hsized, hown'⟩ := hplaced
    have hledger := Node.filled_ledger hv.slots hoffset hsize
    exact ⟨run, offset, _, n', hn', hn' ▸ hledger, hsized, hown'⟩
  by_cases hover : Node.maxInline Γ.P < key.length + value.length
  · rw [recordPages_of_overflow hover] at hown
    obtain ⟨_, s', hok, hpost⟩ := hown.storeRecordToOverflowPages.bind
      (f := fun run => Node.placeRecord Γ.env q l₁.length kOverflowRecordSize (.overflow run))
      fun run s₂ h₂ => by
        refine hput run _ _ (if_pos hover).symm (if_pos hover).symm s₂ ?_
        rw [recordsOf_cons_overflow Γ.P (e := ⟨key, value, slot.isBucket, run⟩) hover,
          recordsOf_nil, Multiset.cons_add, zero_add,
          Multiset.cons_swap]
        exact h₂
    refine Exec.Ok.intro () s' ?_ hpost
    rw [hrun, if_pos hover]
    exact hok
  · obtain ⟨_, s', hok, hpost⟩ := hput 0 (key.length + value.length) (.inlined (key ++ value))
      (if_neg hover).symm (if_neg hover).symm s₁ (by
        rw [recordsOf_cons_inline Γ.P (e := ⟨key, value, slot.isBucket, 0⟩) hover,
          recordsOf_nil, zero_add]
        exact hown.room_mono _ (Nat.le_add_right _ _))
    refine Exec.Ok.intro () s' ?_ hpost
    rw [hrun, if_neg hover]
    exact hok

/-- The last part of `StoreRecord` counts the record, whatever the header said before. -/
theorem placeRecord_counts {n : Node} {l₁ l₂ : List Slot} {slot : Slot} {size : Nat}
    {record : Record} {u : Unit} {s' : TxState} (h : Own Γ b r (.page q (.node n) ::ₘ O) s)
    (hq : ¬ Γ.keep q) (hslots : n.slots = l₁ ++ slot :: l₂)
    (hrun : Node.placeRecord Γ.env q l₁.length size record s = (.ok u, s')) :
    ∃ n' offset, Own Γ b r (.page q (.node n') ::ₘ O) s' ∧ n'.isLeaf = n.isLeaf ∧
      n'.spaceUsed = u16 ((n.spaceUsed : Int) + size) ∧
      n'.slots = l₁ ++ { slot with recordOffset := offset, record := record } :: l₂ ∧
      n'.checkLayout Γ.P = .ok () := by
  have hslot : n.getSlot l₁.length = pure slot := getSlot_of_getElem? (by simp [hslots])
  unfold Node.placeRecord assert at hrun
  rw [Exec.bind_of_ok h.getNode] at hrun
  by_cases hle : size ≤ u64 n.dataOffset
  · rw [Exec.require_bind hle, hslot, Exec.pure_bind_apply, hslots, ListAt.set_length] at hrun
    set n' : Node := { n with
      dataOffset := i16 (n.dataOffset - size)
      spaceUsed := u16 ((n.spaceUsed : Int) + size)
      slots := l₁ ++ { slot with
        recordOffset := (i16 (n.dataOffset - size) % 32768).toNat, record := record } :: l₂ }
          with hn'
    obtain ⟨s₁, hset, h₁⟩ := h.setNode hq n'
    change (do Pager.setNode q n'; Exec.lift (n'.checkLayout Γ.P)) s = _ at hrun
    rw [Exec.bind_of_ok hset] at hrun
    obtain ⟨hcheck, rfl⟩ := Prod.mk.inj hrun
    exact ⟨n', _, h₁, rfl, rfl, rfl, hcheck⟩
  · rw [Exec.require_bind_not hle] at hrun
    cases hrun

/-- `StoreRecord` in a node that is in order but for its `space_used`. -/
theorem storeRecord_uncounted {n : Node} {l₁ l₂ : List Slot} {slot : Slot} {used : Nat}
    {key value : Bytes} (h : Own Γ (b + recordPages Γ.P key value) r
      (.page q (.node { n with spaceUsed := used }) ::ₘ O) s) (hq : ¬ Γ.keep q)
    (hv : Vacant Γ.P n l₁ slot l₂ (Node.stubSize Γ.P (key.length + value.length)))
    (hadm : Admissible Γ.P key value) (hbranch : n.isLeaf = false → value = []) :
    ∃ s' run offset d n', Node.storeRecord Γ.env q l₁.length key value s = (.ok (), s') ∧
      n' = { Node.filled Γ.P n l₁ l₂ ⟨key, value, slot.isBucket, run⟩ offset d
        (if n.isLeaf then value.length else slot.word) with
        spaceUsed := u16 ((used : Int) + Node.stubSize Γ.P (key.length + value.length)) } ∧
      n'.checkLayout Γ.P = .ok () ∧
      Own Γ b r (.page q (.node n') ::ₘ (recordsOf Γ.P [⟨key, value, slot.isBucket, run⟩] + O))
        s' := by
  set slot' : Slot := { slot with
    keySize := key.length
    word := if n.isLeaf then value.length else slot.word } with hslot'
  set n₁ : Node := { n with slots := l₁ ++ slot' :: l₂ } with hn₁
  have hbytes : n₁.slotBytes = n.slotBytes := by
    simp [Node.slotBytes, Node.count, hn₁, hv.slots]
  -- The node is in order but for `space_used`, which `Vacant` reads of the other node.
  have hv₁ : Vacant Γ.P n₁ l₁ slot' l₂ (Node.stubSize Γ.P (key.length + value.length)) := by
    refine ⟨rfl, ⟨?_, hv.bounded.hi, hbytes ▸ hv.bounded.lt⟩, hv.used, hv.laid, ?_⟩
    · rw [hbytes]
      exact hv.bounded.lo
    · rw [hbytes]
      exact hv.room
  have hsize : ∀ run, Node.recordSize n₁.isLeaf { slot' with
      record := Entry.record Γ.P ⟨key, value, slot.isBucket, run⟩ } =
      Node.stubSize Γ.P (key.length + value.length) := fun run =>
    recordSize_eq (e := ⟨key, value, slot.isBucket, run⟩) rfl
      (fun hl => if_pos (show n.isLeaf = true from hl)) hbranch
  obtain ⟨s₁, hown, hrun⟩ := h.storeRecord_run hq hv.slots hadm
  by_cases hover : Node.maxInline Γ.P < key.length + value.length
  · have hstub : Node.stubSize Γ.P (key.length + value.length) = kOverflowRecordSize := if_pos hover
    rw [recordPages_of_overflow hover] at hown
    obtain ⟨run, s₂, hpages, h₂⟩ := hown.storeRecordToOverflowPages
    rw [Multiset.cons_swap] at h₂
    have hsize' := hsize run
    rw [show Entry.record Γ.P ⟨key, value, slot.isBucket, run⟩ = .overflow run from if_pos hover]
      at hsize'
    obtain ⟨s₃, offset, n', hplace, -, hn', hcheck, h₃⟩ :=
      placeRecord_uncounted (n := n₁) h₂ hq hv₁ hsize'
    refine ⟨s₃, run, offset, n.dataOffset - Node.stubSize Γ.P (key.length + value.length), n',
      ?_, ?_, hcheck, h₃.perm ?_⟩
    · rw [hrun, if_pos hover, Exec.bind_of_ok hpages, ← hstub, hplace]
    · unfold Node.filled
      rw [hn', show Entry.record Γ.P ⟨key, value, slot.isBucket, run⟩ =
        .overflow run from if_pos hover]
    · rw [recordsOf_cons_overflow Γ.P (e := ⟨key, value, slot.isBucket, run⟩) hover, recordsOf_nil,
        Multiset.cons_add, zero_add]
  · have hstub : Node.stubSize Γ.P (key.length + value.length) = key.length + value.length :=
      if_neg hover
    have hsize' := hsize 0
    rw [show Entry.record Γ.P ⟨key, value, slot.isBucket, 0⟩ = .inlined (key ++ value)
      from if_neg hover] at hsize'
    obtain ⟨s₂, offset, n', hplace, -, hn', hcheck, h₂⟩ :=
      placeRecord_uncounted (n := n₁) (hown.room_mono b (Nat.le_add_right _ _)) hq hv₁ hsize'
    refine ⟨s₂, 0, offset, n.dataOffset - Node.stubSize Γ.P (key.length + value.length), n',
      ?_, ?_, hcheck, h₂.perm ?_⟩
    · rw [hrun, if_neg hover, ← hstub, hplace]
    · unfold Node.filled
      rw [hn', show Entry.record Γ.P ⟨key, value, slot.isBucket, 0⟩ =
        .inlined (key ++ value) from if_neg hover]
    · rw [recordsOf_cons_inline Γ.P (e := ⟨key, value, slot.isBucket, 0⟩) hover,
        recordsOf_nil, zero_add]

/-- The empty record in the last slot of a page that is all slots. -/
theorem storeRecord_error {n : Node} {l₁ l₂ : List Slot} {slot : Slot}
    (h : Own Γ b r (.page q (.node n) ::ₘ O) s) (hq : ¬ Γ.keep q)
    (hslots : n.slots = l₁ ++ slot :: l₂) (hfull : Γ.P ≤ n.slotBytes) :
    Exec.Fails (Node.storeRecord Γ.env q l₁.length [] []) s := by
  have hadm : Admissible Γ.P [] [] := ⟨Nat.zero_le _, Nat.zero_le _, Nat.zero_le _⟩
  obtain ⟨s₁, h₁, hrun⟩ := h.storeRecord_run hq hslots hadm
  have hnot : ¬ Node.maxInline Γ.P < ([] : Bytes).length + ([] : Bytes).length := Nat.not_lt_zero _
  rw [if_neg hnot] at hrun
  cases hplace : Node.placeRecord Γ.env q l₁.length (([] : Bytes).length + ([] : Bytes).length)
    (.inlined []) s₁ with
  | mk result s₂ =>
    cases result with
    | error err => exact ⟨err, s₂, hrun.trans hplace⟩
    | ok u =>
      obtain ⟨n', offset, -, -, -, hslots', hcheck⟩ := h₁.placeRecord_counts hq rfl hplace
      have hbytes : n'.slotBytes = n.slotBytes := by
        simp [Node.slotBytes, Node.count, hslots, hslots']
      rw [Node.checkLayout_error (by rw [hbytes]; exact hfull)] at hcheck
      cases hcheck

end Own

end AtomKV
