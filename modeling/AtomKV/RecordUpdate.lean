import AtomKV.BranchWrite

/-!
# Taking a record out and putting another one in

`Update` takes the old record out of the header, asks for space for the new one, and puts the
old record back when there is none. The slot of an overflow stub keeps its length while the
record is out, so a compaction counts the stub that `space_used` does not count any more, and
its assertion fails.
-/

set_option autoImplicit false

namespace AtomKV

/-- What `DeleteRecord` leaves of a slot. -/
def Slot.cleared (isLeaf : Bool) (slot : Slot) : Slot :=
  match slot.record with
  | .overflow _ => slot
  | .inlined _ => if isLeaf then { slot with keySize := 0, word := 0 }
      else { slot with keySize := 0 }

/-- There is room below the records for one of `size` bytes. -/
def Node.RoomBelow (n : Node) (size : Nat) : Prop := (n.slotBytes : Int) + size ≤ n.dataOffset

instance (n : Node) (size : Nat) : Decidable (n.RoomBelow size) :=
  inferInstanceAs (Decidable (_ ≤ _))

instance (P : Nat) (n : Node) (key value : Bytes) : Decidable (n.FillsUp P key value) :=
  inferInstanceAs (Decidable (_ ∧ _))

/-- Whether the page is a node of which `q` holds. -/
instance decidableNodeAt (page : Page) (q : Node → Prop) [DecidablePred q] :
    Decidable (∃ n, page = .node n ∧ q n) :=
  match page with
  | .node n => decidable_of_iff (q n) ⟨fun h => ⟨n, rfl, h⟩, fun ⟨_, hn, h⟩ => Page.node.inj hn ▸ h⟩
  | .raw _ => .isFalse nofun

/-- Whether the record of the slot is in overflow pages, and `q` holds. -/
instance decidableOverflowAt (n : Node) (slotId : Nat) (q : Prop) [Decidable q] :
    Decidable (∃ slot run, n.slots[slotId]? = some slot ∧ slot.record = .overflow run ∧ q) :=
  match n.slots[slotId]? with
  | none => .isFalse nofun
  | some ⟨_, .inlined _, _, _, _⟩ => .isFalse fun ⟨_, _, hslot, hrun, _⟩ => by
      cases hslot; cases hrun
  | some ⟨_, .overflow run, _, _, _⟩ =>
      decidable_of_iff q ⟨fun h => ⟨_, run, rfl, rfl, h⟩, fun ⟨_, _, _, _, h⟩ => h⟩

/-- The slots of a node around the record `e`. -/
structure NodeRep.Around (P : Nat) (n : Node) (es₁ : List Entry) (e : Entry) (es₂ : List Entry)
    (l₁ : List Slot) (slot : Slot) (l₂ : List Slot) : Prop where
  slots : n.slots = l₁ ++ slot :: l₂
  length : l₁.length = es₁.length
  heads₁ : l₁.map Slot.head = es₁.map (Entry.head P)
  head : slot.head = e.head P
  heads₂ : l₂.map Slot.head = es₂.map (Entry.head P)

/-- The node without the record of one slot. -/
def Node.without (n : Node) (space : Nat) (l₁ : List Slot) (slot : Slot) (l₂ : List Slot) : Node :=
  { n with spaceUsed := space, slots := l₁ ++ slot.cleared n.isLeaf :: l₂ }

namespace NodeRep

variable {P : Nat} {v : NodeView} {n : Node} {es₁ es₂ : List Entry} {e : Entry}
  {l₁ l₂ : List Slot} {slot : Slot}

theorem around (h : NodeRep P v n) (hv : v.entries = es₁ ++ e :: es₂) :
    ∃ l₁ slot l₂, NodeRep.Around P n es₁ e es₂ l₁ slot l₂ := by
  obtain ⟨l₁, slot, l₂, hl, h1, h2, h3, hlen⟩ := h.split_cons hv
  exact ⟨l₁, slot, l₂, hl, hlen, h1, h2, h3⟩

namespace Around

variable (hs : NodeRep.Around P n es₁ e es₂ l₁ slot l₂)

include hs

theorem getElem? : n.slots[es₁.length]? = some slot := by
  rw [hs.slots, ← hs.length]
  simp

theorem record_eq : slot.record = e.record P := (Prod.mk.inj hs.head).1

theorem keySize_eq : slot.keySize = e.key.length := (Prod.mk.inj hs.head).2

theorem overflow (hover : Node.maxInline P < e.size) : slot.record = .overflow e.run :=
  hs.record_eq.trans (if_pos hover)

theorem inlined (hover : ¬ Node.maxInline P < e.size) : slot.record = .inlined (e.key ++ e.value) :=
  hs.record_eq.trans (if_neg hover)

theorem cleared_overflow (isLeaf : Bool) (hover : Node.maxInline P < e.size) :
    slot.cleared isLeaf = slot := by
  unfold Slot.cleared
  rw [hs.overflow hover]

theorem cleared_inlined (isLeaf : Bool) (hover : ¬ Node.maxInline P < e.size) :
    slot.cleared isLeaf = if isLeaf then { slot with keySize := 0, word := 0 }
      else { slot with keySize := 0 } := by
  unfold Slot.cleared
  rw [hs.inlined hover]

theorem set_eq (x y : Slot) : (l₁ ++ y :: l₂).set es₁.length x = l₁ ++ x :: l₂ := by
  rw [← hs.length, ListAt.set_length]

end Around

/-- The word of a slot is the value's size in a leaf. -/
theorem word_eq (h : NodeRep P v n) (hv : v.entries = es₁ ++ e :: es₂)
    (hs : NodeRep.Around P n es₁ e es₂ l₁ slot l₂) (hleaf : n.isLeaf = true) :
      slot.word = e.value.length := by
  have hk : v.kids = none := by
    rw [h.isLeaf_eq] at hleaf
    exact Option.isNone_iff_eq_none.1 hleaf
  have hpart := h.leafPart_of_entry (i := es₁.length) (e := e) hk (by rw [hv]; simp) hs.getElem?
  exact (Prod.mk.inj hpart).1

/-- The keys of a branch have no values. -/
theorem value_eq_nil (h : NodeRep P v n) (hleaf : n.isLeaf = false) :
    ∀ e ∈ v.entries, e.value = [] := by
  have hbody := h.body
  cases hv : v.kids with
  | none =>
    rw [h.isLeaf_eq, hv] at hleaf
    cases hleaf
  | some kids =>
    rw [hv] at hbody
    exact hbody.2.1

theorem slot_size (h : NodeRep P v n) (hv : v.entries = es₁ ++ e :: es₂)
    (hs : NodeRep.Around P n es₁ e es₂ l₁ slot l₂) : Node.recordSize n.isLeaf slot = e.stub P :=
  recordSize_eq hs.head (h.word_eq hv hs) fun hl =>
    h.value_eq_nil hl e (by rw [hv]; exact List.mem_append_right _ List.mem_cons_self)

/-- `space_used` without the record. -/
theorem rest_space (h : NodeRep P v n) (hv : v.entries = es₁ ++ e :: es₂)
    (hs : NodeRep.Around P n es₁ e es₂ l₁ slot l₂) :
    Node.slotsSpace n.isLeaf (l₁ ++ l₂) = entriesSpace P (es₁ ++ es₂) := by
  have hused := h.sized.used
  rw [h.spaceUsed_eq, hv, hs.slots, Node.slotsSpace_append, Node.slotsSpace_cons, h.slot_size hv hs,
    entriesSpace_append, entriesSpace_cons] at hused
  rw [Node.slotsSpace_append, entriesSpace_append]
  omega

theorem space_split (h : NodeRep P v n) (hv : v.entries = es₁ ++ e :: es₂) :
    n.spaceUsed = entriesSpace P (es₁ ++ es₂) + e.stub P := by
  rw [h.spaceUsed_eq, hv, entriesSpace_append, entriesSpace_append, entriesSpace_cons]
  omega

/-- The record's size is a number of 16 bits. -/
theorem space_lt (h : NodeRep P v n) (hP : PageRange P) : n.spaceUsed < 32768 := by
  have := h.sized.lo
  have := h.sized.hi
  have := hP.lt_max
  omega

/-- `DeleteRecord` takes the record out of the header. -/
theorem deleteRecord_eq (hP : PageRange P) (h : NodeRep P v n) (hv : v.entries = es₁ ++ e :: es₂)
    (hs : NodeRep.Around P n es₁ e es₂ l₁ slot l₂) :
    n.deleteRecord es₁.length slot = n.without (entriesSpace P (es₁ ++ es₂)) l₁ slot l₂ := by
  have hsplit := h.space_split hv
  have hlt := h.space_lt hP
  have hkey := hs.keySize_eq
  unfold Node.deleteRecord Node.without
  by_cases hover : Node.maxInline P < e.size
  · have hstub : e.stub P = 4 := if_pos hover
    have hu : u16 ((n.spaceUsed : Int) - kOverflowRecordSize) = entriesSpace P (es₁ ++ es₂) := by
      unfold u16 kOverflowRecordSize
      omega
    simp only [hs.overflow hover, hu, hs.cleared_overflow n.isLeaf hover, ← hs.slots]
  · have hstub : e.stub P = e.key.length + e.value.length := if_neg hover
    simp only [hs.inlined hover, hs.cleared_inlined n.isLeaf hover, hs.slots, hs.set_eq]
    by_cases hleaf : n.isLeaf = true
    · have hword := h.word_eq hv hs hleaf
      have hu : u16 ((u16 ((n.spaceUsed : Int) - slot.keySize) : Int) - slot.word) =
          entriesSpace P (es₁ ++ es₂) := by
        rw [hkey, hword]
        unfold u16
        omega
      simp only [hleaf, if_true, hu]
    · have hleaf' : n.isLeaf = false := by simpa using hleaf
      have hvalue :=
        h.value_eq_nil hleaf' e (by rw [hv]; exact List.mem_append_right _ List.mem_cons_self)
      have hu : u16 ((n.spaceUsed : Int) - slot.keySize) = entriesSpace P (es₁ ++ es₂) := by
        rw [hkey]
        rw [hvalue, List.length_nil] at hstub
        unfold u16
        omega
      simp only [hleaf', Bool.false_eq_true, if_false, hu]

/-- `RestoreRecord` puts it back. -/
theorem restoreRecord_eq (hP : PageRange P) (h : NodeRep P v n) (hv : v.entries = es₁ ++ e :: es₂)
    (hs : NodeRep.Around P n es₁ e es₂ l₁ slot l₂) :
    (n.without (entriesSpace P (es₁ ++ es₂)) l₁ slot l₂).restoreRecord es₁.length
      (slot.cleared n.isLeaf) slot = n := by
  have hsplit := h.space_split hv
  have hlt := h.space_lt hP
  have hkey := hs.keySize_eq
  have hleaf₁ : (n.without (entriesSpace P (es₁ ++ es₂)) l₁ slot l₂).isLeaf = n.isLeaf := rfl
  unfold Node.restoreRecord
  rw [hleaf₁]
  unfold Node.without
  -- What `DeleteRecord` subtracted is added again: the stub of a run, or the sizes in the page.
  by_cases hover : Node.maxInline P < e.size
  · have hstub : e.stub P = 4 := if_pos hover
    have hu : u16 ((entriesSpace P (es₁ ++ es₂) : Int) + kOverflowRecordSize) = n.spaceUsed := by
      unfold u16 kOverflowRecordSize
      omega
    simp only [hs.overflow hover, hu, hs.cleared_overflow n.isLeaf hover, ← hs.slots]
  · have hstub : e.stub P = e.key.length + e.value.length := if_neg hover
    simp only [hs.inlined hover, hs.cleared_inlined n.isLeaf hover, hs.set_eq]
    -- In a leaf the key and the value are counted one after the other; a branch has no value.
    by_cases hleaf : n.isLeaf = true
    · have hword := h.word_eq hv hs hleaf
      have hu : u16 ((u16 ((entriesSpace P (es₁ ++ es₂) : Int) + slot.keySize) : Int) + slot.word) =
          n.spaceUsed := by
        rw [hkey, hword]
        unfold u16
        omega
      simp only [hleaf, if_true, hu]
      rw [← hs.inlined hover]
      exact (congrArg (fun l => { n with slots := l }) hs.slots).symm
    · have hleaf' : n.isLeaf = false := by simpa using hleaf
      have hvalue :=
        h.value_eq_nil hleaf' e (by rw [hv]; exact List.mem_append_right _ List.mem_cons_self)
      have hu : u16 ((entriesSpace P (es₁ ++ es₂) : Int) + slot.keySize) = n.spaceUsed := by
        rw [hkey]
        rw [hvalue, List.length_nil] at hstub
        unfold u16
        omega
      simp only [hleaf', Bool.false_eq_true, if_false, hu]
      rw [← hs.inlined hover]
      exact (congrArg (fun l => { n with slots := l }) hs.slots).symm

/-! ## The request -/

theorem without_bounded (h : NodeRep P v n) (hv : v.entries = es₁ ++ e :: es₂)
    (hs : NodeRep.Around P n es₁ e es₂ l₁ slot l₂) :
    Node.Bounded P (n.without (entriesSpace P (es₁ ++ es₂)) l₁ slot l₂) := by
  have hsplit := h.space_split hv
  have hlo := h.sized.lo
  have hhi := h.sized.hi
  have hlt := h.sized.lt
  simp only [Node.slotBytes, Node.count, hs.slots, List.length_append, List.length_cons] at hlo hlt
  refine ⟨?_, ?_, ?_⟩
  · simp only [Node.without, Node.slotBytes, Node.count, List.length_append, List.length_cons]
    exact hlo
  · show n.dataOffset + (entriesSpace P (es₁ ++ es₂) : Nat) ≤ P
    omega
  · simp only [Node.without, Node.slotBytes, Node.count, List.length_append, List.length_cons]
    exact hlt

theorem without_slotBytes (hs : NodeRep.Around P n es₁ e es₂ l₁ slot l₂) (space : Nat) :
    (n.without space l₁ slot l₂).slotBytes = n.slotBytes := by
  simp [Node.without, Node.slotBytes, Node.count, hs.slots]

theorem cleared_size (hs : NodeRep.Around P n es₁ e es₂ l₁ slot l₂) (isLeaf : Bool) :
    Node.recordSize isLeaf (slot.cleared isLeaf) = if Node.maxInline P < e.size then 4 else 0 := by
  by_cases hover : Node.maxInline P < e.size
  · rw [hs.cleared_overflow isLeaf hover, if_pos hover]
    unfold Node.recordSize
    rw [hs.overflow hover]
    rfl
  · rw [hs.cleared_inlined isLeaf hover, if_neg hover]
    unfold Node.recordSize
    cases isLeaf <;> simp [hs.inlined hover]

/-- A node that lacks a record, with its slots around the vacant one: what is left of the node
it came from. -/
structure Vacated (P : Nat) (n : Node) (l₁ : List Slot) (slot : Slot) (l₂ : List Slot) (need : Nat)
    (n₂ : Node) (m₁ : List Slot) (slot' : Slot) (m₂ : List Slot) : Prop where
  type : n₂.type = n.type
  txid : n₂.lastModifiedTxid = n.lastModifiedTxid
  tailChild : n₂.tailChild = n.tailChild
  bare₁ : (m₁.map fun slot => { slot with recordOffset := 0 }) = l₁.map fun slot =>
    { slot with recordOffset := 0 }
  bare : { slot' with recordOffset := 0 } = { slot.cleared n.isLeaf with recordOffset := 0 }
  bare₂ : (m₂.map fun slot => { slot with recordOffset := 0 }) = l₂.map fun slot =>
    { slot with recordOffset := 0 }
  vacant : Own.Vacant P n₂ m₁ slot' m₂ need

/-- **The request of an update, by cases.** It is granted when there is room below the records; it
is granted after a compaction when the old record is in the page; the compaction fails when the old
record is in overflow pages; and it is refused when the node has no room for the new record in place
of the old one. -/
theorem request_cases (hP : PageRange P) (h : NodeRep P v n) (hv : v.entries = es₁ ++ e :: es₂)
    (hs : NodeRep.Around P n es₁ e es₂ l₁ slot l₂) (key value : Bytes) :
    ((n.RoomBelow (recordStub P key value) ∨ ¬ Node.maxInline P < e.size) →
      Fits P (es₁ ++ es₂) key value → ∃ n₂ m₁ slot' m₂,
        (n.without (entriesSpace P (es₁ ++ es₂)) l₁ slot l₂).requestSpaceFor P key.length
          value.length false = .ok (true, n₂) ∧
        Vacated P n l₁ slot l₂ (Node.stubSize P (key.length + value.length)) n₂ m₁ slot' m₂) ∧
    (¬ n.RoomBelow (recordStub P key value) → Node.maxInline P < e.size →
      Fits P (es₁ ++ es₂) key value →
      (n.without (entriesSpace P (es₁ ++ es₂)) l₁ slot l₂).requestSpaceFor P
        key.length value.length false = .error .assertion) ∧
    (¬ Fits P (es₁ ++ es₂) key value →
      (n.without (entriesSpace P (es₁ ++ es₂)) l₁ slot l₂).requestSpaceFor P key.length value.length
        false = .ok (false, n.without (entriesSpace P (es₁ ++ es₂)) l₁ slot l₂)) := by
  have hbounded := h.without_bounded hv hs
  have hbytes := without_slotBytes hs (entriesSpace P (es₁ ++ es₂))
  have hrequest := Node.requestSpaceFor_eq hP hbounded key.length value.length false
  have hneed : Node.spaceNeeded (Node.stubSize P (key.length + value.length)) false =
    recordStub P key value := rfl
  have hrest := h.rest_space hv hs
  have hlaid := h.sized.laid
  have hlo := h.sized.lo
  have hhi := h.sized.hi
  have hlt := h.sized.lt
  have hmin := hP.min
  have hsplit := h.space_split hv
  have hcount := h.slotBytes_eq
  rw [hv, List.length_append, List.length_cons] at hcount
  set n₁ := n.without (entriesSpace P (es₁ ++ es₂)) l₁ slot l₂ with hn₁
  have hoffset : n₁.dataOffset = n.dataOffset := rfl
  have hspace₁ : n₁.spaceUsed = entriesSpace P (es₁ ++ es₂) := rfl
  have hleaf₁ : n₁.isLeaf = n.isLeaf := rfl
  have hslots₁ : n₁.slots = l₁ ++ slot.cleared n.isLeaf :: l₂ := rfl
  have hfits : Fits P (es₁ ++ es₂) key value ↔
      n.slotBytes + entriesSpace P (es₁ ++ es₂) + recordStub P key value ≤ P := by
    unfold Fits fill
    rw [List.length_append]
    omega
  have hsum : Node.slotsSpace n₁.isLeaf n₁.slots =
      entriesSpace P (es₁ ++ es₂) + if Node.maxInline P < e.size then 4 else 0 := by
    rw [Node.slotsSpace_append] at hrest
    rw [hleaf₁, hslots₁, Node.slotsSpace_append, Node.slotsSpace_cons, cleared_size hs]
    omega
  rw [hneed, hbytes, hoffset, hspace₁] at hrequest
  rw [hs.slots, Node.spans_append, Node.spans_cons] at hlaid
  have hlaid₁ : Spans.Laid P n₁.dataOffset (Node.spans n₁.isLeaf (l₁ ++ l₂)) := by
    rw [Node.spans_append]
    exact hlaid.sublist ((List.Sublist.refl _).append (List.sublist_cons_self _ _))
  by_cases hroom : n.RoomBelow (recordStub P key value)
  · -- there is room below the records
    have hfit : Fits P (es₁ ++ es₂) key value := by
      unfold Node.RoomBelow at hroom
      rw [hfits]
      omega
    have hfree : recordStub P key value ≤ (n.dataOffset - n.slotBytes).toNat := by
      unfold Node.RoomBelow at hroom
      omega
    rw [if_pos hfree] at hrequest
    refine ⟨fun _ _ => ⟨n₁, l₁, slot.cleared n.isLeaf, l₂, hrequest,
      ⟨rfl, rfl, rfl, rfl, rfl, rfl, rfl, hbounded, ?_,
      hlaid₁, ?_⟩⟩, fun hnot => absurd hroom hnot, fun hnot => absurd hfit hnot⟩
    · rw [hspace₁, hleaf₁, hrest]
    · rw [hbytes]
      exact hroom
  have hfree : ¬ recordStub P key value ≤ (n.dataOffset - n.slotBytes).toNat := by
    unfold Node.RoomBelow at hroom
    omega
  rw [if_neg hfree] at hrequest
  by_cases hfit : Fits P (es₁ ++ es₂) key value
  · rw [if_pos (by rw [hfits] at hfit; omega)] at hrequest
    refine ⟨fun hin _ => ?_, fun _ hover _ => ?_, fun hnot => absurd hfit hnot⟩
    · -- the records move together, the empty one among them
      have hover : ¬ Node.maxInline P < e.size := hin.resolve_left hroom
      rw [if_neg hover] at hsum
      obtain ⟨n₂, hcompact, hcore, hoffset₂, hlaid₂⟩ :=
        Node.compactify_ok hP hbounded (by rw [hsum, hspace₁]; omega)
      obtain ⟨e1, e2, e3, e4⟩ := Node.eq_of_core hcore
      have hbytes₂ : n₂.slotBytes = n.slotBytes := by
        rw [← hbytes]
        simp only [Node.slotBytes, e3]
      have hcoreSlots : (n₂.slots.map fun slot => { slot with recordOffset := 0 }) =
          n₁.slots.map fun slot => { slot with recordOffset := 0 } := congrArg Node.slots hcore
      rw [hslots₁, List.map_append] at hcoreSlots
      obtain ⟨m₁, l, hm, hm₁, hl, -⟩ := ListAt.exists_split_of_map hcoreSlots
      obtain ⟨slot', m₂, rfl, hslot', hm₂⟩ := List.map_eq_cons_iff.1 hl
      rw [hm, Node.spans_append, Node.spans_cons] at hlaid₂
      rw [hcompact] at hrequest
      refine ⟨n₂, m₁, slot', m₂, hrequest,
        ⟨?_, ?_, ?_, hm₁, hslot', hm₂, hm, ⟨?_, ?_, ?_⟩, ?_, ?_, ?_⟩⟩
      · have : n₂.core.type = n₁.core.type := by rw [hcore]
        exact this
      · have : n₂.core.lastModifiedTxid = n₁.core.lastModifiedTxid := by rw [hcore]
        exact this
      · have : n₂.core.tailChild = n₁.core.tailChild := by rw [hcore]
        exact this
      · omega
      · omega
      · omega
      · have hsizes : (m₁ ++ m₂).map (Node.recordSize n₂.isLeaf) =
            (l₁ ++ l₂).map (Node.recordSize n₂.isLeaf) := by
          rw [List.map_append, List.map_append, map_eq_of_bare (fun _ => rfl) hm₁,
            map_eq_of_bare (fun _ => rfl) hm₂]
        unfold Node.slotsSpace at hrest ⊢
        rw [hsizes, e1, e2, hleaf₁, hrest]
        rfl
      · rw [Node.spans_append]
        exact hlaid₂.sublist ((List.Sublist.refl _).append (List.sublist_cons_self _ _))
      · rw [hbytes₂, hoffset₂]
        show (n.slotBytes : Int) + recordStub P key value ≤ _
        rw [hfits] at hfit
        omega
    · -- the compaction counts the stub that was taken out
      rw [if_pos hover] at hsum
      have hcompact := Node.compactify_error (n := n₁) hP (by
        have hstub : e.stub P = 4 := if_pos hover
        omega) (by omega)
      rw [hrequest, hcompact]
      rfl
  · rw [if_neg (by rw [hfits] at hfit; omega)] at hrequest
    exact ⟨fun _ hyes => absurd hyes hfit, fun _ _ hyes => absurd hyes hfit, fun _ => hrequest⟩

/-- The numbers of a node without a record. -/
theorem ledger_without (n : Node) (space : Nat) (l₁ : List Slot) (slot : Slot) (l₂ : List Slot) :
    (n.without space l₁ slot l₂).ledger = ⟨n.dataOffset, space, l₁.map (Node.cell n.isLeaf) ++
      Node.cell n.isLeaf (slot.cleared n.isLeaf) :: l₂.map (Node.cell n.isLeaf)⟩ := by
  unfold Node.ledger
  show (⟨_, _, (l₁ ++ slot.cleared n.isLeaf :: l₂).map (Node.cell n.isLeaf)⟩ : Ledger) = _
  rw [List.map_append, List.map_cons]
  rfl

/-- The ledger without the record. -/
theorem vacate_ledger (h : NodeRep P v n) (hv : v.entries = es₁ ++ e :: es₂)
    (hs : NodeRep.Around P n es₁ e es₂ l₁ slot l₂) : n.ledger.vacate es₁.length =
      ⟨n.dataOffset, entriesSpace P (es₁ ++ es₂), l₁.map (Node.cell n.isLeaf) ++
      ⟨slot.recordOffset, 0, 0⟩ :: l₂.map (Node.cell n.isLeaf)⟩ := by
  have hsplit := h.space_split hv
  have hsize := h.slot_size hv hs
  have hlen : (l₁.map (Node.cell n.isLeaf)).length = es₁.length :=
    (List.length_map _).trans hs.length
  have hused : (n.spaceUsed : Int) - (Node.cell n.isLeaf slot).size =
      entriesSpace P (es₁ ++ es₂) := by
    show (n.spaceUsed : Int) - Node.recordSize n.isLeaf slot = _
    omega
  rw [Node.ledger_of_slots hs.slots, List.map_append, List.map_cons, ← hlen,
    Ledger.vacate_length, hused]
  rfl

/-- `DeleteRecord` clears the numbers of a record in the page. -/
theorem cell_cleared (hs : NodeRep.Around P n es₁ e es₂ l₁ slot l₂) (isLeaf : Bool)
    (hover : ¬ Node.maxInline P < e.size) : Node.cell isLeaf (slot.cleared isLeaf) =
      ⟨slot.recordOffset, 0, 0⟩ := by
  have hzero := cleared_size hs isLeaf
  rw [if_neg hover] at hzero
  unfold Node.cell
  rw [hzero, hs.cleared_inlined isLeaf hover]
  cases isLeaf <;> rfl

/-- **The request of an update in the ledger.** What is placed in the slot does not depend on what
the slot held. -/
theorem update_ledger (hP : PageRange P) (h : NodeRep P v n) (hv : v.entries = es₁ ++ e :: es₂)
    (hs : NodeRep.Around P n es₁ e es₂ l₁ slot l₂) {n₂ : Node} {key value : Bytes}
    (hin : n.RoomBelow (recordStub P key value) ∨ ¬ Node.maxInline P < e.size)
    (hreq : (n.without (entriesSpace P (es₁ ++ es₂)) l₁ slot l₂).requestSpaceFor P key.length
      value.length false = .ok (true, n₂)) :
    n₂.ledger.place es₁.length (recordStub P key value) key.length =
      n.ledger.update P es₁.length (recordStub P key value) key.length := by
  have hsplit := h.space_split hv
  have hle := h.slotsSpace_le
  have hbounded := h.without_bounded hv hs
  have hbytes := without_slotBytes hs (entriesSpace P (es₁ ++ es₂))
  have hused := h.sized.used
  have hspace : Node.slotsSpace (n.without (entriesSpace P (es₁ ++ es₂)) l₁ slot l₂).isLeaf
      (n.without (entriesSpace P (es₁ ++ es₂)) l₁ slot l₂).slots ≤ P := by
    have hsize := h.slot_size hv hs
    have hcleared := cleared_size hs n.isLeaf
    have hstub : (if Node.maxInline P < e.size then 4 else 0) ≤ e.stub P := by
      unfold Entry.stub Node.stubSize kOverflowRecordSize
      split <;> omega
    show Node.slotsSpace n.isLeaf (l₁ ++ slot.cleared n.isLeaf :: l₂) ≤ P
    rw [hs.slots, Node.slotsSpace_append, Node.slotsSpace_cons] at hle
    rw [Node.slotsSpace_append, Node.slotsSpace_cons]
    omega
  have hrequest := Node.requestSpaceFor_ledger hP hbounded hspace hreq
  have hwithout := ledger_without n (entriesSpace P (es₁ ++ es₂)) l₁ slot l₂
  have hvacate := h.vacate_ledger hv hs
  have hlen : (l₁.map (Node.cell n.isLeaf)).length = es₁.length :=
    (List.length_map _).trans hs.length
  unfold Ledger.update
  by_cases hover : Node.maxInline P < e.size
  · -- no compaction: the numbers of the old stub are overwritten
    have hroom := hin.resolve_right fun hnot => hnot hover
    have hfree : ((recordStub P key value : Nat) : Int) ≤
        (n.without (entriesSpace P (es₁ ++ es₂)) l₁ slot l₂).ledger.freeSpace := by
      rw [Node.ledger_freeSpace, hbytes]
      unfold Node.RoomBelow at hroom
      show _ ≤ n.dataOffset - n.slotBytes
      omega
    have hfree' : ((recordStub P key value : Nat) : Int) ≤
        (n.ledger.vacate es₁.length).freeSpace := by
      rw [hwithout] at hfree
      rw [hvacate]
      unfold Ledger.freeSpace Ledger.slotSpace at hfree ⊢
      simpa using hfree
    have hsame : Node.spaceNeeded (Node.stubSize P (key.length + value.length)) false =
      recordStub P key value := rfl
    rw [hrequest, hsame]
    unfold Ledger.request
    rw [if_pos hfree, if_pos hfree', hwithout, hvacate, ← hlen, Ledger.place_length,
      Ledger.place_length]
  · rw [hrequest, hvacate, hwithout, cell_cleared hs n.isLeaf hover]
    rfl

end NodeRep

/-- Writing a node back over another. -/
theorem Pager.setNode_back {q : Nat} {n n₁ : Node} {s s₁ : TxState} (hn : s.pager.pages q = .node n)
    (hset : Pager.setNode q n₁ s = (.ok (), s₁)) : Pager.setNode q n s₁ = (.ok (), s) := by
  obtain rfl : _ = s₁ := (Prod.mk.inj hset).2
  have hpages : Function.update (Function.update s.pager.pages q (.node n₁)) q (.node n) =
      s.pager.pages := by
    rw [Function.update_idem, ← hn, Function.update_eq_self]
  show ((.ok (), { s with pager := { s.pager with
    pages := Function.update (Function.update s.pager.pages q (.node n₁)) q (.node n) } }) :
      Except Err Unit × TxState) = _
  rw [hpages]

end AtomKV
