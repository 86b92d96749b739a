import AtomKV.Ownership

/-!
# Reading nodes

What the reading functions of `node.cpp` return on a node that says `v`: each answers from the
records and children of `v`, and leaves the state alone.
-/

set_option autoImplicit false

namespace AtomKV

/-- The space the records take in their node. -/
def entriesSpace (P : Nat) (es : List Entry) : Nat := (es.map (Entry.stub P)).sum

/-- The space that records and slots take in their node. -/
def fill (P : Nat) (es : List Entry) : Nat := 8 * es.length + entriesSpace P es

section Fill

variable (P : Nat)

@[simp] theorem entriesSpace_nil : entriesSpace P [] = 0 := rfl

@[simp] theorem entriesSpace_cons (e : Entry) (es : List Entry) :
    entriesSpace P (e :: es) = e.stub P + entriesSpace P es := by
  simp [entriesSpace]

@[simp] theorem entriesSpace_append (es es' : List Entry) :
    entriesSpace P (es ++ es') = entriesSpace P es + entriesSpace P es' := by
  simp [entriesSpace]

@[simp] theorem fill_nil : fill P [] = 0 := rfl

@[simp] theorem fill_cons (e : Entry) (es : List Entry) :
    fill P (e :: es) = 8 + e.stub P + fill P es := by
  simp only [fill, List.length_cons, entriesSpace_cons]
  omega

@[simp] theorem fill_append (es es' : List Entry) :
    fill P (es ++ es') = fill P es + fill P es' := by
  simp only [fill, List.length_append, entriesSpace_append]
  omega

end Fill

theorem recordSize_eq {P : Nat} {isLeaf : Bool} {slot : Slot} {e : Entry}
    (hhead : slot.head = e.head P) (hleaf : isLeaf = true → slot.word = e.value.length)
    (hbranch : isLeaf = false → e.value = []) : Node.recordSize isLeaf slot = e.stub P := by
  obtain ⟨hrecord, hkey⟩ := Prod.mk.inj hhead
  unfold Node.recordSize Entry.stub Node.stubSize
  rw [hrecord, Entry.record]
  by_cases hover : Node.maxInline P < e.size
  · simp only [if_pos hover]
  · simp only [if_neg hover]
    cases isLeaf with
    | true => simp only [if_true, hkey, hleaf rfl, Entry.size]
    | false => simp [hkey, hbranch rfl, Entry.size]

theorem slotsSpace_eq {P : Nat} {isLeaf : Bool} {slots : List Slot} {es : List Entry}
    (hheads : slots.map Slot.head = es.map (Entry.head P))
    (hleaf : isLeaf = true → slots.map Slot.word = es.map fun e => e.value.length)
    (hbranch : isLeaf = false → ∀ e ∈ es, e.value = []) :
    Node.slotsSpace isLeaf slots = entriesSpace P es := by
  induction slots generalizing es with
  | nil =>
    obtain rfl : es = [] := by simpa using hheads.symm
    rfl
  | cons slot slots ih =>
    cases es with
    | nil => simp at hheads
    | cons e es =>
      rw [List.map_cons, List.map_cons] at hheads
      obtain ⟨h1, h2⟩ := List.cons.inj hheads
      rw [Node.slotsSpace_cons, entriesSpace_cons]
      congr 1
      · refine recordSize_eq h1 (fun h => ?_) fun h => hbranch h e List.mem_cons_self
        exact (List.cons.inj (hleaf h)).1
      · refine ih h2 (fun h => ?_) fun h e he => hbranch h e (List.mem_cons_of_mem _ he)
        exact (List.cons.inj (hleaf h)).2

namespace NodeRep

variable {P : Nat} {v : NodeView} {n : Node}

theorem count_eq (h : NodeRep P v n) : n.count = v.entries.length := by
  have := congrArg List.length h.heads
  simpa [Node.count] using this

theorem words (h : NodeRep P v n) (hv : v.kids = none) :
    n.slots.map Slot.word = v.entries.map fun e => e.value.length := by
  have hbody := h.body
  rw [hv] at hbody
  have := congrArg (List.map Prod.fst) hbody.2
  simpa [List.map_map, Function.comp_def, Slot.leafPart, Entry.leafPart] using this

theorem isLeaf_eq (h : NodeRep P v n) : n.isLeaf = v.kids.isNone := by
  have hbody := h.body
  cases hv : v.kids with
  | none =>
    rw [hv] at hbody
    simp [Node.isLeaf, hbody.1]
  | some kids =>
    rw [hv] at hbody
    simp [Node.isLeaf, hbody.1]

theorem isBranch_eq (h : NodeRep P v n) : n.isBranch = v.kids.isSome := by
  have hbody := h.body
  cases hv : v.kids with
  | none =>
    rw [hv] at hbody
    simp [Node.isBranch, hbody.1]
  | some kids =>
    rw [hv] at hbody
    simp [Node.isBranch, hbody.1]

theorem spaceUsed_eq (h : NodeRep P v n) : n.spaceUsed = entriesSpace P v.entries := by
  rw [h.sized.used]
  refine slotsSpace_eq h.heads (fun hl => h.words ?_) fun hl => ?_
  · rw [h.isLeaf_eq] at hl
    exact Option.isNone_iff_eq_none.1 hl
  · have hbody := h.body
    rw [h.isLeaf_eq] at hl
    cases hv : v.kids with
    | none => simp [hv] at hl
    | some kids =>
      rw [hv] at hbody
      exact hbody.2.1

theorem fill_eq (h : NodeRep P v n) : 8 * n.count + n.spaceUsed = fill P v.entries := by
  rw [h.count_eq, h.spaceUsed_eq]
  rfl

theorem slotBytes_eq (h : NodeRep P v n) : n.slotBytes = 18 + 8 * v.entries.length := by
  rw [Node.slotBytes, h.count_eq]

/-- The records of a node fit into its page. -/
theorem fill_le (h : NodeRep P v n) (hP : PageRange P) : fill P v.entries ≤ P - 18 := by
  have h1 := h.sized.lo
  have h2 := h.sized.hi
  have h3 := h.fill_eq
  have h4 := hP.min
  unfold Node.slotBytes at h1
  omega

/-- The slot of a record. -/
theorem slot_of_entry (h : NodeRep P v n) {i : Nat} {e : Entry} (he : v.entries[i]? = some e) :
    ∃ slot, n.slots[i]? = some slot ∧ slot.head = e.head P := by
  have hi : (n.slots.map Slot.head)[i]? = some (e.head P) := by
    rw [h.heads, List.getElem?_map, he]
    rfl
  rw [List.getElem?_map] at hi
  obtain ⟨slot, hslot, hhead⟩ := Option.map_eq_some_iff.1 hi
  exact ⟨slot, hslot, hhead⟩

theorem leafPart_of_entry (h : NodeRep P v n) (hv : v.kids = none) {i : Nat} {e : Entry}
    {slot : Slot} (he : v.entries[i]? = some e) (hslot : n.slots[i]? = some slot) :
      slot.leafPart = e.leafPart := by
  have hbody := h.body
  rw [hv] at hbody
  have hi : (n.slots.map Slot.leafPart)[i]? = some e.leafPart := by
    rw [hbody.2, List.getElem?_map, he]
    rfl
  rw [List.getElem?_map, hslot] at hi
  exact Option.some.inj hi

end NodeRep

/-! ## Reading changes nothing -/

namespace Reads

open Exec

theorem getNode (pgid : Nat) : ReadOnly (Pager.getNode pgid) := by
  unfold Pager.getNode assert
  refine ReadOnly.require.bind fun _ => ReadOnly.require.bind fun _ =>
    ReadOnly.read.bind fun s => ?_
  cases s.pager.pages pgid with
  | node n => exact ReadOnly.pure
  | raw bytes => exact ReadOnly.raise

theorem getSlot (n : Node) (slotId : Nat) : ReadOnly (n.getSlot slotId) := by
  unfold Node.getSlot
  cases n.slots[slotId]? with
  | none => exact ReadOnly.raise
  | some slot => exact ReadOnly.pure

theorem getKey (env : Env) (pgid slotId : Nat) : ReadOnly (Node.getKey env pgid slotId) := by
  unfold Node.getKey
  refine (getNode pgid).bind fun n => (getSlot n slotId).bind fun slot => ?_
  exact ReadOnly.read.bind fun s => ReadOnly.pure

theorem getValue (env : Env) (pgid slotId : Nat) :
    ReadOnly (LeafNode.getValue env pgid slotId) := by
  unfold LeafNode.getValue
  refine (getNode pgid).bind fun n => (getSlot n slotId).bind fun slot => ?_
  exact ReadOnly.read.bind fun s => ReadOnly.pure

theorem isBucket (pgid slotId : Nat) : ReadOnly (LeafNode.isBucket pgid slotId) := by
  unfold LeafNode.isBucket
  exact (getNode pgid).bind fun n => (getSlot n slotId).bind fun slot => ReadOnly.pure

theorem countOf (pgid : Nat) : ReadOnly (Node.countOf pgid) := by
  unfold Node.countOf
  exact (getNode pgid).bind fun n => ReadOnly.pure

end Reads

/-! ## Nodes in their pages -/

/-- The page `q` holds a node that says `v`, and the overflow pages of its records hold theirs. -/
structure NodeAt (P : Nat) (s : TxState) (q : Nat) (v : NodeView) : Prop where
  lt : q < kPageMaxCount
  node : ∃ n, s.pager.pages q = .node n ∧ NodeRep P v n ∧ ∀ e ∈ v.entries, e.Stored P s.pager

/-- The nodes among the objects are in their pages. This is all that reading relies on; who else
uses the pages does not matter. -/
structure Resident (env : Env) (O : Multiset Obj) (s : TxState) : Prop where
  pageSize_pos : 0 < env.pageSize
  nodeAt : ∀ q v, Obj.node q v ∈ O → NodeAt env.pageSize s q v

/-- Nodes in their pages, under a comparator that can search them. -/
structure Readable (env : Env) (O : Multiset Obj) (s : TxState) :
    Prop extends Resident env O s where
  ok : env.Ok

theorem getSlot_of_getElem? {n : Node} {i : Nat} {slot : Slot} (h : n.slots[i]? = some slot) :
    n.getSlot i = pure slot := by
  unfold Node.getSlot
  rw [h]

/-- The bytes at the start of a run. -/
theorem take_readBytes {P : Nat} (hP : 0 < P) {pager : Pager} {q m n : Nat} (hmn : m ≤ n) :
    (Pager.readBytes P pager q n).take m = Pager.readBytes P pager q m := by
  refine List.ext_getElem? fun j => ?_
  rw [List.getElem?_take, Pager.getElem?_readBytes hP, Pager.getElem?_readBytes hP]
  split_ifs <;> first | rfl | omega

theorem slotKey_eq {P : Nat} (hP : 0 < P) {pager : Pager} {slot : Slot} {e : Entry}
    (hhead : slot.head = e.head P) (hstored : e.Stored P pager) :
      Node.slotKey P pager slot = e.key := by
  obtain ⟨hrecord, hkey⟩ := Prod.mk.inj hhead
  unfold Node.slotKey
  rw [hrecord, hkey, Entry.record]
  by_cases hover : Node.maxInline P < e.size
  · simp only [if_pos hover]
    rw [← take_readBytes hP (n := e.size) (Nat.le_add_right _ _), hstored hover, List.take_left]
  · simp only [if_neg hover, List.take_left]

theorem slotValue_eq {P : Nat} {pager : Pager} {slot : Slot} {e : Entry}
    (hhead : slot.head = e.head P) (hword : slot.word = e.value.length)
    (hstored : e.Stored P pager) : Node.slotValue P pager slot = e.value := by
  obtain ⟨hrecord, hkey⟩ := Prod.mk.inj hhead
  unfold Node.slotValue
  rw [hrecord, hkey, hword, Entry.record]
  by_cases hover : Node.maxInline P < e.size
  · have := hstored hover
    rw [Entry.size] at this
    simp only [if_pos hover, this, List.drop_left]
  · simp only [if_neg hover, List.drop_left, List.take_length]

theorem kids_length {P t : Nat} {es : List Entry} {kids : List Nat} {n : Node}
    (h : NodeRep P (.branch t es kids) n) : kids.length = es.length + 1 := by
  have hcount := h.count_eq
  rw [← h.body.2.2]
  simpa [Node.count] using hcount

/-! ## Reading a slot -/

section Slots

variable {env : Env} {s : TxState} {q : Nat} {n : Node} {es : List Entry}
  {kids : List Nat} {i : Nat}

theorem getKey_of_heads (hP : 0 < env.pageSize) (hget : Pager.getNode q s = (.ok n, s))
    (hheads : n.slots.map Slot.head = es.map (Entry.head env.pageSize))
    (hstored : ∀ e ∈ es, e.Stored env.pageSize s.pager)
    {e : Entry} (he : es[i]? = some e) : Node.getKey env q i s = (.ok e.key, s) := by
  have hmap : (n.slots.map Slot.head)[i]? = some (e.head env.pageSize) := by
    rw [hheads, List.getElem?_map, he]
    rfl
  rw [List.getElem?_map] at hmap
  obtain ⟨slot, hslot, hhead⟩ := Option.map_eq_some_iff.1 hmap
  unfold Node.getKey
  rw [Exec.bind_of_ok hget, getSlot_of_getElem? hslot]
  show (Except.ok (Node.slotKey env.pageSize s.pager slot), s) = _
  rw [slotKey_eq hP hhead (hstored e (List.mem_of_getElem? he))]

theorem getLeftChild_of_words (hget : Pager.getNode q s = (.ok n, s))
    (hkids : n.slots.map Slot.word ++ [n.tailChild] = kids) {c : Nat} (hc : kids[i]? = some c) :
    BranchNode.getLeftChild q i s = (.ok c, s) := by
  have hlen : n.slots.length = n.count := rfl
  rw [← hkids, List.getElem?_append, List.length_map, hlen] at hc
  unfold BranchNode.getLeftChild
  rw [Exec.bind_of_ok hget]
  by_cases hi : i = n.count
  · subst hi
    rw [if_pos rfl]
    simp at hc
    rw [← hc]
    rfl
  · rw [if_neg hi]
    split_ifs at hc with hlt
    · rw [List.getElem?_map] at hc
      obtain ⟨slot, hslot, rfl⟩ := Option.map_eq_some_iff.1 hc
      rw [getSlot_of_getElem? hslot]
      rfl
    · rw [List.getElem?_eq_none (by simp; omega)] at hc
      cases hc

end Slots

namespace Resident

variable {env : Env} {O O' : Multiset Obj} {s : TxState} {q : Nat} {v : NodeView}

theorem mono (h : Resident env O s) (hO : ∀ o ∈ O', o ∈ O) : Resident env O' s :=
  ⟨h.pageSize_pos, fun q v hm => h.nodeAt q v (hO _ hm)⟩

theorem pgid_ne_invalid (h : Resident env O s) (hm : Obj.node q v ∈ O) : q ≠ kPageInvalidId := by
  have hlt := (h.nodeAt q v hm).lt
  unfold kPageMaxCount at hlt
  unfold kPageInvalidId
  omega

theorem read (h : Resident env O s) (hm : Obj.node q v ∈ O) :
    ∃ n, NodeRep env.pageSize v n ∧ Pager.getNode q s = (.ok n, s) ∧ s.pager.pages q = .node n ∧
      ∀ e ∈ v.entries, e.Stored env.pageSize s.pager := by
  obtain ⟨hlt, n, hpage, hrep, hstored⟩ := h.nodeAt q v hm
  refine ⟨n, hrep, ?_, hpage, hstored⟩
  unfold Pager.getNode assert
  rw [Exec.require_bind (h.pgid_ne_invalid hm), Exec.require_bind hlt, Exec.read_bind, hpage]
  rfl

theorem countOf (h : Resident env O s) (hm : Obj.node q v ∈ O) :
    Node.countOf q s = (.ok v.entries.length, s) := by
  obtain ⟨n, hrep, hget, -⟩ := h.read hm
  unfold Node.countOf
  rw [Exec.bind_of_ok hget, hrep.count_eq]
  rfl

theorem getKey (h : Resident env O s) (hm : Obj.node q v ∈ O) {i : Nat} {e : Entry}
    (he : v.entries[i]? = some e) : Node.getKey env q i s = (.ok e.key, s) := by
  obtain ⟨n, hrep, hget, -, hstored⟩ := h.read hm
  exact getKey_of_heads h.pageSize_pos hget hrep.heads hstored he

theorem getValue (h : Resident env O s) {t : Nat} {es : List Entry}
    (hm : Obj.node q (.leaf t es) ∈ O) {i : Nat} {e : Entry} (he : es[i]? = some e) :
    LeafNode.getValue env q i s = (.ok e.value, s) := by
  obtain ⟨n, hrep, hget, -, hstored⟩ := h.read hm
  obtain ⟨slot, hslot, hhead⟩ := hrep.slot_of_entry he
  obtain ⟨hword, -⟩ := Prod.mk.inj (hrep.leafPart_of_entry rfl he hslot)
  unfold LeafNode.getValue
  rw [Exec.bind_of_ok hget, getSlot_of_getElem? hslot]
  show (Except.ok (Node.slotValue env.pageSize s.pager slot), s) = _
  rw [slotValue_eq hhead hword (hstored e (List.mem_of_getElem? he))]

theorem isBucket (h : Resident env O s) {t : Nat} {es : List Entry}
    (hm : Obj.node q (.leaf t es) ∈ O) {i : Nat} {e : Entry} (he : es[i]? = some e) :
    LeafNode.isBucket q i s = (.ok e.isBucket, s) := by
  obtain ⟨n, hrep, hget, -⟩ := h.read hm
  obtain ⟨slot, hslot, hhead⟩ := hrep.slot_of_entry he
  obtain ⟨-, hbucket⟩ := Prod.mk.inj (hrep.leafPart_of_entry rfl he hslot)
  unfold LeafNode.isBucket
  rw [Exec.bind_of_ok hget, getSlot_of_getElem? hslot]
  show (Except.ok slot.isBucket, s) = _
  rw [hbucket]

section Kids

variable {t : Nat} {es : List Entry} {kids : List Nat}

/-- The left child of a slot, and the tail child behind the last slot. -/
theorem getLeftChild (h : Resident env O s) (hm : Obj.node q (.branch t es kids) ∈ O) {i c : Nat}
    (hc : kids[i]? = some c) : BranchNode.getLeftChild q i s = (.ok c, s) := by
  obtain ⟨n, hrep, hget, -⟩ := h.read hm
  exact getLeftChild_of_words hget hrep.body.2.2 hc

theorem getTailChild (h : Resident env O s) {kids : List Nat} {c : Nat}
    (hm : Obj.node q (.branch t es (kids ++ [c])) ∈ O) :
    BranchNode.getTailChild q s = (.ok c, s) := by
  obtain ⟨n, hrep, hget, -⟩ := h.read hm
  obtain ⟨-, hc⟩ := List.append_inj' hrep.body.2.2 rfl
  unfold BranchNode.getTailChild
  rw [Exec.bind_of_ok hget, (List.cons.inj hc).1]
  rfl

end Kids

end Resident

theorem Readable.mono {env : Env} {O O' : Multiset Obj} {s : TxState} (h : Readable env O s)
    (hO : ∀ o ∈ O', o ∈ O) : Readable env O' s := ⟨h.toResident.mono hO, h.ok⟩

namespace Own

variable {Γ : PageScope} {b r : ℕ} {O : Multiset Obj} {s : TxState} {q : Nat} {v : NodeView}

theorem read_of_mem (h : Own Γ b r O s) (hm : Obj.node q v ∈ O) :
    ∃ n, NodeRep Γ.P v n ∧ Pager.getNode q s = (.ok n, s) ∧ s.pager.pages q = .node n ∧
      ∀ e ∈ v.entries, e.Stored Γ.P s.pager := by
  obtain ⟨O', rfl⟩ := Multiset.exists_cons_of_mem hm
  exact h.read_node

/-- What the transaction holds it can read. -/
theorem resident (h : Own Γ b r O s) : Resident Γ.env O s := by
  refine ⟨Γ.P_pos, fun q v hm => ?_⟩
  obtain ⟨n, hrep, -, hpage, hstored⟩ := h.read_of_mem hm
  obtain ⟨O', rfl⟩ := Multiset.exists_cons_of_mem hm
  have hlt := (h.page_lt (node_pos q v)).2
  have hroom := h.room
  exact ⟨by omega, n, hpage, hrep, hstored⟩

theorem readable {Γ : Scope} (h : Own Γ b r O s) : Readable Γ.env O s := ⟨h.resident, Γ.ok⟩

theorem fill_le_of_mem (h : Own Γ b r O s) (hm : Obj.node q v ∈ O) :
    fill Γ.P v.entries ≤ Γ.P - 18 := by
  obtain ⟨n, hrep, -⟩ := h.read_of_mem hm
  exact hrep.fill_le Γ.hP

theorem admissible_of_mem (h : Own Γ b r O s) (hm : Obj.node q v ∈ O) :
    ∀ e ∈ v.entries, e.Ok Γ.P := by
  obtain ⟨n, hrep, -⟩ := h.read_of_mem hm
  exact hrep.admissible

theorem countOf (h : Own Γ b r O s) (hm : Obj.node q v ∈ O) :
    Node.countOf q s = (.ok v.entries.length, s) := h.resident.countOf hm

theorem fillRate (h : Own Γ b r O s) (hm : Obj.node q v ∈ O) :
    Node.fillRate Γ.env q s = (.ok (fill Γ.P v.entries, Γ.P - 18), s) := by
  obtain ⟨n, hrep, hget, -⟩ := h.read_of_mem hm
  unfold Node.fillRate
  rw [Exec.bind_of_ok hget, hrep.sized.getFillRate Γ.hP, hrep.fill_eq]
  rfl

theorem getKey (h : Own Γ b r O s) (hm : Obj.node q v ∈ O) {i : Nat} {e : Entry}
    (he : v.entries[i]? = some e) : Node.getKey Γ.env q i s = (.ok e.key, s) :=
  h.resident.getKey hm he

theorem getValue (h : Own Γ b r O s) {t : Nat} {es : List Entry} (hm : Obj.node q (.leaf t es) ∈ O)
    {i : Nat} {e : Entry} (he : es[i]? = some e) :
    LeafNode.getValue Γ.env q i s = (.ok e.value, s) := h.resident.getValue hm he

theorem isBucket (h : Own Γ b r O s) {t : Nat} {es : List Entry} (hm : Obj.node q (.leaf t es) ∈ O)
    {i : Nat} {e : Entry} (he : es[i]? = some e) :
    LeafNode.isBucket q i s = (.ok e.isBucket, s) := h.resident.isBucket hm he

/-! ## Children -/

section Kids

variable {t : Nat} {es : List Entry} {kids : List Nat}

theorem getLeftChild (h : Own Γ b r O s) (hm : Obj.node q (.branch t es kids) ∈ O) {i c : Nat}
    (hc : kids[i]? = some c) : BranchNode.getLeftChild q i s = (.ok c, s) :=
  h.resident.getLeftChild hm hc

theorem getRightChild (h : Own Γ b r O s) (hm : Obj.node q (.branch t es kids) ∈ O) {i c : Nat}
    (hc : kids[i + 1]? = some c) : BranchNode.getRightChild q i s = (.ok c, s) := by
  obtain ⟨n, hrep, hget, -⟩ := h.read_of_mem hm
  have hkids := hrep.body.2.2
  have hlen : n.slots.length = n.count := rfl
  rw [← hkids, List.getElem?_append, List.length_map, hlen] at hc
  have hi : i < n.count := by
    by_contra hne
    rw [if_neg (by omega), List.getElem?_eq_none (by simp; omega)] at hc
    cases hc
  unfold BranchNode.getRightChild assert
  rw [Exec.bind_of_ok hget, Exec.require_bind hi]
  by_cases hlast : i = n.count - 1
  · rw [if_pos hlast]
    rw [if_neg (by omega), show i + 1 - n.count = 0 by omega] at hc
    rw [← Option.some.inj hc]
    rfl
  · rw [if_neg hlast]
    rw [if_pos (by omega), List.getElem?_map] at hc
    obtain ⟨slot, hslot, rfl⟩ := Option.map_eq_some_iff.1 hc
    rw [getSlot_of_getElem? hslot]
    rfl

theorem getTailChild (h : Own Γ b r O s) {kids : List Nat} {c : Nat}
    (hm : Obj.node q (.branch t es (kids ++ [c])) ∈ O) :
    BranchNode.getTailChild q s = (.ok c, s) := h.resident.getTailChild hm

end Kids

end Own

end AtomKV
