import AtomKV.Lib.Refine
import AtomKV.Layout
import AtomKV.LeafUpdate

/-!
# A leaf is a list of records

`LeafNode` on a page that was just built, driven by any sequence of its member functions. The
abstract value is the list of its records as `GetKey`, `GetValue` and `IsBucket` show them. A call
does to the leaf what the operation of the same name does to the list, and one for which there is no
room is refused and changes nothing, unless the run meets one of two states: an update of a record
in overflow pages that needs a compaction, or the insertion of an empty record whose slot would end
at the end of the page. There an assertion fails.
-/

set_option autoImplicit false

namespace AtomKV

/-- A record as the reading functions show it: key, value, bucket flag. -/
abbrev Row := Bytes × Bytes × Bool

/-- The member functions of `LeafNode` that write, with their arguments. -/
inductive LeafOp where
  | insert (slotId : Nat) (key value : Bytes)
  | append (key value : Bytes)
  | update (slotId : Nat) (key value : Bytes)
  | delete (slotId : Nat)
  | pop
  | setIsBucket (slotId : Nat) (isBucket : Bool)

namespace LeafOp

/-- The call. A function without a result counts as carried out when it returns. -/
def exec (env : Env) (pgid : Nat) : LeafOp → TxM Bool
  | .insert slotId key value => LeafNode.insert env pgid slotId key value
  | .append key value => LeafNode.append env pgid key value
  | .update slotId key value => LeafNode.update env pgid slotId key value
  | .delete slotId => do
      LeafNode.delete env pgid slotId
      return true
  | .pop => do
      LeafNode.pop env pgid
      return true
  | .setIsBucket slotId isBucket => do
      LeafNode.setIsBucket pgid slotId isBucket
      return true

/-! ## The list -/

/-- The space that the records take. -/
def rowsSpace (P : Nat) (rows : List Row) : Nat :=
  (rows.map fun row => recordStub P row.1 row.2.1).sum

/-- Header, padding, slots and records fit into the page with one record more. -/
def Room (P : Nat) (rows : List Row) (key value : Bytes) : Prop :=
  18 + 8 * (rows.length + 1) + rowsSpace P rows + recordStub P key value ≤ P

/-- The call is carried out: the record fits after compaction, or none is stored. -/
def Accepts (P : Nat) (rows : List Row) : LeafOp → Prop
  | .insert _ key value => Room P rows key value
  | .append key value => Room P rows key value
  | .update slotId key value => Room P (rows.eraseIdx slotId) key value
  | _ => True

/-- What the call makes of the list. The flag of a new record is not specified: callers set it. -/
def Next (rows : List Row) : LeafOp → List Row → Prop
  | .insert slotId key value,
      rows' => ∃ isBucket, rows' = rows.insertIdx slotId (key, value, isBucket)
  | .append key value, rows' => ∃ isBucket, rows' = rows ++ [(key, value, isBucket)]
  | .update slotId key value, rows' => rows' = rows.modify slotId fun row => (key, value, row.2.2)
  | .delete slotId, rows' => rows' = rows.eraseIdx slotId
  | .pop, rows' => rows' = rows.dropLast
  | .setIsBucket slotId isBucket, rows' => rows' = rows.modify slotId fun row =>
    (row.1, row.2.1, isBucket)

/-- What the call makes of the numbers of the leaf when it is carried out. -/
def account (P : Nat) : LeafOp → Ledger → Ledger
  | .insert slotId key value, a => a.insert P slotId (recordStub P key value) key.length
  | .append key value, a => a.insert P a.cells.length (recordStub P key value) key.length
  | .update slotId key value, a => a.update P slotId (recordStub P key value) key.length
  | .delete slotId, a => a.delete slotId
  | .pop, a => a.delete (a.cells.length - 1)
  | .setIsBucket _ _, a => a

/-- The list of records under the calls. -/
def behaviour (P : Nat) : Exec.Behaviour LeafOp (List Row) := ⟨Accepts P, Next⟩

/-- The slot exists, and the sizes are those that `StoreRecord` accepts. -/
def ValidAt (P : Nat) (count : Nat) : LeafOp → Prop
  | .insert slotId key value => slotId ≤ count ∧ Admissible P key value
  | .append key value => Admissible P key value
  | .update slotId key value => slotId < count ∧ Admissible P key value
  | .delete slotId => slotId < count
  | .pop => 0 < count
  | .setIsBucket slotId _ => slotId < count

/-- The call is valid on the page `pgid`. -/
def Valid (P : Nat) (pgid : Nat) (op : LeafOp) (s : TxState) : Prop :=
  ∀ n, s.pager.pages pgid = .node n → op.ValidAt P n.count

/-! ## The two bad states -/

/-- The old record is in overflow pages, and the new one fits in its place only after a compaction.
-/
def Compacts (P : Nat) (n : Node) (slotId : Nat) (key value : Bytes) : Prop :=
  ∃ slot run, n.slots[slotId]? = some slot ∧ slot.record = .overflow run ∧
    ¬ n.RoomBelow (recordStub P key value) ∧
    n.slotBytes + (n.spaceUsed - kOverflowRecordSize) + recordStub P key value ≤ P

/-- The call meets a bad state. -/
def SpoilsAt (P : Nat) (n : Node) : LeafOp → Prop
  | .insert _ key value => n.FillsUp P key value
  | .append key value => n.FillsUp P key value
  | .update slotId key value => Compacts P n slotId key value
  | _ => False

def Spoils (P : Nat) (pgid : Nat) (op : LeafOp) (s : TxState) : Prop :=
  ∃ n, s.pager.pages pgid = .node n ∧ op.SpoilsAt P n

instance (P : Nat) (n : Node) (op : LeafOp) : Decidable (op.SpoilsAt P n) :=
  match op with
  | .insert _ key value => inferInstanceAs (Decidable (n.FillsUp P key value))
  | .append key value => inferInstanceAs (Decidable (n.FillsUp P key value))
  | .update _ _ _ => inferInstanceAs (Decidable (∃ _ _, _ ∧ _ ∧ _))
  | .delete _ => .isFalse id
  | .pop => .isFalse id
  | .setIsBucket _ _ => .isFalse id

instance (P : Nat) (pgid : Nat) (op : LeafOp) (s : TxState) : Decidable (op.Spoils P pgid s) :=
  inferInstanceAs (Decidable (∃ _, _ ∧ _))

/-- The overflow pages that the call may take. -/
def room (P : Nat) : LeafOp → ℕ
  | .insert _ key value => recordPages P key value
  | .append key value => recordPages P key value
  | .update _ key value => recordPages P key value
  | _ => 0

/-- The overflow pages that the calls may take. -/
def roomFor (P : Nat) (ops : List LeafOp) : ℕ := (ops.map (room P)).sum

end LeafOp

/-- **What a leaf shows.** The reading functions return the records of the list, and the header is
in order: `space_used` is the sum of the records' sizes in the page, the records lie between
`data_offset` and the end of the page, no two of them share a byte, and the slots end before
`data_offset`. -/
structure LeafShows (env : Env) (pgid : Nat) (rows : List Row) (s : TxState) : Prop where
  count : Node.countOf pgid s = (.ok rows.length, s)
  key : ∀ i row, rows[i]? = some row → Node.getKey env pgid i s = (.ok row.1, s)
  value : ∀ i row, rows[i]? = some row → LeafNode.getValue env pgid i s = (.ok row.2.1, s)
  isBucket : ∀ i row, rows[i]? = some row → LeafNode.isBucket pgid i s = (.ok row.2.2, s)
  header : ∃ n, s.pager.pages pgid = .node n ∧ n.isLeaf = true ∧ Node.Sized env.pageSize n

namespace LeafShows

variable {env : Env} {pgid : Nat} {rows rows' : List Row} {s : TxState}

/-- A leaf shows one list. -/
theorem unique (h : LeafShows env pgid rows s) (h' : LeafShows env pgid rows' s) :
    rows = rows' := by
  have hlen : rows.length = rows'.length :=
    Except.ok.inj (Prod.mk.inj (h.count.symm.trans h'.count)).1
  refine List.ext_getElem hlen fun i hi hi' => ?_
  have hrow := List.getElem?_eq_getElem hi
  have hrow' := List.getElem?_eq_getElem hi'
  have h1 := Except.ok.inj (Prod.mk.inj ((h.key i _ hrow).symm.trans (h'.key i _ hrow'))).1
  have h2 := Except.ok.inj (Prod.mk.inj ((h.value i _ hrow).symm.trans (h'.value i _ hrow'))).1
  have h3 :=
    Except.ok.inj (Prod.mk.inj ((h.isBucket i _ hrow).symm.trans (h'.isBucket i _ hrow'))).1
  exact Prod.ext h1 (Prod.ext h2 h3)

end LeafShows

/-- The records that are shown for the records of a node. -/
def rowsOf (es : List Entry) : List Row := es.map Entry.data

section Rows

variable {P : Nat} {es es₁ es₂ : List Entry} {e : Entry} {key value : Bytes}

theorem rowsSpace_rowsOf (P : Nat) (es : List Entry) :
    LeafOp.rowsSpace P (rowsOf es) = entriesSpace P es := by
  unfold LeafOp.rowsSpace rowsOf entriesSpace
  rw [List.map_map]
  rfl

/-- The room in the list is the room in the node. -/
theorem room_iff_fits (hP : PageRange P) (es : List Entry) (key value : Bytes) :
    LeafOp.Room P (rowsOf es) key value ↔ Fits P es key value := by
  have hmin := hP.min
  have hlen : (rowsOf es).length = es.length := List.length_map _
  unfold LeafOp.Room Fits fill
  rw [rowsSpace_rowsOf, hlen]
  omega

theorem rowsOf_insert (es₁ es₂ : List Entry) (e : Entry) :
    rowsOf (es₁ ++ e :: es₂) = (rowsOf (es₁ ++ es₂)).insertIdx es₁.length e.data := by
  have hlen : (rowsOf es₁).length = es₁.length := List.length_map _
  unfold rowsOf at *
  rw [List.map_append, List.map_append, ← hlen, ListAt.insertIdx_length]
  rfl

theorem rowsOf_erase (es₁ es₂ : List Entry) (e : Entry) :
    rowsOf (es₁ ++ es₂) = (rowsOf (es₁ ++ e :: es₂)).eraseIdx es₁.length := by
  have hlen : (rowsOf es₁).length = es₁.length := List.length_map _
  unfold rowsOf at *
  rw [List.map_append, List.map_append, List.map_cons, ← hlen, ListAt.eraseIdx_length]

theorem rowsOf_modify (es₁ es₂ : List Entry) (e : Entry) {e' : Entry} {f : Row → Row}
    (h : e'.data = f e.data) :
    rowsOf (es₁ ++ e' :: es₂) = (rowsOf (es₁ ++ e :: es₂)).modify es₁.length f := by
  have hlen : (rowsOf es₁).length = es₁.length := List.length_map _
  unfold rowsOf at *
  rw [List.map_append, List.map_append, List.map_cons, List.map_cons, ← hlen,
    ListAt.modify_length, h]

end Rows

/-! ## The bad states on a leaf with known records -/

section Bad

variable {P t : Nat} {n : Node} {es es₁ es₂ : List Entry} {e : Entry} {key value : Bytes}

theorem LeafOp.compacts_iff (hP : PageRange P) (h : NodeRep P (.leaf t (es₁ ++ e :: es₂)) n)
    (key value : Bytes) : LeafOp.Compacts P n es₁.length key value ↔ Fits P (es₁ ++ es₂) key value ∧
      ∃ slot, n.slots[es₁.length]? = some slot ∧ ¬ n.UpdateFits P slot key value := by
  obtain ⟨l₁, slot, l₂, hs⟩ := h.around rfl
  have hfits := h.fits_rest_iff hP rfl key value
  have hupdate := Node.updateFits_iff hP h hs key value
  constructor
  · rintro ⟨slot', run, hslot', hrun, hbelow, hfit⟩
    obtain rfl : slot = slot' := Option.some.inj (hs.getElem?.symm.trans hslot')
    have hover : Node.maxInline P < e.size := by
      by_contra hover
      rw [hs.inlined hover] at hrun
      cases hrun
    have hstub : e.stub P = kOverflowRecordSize := if_pos hover
    refine ⟨hfits.2 (by rw [hstub]; exact hfit), slot, hslot', fun hyes => ?_⟩
    rcases (hupdate.1 hyes).1 with hroom | hinline
    · exact hbelow hroom
    · exact hinline hover
  · rintro ⟨hfit, slot', hslot', hno⟩
    obtain rfl : slot = slot' := Option.some.inj (hs.getElem?.symm.trans hslot')
    rw [hupdate] at hno
    have hover : Node.maxInline P < e.size := by
      by_contra hover
      exact hno ⟨.inr hover, hfit⟩
    have hstub : e.stub P = kOverflowRecordSize := if_pos hover
    refine ⟨slot, e.run, hslot', hs.overflow hover, fun hroom => hno ⟨.inl hroom, hfit⟩, ?_⟩
    rw [← hstub]
    exact hfits.1 hfit

end Bad

/-! ## One call -/

namespace Own

variable {Γ : PageScope} {b r : ℕ} {O : Multiset Obj} {s : TxState} {q t : Nat} {es : List Entry}

/-- A leaf that the transaction holds shows its records. -/
theorem leafShows (h : Own Γ b r (.node q (.leaf t es) ::ₘ O) s) :
    LeafShows Γ.env q (rowsOf es) s := by
  have hm : Obj.node q (.leaf t es) ∈ Obj.node q (.leaf t es) ::ₘ O := Multiset.mem_cons_self _ _
  have hrow : ∀ {i : Nat} {row : Row}, (rowsOf es)[i]? = some row →
      ∃ e, es[i]? = some e ∧ e.data = row := by
    intro i row hi
    unfold rowsOf at hi
    rw [List.getElem?_map] at hi
    exact Option.map_eq_some_iff.1 hi
  obtain ⟨n, hrep, -, hpage, -⟩ := h.read_of_mem hm
  refine ⟨?_, ?_, ?_, ?_, n, hpage, hrep.isLeaf_eq, hrep.sized⟩
  · rw [rowsOf, List.length_map]
    exact h.countOf hm
  · intro i row hi
    obtain ⟨e, he, rfl⟩ := hrow hi
    exact h.getKey hm he
  · intro i row hi
    obtain ⟨e, he, rfl⟩ := hrow hi
    exact h.getValue hm he
  · intro i row hi
    obtain ⟨e, he, rfl⟩ := hrow hi
    exact h.isBucket hm he

/-- Appending is inserting behind the last slot. -/
theorem leafAppend_eq (h : Own Γ b r (.node q (.leaf t es) ::ₘ O) s) (key value : Bytes) :
    LeafNode.append Γ.env q key value s = LeafNode.insert Γ.env q es.length key value s := by
  unfold LeafNode.append
  rw [Exec.bind_of_ok (h.countOf (Multiset.mem_cons_self _ _))]

end Own

/-- The invariant of a run: the transaction holds the leaf with the records of the list, and has
room for the overflow pages that the calls to come may take. -/
def LeafRun (Γ : PageScope) (b r : ℕ) (q : Nat) (ops : List LeafOp) (rows : List Row)
    (s : TxState) : Prop :=
  ∃ t es O, Own Γ (b + LeafOp.roomFor Γ.P ops) r (.node q (.leaf t es) ::ₘ O) s ∧ rowsOf es = rows

namespace LeafRun

variable {Γ : PageScope} {b r : ℕ} {q : Nat} {ops : List LeafOp} {op : LeafOp} {rows : List Row}
  {s : TxState} {slotId : Nat} {key value : Bytes} {isBucket : Bool}

theorem shows (h : LeafRun Γ b r q ops rows s) : LeafShows Γ.env q rows s := by
  obtain ⟨t, es, O, hown, rfl⟩ := h
  exact hown.leafShows

/-- The leaf and its records, when a call is due. -/
theorem take (h : LeafRun Γ b r q (op :: ops) rows s) :
    ∃ t es O n, Own Γ (b + LeafOp.roomFor Γ.P ops + op.room Γ.P) r (.node q (.leaf t es) ::ₘ O) s ∧
      rowsOf es = rows ∧ s.pager.pages q = .node n ∧ NodeRep Γ.P (.leaf t es) n := by
  obtain ⟨t, es, O, hown, hrows⟩ := h
  obtain ⟨n, hrep, -, hpage, -⟩ := hown.read_node
  refine ⟨t, es, O, n, hown.room_mono _ ?_, hrows, hpage, hrep⟩
  unfold LeafOp.roomFor
  rw [List.map_cons, List.sum_cons]
  omega

/-- An insertion in front of a record or at the end, as `Insert` and `Append` make it. -/
theorem insert_step (hq : ¬ Γ.keep q) {t : Nat} {es₁ es₂ : List Entry} {O : Multiset Obj} {n : Node}
    (h : Own Γ (b + LeafOp.roomFor Γ.P ops + recordPages Γ.P key value) r
      (.node q (.leaf t (es₁ ++ es₂)) ::ₘ O) s)
    (hrep : NodeRep Γ.P (.leaf t (es₁ ++ es₂)) n) (hadm : Admissible Γ.P key value)
    (hclean : ¬ n.FillsUp Γ.P key value) (hroom : LeafOp.Room Γ.P (rowsOf (es₁ ++ es₂)) key value) :
    ∃ s' rows', LeafNode.insert Γ.env q es₁.length key value s = (.ok true, s') ∧
      (∃ isBucket, rows' = (rowsOf (es₁ ++ es₂)).insertIdx es₁.length (key, value, isBucket)) ∧
      LeafRun Γ b r q ops rows' s' ∧
      Books q (fun a => a.insert Γ.P es₁.length (recordStub Γ.P key value) key.length) s s' := by
  have hfit := (room_iff_fits Γ.hP _ _ _).1 hroom
  have hslots : SlotFits Γ.P (es₁ ++ es₂) := by
    by_contra hslots
    exact hclean ((hrep.fillsUp_iff Γ.hP key value).2 ⟨hfit, hslots⟩)
  obtain ⟨_, s', hrun, rfl, ⟨flag, run, h'⟩, hbooks⟩ := h.leafInsert_ok hq hadm hfit hslots
  exact ⟨s', _, hrun, ⟨flag, rowsOf_insert es₁ es₂ ⟨key, value, flag, run⟩⟩,
    ⟨t, _, O, h', rfl⟩, hbooks⟩

/-- The update that compacts a record in overflow pages stops in the compaction, with the
header in order. -/
theorem compacts_fails (hq : ¬ Γ.keep q)
    (h : LeafRun Γ b r q (.update slotId key value :: ops) rows s)
    (hvalid : (LeafOp.update slotId key value).Valid Γ.P q s)
    (hbad : (LeafOp.update slotId key value).Spoils Γ.P q s) :
    ∃ s' n', LeafNode.update Γ.env q slotId key value s = (.error .assertion, s') ∧
      s'.pager.pages q = .node n' ∧ Node.Bounded Γ.P n' := by
  obtain ⟨t, es, O, n, hown, rfl, hpage, hrep⟩ := h.take
  obtain ⟨n', hpage', hspoil⟩ := hbad
  obtain rfl : n = n' := Page.node.inj (hpage.symm.trans hpage')
  have hcount : n.count = es.length := hrep.count_eq
  obtain ⟨hlt, -⟩ := hvalid n hpage
  obtain ⟨es₁, e, es₂, rfl, rfl⟩ := ListAt.exists_split_lt (hcount ▸ hlt)
  obtain ⟨hfit, slot, hslot, hno⟩ := (LeafOp.compacts_iff Γ.hP hrep key value).1 hspoil
  exact hown.leafUpdate_error hq hpage hslot hfit hno

/-- A call in a bad state fails an assertion. -/
theorem fails (hq : ¬ Γ.keep q) (h : LeafRun Γ b r q (op :: ops) rows s) (hvalid : op.Valid Γ.P q s)
    (hbad : op.Spoils Γ.P q s) : Exec.Fails (op.exec Γ.env q) s := by
  obtain ⟨t, es, O, n, hown, rfl, hpage, hrep⟩ := h.take
  obtain ⟨n', hpage', hspoil⟩ := hbad
  obtain rfl : n = n' := Page.node.inj (hpage.symm.trans hpage')
  have hcount : n.count = es.length := hrep.count_eq
  have hv := hvalid n hpage
  cases op with
  | insert slotId key value =>
    obtain ⟨hle, -⟩ := hv
    obtain ⟨es₁, es₂, rfl, rfl⟩ := ListAt.exists_split_le (hcount ▸ hle)
    obtain ⟨hfit, hslots⟩ := (hrep.fillsUp_iff Γ.hP key value).1 hspoil
    exact hown.leafInsert_error hq hfit hslots
  | append key value =>
    have happend := hown.leafAppend_eq key value
    obtain ⟨hfit, hslots⟩ := (hrep.fillsUp_iff Γ.hP key value).1 hspoil
    rw [← List.append_nil es] at hown hfit hslots
    obtain ⟨err, s', herror⟩ := hown.leafInsert_error hq hfit hslots
    exact ⟨err, s', happend.trans herror⟩
  | update slotId key value =>
    obtain ⟨s', -, herror, -⟩ := h.compacts_fails hq hvalid ⟨n, hpage, hspoil⟩
    exact ⟨_, s', herror⟩
  | delete slotId => exact hspoil.elim
  | pop => exact hspoil.elim
  | setIsBucket slotId isBucket => exact hspoil.elim

/-- A call for which there is room is carried out. -/
theorem accepted (hq : ¬ Γ.keep q) (h : LeafRun Γ b r q (op :: ops) rows s)
    (hvalid : op.Valid Γ.P q s) (hclean : ¬ op.Spoils Γ.P q s) (haccept : op.Accepts Γ.P rows) :
    ∃ s' rows', op.exec Γ.env q s = (.ok true, s') ∧ op.Next rows rows' ∧
      LeafRun Γ b r q ops rows' s' ∧ Books q (op.account Γ.P) s s' := by
  obtain ⟨t, es, O, n, hown, rfl, hpage, hrep⟩ := h.take
  have hcount : n.count = es.length := hrep.count_eq
  have hv := hvalid n hpage
  have hsafe : ¬ op.SpoilsAt Γ.P n := fun hspoil => hclean ⟨n, hpage, hspoil⟩
  have hcells : n.ledger.cells.length = es.length := n.ledger_length.trans hcount
  cases op with
  | insert slotId key value =>
    obtain ⟨hle, hadm⟩ := hv
    obtain ⟨es₁, es₂, rfl, rfl⟩ := ListAt.exists_split_le (hcount ▸ hle)
    exact insert_step hq hown hrep hadm hsafe haccept
  | append key value =>
    -- `Append` is `Insert` at the end, in a list that is split with nothing behind it.
    have hroom : LeafOp.Room Γ.P (rowsOf es) key value := haccept
    have happend := hown.leafAppend_eq key value
    rw [← List.append_nil es] at hown hrep hroom
    obtain ⟨s', rows', hrun, ⟨flag, hrows⟩, hnext, hbooks⟩ :=
      insert_step hq hown hrep hv hsafe hroom
    refine ⟨s', rows', happend.trans hrun, ⟨flag, ?_⟩, hnext, hbooks.congr hpage ?_⟩
    · have hlen : (rowsOf es).length = es.length := List.length_map _
      rw [hrows, List.append_nil, ← hlen, List.insertIdx_length_self]
    · show _ = n.ledger.insert Γ.P n.ledger.cells.length (recordStub Γ.P key value) key.length
      rw [hcells]
  | update slotId key value =>
    obtain ⟨hlt, hadm⟩ := hv
    obtain ⟨es₁, e, es₂, rfl, rfl⟩ := ListAt.exists_split_lt (hcount ▸ hlt)
    have hroom : LeafOp.Room Γ.P ((rowsOf (es₁ ++ e :: es₂)).eraseIdx es₁.length) key value :=
      haccept
    rw [← rowsOf_erase, room_iff_fits Γ.hP] at hroom
    obtain ⟨l₁, slot, l₂, hs⟩ := hrep.around rfl
    -- `Update` goes wrong only where it compacts, and the call is one that does not.
    have hfits : n.UpdateFits Γ.P slot key value := by
      by_contra hno
      exact hsafe ((LeafOp.compacts_iff Γ.hP hrep key value).2 ⟨hroom, slot, hs.getElem?, hno⟩)
    obtain ⟨_, s', hrun, rfl, ⟨run, h'⟩, hbooks⟩ :=
      hown.leafUpdate_ok hq hpage hs.getElem? hadm hfits
    exact ⟨s', _, hrun, rfl, ⟨t, _, _, h', rowsOf_modify es₁ es₂ e rfl⟩, hbooks⟩
  | delete slotId =>
    obtain ⟨es₁, e, es₂, rfl, rfl⟩ := ListAt.exists_split_lt (hcount ▸ hv)
    obtain ⟨s', G, hrun, -, -, h', hbooks⟩ := hown.leafDelete hq
    refine ⟨s', _, ?_, rfl, ⟨t, _, _, h', rowsOf_erase es₁ es₂ e⟩, hbooks⟩
    show (do LeafNode.delete Γ.env q es₁.length; return true : TxM Bool) s = _
    rw [Exec.bind_of_ok hrun]
    rfl
  | pop =>
    obtain ⟨es₁, e, rfl⟩ := (List.eq_nil_or_concat' es).resolve_left fun hnil => by
      rw [hnil] at hcount
      exact absurd hv (by rw [LeafOp.ValidAt, hcount]; exact Nat.lt_irrefl 0)
    obtain ⟨s', G, hrun, -, -, h', hbooks⟩ := hown.leafDelete hq
    rw [List.append_nil] at h'
    refine ⟨s', _, ?_, rfl, ⟨t, _, _, h', ?_⟩, hbooks.congr hpage ?_⟩
    · have hpop : LeafNode.pop Γ.env q s = (.ok (), s') := by
        unfold LeafNode.pop
        rw [Exec.bind_of_ok (hown.countOf (Multiset.mem_cons_self _ _))]
        simp only [List.length_append, List.length_singleton, Nat.add_sub_cancel]
        exact hrun
      show (do LeafNode.pop Γ.env q; return true : TxM Bool) s = _
      rw [Exec.bind_of_ok hpop]
      rfl
    · unfold rowsOf
      rw [List.map_append, List.map_singleton, List.dropLast_concat]
    · show _ = n.ledger.delete (n.ledger.cells.length - 1)
      rw [hcells, List.length_append, List.length_singleton, Nat.add_sub_cancel]
  | setIsBucket slotId isBucket =>
    obtain ⟨es₁, e, es₂, rfl, rfl⟩ := ListAt.exists_split_lt (hcount ▸ hv)
    obtain ⟨s', hrun, h', hbooks⟩ := hown.leafSetIsBucket hq isBucket
    refine ⟨s', _, ?_, rfl, ⟨t, _, _, h', rowsOf_modify es₁ es₂ e rfl⟩, hbooks⟩
    show (do LeafNode.setIsBucket q es₁.length isBucket; return true : TxM Bool) s = _
    rw [Exec.bind_of_ok hrun]
    rfl

/-- A call for which there is no room returns `false` and leaves the state as it was. -/
theorem refused (hq : ¬ Γ.keep q) (h : LeafRun Γ b r q (op :: ops) rows s)
    (hvalid : op.Valid Γ.P q s) (hrefuse : ¬ op.Accepts Γ.P rows) :
    op.exec Γ.env q s = (.ok false, s) ∧ LeafRun Γ b r q ops rows s := by
  obtain ⟨t, es, O, n, hown, rfl, hpage, hrep⟩ := h.take
  have hrest : LeafRun Γ b r q ops (rowsOf es) s :=
    ⟨t, es, O, hown.room_mono _ (Nat.le_add_right _ _), rfl⟩
  have hcount : n.count = es.length := hrep.count_eq
  have hv := hvalid n hpage
  refine ⟨?_, hrest⟩
  cases op with
  | insert slotId key value =>
    obtain ⟨es₁, es₂, rfl, rfl⟩ := ListAt.exists_split_le (hcount ▸ hv.1)
    exact hown.leafInsert_refused (mt (room_iff_fits Γ.hP _ _ _).2 hrefuse)
  | append key value =>
    have hfit : ¬ Fits Γ.P es key value := mt (room_iff_fits Γ.hP _ _ _).2 hrefuse
    have happend := hown.leafAppend_eq key value
    rw [← List.append_nil es] at hown hfit
    exact happend.trans (hown.leafInsert_refused hfit)
  | update slotId key value =>
    obtain ⟨es₁, e, es₂, rfl, rfl⟩ := ListAt.exists_split_lt (hcount ▸ hv.1)
    have hroom : ¬ LeafOp.Room Γ.P ((rowsOf (es₁ ++ e :: es₂)).eraseIdx es₁.length) key value :=
      hrefuse
    rw [← rowsOf_erase, room_iff_fits Γ.hP] at hroom
    exact hown.leafUpdate_refused hq hroom
  | delete slotId => exact absurd trivial hrefuse
  | pop => exact absurd trivial hrefuse
  | setIsBucket slotId isBucket => exact absurd trivial hrefuse

end LeafRun

/-! ## The run -/

/-- **A leaf is a list of records.** On a page that was just built, every run of the member
functions follows the list exactly when none of its calls meets a bad state. -/
theorem LeafNode.refines_iff {Γ : PageScope} {b r : ℕ} {O : Multiset Obj} {s : TxState} {q : Nat}
    (ops : List LeafOp) (h : Own Γ (b + LeafOp.roomFor Γ.P ops) r (.area q 1 ::ₘ O) s) :
    Exec.Ok (LeafNode.build Γ.env q) s fun _ s₀ =>
      (Exec.Refines (LeafOp.exec Γ.env q) (LeafOp.behaviour Γ.P) (LeafOp.Valid Γ.P q)
        (LeafShows Γ.env q) ops [] s₀ ↔
          Exec.Avoids (LeafOp.exec Γ.env q) (LeafOp.Valid Γ.P q) (LeafOp.Spoils Γ.P q) ops s₀) := by
  obtain ⟨s₀, hbuild, hq, h₀, -⟩ := h.buildLeaf
  refine Exec.Ok.intro () s₀ hbuild ?_
  refine Exec.refines_iff_avoids ?_ (LeafRun Γ b r q) ?_ ?_ ?_ ?_ ops [] s₀ ⟨Γ.txid, [], O, h₀, rfl⟩
  · intro rows rows' s hshows hshows'
    exact hshows.unique hshows'
  · intro ops rows s hrun
    exact hrun.shows
  · intro op ops rows s hrun hvalid hbad ok s' rows' hok
    obtain ⟨err, s₁, herror⟩ := hrun.fails hq hvalid hbad
    rw [herror] at hok
    cases hok
  · intro op ops rows s hrun hvalid hclean haccept
    obtain ⟨s', rows', hok, hnext, hrest, -⟩ := hrun.accepted hq hvalid hclean haccept
    exact ⟨s', rows', hok, hnext, hrest⟩
  · intro op ops rows s hrun hvalid _ hrefuse
    exact hrun.refused hq hvalid hrefuse

/-! ## The smallest page -/

section Example

/-- A new file after the allocation of one page. -/
def freshPage : TxState := (Pager.alloc 1 (layout 256 freshMeta kPageInvalidId [])).2

theorem own_freshPage {b : ℕ} (hb : b ≤ 1000) :
    Own (layoutScope smallEnv smallEnv_ok freshMeta 0) b kPageInvalidId
      (.area 2 1 ::ₘ 0) freshPage := by
  have h : Own (layoutScope smallEnv smallEnv_ok freshMeta 0) (b + 1) kPageInvalidId 0
      (layout 256 freshMeta kPageInvalidId []) :=
    own_layout (fun _ hn => absurd hn List.not_mem_nil) (List.Perm.refl _) (by
      show 0 + 2 + (b + 1) ≤ kPageMaxCount
      unfold kPageMaxCount
      omega)
  obtain ⟨q, s, halloc, hown⟩ := h.alloc
  have hq : (Pager.alloc 1 (layout 256 freshMeta kPageInvalidId [])).1 = .ok 2 := by decide
  rw [halloc] at hq
  obtain rfl := Except.ok.inj hq
  unfold freshPage
  rw [halloc]
  exact hown

/-- Most member functions: a record in overflow pages that becomes a short one, a compaction, and a
record that is refused. -/
def leafCalls : List LeafOp :=
  [.append [1] (List.replicate 200 7), .append [3] (List.replicate 99 0),
    .update 1 [3] (List.replicate 99 1), .update 0 [1] (List.replicate 5 7),
      .insert 1 [2] (List.replicate 80 2), .append [4] (List.replicate 90 4),
    .setIsBucket 1 true, .delete 0, .pop]

/-- A leaf under these calls is a list of records. -/
theorem LeafNode.refines_leafCalls : Exec.Ok (LeafNode.build smallEnv 2) freshPage fun _ s₀ =>
    Exec.Refines (LeafOp.exec smallEnv 2) (LeafOp.behaviour 256) (LeafOp.Valid 256 2)
      (LeafShows smallEnv 2) leafCalls [] s₀ := by
  obtain ⟨_, s₀, hbuild, hiff⟩ :=
    LeafNode.refines_iff (Γ := layoutScope smallEnv smallEnv_ok freshMeta 0) (b := 0)
    leafCalls (own_freshPage (by decide +kernel))
  refine ⟨_, s₀, hbuild, hiff.2 ?_⟩
  have hclean : Exec.Clean (LeafOp.exec smallEnv 2) (LeafOp.Spoils 256 2) leafCalls
      (LeafNode.build smallEnv 2 freshPage).2 := by decide +kernel
  obtain rfl : (LeafNode.build smallEnv 2 freshPage).2 = s₀ := (Prod.mk.inj hbuild).2
  exact hclean.avoids

/-- A record in overflow pages that is updated when the leaf has to be compacted. -/
def compactingCalls : List LeafOp :=
  [.append [1] (List.replicate 200 7), .append [2] (List.replicate 99 0),
    .update 1 [2] (List.replicate 99 1), .update 0 [1] (List.replicate 49 7)]

/-- **A leaf is not always a list of records.** The update of the record in overflow pages needs
a compaction. -/
theorem LeafNode.not_refines :
    ∃ (Γ : PageScope) (b r : ℕ) (O : Multiset Obj) (s : TxState) (q : Nat)
    (ops : List LeafOp), Own Γ (b + LeafOp.roomFor Γ.P ops) r (.area q 1 ::ₘ O) s ∧
      ¬ Exec.Ok (LeafNode.build Γ.env q) s fun _ s₀ =>
        Exec.Refines (LeafOp.exec Γ.env q) (LeafOp.behaviour Γ.P) (LeafOp.Valid Γ.P q)
          (LeafShows Γ.env q) ops [] s₀ := by
  refine ⟨layoutScope smallEnv smallEnv_ok freshMeta 0, 0, kPageInvalidId, 0, freshPage, 2,
    compactingCalls, own_freshPage (by decide +kernel), ?_⟩
  rintro ⟨_, s₀, hbuild, h₀⟩
  obtain rfl : (LeafNode.build smallEnv 2 freshPage).2 = s₀ := (Prod.mk.inj hbuild).2
  have hvalid : ∀ {i : Nat} {key value : Bytes} {s : TxState} (count : Nat),
      (s.pager.pages 2).asNode.map Node.count = some count → i < count →
      Admissible 256 key value → LeafOp.Valid 256 2 (.update i key value) s := by
    intro i key value s count hcount hi hadm n hn
    rw [hn] at hcount
    have hn' : n.count = count := Option.some.inj hcount
    exact ⟨hn' ▸ hi, hadm⟩
  have hsize : ∀ (m : Nat) {x y : UInt8}, m ≤ 256 → Admissible 256 [x] (List.replicate m y) :=
    fun _ _ _ hm =>
    admissible_small (Nat.le_add_left 1 255) (List.length_replicate.trans_le hm)
  obtain ⟨-, _, h₁⟩ := h₀.next fun n _ => hsize 200 (by decide)
  obtain ⟨-, _, h₂⟩ := h₁.next fun n _ => hsize 99 (by decide)
  obtain ⟨-, _, h₃⟩ := h₂.next (hvalid 2 (by decide +kernel) (by decide) (hsize 99 (by decide)))
  obtain ⟨⟨ok, h₄⟩, -⟩ := h₃.next (hvalid 2 (by decide +kernel) (by decide) (hsize 49 (by decide)))
  have herror : (LeafOp.exec smallEnv 2 (.update 0 [1] (List.replicate 49 7))
      (LeafOp.exec smallEnv 2 (.update 1 [2] (List.replicate 99 1))
        (LeafOp.exec smallEnv 2 (.append [2] (List.replicate 99 0))
          (LeafOp.exec smallEnv 2 (.append [1] (List.replicate 200 7))
            (LeafNode.build smallEnv 2 freshPage).2).2).2).2).1 = .error .assertion := by
              decide +kernel
  cases herror.symm.trans h₄

end Example

end AtomKV
