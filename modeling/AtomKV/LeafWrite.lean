import AtomKV.NodeWrite

/-!
# Writing leaves

Insertion, deletion and the bucket flag, on a leaf whose records are `es₁ ++ es₂` with the
slot at issue between the two parts. An insertion is refused exactly when slot and record do
not fit any more.
-/

set_option autoImplicit false

namespace AtomKV

/-- The space a record takes in its node. -/
def recordStub (P : Nat) (key value : Bytes) : Nat := Node.stubSize P (key.length + value.length)

theorem Entry.stub_eq (P : Nat) (e : Entry) : e.stub P = recordStub P e.key e.value := rfl

/-- A node with the records `es` can take one more. -/
def Fits (P : Nat) (es : List Entry) (key value : Bytes) : Prop :=
  fill P es + 8 + recordStub P key value ≤ P - 18

instance (P : Nat) (es : List Entry) (key value : Bytes) : Decidable (Fits P es key value) :=
  inferInstanceAs (Decidable (_ ≤ _))

/-- One more slot leaves something of the page. -/
def SlotFits (P : Nat) (es : List Entry) : Prop := 18 + 8 * (es.length + 1) < P

instance (P : Nat) (es : List Entry) : Decidable (SlotFits P es) :=
  inferInstanceAs (Decidable (_ < _))

/-- In a page of a multiple of eight bytes, a record that fits leaves room for its slot. -/
theorem Fits.slotFits {P : Nat} (hP : PageSizeOk P) {es : List Entry} {key value : Bytes}
    (h : Fits P es key value) : SlotFits P es := by
  have hdvd := hP.dvd
  have hmin := hP.min
  unfold Fits fill at h
  unfold SlotFits
  omega

/-- A record that fits while its slot ends at the end of the page or behind it. -/
def Node.FillsUp (P : Nat) (n : Node) (key value : Bytes) : Prop :=
  n.slotBytes + 8 + n.spaceUsed + recordStub P key value ≤ P ∧ P ≤ n.slotBytes + 8

/-- When a record fits and its slot does not, all is slots: the record is empty. -/
theorem Fits.eq_nil {P : Nat} (hP : PageRange P) {es : List Entry} {key value : Bytes}
    (h : Fits P es key value) (hslots : ¬ SlotFits P es) : key = [] ∧ value = [] := by
  have hmin := hP.min
  unfold Fits fill at h
  unfold SlotFits at hslots
  have hstub : recordStub P key value = 0 := by omega
  unfold recordStub Node.stubSize kOverflowRecordSize at hstub
  split_ifs at hstub
  exact ⟨List.length_eq_zero_iff.1 (by omega), List.length_eq_zero_iff.1 (by omega)⟩

namespace NodeRep

variable {P : Nat} {v : NodeView} {n : Node}

/-- The request that an insertion makes is granted exactly when the record fits. -/
theorem granted_iff (h : NodeRep P v n) (hP : PageRange P) (key value : Bytes) :
    Node.spaceNeeded (Node.stubSize P (key.length + value.length)) true ≤
      P - n.slotBytes - n.spaceUsed ↔ Fits P v.entries key value := by
  have h1 := h.fill_eq
  have h2 := h.fill_le hP
  have h3 := hP.min
  show Node.stubSize P (key.length + value.length) + 8 ≤ _ ↔
    _ + 8 + Node.stubSize P (key.length + value.length) ≤ _
  unfold Node.slotBytes
  omega

/-- The records take no more than the page. -/
theorem slotsSpace_le (h : NodeRep P v n) : Node.slotsSpace n.isLeaf n.slots ≤ P := by
  have hused := h.sized.used
  have hlo := h.sized.lo
  have hhi := h.sized.hi
  omega

/-- A granted request in the ledger. -/
theorem request_ledger {n' : Node} (h : NodeRep P v n) (hP : PageRange P) {keySize valueSize : Nat}
    {slotNeeded : Bool} (hreq : n.requestSpaceFor P keySize valueSize slotNeeded = .ok (true, n')) :
    n'.ledger = n.ledger.request P
      (Node.spaceNeeded (Node.stubSize P (keySize + valueSize)) slotNeeded) :=
  Node.requestSpaceFor_ledger hP h.sized.toBounded h.slotsSpace_le hreq

/-- The two conditions on an insertion, read off the header. -/
theorem fillsUp_iff (h : NodeRep P v n) (hP : PageRange P) (key value : Bytes) :
    n.FillsUp P key value ↔ Fits P v.entries key value ∧ ¬ SlotFits P v.entries := by
  have hmin := hP.min
  have hspace := h.spaceUsed_eq
  have hbytes := h.slotBytes_eq
  unfold Node.FillsUp Fits SlotFits fill
  omega

/-- A node whose request for an insertion was granted, with a slot for the record made. -/
theorem vacant {n' : Node} {l₁ l₂ : List Slot} {slot : Slot} (h : NodeRep P v n)
    (es₁ es₂ : List Entry) (key value : Bytes) (hv : v.entries = es₁ ++ es₂)
    (hslots : SlotFits P (es₁ ++ es₂))
    (hroom : (n.slotBytes : Int) + Node.spaceNeeded (Node.stubSize P (key.length + value.length))
      true ≤ n.dataOffset)
    (hn' : n'.slots = l₁ ++ slot :: l₂)
    (hspans : Node.spans n'.isLeaf (l₁ ++ l₂) = Node.spans n.isLeaf n.slots)
    (hspace : Node.slotsSpace n'.isLeaf (l₁ ++ l₂) = entriesSpace P (es₁ ++ es₂))
    (hused : n'.spaceUsed = n.spaceUsed) (hoff : n'.dataOffset = n.dataOffset) :
    Own.Vacant P n' l₁ slot l₂ (Node.stubSize P (key.length + value.length)) := by
  have hlen : (l₁ ++ l₂).length = n.slots.length := by
    simpa [Node.spans] using congrArg List.length hspans
  have hbytes : n'.slotBytes = n.slotBytes + 8 := by
    unfold Node.slotBytes Node.count
    rw [hn']
    rw [List.length_append] at hlen
    rw [List.length_append, List.length_cons, ← hlen]
    omega
  have h1 := h.sized.hi
  have h2 : (n'.slotBytes : Int) + Node.stubSize P (key.length + value.length) ≤ n'.dataOffset := by
    have : Node.spaceNeeded (Node.stubSize P (key.length + value.length)) true =
      Node.stubSize P (key.length + value.length) + 8 := rfl
    omega
  have h3 : n'.slotBytes < P := by
    have := h.slotBytes_eq
    rw [hv] at this
    unfold SlotFits at hslots
    omega
  refine ⟨hn', ⟨by omega, by omega, h3⟩, ?_, ?_, h2⟩
  · rw [hused, h.spaceUsed_eq, hv, hspace]
  · rw [hoff, hspans]
    exact h.sized.laid

end NodeRep

/-- The slots of a leaf around the record `e`. -/
structure NodeRep.LeafSlots (P : Nat) (n : Node) (es₁ : List Entry) (e : Entry) (es₂ : List Entry)
    (l₁ : List Slot) (slot : Slot) (l₂ : List Slot) : Prop where
  slots : n.slots = l₁ ++ slot :: l₂
  length : l₁.length = es₁.length
  heads₁ : l₁.map Slot.head = es₁.map (Entry.head P)
  head : slot.head = e.head P
  heads₂ : l₂.map Slot.head = es₂.map (Entry.head P)
  parts₁ : l₁.map Slot.leafPart = es₁.map Entry.leafPart
  part : slot.leafPart = e.leafPart
  parts₂ : l₂.map Slot.leafPart = es₂.map Entry.leafPart

theorem NodeRep.leaf_slots {P t : Nat} {n : Node} {es₁ es₂ : List Entry} {e : Entry}
    (h : NodeRep P (.leaf t (es₁ ++ e :: es₂)) n) :
    ∃ l₁ slot l₂, NodeRep.LeafSlots P n es₁ e es₂ l₁ slot l₂ := by
  obtain ⟨l₁, slot, l₂, hl, h1, h2, h3, hlen⟩ := h.split_cons rfl
  have htail : l₁.map Slot.leafPart ++ slot.leafPart :: l₂.map Slot.leafPart =
      es₁.map Entry.leafPart ++ e.leafPart :: es₂.map Entry.leafPart := by
    have := h.body.2
    rw [hl, List.map_append, List.map_append, List.map_cons, List.map_cons] at this
    exact this
  obtain ⟨t1, t2⟩ := List.append_inj htail (by simp [hlen])
  obtain ⟨t2, t3⟩ := List.cons.inj t2
  exact ⟨l₁, slot, l₂, hl, hlen, h1, h2, h3, t1, t2, t3⟩

theorem NodeRep.spans_erase (isLeaf : Bool) (l₁ l₂ : List Slot) (slot : Slot) :
    (Node.spans isLeaf (l₁ ++ l₂)).Sublist (Node.spans isLeaf (l₁ ++ slot :: l₂)) :=
  ((List.Sublist.refl l₁).append (List.sublist_cons_self slot l₂)).map _

/-- A node with one record less, when the header's `space_used` was lowered by its space. -/
theorem NodeRep.erase {P : Nat} {v v' : NodeView} {n n' : Node} {es₁ es₂ : List Entry} {e : Entry}
    (h : NodeRep P v n) (hv : v.entries = es₁ ++ e :: es₂) (hv' : v'.entries = es₁ ++ es₂)
    (htxid : n'.lastModifiedTxid = v'.txid) (hoff : n'.dataOffset = n.dataOffset)
    (hused : n'.spaceUsed = entriesSpace P (es₁ ++ es₂))
    (hheads : n'.slots.map Slot.head = (es₁ ++ es₂).map (Entry.head P))
    (hspans : (Node.spans n'.isLeaf n'.slots).Sublist (Node.spans n.isLeaf n.slots))
    (hbody : BodyRep v'.entries v'.kids n') : NodeRep P v' n' := by
  have hlo := h.sized.lo
  have hhi := h.sized.hi
  have hspace := h.spaceUsed_eq
  have hbytes := h.slotBytes_eq
  have hcount : n'.slots.length = (es₁ ++ es₂).length := by simpa using congrArg List.length hheads
  simp only [hv, entriesSpace_append, entriesSpace_cons] at hspace
  simp only [hv, List.length_append, List.length_cons] at hbytes
  simp only [entriesSpace_append] at hused
  simp only [List.length_append] at hcount
  -- What a slot counts depends on the kind of node, and the kind is the one that `kids` says.
  have hspace' : Node.slotsSpace n'.isLeaf n'.slots = entriesSpace P (es₁ ++ es₂) := by
    rw [hv'] at hbody
    refine slotsSpace_eq hheads (fun hl => ?_) fun hl => ?_
    · cases hk : v'.kids with
      | none =>
        rw [hk] at hbody
        have := congrArg (List.map Prod.fst) hbody.2
        simpa [List.map_map, Function.comp_def, Slot.leafPart, Entry.leafPart] using this
      | some kids =>
        rw [hk] at hbody
        simp [Node.isLeaf, hbody.1] at hl
    · cases hk : v'.kids with
      | none =>
        rw [hk] at hbody
        simp [Node.isLeaf, hbody.1] at hl
      | some kids =>
        rw [hk] at hbody
        exact hbody.2.1
  have hlt := h.sized.lt
  refine ⟨⟨⟨?_, ?_, ?_⟩, ?_, ?_⟩, htxid, by rw [hv', hheads], fun e' he' => ?_, hbody⟩
  · unfold Node.slotBytes Node.count
    omega
  · omega
  · unfold Node.slotBytes Node.count
    omega
  · rw [hspace', entriesSpace_append]
    exact hused
  · rw [hoff]
    exact h.sized.laid.sublist hspans
  · rw [hv'] at he'
    refine h.admissible e' ?_
    rw [hv]
    rcases List.mem_append.1 he' with he' | he'
    · exact List.mem_append_left _ he'
    · exact List.mem_append_right _ (List.mem_cons_of_mem _ he')

namespace Own

variable {Γ : PageScope} {b r : ℕ} {O : Multiset Obj} {s : TxState} {q t : Nat}
  {es₁ es₂ : List Entry} {key value : Bytes}

/-- The runs of a node with one record more. -/
theorem recordsOf_insert (P : Nat) (e : Entry) (es₁ es₂ : List Entry) :
    recordsOf P (es₁ ++ e :: es₂) = recordsOf P [e] + recordsOf P (es₁ ++ es₂) := by
  rw [recordsOf_append, recordsOf_cons, recordsOf_append]
  abel

theorem recordsOf_setBucket (P : Nat) (e : Entry) (bucket : Bool) :
    recordsOf P [{ e with isBucket := bucket }] = recordsOf P [e] := by
  by_cases he : Node.maxInline P < e.size
  · rw [recordsOf_cons_overflow P he,
      recordsOf_cons_overflow P (e := { e with isBucket := bucket }) he]
  · rw [recordsOf_cons_inline P he, recordsOf_cons_inline P (e := { e with isBucket := bucket }) he]

theorem leafInsert_ok
    (h : Own Γ (b + recordPages Γ.P key value) r (.node q (.leaf t (es₁ ++ es₂)) ::ₘ O) s)
    (hq : ¬ Γ.keep q) (hadm : Admissible Γ.P key value) (hfit : Fits Γ.P (es₁ ++ es₂) key value)
    (hslots : SlotFits Γ.P (es₁ ++ es₂)) :
    Exec.Ok (LeafNode.insert Γ.env q es₁.length key value) s fun ok s' => ok = true ∧
      (∃ bucket run, Own Γ b r (.node q (.leaf t (es₁ ++ ⟨key, value, bucket, run⟩ :: es₂)) ::ₘ O)
        s') ∧ Books q (fun a => a.insert Γ.P es₁.length (recordStub Γ.P key value) key.length)
          s s' := by
  obtain ⟨n₀, hrep₀, hown⟩ := h.unfold_node
  obtain ⟨n, hreq, hcore, hsized₀, hroom⟩ :=
    Node.requestSpaceFor_ok Γ.hP hrep₀.sized key.length value.length true
  have hgrant := (hrep₀.granted_iff Γ.hP key value).2 hfit
  have hrep := hrep₀.of_core hcore hsized₀
  -- `RequestSpaceFor` may have compacted the page, so the slots are those of the node after it.
  obtain ⟨l₁, l₂, hl, h1, h2, hlen⟩ := hrep.split rfl
  set slot := n.slots.getD es₁.length .stale with hslot
  set n₁ : Node := { n with slots := l₁ ++ slot :: l₂ } with hn₁
  have htype : n.type = .kLeaf := hrep.body.1
  have hleaf₁ : n₁.isLeaf = true := by simp [Node.isLeaf, hn₁, htype]
  have hspace : Node.slotsSpace n₁.isLeaf (l₁ ++ l₂) = entriesSpace Γ.P (es₁ ++ es₂) := by
    have hu := hrep.sized.used
    rw [hrep.spaceUsed_eq, hl] at hu
    exact hu.symm
  have hvac : Vacant Γ.P n₁ l₁ slot l₂ (Node.stubSize Γ.P (key.length + value.length)) :=
    hrep.vacant es₁ es₂ key value rfl hslots (hroom hgrant) rfl (by rw [hl]; rfl) hspace rfl rfl
  obtain ⟨s₁, hset, h₁⟩ := hown.setNode hq n₁
  have hcount : es₁.length ≤ n₀.count := by
    rw [hrep₀.count_eq, List.length_append]
    omega
  -- The slot that is opened has stale contents, which `StoreRecord` overwrites but for the mark.
  have hinsert : { n with slots := n.slots.insertIdx es₁.length slot } = n₁ := by
    rw [hn₁, hl, ← hlen, ListAt.insertIdx_length]
  have hrun : LeafNode.insert Γ.env q es₁.length key value s =
      (do Node.storeRecord Γ.env q l₁.length key value; return true : TxM Bool) s₁ := by
    unfold LeafNode.insert assert
    rw [Exec.bind_of_ok hown.getNode, Exec.require_bind hcount, hreq, decide_eq_true hgrant,
      Exec.lift_ok_bind]
    show (do
      Pager.setNode q { n with slots := n.slots.insertIdx es₁.length slot }
      Node.storeRecord Γ.env q es₁.length key value
      pure true : TxM Bool) s = _
    rw [hinsert, Exec.bind_of_ok hset, hlen]
  obtain ⟨_, s₂, hstore, run, offset, d, n₂, hn₂, hledger, hsized, h₂⟩ :=
    h₁.storeRecord hq hvac hadm (fun hf => by rw [hleaf₁] at hf; cases hf)
  refine Exec.Ok.intro true s₂ ?_ ⟨rfl, ⟨slot.isBucket, run, ?_⟩, ?_⟩
  · rw [hrun, Exec.bind_of_ok hstore]
    rfl
  · rw [hleaf₁, if_pos rfl] at hn₂
    refine h₂.fold_node ?_ ?_
    · rw [recordsOf_insert, add_assoc]
    · have htail : l₁.map Slot.leafPart ++ l₂.map Slot.leafPart =
          es₁.map Entry.leafPart ++ es₂.map Entry.leafPart := by
        rw [← List.map_append, ← List.map_append, ← hl]
        exact hrep.body.2
      obtain ⟨t1, t2⟩ := List.append_inj htail (by simp [hlen])
      subst hn₂
      refine ⟨hsized, hrep.txid, ?_, ?_, htype, ?_⟩
      · simp only [Node.filled, List.map_append, List.map_cons, h1, h2]
        rfl
      · intro e he
        rcases List.mem_append.1 he with he | he
        · exact hrep.admissible e (List.mem_append_left _ he)
        · rcases List.mem_cons.1 he with rfl | he
          · exact .of_admissible hadm _ _
          · exact hrep.admissible e (List.mem_append_right _ he)
      · simp only [Node.filled, List.map_append, List.map_cons, t1, t2]
        rfl
  · refine Books.intro (hown.rep _ (Multiset.mem_cons_self _ _))
      (h₂.rep _ (Multiset.mem_cons_self _ _)) ?_
    have hrequest := hrep₀.request_ledger Γ.hP
      (hreq.trans (congrArg (fun ok => Except.ok (ok, n)) (decide_eq_true hgrant)))
    have hcells : (l₁ ++ l₂).map (Node.cell n₁.isLeaf) = n.slots.map (Node.cell n.isLeaf) := by
      rw [hl]
      rfl
    rw [hledger, Node.place_openSlot (n := n) hvac.slots hcells rfl rfl, hrequest, hlen]
    rfl

/-- The empty record whose slot ends at the end of the page. -/
theorem leafInsert_error (h : Own Γ b r (.node q (.leaf t (es₁ ++ es₂)) ::ₘ O) s) (hq : ¬ Γ.keep q)
    (hfit : Fits Γ.P (es₁ ++ es₂) key value) (hslots : ¬ SlotFits Γ.P (es₁ ++ es₂)) :
    Exec.Fails (LeafNode.insert Γ.env q es₁.length key value) s := by
  obtain ⟨rfl, rfl⟩ := hfit.eq_nil Γ.hP hslots
  obtain ⟨n₀, hrep₀, hown⟩ := h.unfold_node
  obtain ⟨n, hreq, hcore, hsized₀, -⟩ := Node.requestSpaceFor_ok Γ.hP hrep₀.sized 0 0 true
  have hgrant := (hrep₀.granted_iff Γ.hP [] []).2 hfit
  have hrep := hrep₀.of_core hcore hsized₀
  obtain ⟨l₁, l₂, hl, -, -, hlen⟩ := hrep.split rfl
  set slot := n.slots.getD es₁.length .stale with hslot
  obtain ⟨s₁, hset, h₁⟩ := hown.setNode hq { n with slots := n.slots.insertIdx es₁.length slot }
  have hinsert : n.slots.insertIdx es₁.length slot = l₁ ++ slot :: l₂ := by
    rw [hl, ← hlen, ListAt.insertIdx_length]
  have hfull : Γ.P ≤ Node.slotBytes { n with slots := n.slots.insertIdx es₁.length slot } := by
    have hcount : n.slots.length = (es₁ ++ es₂).length := hrep.count_eq
    unfold SlotFits at hslots
    unfold Node.slotBytes Node.count
    rw [hl] at hcount
    rw [hinsert]
    simp only [List.length_append, List.length_cons] at hcount hslots ⊢
    omega
  obtain ⟨err, s₂, hstore⟩ := h₁.storeRecord_error hq hinsert hfull
  have hcount : es₁.length ≤ n₀.count := by
    rw [hrep₀.count_eq, List.length_append]
    omega
  have hreq' : n₀.requestSpaceFor Γ.P ([] : Bytes).length ([] : Bytes).length true =
      .ok (true, n) :=
    hreq.trans (congrArg (fun ok => Except.ok (ok, n)) (decide_eq_true hgrant))
  refine ⟨err, s₂, ?_⟩
  unfold LeafNode.insert assert
  rw [Exec.bind_of_ok hown.getNode, Exec.require_bind hcount, hreq', Exec.lift_ok_bind]
  show (do
    Pager.setNode q { n with slots := n.slots.insertIdx es₁.length slot }
    Node.storeRecord Γ.env q es₁.length [] []
    pure true : TxM Bool) s = _
  rw [Exec.bind_of_ok hset, ← hlen, Exec.bind_of_error hstore]

theorem leafInsert_refused (h : Own Γ b r (.node q (.leaf t (es₁ ++ es₂)) ::ₘ O) s)
    (hfit : ¬ Fits Γ.P (es₁ ++ es₂) key value) :
    LeafNode.insert Γ.env q es₁.length key value s = (.ok false, s) := by
  obtain ⟨n, hrep, hget, -⟩ := h.read_node
  obtain ⟨n', hreq, -⟩ := Node.requestSpaceFor_ok Γ.hP hrep.sized key.length value.length true
  have hgrant := mt (hrep.granted_iff Γ.hP key value).1 hfit
  have hcount : es₁.length ≤ n.count := by
    rw [hrep.count_eq, List.length_append]
    omega
  unfold LeafNode.insert assert
  rw [Exec.bind_of_ok hget, Exec.require_bind hcount, hreq, decide_eq_false hgrant,
    Exec.lift_ok_bind]
  rfl

theorem leafSetIsBucket {e : Entry} (h : Own Γ b r (.node q (.leaf t (es₁ ++ e :: es₂)) ::ₘ O) s)
    (hq : ¬ Γ.keep q) (bucket : Bool) :
    ∃ s', LeafNode.setIsBucket q es₁.length bucket s = (.ok (), s') ∧
      Own Γ b r (.node q (.leaf t (es₁ ++ { e with isBucket := bucket } :: es₂)) ::ₘ O) s' ∧
      Books q id s s' := by
  obtain ⟨n, hrep, hown⟩ := h.unfold_node
  obtain ⟨l₁, slot, l₂, hl, hlen, h1, h2, h3, t1, t2, t3⟩ := hrep.leaf_slots
  obtain ⟨s', hset, h'⟩ := hown.setNode hq
    { n with slots := l₁ ++ { slot with isBucket := bucket } :: l₂ }
  have hledger : Node.ledger { n with slots := l₁ ++ { slot with isBucket := bucket } :: l₂ } =
      n.ledger := by
    rw [Node.ledger_of_slots hl]
    unfold Node.ledger
    rw [List.map_append, List.map_append]
    rfl
  refine ⟨s', ?_, h'.fold_node ?_ ?_, Books.intro (hown.rep _ (Multiset.mem_cons_self _ _))
    (h'.rep _ (Multiset.mem_cons_self _ _)) hledger⟩
  · unfold LeafNode.setIsBucket
    rw [Exec.bind_of_ok hown.getNode,
      getSlot_of_getElem? (show n.slots[es₁.length]? = some slot by simp [hl, ← hlen]),
      Exec.pure_bind_apply, hl, ← hlen, ListAt.set_length]
    exact hset
  · rw [recordsOf_insert, recordsOf_insert _ { e with isBucket := bucket },
      recordsOf_setBucket Γ.P e bucket]
  · have hused := hrep.sized.used
    rw [hl] at hused
    have hlaid := hrep.sized.laid
    rw [hl] at hlaid
    -- The mark is not counted in any space, so every bound is the one from before.
    refine ⟨⟨⟨?_, hrep.sized.hi, ?_⟩, ?_, ?_⟩, hrep.txid, ?_, ?_, hrep.body.1, ?_⟩
    · have := hrep.sized.lo
      simp only [Node.slotBytes, Node.count, hl, List.length_append, List.length_cons] at this ⊢
      exact this
    · have := hrep.sized.lt
      simp only [Node.slotBytes, Node.count, hl, List.length_append, List.length_cons] at this ⊢
      exact this
    · refine hused.trans ?_
      rw [Node.slotsSpace_append, Node.slotsSpace_append, Node.slotsSpace_cons,
        Node.slotsSpace_cons]
      rfl
    · rw [Node.spans_append] at hlaid
      show Spans.Laid _ _ (Node.spans _ (l₁ ++ _ :: l₂))
      rw [Node.spans_append]
      exact hlaid
    · simp only [List.map_append, List.map_cons, h1, h3]
      rw [show Slot.head { slot with isBucket := bucket } = slot.head from rfl, h2]
      rfl
    · intro e' he'
      rcases List.mem_append.1 he' with he' | he'
      · exact hrep.admissible e' (List.mem_append_left _ he')
      · rcases List.mem_cons.1 he' with rfl | he'
        · obtain ⟨k1, k2, k3⟩ := hrep.admissible e (List.mem_append_right _ List.mem_cons_self)
          exact ⟨k1, k2, k3⟩
        · exact hrep.admissible e' (List.mem_append_right _ (List.mem_cons_of_mem _ he'))
    · simp only [List.map_append, List.map_cons, t1, t3]
      rw [show Slot.leafPart { slot with isBucket := bucket } = (slot.leafPart.1, bucket) from rfl,
        t2]
      rfl

/-- The run of a record that is dropped: the part that is freed, and what is left of it.
`LeafNode::Delete` adds up key and value size in 32 bits, and frees as many pages as that sum needs.
-/
theorem freeRecord {e : Entry} (size : Nat) (h : Own Γ b r (recordsOf Γ.P [e] + O) s)
    (hover : Node.maxInline Γ.P < e.size) (hsize : size ≤ e.size) :
    ∃ s' G, Pager.free e.run (Pager.getPageCount Γ.P size) s = (.ok (), s') ∧ JunkOnly G ∧
      (size = e.size → G = 0) ∧ Own Γ b r (G + O) s' ∧ s'.pager.pages = s.pager.pages := by
  rw [recordsOf_cons_overflow Γ.P hover, recordsOf_nil, Multiset.cons_add, zero_add] at h
  have hspan : ∀ p, objCount Γ.P (.run e.run (e.key ++ e.value)) p =
      runCount (e.run, Pager.getPageCount Γ.P e.size) p := fun p => by
    rw [Entry.size, ← List.length_append]
    rfl
  have hpos : 0 < Pager.getPageCount Γ.P e.size := Pager.getPageCount_pos Γ.P_pos (by omega)
  have hle := (h.run_le hspan hpos).2
  have hmono := Pager.getPageCount_mono Γ.P_pos hsize
  have h₁ := h.toJunk hspan
  -- Where the sum of the sizes wrapped, the tail of the run stays behind and nothing names it.
  by_cases heq : size = e.size
  · subst heq
    obtain ⟨s', hfree, h', hpages⟩ := h₁.free hle
    exact ⟨s', 0, hfree, JunkOnly.zero, fun _ => rfl, by simpa using h', hpages⟩
  · obtain ⟨k, hk⟩ := Nat.exists_eq_add_of_le hmono
    rw [hk] at h₁ hle
    obtain ⟨s', hfree, h', hpages⟩ := h₁.splitJunk.free (by omega)
    refine ⟨s', {.junk (e.run + Pager.getPageCount Γ.P size) k}, hfree, JunkOnly.singleton _ _,
      fun h => absurd h heq, ?_, hpages⟩
    rw [Multiset.singleton_add]
    exact h'

theorem leafDelete {e : Entry} (h : Own Γ b r (.node q (.leaf t (es₁ ++ e :: es₂)) ::ₘ O) s)
    (hq : ¬ Γ.keep q) :
    ∃ s' G, LeafNode.delete Γ.env q es₁.length s = (.ok (), s') ∧ JunkOnly G ∧
      (e.size < 4294967296 → G = 0) ∧
      Own Γ b r (.node q (.leaf t (es₁ ++ es₂)) ::ₘ (G + O)) s' ∧
      Books q (fun a => a.delete es₁.length) s s' := by
  obtain ⟨n, hrep, hown⟩ := h.unfold_node
  obtain ⟨l₁, slot, l₂, hl, hlen, h1, h2, h3, t1, t2, t3⟩ := hrep.leaf_slots
  obtain ⟨hrecord, hkey⟩ := Prod.mk.inj h2
  obtain ⟨hword, -⟩ := Prod.mk.inj t2
  have hslot : n.getSlot es₁.length = pure slot := getSlot_of_getElem? (by simp [hl, ← hlen])
  have hsum : slot.keySize + slot.word = e.size := by rw [hkey, hword, Entry.size]
  have hstub : e.stub Γ.P ≤ n.spaceUsed ∧
      n.spaceUsed - e.stub Γ.P = entriesSpace Γ.P (es₁ ++ es₂) := by
    have := hrep.spaceUsed_eq
    simp only [entriesSpace_append, entriesSpace_cons] at this ⊢
    omega
  have hsmall : n.spaceUsed < 32768 := by
    have := hrep.sized.lo
    have := hrep.sized.hi
    have := Γ.hP.lt_max
    omega
  set n' : Node := { n with
    spaceUsed := entriesSpace Γ.P (es₁ ++ es₂), slots := l₁ ++ l₂ } with hn'
  have hrep' : NodeRep Γ.P (.leaf t (es₁ ++ es₂)) n' :=
    hrep.erase rfl rfl hrep.txid rfl rfl (by simp [hn', h1, h3])
      (by rw [hl]; exact NodeRep.spans_erase _ _ _ _) ⟨hrep.body.1, by simp [hn', t1, t3]⟩
  have hledger : n'.ledger = n.ledger.delete es₁.length := by
    have hsize : Node.recordSize n.isLeaf slot = e.stub Γ.P :=
      recordSize_eq h2 (fun _ => hword) fun hl => by rw [hrep.isLeaf_eq] at hl; cases hl
    rw [← hlen]
    exact Node.ledger_delete hl rfl rfl
      (by rw [hsize]; show entriesSpace Γ.P (es₁ ++ es₂) + _ = _; omega)
  have hbooks : ∀ s₂ O, Own Γ b r (.page q (.node n') ::ₘ O) s₂ →
      Books q (fun a => a.delete es₁.length) s s₂ :=
    fun s₂ O h₂ => Books.intro (hown.rep _ (Multiset.mem_cons_self _ _))
      (h₂.rep _ (Multiset.mem_cons_self _ _)) hledger
  -- Both branches of `Delete` subtract the space of the stub, each under its own name.
  have herase : ∀ d : Nat, d = e.stub Γ.P →
      { n with spaceUsed := u16 ((n.spaceUsed : Int) - d), slots := n.slots.eraseIdx es₁.length } =
        n' := by
    rintro d rfl
    have hu : u16 ((n.spaceUsed : Int) - e.stub Γ.P) = entriesSpace Γ.P (es₁ ++ es₂) := by
      unfold u16
      omega
    rw [hu, hl, ← hlen, ListAt.eraseIdx_length]
  have hlast : ∀ s₁ s₂, Pager.setNode q n' s₁ = (.ok (), s₂) →
      (do Pager.setNode q n'; Exec.lift (n'.checkLayout Γ.P) : TxM Unit) s₁ = (.ok (), s₂) :=
    fun s₁ s₂ hset => by
      rw [Exec.bind_of_ok hset, hrep'.sized.checkLayout Γ.hP]
      rfl
  by_cases hover : Node.maxInline Γ.P < e.size
  · have hown' : Own Γ b r (recordsOf Γ.P [e] +
        (.page q (.node n) ::ₘ (recordsOf Γ.P (es₁ ++ es₂) + O))) s := by
      refine hown.perm ?_
      show _ ::ₘ (recordsOf Γ.P (es₁ ++ e :: es₂) + O) = _
      rw [recordsOf_insert, ← Multiset.singleton_add, ← Multiset.singleton_add]
      abel
    obtain ⟨s₁, G, hfree, hG, hG0, h₁, hpages⟩ :=
      hown'.freeRecord (u32 e.size) hover (Nat.mod_le _ _)
    have h₁' : Own Γ b r (.page q (.node n) ::ₘ (G + (recordsOf Γ.P (es₁ ++ es₂) + O))) s₁ := by
      refine h₁.perm ?_
      rw [← Multiset.singleton_add, ← Multiset.singleton_add]
      abel
    obtain ⟨s₂, hset, h₂⟩ := h₁'.setNode hq n'
    refine ⟨s₂, G, ?_, hG, fun hlt => hG0 (u32_of_lt hlt), h₂.fold_node (by abel) hrep',
      hbooks s₂ _ h₂⟩
    unfold LeafNode.delete
    rw [Exec.bind_of_ok hown.getNode, hslot, Exec.pure_bind_apply]
    simp only [hrecord.trans (if_pos hover), hsum]
    rw [Exec.bind_of_ok hfree, Exec.pure_bind_apply]
    simp only [herase _ (if_pos hover).symm]
    exact hlast s₁ s₂ hset
  · have hown' : Own Γ b r (.page q (.node n) ::ₘ (recordsOf Γ.P (es₁ ++ es₂) + O)) s := by
      refine hown.perm ?_
      show _ ::ₘ (recordsOf Γ.P (es₁ ++ e :: es₂) + O) = _
      rw [recordsOf_insert, recordsOf_cons_inline Γ.P hover, recordsOf_nil, zero_add]
    -- A record in the page is shorter than a page, so the 32-bit sum is exact.
    have hu32 : u32 e.size = e.stub Γ.P := by
      have h5 : e.stub Γ.P = e.size := if_neg hover
      rw [h5]
      exact u32_of_lt (by omega)
    obtain ⟨s₂, hset, h₂⟩ := hown'.setNode hq n'
    refine ⟨s₂, 0, ?_, JunkOnly.zero, fun _ => rfl, h₂.fold_node (by rw [zero_add]) hrep',
      hbooks s₂ _ h₂⟩
    unfold LeafNode.delete
    rw [Exec.bind_of_ok hown.getNode, hslot, Exec.pure_bind_apply]
    simp only [hrecord.trans (if_neg hover), hsum]
    rw [Exec.pure_bind_apply]
    simp only [herase _ hu32]
    exact hlast s s₂ hset

/-- The first record of a leaf. -/
theorem leafDelete_first {e : Entry} {es : List Entry}
    (h : Own Γ b r (.node q (.leaf t (e :: es)) ::ₘ O) s) (hq : ¬ Γ.keep q) :
    ∃ s' G, LeafNode.delete Γ.env q 0 s = (.ok (), s') ∧ JunkOnly G ∧
      (e.size < 4294967296 → G = 0) ∧ Own Γ b r (.node q (.leaf t es) ::ₘ (G + O)) s' := by
  have h' : Own Γ b r (.node q (.leaf t ([] ++ e :: es)) ::ₘ O) s := h
  obtain ⟨s', G, hrun, hG, hG0, hown, -⟩ := h'.leafDelete hq
  exact ⟨s', G, hrun, hG, hG0, hown⟩

end Own

end AtomKV
