import AtomKV.LeafWrite

/-!
# Writing branches

Insertion, deletion and the child pointers of a branch. The children are listed from left to right,
the tail child last, so a branch with the keys `es₁ ++ es₂` has the children `ks₁ ++ c :: ks₂` where
`c` is the child between the two parts: inserting a key with its right child puts the child behind
`c`, inserting it with its left child puts the child before `c`.
-/

set_option autoImplicit false

namespace AtomKV

/-- The position of the child beside a key. -/
def childAt (slotId : Nat) (isRightChild : Bool) : Nat :=
  if isRightChild then slotId + 1 else slotId

namespace Own

variable {Γ : PageScope} {b r : ℕ} {O : Multiset Obj} {s : TxState} {q t : Nat}
  {es es₁ es₂ : List Entry} {kids ks₁ ks₂ : List Nat} {c child : Nat} {key : Bytes}

/-! ## Child pointers -/

/-- The records of a branch are as long as their slots' heads say. -/
theorem spans_branch {l l' : List Slot}
    (hoffsets : l'.map Slot.recordOffset = l.map Slot.recordOffset)
    (hheads : l'.map Slot.head = l.map Slot.head) : Node.spans false l' = Node.spans false l := by
  refine Node.spans_congr hoffsets ?_
  have key : ∀ m : List Slot, m.map (Node.recordSize false) = (m.map Slot.head).map fun head =>
      Node.recordSize false ⟨0, head.1, head.2, false, 0⟩ := fun m => by
    rw [List.map_map]
    rfl
  rw [key, key, hheads]

/-- A branch with other child pointers. -/
theorem withKids {n : Node} (h : Own Γ b r (.page q (.node n) ::ₘ (recordsOf Γ.P es + O)) s)
    (hq : ¬ Γ.keep q) (hrep : NodeRep Γ.P (.branch t es kids) n) (slots : List Slot) (tail : Nat)
    (kids' : List Nat)
    (hheads : slots.map Slot.head = n.slots.map Slot.head)
    (hoffsets : slots.map Slot.recordOffset = n.slots.map Slot.recordOffset)
    (hwords : slots.map Slot.word ++ [tail] = kids') :
    ∃ s', Pager.setNode q { n with slots := slots, tailChild := tail } s = (.ok (), s') ∧
      Own Γ b r (.node q (.branch t es kids') ::ₘ O) s' := by
  obtain ⟨s', hset, h'⟩ := h.setNode hq { n with slots := slots, tailChild := tail }
  refine ⟨s', hset, h'.fold_node rfl ?_⟩
  have hlen : slots.length = n.slots.length := by simpa using congrArg List.length hheads
  have hheads' : slots.map Slot.head = es.map (Entry.head Γ.P) := hheads.trans hrep.heads
  have hleaf : n.isLeaf = false := by simp [Node.isLeaf, hrep.body.1]
  refine ⟨⟨⟨?_, hrep.sized.hi, ?_⟩, ?_, ?_⟩, hrep.txid, hheads', hrep.admissible, hrep.body.1,
    hrep.body.2.1, hwords⟩
  · have := hrep.sized.lo
    simp only [Node.slotBytes, Node.count] at this ⊢
    rw [hlen]
    exact this
  · have := hrep.sized.lt
    simp only [Node.slotBytes, Node.count] at this ⊢
    rw [hlen]
    exact this
  · show n.spaceUsed = Node.slotsSpace n.isLeaf slots
    rw [hrep.spaceUsed_eq]
    exact (slotsSpace_eq hheads' (fun hl => by rw [hleaf] at hl; cases hl)
      fun _ => hrep.body.2.1).symm
  · show Spans.Laid Γ.P n.dataOffset (Node.spans n.isLeaf slots)
    have hlaid := hrep.sized.laid
    rw [hleaf] at hlaid ⊢
    rw [spans_branch hoffsets hheads]
    exact hlaid

theorem setTailChild (h : Own Γ b r (.node q (.branch t es (kids ++ [c])) ::ₘ O) s)
    (hq : ¬ Γ.keep q) (child : Nat) :
    ∃ s', BranchNode.setTailChild q child s = (.ok (), s') ∧
      Own Γ b r (.node q (.branch t es (kids ++ [child])) ::ₘ O) s' := by
  obtain ⟨n, hrep, hown⟩ := h.unfold_node
  obtain ⟨hwords, -⟩ := List.append_inj' hrep.body.2.2 rfl
  obtain ⟨s', hset, h'⟩ := hown.withKids hq hrep n.slots child (kids ++ [child]) rfl rfl
    (by rw [hwords])
  refine ⟨s', ?_, h'⟩
  unfold BranchNode.setTailChild
  rw [Exec.bind_of_ok hown.getNode]
  exact hset

/-- The slots of a branch, split where a child is. -/
theorem split_kids {n : Node} (hrep : NodeRep Γ.P (.branch t es (ks₁ ++ c :: ks₂)) n)
    (hlt : ks₁.length < es.length) :
    ∃ l₁ slot l₂, n.slots = l₁ ++ slot :: l₂ ∧ l₁.map Slot.word = ks₁ ∧ slot.word = c ∧
      l₂.map Slot.word ++ [n.tailChild] = ks₂ ∧ l₁.length = ks₁.length := by
  have hcount := hrep.count_eq
  have hlen : ks₁.length ≤ n.slots.length := by
    have : n.slots.length = es.length := hcount
    omega
  obtain ⟨l₁, l, hl, hl₁⟩ := ListAt.exists_split_le hlen
  have hwords := hrep.body.2.2
  rw [hl, List.map_append, List.append_assoc] at hwords
  obtain ⟨h1, h2⟩ := List.append_inj hwords (by rw [List.length_map, hl₁])
  cases l with
  | nil =>
    have : n.slots.length = es.length := hcount
    rw [hl, List.append_nil] at this
    omega
  | cons slot l₂ =>
    obtain ⟨h3, h4⟩ := List.cons.inj h2
    exact ⟨l₁, slot, l₂, hl, h1, h3, h4, hl₁⟩

theorem withLeftChild_eq {n : Node} {l₁ l₂ : List Slot} {slot : Slot}
    (hl : n.slots = l₁ ++ slot :: l₂) (child : Nat) (s : TxState) :
    BranchNode.withLeftChild n l₁.length child s =
      (.ok { n with slots := l₁ ++ { slot with word := child } :: l₂ }, s) := by
  unfold BranchNode.withLeftChild
  rw [getSlot_of_getElem? (show n.slots[l₁.length]? = some slot by simp [hl]),
    Exec.pure_bind_apply, hl]
  simp

theorem kids_length_of_own {kids : List Nat} (h : Own Γ b r (.node q (.branch t es kids) ::ₘ O) s) :
    kids.length = es.length + 1 := by
  obtain ⟨n, hrep, -⟩ := h.read_node
  exact kids_length hrep

theorem setLeftChild (h : Own Γ b r (.node q (.branch t es (ks₁ ++ c :: ks₂)) ::ₘ O) s)
    (hq : ¬ Γ.keep q) (child : Nat) :
    ∃ s', BranchNode.setLeftChild q ks₁.length child s = (.ok (), s') ∧
      Own Γ b r (.node q (.branch t es (ks₁ ++ child :: ks₂)) ::ₘ O) s' := by
  obtain ⟨n, hrep, hown⟩ := h.unfold_node
  have hkids := kids_length hrep
  have hcount : n.count = es.length := hrep.count_eq
  rw [List.length_append, List.length_cons] at hkids
  by_cases hlast : ks₁.length = n.count
  · obtain rfl : ks₂ = [] := List.length_eq_zero_iff.1 (by omega)
    obtain ⟨s', hset, h'⟩ := h.setTailChild hq child
    refine ⟨s', ?_, h'⟩
    unfold BranchNode.setLeftChild
    rw [Exec.bind_of_ok hown.getNode, if_pos hlast]
    exact hset
  · obtain ⟨l₁, slot, l₂, hl, h1, h2, h3, hlen⟩ := split_kids hrep (by omega)
    obtain ⟨s', hset, h'⟩ := hown.withKids hq hrep
      (l₁ ++ { slot with word := child } :: l₂) n.tailChild (ks₁ ++ child :: ks₂)
        (by simp [hl, Slot.head]) (by simp [hl])
      (by simp [h1, h3])
    refine ⟨s', ?_, h'⟩
    unfold BranchNode.setLeftChild
    rw [Exec.bind_of_ok hown.getNode, if_neg hlast, ← hlen,
      Exec.bind_of_ok (withLeftChild_eq hl child s)]
    exact hset

/-- Any child, the tail child included. -/
theorem setChild {k : Nat} (h : Own Γ b r (.node q (.branch t es kids) ::ₘ O) s) (hq : ¬ Γ.keep q)
    (hk : k ≤ es.length) (child : Nat) :
    ∃ s', BranchNode.setLeftChild q k child s = (.ok (), s') ∧
      Own Γ b r (.node q (.branch t es (kids.set k child)) ::ₘ O) s' := by
  have hlen := kids_length_of_own h
  obtain ⟨ks₁, c, ks₂, rfl, rfl⟩ := ListAt.exists_split_lt (i := k) (l := kids) (by omega)
  rw [ListAt.set_length]
  exact h.setLeftChild hq child

/-- The right child of a key is the left child of the next one. -/
theorem setRightChild_eq {k : Nat} (h : Own Γ b r (.node q (.branch t es kids) ::ₘ O) s)
    (hk : k < es.length) (child : Nat) : BranchNode.setRightChild q k child s =
      BranchNode.setLeftChild q (k + 1) child s := by
  obtain ⟨n, hrep, hget, -⟩ := h.read_node
  have hcount : n.count = es.length := hrep.count_eq
  unfold BranchNode.setRightChild BranchNode.setLeftChild assert
  rw [Exec.bind_of_ok hget, Exec.bind_of_ok hget, Exec.require_bind (by omega)]
  by_cases hlast : k + 1 = n.count
  · rw [if_pos (show k = n.count - 1 by omega), if_pos hlast]
  · rw [if_neg (show ¬ k = n.count - 1 by omega), if_neg hlast]

/-! ## Insertion -/

/-- The common end of both insertions: the slot is made, and the key is stored in it. -/
theorem branchStore {n₀ : Node} (n : Node) (l₁ : List Slot) (slot : Slot) (l₂ : List Slot)
    (tail : Nat) (kids' : List Nat) (h : Own Γ (b + recordPages Γ.P key []) r
      (.page q (.node n₀) ::ₘ (recordsOf Γ.P (es₁ ++ es₂) + O)) s) (hq : ¬ Γ.keep q)
    (hadm : Admissible Γ.P key []) (hrep : NodeRep Γ.P (.branch t (es₁ ++ es₂) kids) n)
    (hroom : (n.slotBytes : Int) + Node.spaceNeeded (Node.stubSize Γ.P key.length) true ≤
      n.dataOffset)
    (h1 : l₁.map Slot.head = es₁.map (Entry.head Γ.P))
    (h2 : l₂.map Slot.head = es₂.map (Entry.head Γ.P)) (hslots : SlotFits Γ.P (es₁ ++ es₂))
    (hspans : Node.spans false (l₁ ++ l₂) = Node.spans false n.slots)
    (hwords : l₁.map Slot.word ++ slot.word :: (l₂.map Slot.word ++ [tail]) = kids') :
    Exec.Ok (do
        Pager.setNode q { n with slots := l₁ ++ slot :: l₂, tailChild := tail }
        Node.storeRecord Γ.env q es₁.length key []
        return true : TxM Bool) s fun ok s' => ok = true ∧
      (∃ bucket run, Own Γ b r
        (.node q (.branch t (es₁ ++ ⟨key, [], bucket, run⟩ :: es₂) kids') ::ₘ O) s') ∧
        ∃ n', s'.pager.pages q = .node n' ∧
          n'.ledger = (n.ledger.openSlot es₁.length).place es₁.length (recordStub Γ.P key [])
            key.length := by
  have hlen : l₁.length = es₁.length := by simpa using congrArg List.length h1
  have htype : n.type = .kBranch := hrep.body.1
  -- The slot was opened and the children words were shifted; its record is not there yet.
  set n₁ : Node := { n with slots := l₁ ++ slot :: l₂, tailChild := tail } with hn₁
  have hleaf₁ : n₁.isLeaf = false := by simp [Node.isLeaf, hn₁, htype]
  have hspace : Node.slotsSpace n₁.isLeaf (l₁ ++ l₂) = entriesSpace Γ.P (es₁ ++ es₂) :=
    slotsSpace_eq (by rw [List.map_append, List.map_append, h1, h2])
      (fun hl => by rw [hleaf₁] at hl; cases hl) fun _ => hrep.body.2.1
  have hspans' : Node.spans n₁.isLeaf (l₁ ++ l₂) = Node.spans n.isLeaf n.slots := by
    rw [hleaf₁, show n.isLeaf = false from hleaf₁, hspans]
  have hvac : Vacant Γ.P n₁ l₁ slot l₂ (Node.stubSize Γ.P (key.length + ([] : Bytes).length)) :=
    hrep.vacant es₁ es₂ key [] rfl hslots hroom rfl hspans' hspace rfl rfl
  obtain ⟨s₁, hset, h₁⟩ := h.setNode hq n₁
  obtain ⟨_, s₂, hstore, run, offset, d, n₂, hn₂, hledger, hsized, h₂⟩ :=
    h₁.storeRecord hq hvac hadm fun _ => rfl
  -- The ledger reads the sizes of the records only, so the moved words do not show in it.
  have hcells : (l₁ ++ l₂).map (Node.cell n₁.isLeaf) = n.slots.map (Node.cell n.isLeaf) := by
    refine Node.cells_eq hspans' ?_
    have hheads : (l₁ ++ l₂).map Slot.head = n.slots.map Slot.head := by
      rw [hrep.heads, List.map_append, h1, h2]
      exact (List.map_append ..).symm
    simpa [List.map_map, Function.comp_def, Slot.head] using congrArg (List.map Prod.snd) hheads
  have hopen := Node.place_openSlot (n := n) hvac.slots hcells rfl rfl
    (recordStub Γ.P key []) key.length
  rw [hlen] at hopen hledger
  refine Exec.Ok.intro true s₂ ?_ ⟨rfl, ⟨slot.isBucket, run, h₂.fold_node ?_ ?_⟩, n₂,
    h₂.rep _ (Multiset.mem_cons_self _ _), hledger.trans hopen⟩
  · rw [Exec.bind_of_ok hset, ← hlen, Exec.bind_of_ok hstore]
    rfl
  · rw [recordsOf_insert, add_assoc]
  · rw [hleaf₁] at hn₂
    subst hn₂
    refine ⟨hsized, hrep.txid, ?_, ?_, htype, ?_, ?_⟩
    · simp only [Node.filled, List.map_append, List.map_cons, h1, h2]
      rfl
    · intro e he
      rcases List.mem_append.1 he with he | he
      · exact hrep.admissible e (List.mem_append_left _ he)
      · rcases List.mem_cons.1 he with rfl | he
        · exact .of_admissible hadm _ _
        · exact hrep.admissible e (List.mem_append_right _ he)
    · intro e he
      rcases List.mem_append.1 he with he | he
      · exact hrep.body.2.1 e (List.mem_append_left _ he)
      · rcases List.mem_cons.1 he with rfl | he
        · rfl
        · exact hrep.body.2.1 e (List.mem_append_right _ he)
    · rw [← hwords]
      simp [Node.filled, hn₁]

/-- What an insertion meets when its request is granted. -/
theorem branchGranted {n₀ : Node} (hrep₀ : NodeRep Γ.P (.branch t (es₁ ++ es₂) kids) n₀)
    (hfit : Fits Γ.P (es₁ ++ es₂) key []) :
    ∃ n, n₀.requestSpaceFor Γ.P key.length 0 true = .ok (true, n) ∧
      NodeRep Γ.P (.branch t (es₁ ++ es₂) kids) n ∧
      (n.slotBytes : Int) + Node.spaceNeeded (Node.stubSize Γ.P key.length) true ≤
        n.dataOffset := by
  obtain ⟨n, hreq, hcore, hsized, hroom⟩ :=
    Node.requestSpaceFor_ok Γ.hP hrep₀.sized key.length 0 true
  have hgrant := (hrep₀.granted_iff Γ.hP key []).2 hfit
  refine ⟨n, ?_, hrep₀.of_core hcore hsized, hroom hgrant⟩
  rw [hreq, decide_eq_true]
  exact hgrant

/-- Both forms of the insertion make room for a slot and move the child that the new key
does not name. -/
theorem branchInsert_begin {n₀ n : Node} (hget : Pager.getNode q s = (.ok n₀, s))
    (hle : es₁.length ≤ n₀.count) (hreq : n₀.requestSpaceFor Γ.P key.length 0 true = .ok (true, n))
    (hrep : NodeRep Γ.P (.branch t (es₁ ++ es₂) kids) n) (child : Nat) (isRightChild : Bool) :
    ∃ (l₁ : List Slot) (slot : Slot) (l₂ : List Slot) (tail : Nat), l₁.map Slot.head =
      es₁.map (Entry.head Γ.P) ∧ l₂.map Slot.head = es₂.map (Entry.head Γ.P) ∧
      Node.spans false (l₁ ++ l₂) = Node.spans false n.slots ∧
      l₁.map Slot.word ++ slot.word :: (l₂.map Slot.word ++ [tail]) =
        kids.insertIdx (childAt es₁.length isRightChild) child ∧
      BranchNode.insert Γ.env q es₁.length key child isRightChild s = (do
        Pager.setNode q { n with slots := l₁ ++ slot :: l₂, tailChild := tail }
        Node.storeRecord Γ.env q es₁.length key []
        return true : TxM Bool) s := by
  obtain ⟨l₁, l₂, hl, h1, h2, hlen⟩ := hrep.split rfl
  have hcount : n.count = es₁.length + es₂.length := by
    rw [hrep.count_eq, List.length_append]
  have hwords : l₁.map Slot.word ++ (l₂.map Slot.word ++ [n.tailChild]) = kids := by
    rw [← hrep.body.2.2, hl, List.map_append, List.append_assoc]
  have hlen' : (l₁.map Slot.word).length = es₁.length := by rw [List.length_map, hlen]
  set slot := n.slots.getD es₁.length .stale with hslot
  cases isRightChild with
  | false =>
    refine ⟨l₁, { slot with word := child }, l₂, n.tailChild, h1, h2, by rw [hl], ?_, ?_⟩
    · rw [← hwords, ← hlen']
      exact (ListAt.insertIdx_length _ _ _).symm
    · unfold BranchNode.insert assert
      rw [Exec.bind_of_ok hget, Exec.require_bind hle, hreq, Exec.lift_ok_bind]
      show (do
        Pager.setNode q { n with slots := n.slots.insertIdx es₁.length { slot with word := child } }
        Node.storeRecord Γ.env q es₁.length key []
        pure true : TxM Bool) s = _
      rw [hl, ← hlen, ListAt.insertIdx_length]
  | true =>
    cases l₂ with
    | nil =>
      -- the new key is the last one: its left child is the old tail child
      obtain rfl : es₂ = [] := by simpa using h2.symm
      refine ⟨l₁, { slot with word := n.tailChild }, [], child, h1, h2, by rw [hl], ?_, ?_⟩
      · rw [← hwords, ← hlen']
        exact (ListAt.insertIdx_length_succ _ _ _ _).symm
      · have hlast : es₁.length = n.count := by simpa using hcount.symm
        unfold BranchNode.insert assert
        rw [Exec.bind_of_ok hget, Exec.require_bind hle, hreq, Exec.lift_ok_bind]
        simp only [Bool.not_true, Bool.false_eq_true, if_false, if_true, if_pos hlast, ← hslot]
        rw [Exec.pure_bind_apply, hl, List.append_nil]
    | cons moved l₂ =>
      obtain ⟨e, es₂, rfl⟩ : ∃ e es', es₂ = e :: es' := by
        cases es₂ with
        | nil => simp at h2
        | cons e es' => exact ⟨e, es', rfl⟩
      have hmoved : n.getSlot es₁.length = pure moved := getSlot_of_getElem? (by simp [hl, ← hlen])
      refine ⟨l₁, { slot with word := moved.word }, { moved with word := child } :: l₂, n.tailChild,
        h1, by rw [← h2]; rfl, by rw [hl, Node.spans_append, Node.spans_append]; rfl, ?_, ?_⟩
      · rw [← hwords, ← hlen']
        exact (ListAt.insertIdx_length_succ _ _ _ _).symm
      · have hlast : ¬ es₁.length = n.count := by
          rw [hcount, List.length_cons]
          omega
        unfold BranchNode.insert assert
        rw [Exec.bind_of_ok hget, Exec.require_bind hle, hreq, Exec.lift_ok_bind]
        simp only [Bool.not_true, Bool.false_eq_true, if_false, if_true, if_neg hlast, ← hslot]
        rw [hmoved, Exec.pure_bind_apply, Exec.pure_bind_apply, hl, ← hlen, ListAt.set_length,
          ListAt.insertIdx_length, hlen]

/-- **`BranchNode::Insert`**, with room for the key. -/
theorem branchInsert_ok
    (h : Own Γ (b + recordPages Γ.P key []) r (.node q (.branch t (es₁ ++ es₂) kids) ::ₘ O) s)
    (hq : ¬ Γ.keep q) (hadm : Admissible Γ.P key []) (hfit : Fits Γ.P (es₁ ++ es₂) key [])
    (hslots : SlotFits Γ.P (es₁ ++ es₂)) (child : Nat) (isRightChild : Bool) :
    Exec.Ok (BranchNode.insert Γ.env q es₁.length key child isRightChild) s fun ok s' => ok = true ∧
      (∃ bucket run, Own Γ b r (.node q (.branch t (es₁ ++ ⟨key, [], bucket, run⟩ :: es₂)
        (kids.insertIdx (childAt es₁.length isRightChild) child)) ::ₘ O) s') ∧
        Books q (fun a => a.insert Γ.P es₁.length (recordStub Γ.P key []) key.length) s s' := by
  obtain ⟨n₀, hrep₀, hown⟩ := h.unfold_node
  obtain ⟨n, hreq, hrep, hroom⟩ := branchGranted hrep₀ hfit
  have hle : es₁.length ≤ n₀.count := by
    rw [hrep₀.count_eq, List.length_append]
    omega
  obtain ⟨l₁, slot, l₂, tail, h1, h2, hspans, hwords, hrun⟩ :=
    branchInsert_begin hown.getNode hle hreq hrep child isRightChild
  obtain ⟨ok, s', hstore, hok, hown', n', hn', hledger⟩ :=
    branchStore n l₁ slot l₂ tail _ hown hq hadm hrep hroom h1 h2 hslots hspans hwords
  have hrequest := hrep₀.request_ledger Γ.hP hreq
  refine Exec.Ok.intro ok s' (hrun.trans hstore)
    ⟨hok, hown', Books.intro (hown.rep _ (Multiset.mem_cons_self _ _)) hn' ?_⟩
  rw [hledger, hrequest]
  rfl

theorem branchInsert_left
    (h : Own Γ (b + recordPages Γ.P key []) r
      (.node q (.branch t (es₁ ++ es₂) (ks₁ ++ c :: ks₂)) ::ₘ O) s) (hq : ¬ Γ.keep q)
    (hks : ks₁.length = es₁.length) (hadm : Admissible Γ.P key [])
    (hfit : Fits Γ.P (es₁ ++ es₂) key []) (hslots : SlotFits Γ.P (es₁ ++ es₂)) (child : Nat) :
    Exec.Ok (BranchNode.insert Γ.env q es₁.length key child false) s fun ok s' => ok = true ∧
      ∃ bucket run, Own Γ b r
        (.node q (.branch t (es₁ ++ ⟨key, [], bucket, run⟩ :: es₂)
          (ks₁ ++ child :: c :: ks₂)) ::ₘ O) s' := by
  have hkids : (ks₁ ++ c :: ks₂).insertIdx (childAt es₁.length false) child =
      ks₁ ++ child :: c :: ks₂ := by
    rw [← hks]
    exact ListAt.insertIdx_length ks₁ (c :: ks₂) child
  rw [← hkids]
  exact (h.branchInsert_ok hq hadm hfit hslots child _).imp fun _ _ ⟨hok, hown, _⟩ => ⟨hok, hown⟩

theorem branchInsert_right
    (h : Own Γ (b + recordPages Γ.P key []) r
      (.node q (.branch t (es₁ ++ es₂) (ks₁ ++ c :: ks₂)) ::ₘ O) s) (hq : ¬ Γ.keep q)
    (hks : ks₁.length = es₁.length) (hadm : Admissible Γ.P key [])
    (hfit : Fits Γ.P (es₁ ++ es₂) key []) (hslots : SlotFits Γ.P (es₁ ++ es₂)) (child : Nat) :
    Exec.Ok (BranchNode.insert Γ.env q es₁.length key child true) s fun ok s' => ok = true ∧
      ∃ bucket run, Own Γ b r
        (.node q (.branch t (es₁ ++ ⟨key, [], bucket, run⟩ :: es₂)
          (ks₁ ++ c :: child :: ks₂)) ::ₘ O) s' := by
  have hkids : (ks₁ ++ c :: ks₂).insertIdx (childAt es₁.length true) child =
      ks₁ ++ c :: child :: ks₂ := by
    rw [← hks]
    exact ListAt.insertIdx_length_succ ks₁ ks₂ c child
  rw [← hkids]
  exact (h.branchInsert_ok hq hadm hfit hslots child _).imp fun _ _ ⟨hok, hown, _⟩ => ⟨hok, hown⟩

/-- The empty key whose slot ends at the end of the page. -/
theorem branchInsert_error (h : Own Γ b r (.node q (.branch t (es₁ ++ es₂) kids) ::ₘ O) s)
    (hq : ¬ Γ.keep q) (hfit : Fits Γ.P (es₁ ++ es₂) key []) (hslots : ¬ SlotFits Γ.P (es₁ ++ es₂))
    (child : Nat) (isRightChild : Bool) :
      Exec.Fails (BranchNode.insert Γ.env q es₁.length key child isRightChild) s := by
  obtain ⟨rfl, -⟩ := hfit.eq_nil Γ.hP hslots
  obtain ⟨n₀, hrep₀, hown⟩ := h.unfold_node
  obtain ⟨n, hreq, hrep, -⟩ := branchGranted hrep₀ hfit
  have hle : es₁.length ≤ n₀.count := by
    rw [hrep₀.count_eq, List.length_append]
    omega
  obtain ⟨l₁, slot, l₂, tail, h1, h2, -, -, hrun⟩ :=
    branchInsert_begin hown.getNode hle hreq hrep child isRightChild
  have hlen₁ : l₁.length = es₁.length := by simpa using congrArg List.length h1
  have hlen₂ : l₂.length = es₂.length := by simpa using congrArg List.length h2
  obtain ⟨s₁, hset, h₁⟩ := hown.setNode hq { n with slots := l₁ ++ slot :: l₂, tailChild := tail }
  have hfull : Γ.P ≤ Node.slotBytes { n with slots := l₁ ++ slot :: l₂, tailChild := tail } := by
    unfold SlotFits at hslots
    unfold Node.slotBytes Node.count
    simp only [List.length_append, List.length_cons] at hslots ⊢
    omega
  obtain ⟨err, s₂, hstore⟩ := h₁.storeRecord_error hq rfl hfull
  refine ⟨err, s₂, hrun.trans ?_⟩
  rw [Exec.bind_of_ok hset, ← hlen₁, Exec.bind_of_error hstore]

theorem branchInsert_refused {isRightChild : Bool}
    (h : Own Γ b r (.node q (.branch t (es₁ ++ es₂) kids) ::ₘ O) s)
    (hfit : ¬ Fits Γ.P (es₁ ++ es₂) key []) (child : Nat) :
    BranchNode.insert Γ.env q es₁.length key child isRightChild s = (.ok false, s) := by
  obtain ⟨n, hrep, hget, -⟩ := h.read_node
  obtain ⟨n', hreq, -⟩ := Node.requestSpaceFor_ok Γ.hP hrep.sized key.length 0 true
  have hgrant := mt (hrep.granted_iff Γ.hP key []).1 hfit
  have hcount : es₁.length ≤ n.count := by
    rw [hrep.count_eq, List.length_append]
    omega
  have hreq' : n.requestSpaceFor Γ.P key.length 0 true = .ok (false, n') := by
    rw [hreq, decide_eq_false]
    exact hgrant
  unfold BranchNode.insert assert
  rw [Exec.bind_of_ok hget, Exec.require_bind hcount, hreq', Exec.lift_ok_bind]
  rfl

/-! ## Deletion -/

/-- What a deletion needs to know about the slot that goes. -/
theorem branchDelete_aux {e : Entry} {n : Node} {kids' : List Nat}
    (hown : Own Γ b r (.page q (.node n) ::ₘ (recordsOf Γ.P (es₁ ++ e :: es₂) + O)) s)
    (hq : ¬ Γ.keep q) (hrep : NodeRep Γ.P (.branch t (es₁ ++ e :: es₂) kids) n) {rightChild : Bool}
    {l₁ l₂ : List Slot} {slot : Slot} (l₂' : List Slot) (tail : Nat)
    (hl : n.slots = l₁ ++ slot :: l₂) (h1 : l₁.map Slot.head = es₁.map (Entry.head Γ.P))
    (h2 : slot.head = e.head Γ.P) (h3 : l₂'.map Slot.head = es₂.map (Entry.head Γ.P))
    (hspans : Node.spans false l₂' = Node.spans false l₂)
    (hwords : l₁.map Slot.word ++ (l₂'.map Slot.word ++ [tail]) = kids')
    (hshift : ∀ (u : Nat) (f : Node → TxM Unit) (s₁ : TxState),
      (if rightChild = true then
          if es₁.length + 1 < n.count then do
            let n ← BranchNode.withLeftChild { n with spaceUsed := u } (es₁.length + 1) slot.word
            let n ← pure { n with slots := n.slots.eraseIdx es₁.length }
            f n
          else do
            let n ← pure { n with
              spaceUsed := u, tailChild := slot.word, slots := n.slots.eraseIdx es₁.length }
            f n
        else do
          let n ← pure { n with spaceUsed := u, slots := n.slots.eraseIdx es₁.length }
          f n : TxM Unit) s₁ =
        f { n with spaceUsed := u, tailChild := tail, slots := l₁ ++ l₂' } s₁) :
    ∃ s', BranchNode.delete Γ.env q es₁.length rightChild s = (.ok (), s') ∧
      Own Γ b r (.node q (.branch t (es₁ ++ es₂) kids') ::ₘ O) s' ∧
        Books q (fun a => a.delete es₁.length) s s' := by
  have hlen : l₁.length = es₁.length := by simpa using congrArg List.length h1
  obtain ⟨hrecord, hkey⟩ := Prod.mk.inj h2
  have hslot : n.getSlot es₁.length = pure slot := getSlot_of_getElem? (by simp [hl, ← hlen])
  have hvalue : e.value = [] :=
    hrep.body.2.1 e (List.mem_append_right _ List.mem_cons_self)
  have hsize : slot.keySize = e.size := by
    rw [hkey, Entry.size, hvalue, List.length_nil, Nat.add_zero]
  -- `space_used` covers what is taken off it, so the 16-bit subtraction does not wrap.
  have hstub : e.stub Γ.P ≤ n.spaceUsed ∧
      n.spaceUsed - e.stub Γ.P = entriesSpace Γ.P (es₁ ++ es₂) := by
    have := hrep.spaceUsed_eq
    simp only [entriesSpace_append, entriesSpace_cons] at this ⊢
    omega
  have hsmall : n.spaceUsed < 32768 := by
    have := hrep.sized.lo
    have := hrep.sized.hi
    have := Γ.hP.lt_max
    omega
  have hu : u16 ((n.spaceUsed : Int) - e.stub Γ.P) = entriesSpace Γ.P (es₁ ++ es₂) := by
    unfold u16
    omega
  set n' : Node := { n with
    spaceUsed := entriesSpace Γ.P (es₁ ++ es₂), tailChild := tail, slots := l₁ ++ l₂' } with hn'
  have hleaf : n.isLeaf = false := by simp [Node.isLeaf, hrep.body.1]
  -- Only the spans of the records that stay are left, and they keep their places.
  have hsub : (Node.spans n'.isLeaf n'.slots).Sublist (Node.spans n.isLeaf n.slots) := by
    rw [show n'.isLeaf = n.isLeaf from rfl, hleaf, hl, show n'.slots = l₁ ++ l₂' from rfl,
      Node.spans_append, hspans, ← Node.spans_append]
    exact NodeRep.spans_erase _ _ _ _
  have hrep' : NodeRep Γ.P (.branch t (es₁ ++ es₂) kids') n' :=
    hrep.erase rfl rfl hrep.txid rfl rfl (by simp [hn', h1, h3]) hsub
      ⟨hrep.body.1, fun e' he' => hrep.body.2.1 e' (by
        rcases List.mem_append.1 he' with he' | he'
        · exact List.mem_append_left _ he'
        · exact List.mem_append_right _ (List.mem_cons_of_mem _ he')),
        by rw [← hwords]; simp [hn']⟩
  have hledger : n'.ledger = n.ledger.delete es₁.length := by
    have hstub' : Node.recordSize n.isLeaf slot = e.stub Γ.P :=
      recordSize_eq h2 (fun hl => by rw [hleaf] at hl; cases hl) fun _ => hvalue
    have hkeys : l₂'.map Slot.keySize = l₂.map Slot.keySize := by
      have hheads := hrep.heads
      rw [hl, List.map_append, List.map_cons, h1, h2] at hheads
      have hheads₂ : l₂.map Slot.head = es₂.map (Entry.head Γ.P) := by
        have htail := List.append_cancel_left (hheads.trans (List.map_append ..))
        exact (List.cons.inj htail).2
      simpa [List.map_map, Function.comp_def, Slot.head] using congrArg (List.map Prod.snd)
        (h3.trans hheads₂.symm)
    have hcells : (l₁ ++ l₂').map (Node.cell n.isLeaf) = (l₁ ++ l₂).map (Node.cell n.isLeaf) := by
      rw [List.map_append, List.map_append, Node.cells_eq (by rw [hleaf]; exact hspans) hkeys]
    rw [← hlen]
    exact Node.ledger_delete hl hcells rfl
      (by rw [hstub']; show entriesSpace Γ.P (es₁ ++ es₂) + _ = _; omega)
  have hbooks : ∀ s₂ O, Own Γ b r (.page q (.node n') ::ₘ O) s₂ →
      Books q (fun a => a.delete es₁.length) s s₂ :=
    fun s₂ O h₂ => Books.intro (hown.rep _ (Multiset.mem_cons_self _ _))
      (h₂.rep _ (Multiset.mem_cons_self _ _)) hledger
  have hlast : ∀ s₁ s₂, Pager.setNode q n' s₁ = (.ok (), s₂) →
      (do Pager.setNode q n'; Exec.lift (n'.checkLayout Γ.P) : TxM Unit) s₁ = (.ok (), s₂) :=
    fun s₁ s₂ hset => by
      rw [Exec.bind_of_ok hset, hrep'.sized.checkLayout Γ.hP]
      rfl
  -- `Delete` frees the run of an overflow record; a record in the page has nothing to free.
  by_cases hover : Node.maxInline Γ.P < e.size
  · have hown' : Own Γ b r (recordsOf Γ.P [e] +
        (.page q (.node n) ::ₘ (recordsOf Γ.P (es₁ ++ es₂) + O))) s := by
      refine hown.perm ?_
      rw [recordsOf_insert, ← Multiset.singleton_add, ← Multiset.singleton_add]
      abel
    obtain ⟨s₁, G, hfree, -, hG0, h₁, -⟩ := hown'.freeRecord e.size hover (Nat.le_refl _)
    rw [hG0 rfl, zero_add] at h₁
    obtain ⟨s₂, hset, h₂⟩ := h₁.setNode hq n'
    refine ⟨s₂, ?_, h₂.fold_node rfl hrep', hbooks s₂ _ h₂⟩
    unfold BranchNode.delete
    rw [Exec.bind_of_ok hown.getNode, hslot, Exec.pure_bind_apply]
    simp only [hrecord.trans (if_pos hover), hsize]
    rw [Exec.bind_of_ok hfree, Exec.pure_bind_apply,
      show u16 ((n.spaceUsed : Int) - kOverflowRecordSize) = entriesSpace Γ.P (es₁ ++ es₂) by
        rw [← hu, Entry.stub, Node.stubSize, if_pos hover]]
    exact (hshift _ (fun n => do
      Pager.setNode q n; Exec.lift (n.checkLayout Γ.P)) s₁).trans (hlast s₁ s₂ hset)
  · have hown' : Own Γ b r (.page q (.node n) ::ₘ (recordsOf Γ.P (es₁ ++ es₂) + O)) s := by
      refine hown.perm ?_
      rw [recordsOf_insert, recordsOf_cons_inline Γ.P hover, recordsOf_nil, zero_add]
    obtain ⟨s₂, hset, h₂⟩ := hown'.setNode hq n'
    refine ⟨s₂, ?_, h₂.fold_node rfl hrep', hbooks s₂ _ h₂⟩
    unfold BranchNode.delete
    rw [Exec.bind_of_ok hown.getNode, hslot, Exec.pure_bind_apply]
    simp only [hrecord.trans (if_neg hover), hsize]
    rw [Exec.pure_bind_apply,
      show u16 ((n.spaceUsed : Int) - e.size) = entriesSpace Γ.P (es₁ ++ es₂) by
        rw [← hu, Entry.stub, Node.stubSize, if_neg hover]]
    exact (hshift _ (fun n => do
      Pager.setNode q n; Exec.lift (n.checkLayout Γ.P)) s).trans (hlast s s₂ hset)

/-- The words of the slots around a slot. -/
theorem split_words {n : Node} {e : Entry} {l₁ l₂ : List Slot} {slot : Slot}
    (hrep : NodeRep Γ.P (.branch t (es₁ ++ e :: es₂) (ks₁ ++ c :: ks₂)) n)
    (hks : ks₁.length = es₁.length) (hl : n.slots = l₁ ++ slot :: l₂)
    (hlen : l₁.length = es₁.length) :
    l₁.map Slot.word = ks₁ ∧ slot.word = c ∧ l₂.map Slot.word ++ [n.tailChild] = ks₂ := by
  have hwords := hrep.body.2.2
  rw [hl, List.map_append, List.append_assoc] at hwords
  obtain ⟨w1, w2⟩ := List.append_inj hwords (by rw [List.length_map, hlen, hks])
  obtain ⟨w3, w4⟩ := List.cons.inj w2
  exact ⟨w1, w3, w4⟩

theorem branchDelete_left {e : Entry}
    (h : Own Γ b r (.node q (.branch t (es₁ ++ e :: es₂) (ks₁ ++ c :: ks₂)) ::ₘ O) s)
    (hq : ¬ Γ.keep q) (hks : ks₁.length = es₁.length) :
    ∃ s', BranchNode.delete Γ.env q es₁.length false s = (.ok (), s') ∧
      Own Γ b r (.node q (.branch t (es₁ ++ es₂) (ks₁ ++ ks₂)) ::ₘ O) s' ∧
      Books q (fun a => a.delete es₁.length) s s' := by
  obtain ⟨n, hrep, hown⟩ := h.unfold_node
  obtain ⟨l₁, slot, l₂, hl, h1, h2, h3, hlen⟩ := hrep.split_cons rfl
  obtain ⟨w1, w2, w3⟩ := split_words hrep hks hl hlen
  refine hown.branchDelete_aux hq hrep l₂ n.tailChild hl h1 h2 h3 rfl
    (by rw [w1, w3]) fun u f s₁ => ?_
  rw [hl, ← hlen, ListAt.eraseIdx_length]
  rfl

theorem branchDelete_right {e : Entry}
    (h : Own Γ b r (.node q (.branch t (es₁ ++ e :: es₂) (ks₁ ++ c :: child :: ks₂)) ::ₘ O) s)
    (hq : ¬ Γ.keep q) (hks : ks₁.length = es₁.length) :
    ∃ s', BranchNode.delete Γ.env q es₁.length true s = (.ok (), s') ∧
      Own Γ b r (.node q (.branch t (es₁ ++ es₂) (ks₁ ++ c :: ks₂)) ::ₘ O) s' ∧
        Books q (fun a => a.delete es₁.length) s s' := by
  obtain ⟨n, hrep, hown⟩ := h.unfold_node
  obtain ⟨l₁, slot, l₂, hl, h1, h2, h3, hlen⟩ := hrep.split_cons rfl
  obtain ⟨w1, w2, w3⟩ := split_words hrep hks hl hlen
  have hcount : n.count = es₁.length + (es₂.length + 1) := by
    rw [hrep.count_eq, List.length_append, List.length_cons]
  cases l₂ with
  | nil =>
    obtain rfl : es₂ = [] := by simpa using h3.symm
    obtain ⟨-, rfl⟩ := List.cons.inj w3
    refine hown.branchDelete_aux hq hrep [] slot.word hl h1 h2 h3 rfl
      (by rw [w1, w2]; rfl) fun u f s₁ => ?_
    rw [if_pos rfl, if_neg (by simp [hcount]), hl, ← hlen, ListAt.eraseIdx_length]
    rfl
  | cons next l₂ =>
    obtain ⟨e', es₂, rfl⟩ : ∃ e' es', es₂ = e' :: es' := by
      cases es₂ with
      | nil => simp at h3
      | cons e' es' => exact ⟨e', es', rfl⟩
    obtain ⟨-, w4⟩ := List.cons.inj w3
    refine hown.branchDelete_aux hq hrep ({ next with word := slot.word } :: l₂) n.tailChild hl h1
      h2 (by rw [← h3]; rfl) rfl (by rw [w1, ← w2, ← w4]; rfl) fun u f s₁ => ?_
    have hl' : n.slots = (l₁ ++ [slot]) ++ next :: l₂ := by simp [hl]
    have hlen' : (l₁ ++ [slot]).length = es₁.length + 1 := by simp [hlen]
    rw [if_pos rfl, if_pos (by simp [hcount]), ← hlen']
    rw [Exec.bind_of_ok (withLeftChild_eq (n := { n with spaceUsed := u }) hl' slot.word s₁),
      ← hlen]
    simp only [List.append_assoc, List.singleton_append, ListAt.eraseIdx_length]
    rfl

/-- **`BranchNode::Delete`**, with either child. -/
theorem branchDelete_ok {e : Entry}
    (h : Own Γ b r (.node q (.branch t (es₁ ++ e :: es₂) kids) ::ₘ O) s)
    (hq : ¬ Γ.keep q) (rightChild : Bool) :
    ∃ s', BranchNode.delete Γ.env q es₁.length rightChild s = (.ok (), s') ∧
      Own Γ b r
        (.node q (.branch t (es₁ ++ es₂) (kids.eraseIdx (childAt es₁.length rightChild))) ::ₘ O)
          s' ∧
        Books q (fun a => a.delete es₁.length) s s' := by
  have hlen := kids_length_of_own h
  rw [List.length_append, List.length_cons] at hlen
  obtain ⟨ks₁, c, ks₂, rfl, hks⟩ := ListAt.exists_split_lt (i := es₁.length) (l := kids) (by omega)
  cases rightChild with
  | false =>
    have hkids : (ks₁ ++ c :: ks₂).eraseIdx (childAt es₁.length false) = ks₁ ++ ks₂ := by
      rw [← hks]
      exact ListAt.eraseIdx_length ks₁ ks₂ c
    rw [hkids]
    exact h.branchDelete_left hq hks
  | true =>
    cases ks₂ with
    | nil =>
      rw [List.length_append, List.length_singleton] at hlen
      omega
    | cons child ks₂ =>
      have hkids : (ks₁ ++ c :: child :: ks₂).eraseIdx (childAt es₁.length true) =
          ks₁ ++ c :: ks₂ := by
        rw [← hks]
        exact ListAt.eraseIdx_length_succ ks₁ ks₂ c child
      rw [hkids]
      exact h.branchDelete_right hq hks

/-- The first key of a branch with its left child. -/
theorem branchDelete_first {e : Entry} {c : Nat} {es : List Entry} {kids : List Nat}
    (h : Own Γ b r (.node q (.branch t (e :: es) (c :: kids)) ::ₘ O) s) (hq : ¬ Γ.keep q) :
    ∃ s', BranchNode.delete Γ.env q 0 false s = (.ok (), s') ∧
      Own Γ b r (.node q (.branch t es kids) ::ₘ O) s' := by
  have h' : Own Γ b r (.node q (.branch t ([] ++ e :: es) ([] ++ c :: kids)) ::ₘ O) s := h
  obtain ⟨s', hrun, hown, -⟩ := h'.branchDelete_left hq rfl
  exact ⟨s', hrun, hown⟩

end Own

end AtomKV
