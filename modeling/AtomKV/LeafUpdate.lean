import AtomKV.RecordUpdate

/-!
# `LeafNode::Update`

On a leaf with the records `es₁ ++ e :: es₂`, the record `e` is replaced, or its replacement fails
in the compaction, or it is refused and the state is as before.
-/

set_option autoImplicit false

namespace AtomKV

/-- The request of `LeafNode::Update` is granted: the new record fits below the others as they lie,
or the old one lies in the page and the new one fits after compaction. -/
def Node.UpdateFits (P : Nat) (n : Node) (slot : Slot) (key value : Bytes) : Prop :=
  (n.slotBytes : Int) + recordStub P key value ≤ n.dataOffset ∨
    match slot.record with
    | .inlined _ => n.slotBytes + (n.spaceUsed - (slot.keySize + slot.word)) +
        recordStub P key value ≤ P
    | .overflow _ => False

instance (P : Nat) (n : Node) (slot : Slot) (key value : Bytes) :
    Decidable (n.UpdateFits P slot key value) := by
  unfold Node.UpdateFits
  cases slot.record <;> exact inferInstance

section Leaf

variable {P t : Nat} {n : Node} {es₁ es₂ : List Entry} {e : Entry} {l₁ l₂ : List Slot} {slot : Slot}

/-- The new record fits in place of the old one. -/
theorem NodeRep.fits_rest_iff (hP : PageRange P) {v : NodeView} (h : NodeRep P v n)
    (hv : v.entries = es₁ ++ e :: es₂) (key value : Bytes) : Fits P (es₁ ++ es₂) key value ↔
    n.slotBytes + (n.spaceUsed - e.stub P) + recordStub P key value ≤ P := by
  have hmin := hP.min
  have hsplit := h.space_split hv
  have hcount := h.slotBytes_eq
  rw [hv, List.length_append, List.length_cons] at hcount
  unfold Fits fill
  rw [List.length_append]
  omega

theorem Node.updateFits_iff (hP : PageRange P) (h : NodeRep P (.leaf t (es₁ ++ e :: es₂)) n)
    (hs : NodeRep.Around P n es₁ e es₂ l₁ slot l₂) (key value : Bytes) :
    n.UpdateFits P slot key value ↔
      (n.RoomBelow (recordStub P key value) ∨ ¬ Node.maxInline P < e.size) ∧
      Fits P (es₁ ++ es₂) key value := by
  have hfits := h.fits_rest_iff hP rfl key value
  have hroom : n.RoomBelow (recordStub P key value) → Fits P (es₁ ++ es₂) key value := by
    have hhi := h.sized.hi
    intro hroom
    unfold Node.RoomBelow at hroom
    rw [hfits]
    omega
  by_cases hover : Node.maxInline P < e.size
  · have hrecord := hs.overflow hover
    constructor
    · rintro (hbelow | hno)
      · exact ⟨.inl hbelow, hroom hbelow⟩
      · rw [hrecord] at hno
        exact hno.elim
    · rintro ⟨hbelow | hnot, -⟩
      · exact .inl hbelow
      · exact absurd hover hnot
  · have hrecord := hs.inlined hover
    have hstub : slot.keySize + slot.word = e.stub P := by
      rw [hs.keySize_eq, h.word_eq rfl hs h.isLeaf_eq]
      exact (if_neg hover).symm
    constructor
    · rintro (hbelow | hfit)
      · exact ⟨.inl hbelow, hroom hbelow⟩
      · rw [hrecord] at hfit
        refine ⟨.inr hover, hfits.2 ?_⟩
        rw [← hstub]
        exact hfit
    · rintro ⟨-, hfit⟩
      refine .inr ?_
      rw [hrecord]
      show n.slotBytes + (n.spaceUsed - (slot.keySize + slot.word)) + _ ≤ P
      rw [hstub]
      exact hfits.1 hfit

end Leaf

/-- `LeafNode::Update` once the old record is out of the header. -/
def LeafNode.updateFrom (env : Env) (pgid : Nat) (slotId : Nat) (key value : Bytes) (saved : Slot)
    (n : Node) : TxM Bool := do
  let (success, n) ← Exec.lift (n.requestSpaceFor env.pageSize key.length value.length false)
  if !success then do
    let slot ← n.getSlot slotId
    Pager.setNode pgid (n.restoreRecord slotId slot saved)
    return false
  Pager.setNode pgid n
  Node.storeRecord env pgid slotId key value
  let n ← Pager.getNode pgid
  Exec.lift (n.checkLayout env.pageSize)
  return true

namespace Own

variable {Γ : PageScope} {b r : ℕ} {O : Multiset Obj} {s : TxState} {q t : Nat}
  {es₁ es₂ : List Entry} {e : Entry} {key value : Bytes} {n : Node}
  {l₁ l₂ : List Slot} {slot : Slot}

/-- The first half of `LeafNode::Update`. -/
theorem leafUpdate_begin (key value : Bytes) (hrep : NodeRep Γ.P (.leaf t (es₁ ++ e :: es₂)) n)
    (hs : NodeRep.Around Γ.P n es₁ e es₂ l₁ slot l₂) (hq : ¬ Γ.keep q)
    (h : Own Γ b r (.page q (.node n) ::ₘ O) s) :
    ∃ s₁, Pager.setNode q (n.without (entriesSpace Γ.P (es₁ ++ es₂)) l₁ slot l₂) s = (.ok (), s₁) ∧
      Own Γ b r (.page q (.node (n.without (entriesSpace Γ.P (es₁ ++ es₂)) l₁ slot l₂)) ::ₘ O) s₁ ∧
      LeafNode.update Γ.env q es₁.length key value s =
        LeafNode.updateFrom Γ.env q es₁.length key value slot
        (n.without (entriesSpace Γ.P (es₁ ++ es₂)) l₁ slot l₂) s₁ := by
  obtain ⟨s₁, hset, h₁⟩ := h.setNode hq (n.without (entriesSpace Γ.P (es₁ ++ es₂)) l₁ slot l₂)
  refine ⟨s₁, hset, h₁, ?_⟩
  unfold LeafNode.update
  rw [Exec.bind_of_ok h.getNode, getSlot_of_getElem? hs.getElem?, Exec.pure_bind_apply,
    hrep.deleteRecord_eq Γ.hP rfl hs, Exec.bind_of_ok hset]
  rfl

/-- The second half, when the space has been granted. -/
theorem leafUpdate_store {n₂ : Node} {m₁ m₂ : List Slot} {slot' : Slot}
    (hrep : NodeRep Γ.P (.leaf t (es₁ ++ e :: es₂)) n)
    (hs : NodeRep.Around Γ.P n es₁ e es₂ l₁ slot l₂)
    (hvac : NodeRep.Vacated Γ.P n l₁ slot l₂ (Node.stubSize Γ.P (key.length + value.length))
      n₂ m₁ slot' m₂)
    (hq : ¬ Γ.keep q) (hadm : Admissible Γ.P key value)
    (h : Own Γ (b + recordPages Γ.P key value) r
      (.page q (.node n₂) ::ₘ (recordsOf Γ.P (es₁ ++ e :: es₂) + O)) s) :
    Exec.Ok (do
        Node.storeRecord Γ.env q es₁.length key value
        let n ← Pager.getNode q
        Exec.lift (n.checkLayout Γ.P)
        return true : TxM Bool) s fun ok s' => ok = true ∧ (∃ run, Own Γ b r
      (.node q (.leaf t (es₁ ++ ⟨key, value, e.isBucket, run⟩ :: es₂)) ::ₘ (recordsOf Γ.P [e] + O))
        s') ∧ ∃ n', s'.pager.pages q = .node n' ∧
          n'.ledger = n₂.ledger.place es₁.length (recordStub Γ.P key value) key.length := by
  have htype : n₂.type = .kLeaf := hvac.type.trans hrep.body.1
  have hleaf : n₂.isLeaf = true := by simp [Node.isLeaf, htype]
  have hlen : m₁.length = es₁.length := by
    rw [← hs.length]
    simpa using congrArg List.length hvac.bare₁
  have k1 : m₁.map Slot.head = l₁.map Slot.head := map_eq_of_bare (fun _ => rfl) hvac.bare₁
  have k2 : m₂.map Slot.head = l₂.map Slot.head := map_eq_of_bare (fun _ => rfl) hvac.bare₂
  have k3 : m₁.map Slot.leafPart = l₁.map Slot.leafPart := map_eq_of_bare (fun _ => rfl) hvac.bare₁
  have k4 : m₂.map Slot.leafPart = l₂.map Slot.leafPart := map_eq_of_bare (fun _ => rfl) hvac.bare₂
  have hparts := hrep.body.2
  rw [hs.slots, List.map_append, List.map_cons, List.map_append, List.map_cons] at hparts
  obtain ⟨t1, t2⟩ := List.append_inj hparts (by simp [hs.length])
  obtain ⟨t2, t3⟩ := List.cons.inj t2
  -- `DeleteRecord` leaves the mark of a sub-bucket where it is.
  have hpart : slot'.isBucket = e.isBucket := by
    have h1 := congrArg Slot.isBucket hvac.bare
    change slot'.isBucket = (slot.cleared n.isLeaf).isBucket at h1
    have h2 : (slot.cleared n.isLeaf).isBucket = slot.isBucket := by
      unfold Slot.cleared
      split
      · rfl
      · split <;> rfl
    exact (h1.trans h2).trans (Prod.mk.inj t2).2
  obtain ⟨_, s₂, hstore, run, offset, d, n₃, hn₃, hledger, hsized, h₂⟩ :=
    h.storeRecord hq hvac.vacant hadm (fun hf => by rw [hleaf] at hf; cases hf)
  rw [hleaf, if_pos rfl] at hn₃
  have hledger' : n₃.ledger = n₂.ledger.place es₁.length (recordStub Γ.P key value) key.length := by
    rw [hledger, hlen]
    rfl
  refine Exec.Ok.intro true s₂ ?_
    ⟨rfl, ⟨run, h₂.fold_node ?_ ?_⟩, n₃, h₂.rep _ (Multiset.mem_cons_self _ _), hledger'⟩
  · rw [← hlen, Exec.bind_of_ok hstore, Exec.bind_of_ok h₂.getNode, hsized.checkLayout Γ.hP]
    rfl
  · rw [recordsOf_insert, recordsOf_insert _ ⟨key, value, e.isBucket, run⟩, hpart]
    abel
  · subst hn₃
    refine ⟨hsized, hvac.txid.trans hrep.txid, ?_, ?_, htype, ?_⟩
    · simp only [Node.filled, List.map_append, List.map_cons, k1, k2, hs.heads₁, hs.heads₂]
      rfl
    · intro e' he'
      rcases List.mem_append.1 he' with he' | he'
      · exact hrep.admissible e' (List.mem_append_left _ he')
      · rcases List.mem_cons.1 he' with rfl | he'
        · exact .of_admissible hadm _ _
        · exact hrep.admissible e' (List.mem_append_right _ (List.mem_cons_of_mem _ he'))
    · simp only [Node.filled, List.map_append, List.map_cons, k3, k4, t1, t3, hpart]
      rfl

/-- **`LeafNode::Update`.** The record is replaced when its request is granted. -/
theorem leafUpdate_ok
    (h : Own Γ (b + recordPages Γ.P key value) r (.node q (.leaf t (es₁ ++ e :: es₂)) ::ₘ O) s)
    (hq : ¬ Γ.keep q) (hn : s.pager.pages q = .node n) (hslot : n.slots[es₁.length]? = some slot)
    (hadm : Admissible Γ.P key value) (hfits : n.UpdateFits Γ.P slot key value) :
    Exec.Ok (LeafNode.update Γ.env q es₁.length key value) s fun ok s' => ok = true ∧
    (∃ run, Own Γ b r
      (.node q (.leaf t (es₁ ++ ⟨key, value, e.isBucket, run⟩ :: es₂)) ::ₘ (recordsOf Γ.P [e] + O))
        s') ∧ Books q (fun a => a.update Γ.P es₁.length (recordStub Γ.P key value) key.length)
          s s' := by
  obtain ⟨n', hrep, hown⟩ := h.unfold_node
  obtain rfl : n = n' := Page.node.inj (hn.symm.trans (hown.rep _ (Multiset.mem_cons_self _ _)))
  obtain ⟨l₁, slot', l₂, hs⟩ := hrep.around rfl
  obtain rfl : slot' = slot := Option.some.inj (hs.getElem?.symm.trans hslot)
  obtain ⟨hin, hfit⟩ := (Node.updateFits_iff Γ.hP hrep hs key value).1 hfits
  obtain ⟨n₂, m₁, slot₂, m₂, hreq, hvac⟩ := (hrep.request_cases Γ.hP rfl hs key value).1 hin hfit
  obtain ⟨s₁, -, h₁, hrun⟩ := leafUpdate_begin key value hrep hs hq hown
  obtain ⟨s₂, hset₂, h₂⟩ := h₁.setNode hq n₂
  obtain ⟨ok, s₃, hstore, hok, hown₃, n₃, hn₃, hledger⟩ := leafUpdate_store hrep hs hvac hq hadm h₂
  refine Exec.Ok.intro ok s₃ ?_
    ⟨hok, hown₃, Books.intro hn hn₃ (hledger.trans (hrep.update_ledger Γ.hP rfl hs hin hreq))⟩
  rw [hrun]
  unfold LeafNode.updateFrom
  rw [hreq, Exec.lift_ok_bind]
  simp only [Bool.not_true, Bool.false_eq_true, if_false]
  rw [Exec.bind_of_ok hset₂]
  exact hstore

/-- The compaction fails when it counts the stub of the old record; nothing is wrong with the
header by then. -/
theorem leafUpdate_error (h : Own Γ b r (.node q (.leaf t (es₁ ++ e :: es₂)) ::ₘ O) s)
    (hq : ¬ Γ.keep q) (hn : s.pager.pages q = .node n) (hslot : n.slots[es₁.length]? = some slot)
    (hfit : Fits Γ.P (es₁ ++ es₂) key value) (hfits : ¬ n.UpdateFits Γ.P slot key value) :
    ∃ s' n', LeafNode.update Γ.env q es₁.length key value s = (.error .assertion, s') ∧
      s'.pager.pages q = .node n' ∧ Node.Bounded Γ.P n' := by
  obtain ⟨n', hrep, hown⟩ := h.unfold_node
  obtain rfl : n = n' := Page.node.inj (hn.symm.trans (hown.rep _ (Multiset.mem_cons_self _ _)))
  obtain ⟨l₁, slot', l₂, hs⟩ := hrep.around rfl
  obtain rfl : slot' = slot := Option.some.inj (hs.getElem?.symm.trans hslot)
  rw [Node.updateFits_iff Γ.hP hrep hs] at hfits
  have hroom : ¬ n.RoomBelow (recordStub Γ.P key value) := fun hroom => hfits ⟨.inl hroom, hfit⟩
  have hover : Node.maxInline Γ.P < e.size := by
    by_contra hover
    exact hfits ⟨.inr hover, hfit⟩
  have hreq := (hrep.request_cases Γ.hP rfl hs key value).2.1 hroom hover hfit
  obtain ⟨s₁, -, h₁, hrun⟩ := leafUpdate_begin key value hrep hs hq hown
  refine ⟨s₁, _, ?_, h₁.rep _ (Multiset.mem_cons_self _ _), hrep.without_bounded rfl hs⟩
  rw [hrun]
  unfold LeafNode.updateFrom
  rw [hreq]
  rfl

/-- A refused update leaves everything as it was. -/
theorem leafUpdate_refused (h : Own Γ b r (.node q (.leaf t (es₁ ++ e :: es₂)) ::ₘ O) s)
    (hq : ¬ Γ.keep q) (hfit : ¬ Fits Γ.P (es₁ ++ es₂) key value) :
    LeafNode.update Γ.env q es₁.length key value s = (.ok false, s) := by
  obtain ⟨n, hrep, hown⟩ := h.unfold_node
  obtain ⟨l₁, slot, l₂, hs⟩ := hrep.around rfl
  have hreq := (hrep.request_cases Γ.hP rfl hs key value).2.2 hfit
  obtain ⟨s₁, hset, -, hrun⟩ := leafUpdate_begin key value hrep hs hq hown
  have hback := Pager.setNode_back (hown.rep _ (Multiset.mem_cons_self _ _)) hset
  have hcleared : (n.without (entriesSpace Γ.P (es₁ ++ es₂)) l₁ slot l₂).slots[es₁.length]? =
      some (slot.cleared n.isLeaf) := by
    rw [← hs.length]
    simp [Node.without]
  rw [hrun]
  unfold LeafNode.updateFrom
  rw [hreq, Exec.lift_ok_bind]
  simp only [Bool.not_false, if_true]
  rw [getSlot_of_getElem? hcleared, Exec.pure_bind_apply, hrep.restoreRecord_eq Γ.hP rfl hs,
    Exec.bind_of_ok hback]
  rfl

end Own

end AtomKV
