import AtomKV.RecordUpdate

/-!
# `BranchNode::Update`

On a branch with the keys `es₁ ++ e :: es₂`, the key `e` is replaced when it is in the page and
there is room, and the update is refused and the state as before when there is no room. A key in
overflow pages is replaced as well when no compaction is needed, but its length is then subtracted
from `space_used`, which never counted it.
-/

set_option autoImplicit false

namespace AtomKV

/-- `BranchNode::Update(slot_id, key)` once the old key is out of the header. -/
def BranchNode.updateFrom (env : Env) (pgid : Nat) (slotId : Nat) (key : Bytes) (saved : Slot)
    (n : Node) : TxM Bool := do
  let (success, n) ← Exec.lift (n.requestSpaceFor env.pageSize key.length 0 false)
  if !success then do
    let slot ← n.getSlot slotId
    Pager.setNode pgid (n.restoreRecord slotId slot saved)
    return false
  let slot ← n.getSlot slotId
  Pager.setNode pgid { n with spaceUsed := u16 ((n.spaceUsed : Int) - slot.keySize) }
  Node.storeRecord env pgid slotId key []
  let n ← Pager.getNode pgid
  Exec.lift (n.checkLayout env.pageSize)
  return true

/-- What `BranchNode::Update` does with the child once the key is stored. -/
def BranchNode.putChild (pgid : Nat) (slotId : Nat) (child : Nat)
    (isRightChild : Bool) : TxM Unit :=
  if isRightChild then setRightChild pgid slotId child
  else do
    let n ← Pager.getNode pgid
    let n ← withLeftChild n slotId child
    Pager.setNode pgid n

/-- An update whose key has been stored goes on with the child. -/
theorem BranchNode.update_stored {env : Env} {pgid slotId : Nat} {key : Bytes} {s s₁ : TxState}
    (h : BranchNode.updateKey env pgid slotId key s = (.ok true, s₁)) (child : Nat)
    (isRightChild : Bool) : BranchNode.update env pgid slotId key child isRightChild s =
      (do putChild pgid slotId child isRightChild; return true : TxM Bool) s₁ := by
  unfold BranchNode.update
  rw [Exec.bind_of_ok h]
  cases isRightChild with
  | true => rfl
  | false =>
    unfold putChild
    simp only [Bool.not_true, Bool.false_eq_true, if_false, bind_assoc]

/-- A branch whose `space_used` is not the sum of its records' sizes. -/
def Node.Miscounts (n : Node) : Prop :=
  n.isLeaf = false ∧ n.spaceUsed ≠ Node.slotsSpace n.isLeaf n.slots

def Miscounted (q : Nat) (s : TxState) : Prop := ∃ n, s.pager.pages q = .node n ∧ n.Miscounts

/-- Besides the objects `O` there is such a branch in the page `q`. -/
def HoldsMiscounted (Γ : PageScope) (b r q : ℕ) (O : Multiset Obj) (s : TxState) : Prop :=
  ∃ n R, n.Miscounts ∧ Own Γ b r (.page q (.node n) ::ₘ (R + O)) s

theorem HoldsMiscounted.miscounted {Γ : PageScope} {b r q : ℕ} {O : Multiset Obj} {s : TxState}
    (h : HoldsMiscounted Γ b r q O s) : Miscounted q s := by
  obtain ⟨n, R, hn, hown⟩ := h
  exact ⟨n, hown.rep _ (Multiset.mem_cons_self _ _), hn⟩

/-- The slots of a branch hold these keys and children, whatever its header says. -/
structure Node.Lists (P : Nat) (es : List Entry) (kids : List Nat) (n : Node) : Prop where
  heads : n.slots.map Slot.head = es.map (Entry.head P)
  words : n.slots.map Slot.word ++ [n.tailChild] = kids

/-- The vacated slot of a branch is filled. -/
theorem NodeRep.Vacated.lists {P t need : Nat} {n n₂ : Node} {es₁ es₂ : List Entry} {e : Entry}
    {kids : List Nat} {l₁ l₂ m₁ m₂ : List Slot} {slot slot' : Slot}
    (hvac : NodeRep.Vacated P n l₁ slot l₂ need n₂ m₁ slot' m₂)
    (hrep : NodeRep P (.branch t (es₁ ++ e :: es₂) kids) n)
    (hs : NodeRep.Around P n es₁ e es₂ l₁ slot l₂) (new : Entry) (offset : Nat) (d : Int) :
    (Node.filled P n₂ m₁ m₂ new offset d slot'.word).Lists P (es₁ ++ new :: es₂) kids := by
  have hleaf : n.isLeaf = false := hrep.isLeaf_eq
  have k1 : m₁.map Slot.head = l₁.map Slot.head := map_eq_of_bare (fun _ => rfl) hvac.bare₁
  have k2 : m₂.map Slot.head = l₂.map Slot.head := map_eq_of_bare (fun _ => rfl) hvac.bare₂
  have k3 : m₁.map Slot.word = l₁.map Slot.word := map_eq_of_bare (fun _ => rfl) hvac.bare₁
  have k4 : m₂.map Slot.word = l₂.map Slot.word := map_eq_of_bare (fun _ => rfl) hvac.bare₂
  have hword : slot'.word = slot.word := by
    have h1 := congrArg Slot.word hvac.bare
    change slot'.word = (slot.cleared n.isLeaf).word at h1
    rw [h1, hleaf]
    unfold Slot.cleared
    split <;> rfl
  constructor
  · simp only [Node.filled, List.map_append, List.map_cons, k1, k2, hs.heads₁, hs.heads₂]
    rfl
  · rw [← hrep.body.2.2, hs.slots]
    simp only [Node.filled, List.map_append, List.map_cons, k3, k4, hvac.tailChild, hword]

namespace Own

variable {Γ : PageScope} {b r : ℕ} {O : Multiset Obj} {s : TxState} {q t : Nat}
  {es₁ es₂ : List Entry} {kids : List Nat} {e : Entry} {key : Bytes} {n : Node}
  {l₁ l₂ : List Slot} {slot : Slot}

/-- The first half of `BranchNode::Update`. -/
theorem branchUpdate_begin (key : Bytes) (hrep : NodeRep Γ.P (.branch t (es₁ ++ e :: es₂) kids) n)
    (hs : NodeRep.Around Γ.P n es₁ e es₂ l₁ slot l₂) (hq : ¬ Γ.keep q)
    (h : Own Γ b r (.page q (.node n) ::ₘ O) s) :
    ∃ s₁, Pager.setNode q (n.without (entriesSpace Γ.P (es₁ ++ es₂)) l₁ slot l₂) s = (.ok (), s₁) ∧
      Own Γ b r (.page q (.node (n.without (entriesSpace Γ.P (es₁ ++ es₂)) l₁ slot l₂)) ::ₘ O) s₁ ∧
      BranchNode.updateKey Γ.env q es₁.length key s =
        BranchNode.updateFrom Γ.env q es₁.length key slot
        (n.without (entriesSpace Γ.P (es₁ ++ es₂)) l₁ slot l₂) s₁ := by
  obtain ⟨s₁, hset, h₁⟩ := h.setNode hq (n.without (entriesSpace Γ.P (es₁ ++ es₂)) l₁ slot l₂)
  refine ⟨s₁, hset, h₁, ?_⟩
  unfold BranchNode.updateKey
  rw [Exec.bind_of_ok h.getNode, getSlot_of_getElem? hs.getElem?, Exec.pure_bind_apply,
    hrep.deleteRecord_eq Γ.hP rfl hs, Exec.bind_of_ok hset]
  rfl

/-- The second half, when the space has been granted. -/
theorem branchUpdate_store {n₂ : Node} {m₁ m₂ : List Slot} {slot' : Slot}
    (hrep : NodeRep Γ.P (.branch t (es₁ ++ e :: es₂) kids) n)
    (hs : NodeRep.Around Γ.P n es₁ e es₂ l₁ slot l₂)
    (hvac : NodeRep.Vacated Γ.P n l₁ slot l₂ (Node.stubSize Γ.P key.length) n₂ m₁ slot' m₂)
    (hq : ¬ Γ.keep q) (hadm : Admissible Γ.P key [])
    (h : Own Γ (b + recordPages Γ.P key []) r
      (.page q (.node n₂) ::ₘ (recordsOf Γ.P (es₁ ++ e :: es₂) + O)) s) :
    Exec.Ok (do
        Node.storeRecord Γ.env q es₁.length key []
        let n ← Pager.getNode q
        Exec.lift (n.checkLayout Γ.P)
        return true : TxM Bool) s fun ok s' => ok = true ∧ (∃ bucket run, Own Γ b r
      (.node q (.branch t (es₁ ++ ⟨key, [], bucket, run⟩ :: es₂) kids) ::ₘ (recordsOf Γ.P [e] + O))
        s') ∧ ∃ n', s'.pager.pages q = .node n' ∧
          n'.ledger = n₂.ledger.place es₁.length (recordStub Γ.P key []) key.length := by
  have htype : n₂.type = .kBranch := hvac.type.trans hrep.body.1
  have hleaf : n₂.isLeaf = false := by simp [Node.isLeaf, htype]
  have hlen : m₁.length = es₁.length := by
    rw [← hs.length]
    simpa using congrArg List.length hvac.bare₁
  obtain ⟨_, s₂, hstore, run, offset, d, n₃, hn₃, hledger, hsized, h₂⟩ :=
    h.storeRecord hq hvac.vacant hadm fun _ => rfl
  rw [hleaf] at hn₃
  have hledger' : n₃.ledger = n₂.ledger.place es₁.length (recordStub Γ.P key []) key.length := by
    rw [hledger, hlen]
    rfl
  refine Exec.Ok.intro true s₂ ?_ ⟨rfl, ⟨slot'.isBucket, run, h₂.fold_node ?_ ?_⟩, n₃,
    h₂.rep _ (Multiset.mem_cons_self _ _), hledger'⟩
  · rw [← hlen, Exec.bind_of_ok hstore, Exec.bind_of_ok h₂.getNode, hsized.checkLayout Γ.hP]
    rfl
  · rw [recordsOf_insert, recordsOf_insert _ ⟨key, [], slot'.isBucket, run⟩]
    abel
  -- The new record stands in the slot of the old one, so the children stay as they are.
  · have hlists := hvac.lists hrep hs ⟨key, [], slot'.isBucket, run⟩ offset d
    subst hn₃
    refine ⟨hsized, hvac.txid.trans hrep.txid, hlists.heads, ?_, htype, ?_, hlists.words⟩
    · intro e' he'
      rcases List.mem_append.1 he' with he' | he'
      · exact hrep.admissible e' (List.mem_append_left _ he')
      · rcases List.mem_cons.1 he' with rfl | he'
        · exact .of_admissible hadm _ _
        · exact hrep.admissible e' (List.mem_append_right _ (List.mem_cons_of_mem _ he'))
    · intro e' he'
      rcases List.mem_append.1 he' with he' | he'
      · exact hrep.body.2.1 e' (List.mem_append_left _ he')
      · rcases List.mem_cons.1 he' with rfl | he'
        · rfl
        · exact hrep.body.2.1 e' (List.mem_append_right _ (List.mem_cons_of_mem _ he'))

/-- **`BranchNode::Update`** of a key in the page. -/
theorem branchUpdateKey_ok
    (h : Own Γ (b + recordPages Γ.P key []) r (.node q (.branch t (es₁ ++ e :: es₂) kids) ::ₘ O) s)
    (hq : ¬ Γ.keep q) (hadm : Admissible Γ.P key []) (hinline : ¬ Node.maxInline Γ.P < e.size)
    (hfit : Fits Γ.P (es₁ ++ es₂) key []) :
    Exec.Ok (BranchNode.updateKey Γ.env q es₁.length key) s fun ok s' => ok = true ∧
    (∃ bucket run, Own Γ b r
      (.node q (.branch t (es₁ ++ ⟨key, [], bucket, run⟩ :: es₂) kids) ::ₘ (recordsOf Γ.P [e] + O))
        s') ∧ Books q (fun a => a.update Γ.P es₁.length (recordStub Γ.P key []) key.length)
          s s' := by
  obtain ⟨n, hrep, hown⟩ := h.unfold_node
  obtain ⟨l₁, slot, l₂, hs⟩ := hrep.around rfl
  obtain ⟨n₂, m₁, slot₂, m₂, hreq, hvac⟩ :=
    (hrep.request_cases Γ.hP rfl hs key []).1 (.inr hinline) hfit
  obtain ⟨s₁, -, h₁, hrun⟩ := branchUpdate_begin key hrep hs hq hown
  have hlen : m₁.length = es₁.length := by
    rw [← hs.length]
    simpa using congrArg List.length hvac.bare₁
  have hslot : n₂.slots[es₁.length]? = some slot₂ := by
    rw [hvac.vacant.slots, ← hlen]
    simp
  have hleaf₀ : n.isLeaf = false := by simp [Node.isLeaf, hrep.body.1]
  -- `DeleteRecord` cleared the key size of a record in the page, so `Update` subtracts nothing
  -- twice.
  have hzero : slot₂.keySize = 0 := by
    have h1 := congrArg Slot.keySize hvac.bare
    change slot₂.keySize = (slot.cleared n.isLeaf).keySize at h1
    rw [h1, hleaf₀, hs.cleared_inlined false hinline]
    rfl
  have hlow := hvac.vacant.bounded.lo
  have hhigh := hvac.vacant.bounded.hi
  have hmax := Γ.hP.lt_max
  have hspace : u16 ((n₂.spaceUsed : Int) - slot₂.keySize) = n₂.spaceUsed := by
    rw [hzero]
    unfold u16
    omega
  obtain ⟨s₂, hset₂, h₂⟩ := h₁.setNode hq n₂
  obtain ⟨ok, s₃, hstore, hok, hown₃, n₃, hn₃, hledger⟩ :=
    branchUpdate_store hrep hs hvac hq hadm h₂
  refine Exec.Ok.intro ok s₃ ?_
    ⟨hok, hown₃, Books.intro (hown.rep _ (Multiset.mem_cons_self _ _)) hn₃
    (hledger.trans (hrep.update_ledger Γ.hP rfl hs (.inr hinline) hreq))⟩
  rw [hrun]
  unfold BranchNode.updateFrom
  rw [show (0 : Nat) = ([] : Bytes).length from rfl, hreq, Exec.lift_ok_bind]
  simp only [Bool.not_true, Bool.false_eq_true, if_false]
  rw [getSlot_of_getElem? hslot, Exec.pure_bind_apply]
  simp only [hspace]
  rw [Exec.bind_of_ok hset₂]
  exact hstore

/-- A refused update leaves everything as it was. -/
theorem branchUpdateKey_refused (h : Own Γ b r (.node q (.branch t (es₁ ++ e :: es₂) kids) ::ₘ O) s)
    (hq : ¬ Γ.keep q) (hfit : ¬ Fits Γ.P (es₁ ++ es₂) key []) :
    BranchNode.updateKey Γ.env q es₁.length key s = (.ok false, s) := by
  obtain ⟨n, hrep, hown⟩ := h.unfold_node
  obtain ⟨l₁, slot, l₂, hs⟩ := hrep.around rfl
  have hreq := (hrep.request_cases Γ.hP rfl hs key []).2.2 hfit
  obtain ⟨s₁, hset, -, hrun⟩ := branchUpdate_begin key hrep hs hq hown
  -- The record is put back and the node is written over with what it was.
  have hback := Pager.setNode_back (hown.rep _ (Multiset.mem_cons_self _ _)) hset
  have hcleared : (n.without (entriesSpace Γ.P (es₁ ++ es₂)) l₁ slot l₂).slots[es₁.length]? =
      some (slot.cleared n.isLeaf) := by
    rw [← hs.length]
    simp [Node.without]
  rw [hrun]
  unfold BranchNode.updateFrom
  rw [show (0 : Nat) = ([] : Bytes).length from rfl, hreq, Exec.lift_ok_bind]
  simp only [Bool.not_false, if_true]
  rw [getSlot_of_getElem? hcleared, Exec.pure_bind_apply, hrep.restoreRecord_eq Γ.hP rfl hs,
    Exec.bind_of_ok hback]
  rfl

/-- The child that comes with an update is stored like any other. -/
theorem putChild {k : Nat} {es : List Entry} (h : Own Γ b r (.node q (.branch t es kids) ::ₘ O) s)
    (hq : ¬ Γ.keep q) (hk : k < es.length) (child : Nat) (isRightChild : Bool) :
    ∃ s', BranchNode.putChild q k child isRightChild s = (.ok (), s') ∧
      Own Γ b r (.node q (.branch t es (kids.set (childAt k isRightChild) child)) ::ₘ O) s' := by
  cases isRightChild with
  | true =>
    obtain ⟨s', hset, h'⟩ := h.setChild (k := k + 1) hq hk child
    exact ⟨s', (h.setRightChild_eq hk child).trans hset, h'⟩
  | false =>
    obtain ⟨s', hset, h'⟩ := h.setChild (k := k) hq (Nat.le_of_lt hk) child
    refine ⟨s', ?_, h'⟩
    obtain ⟨n, hrep, hget, -⟩ := h.read_node
    have hcount : n.count = es.length := hrep.count_eq
    rw [← hset]
    unfold BranchNode.setLeftChild
    rw [Exec.bind_of_ok hget, if_neg (show ¬ k = n.count by omega)]
    show (do
      let n ← Pager.getNode q
      let n ← BranchNode.withLeftChild n k child
      Pager.setNode q n : TxM Unit) s = _
    rw [Exec.bind_of_ok hget]

/-- A key in overflow pages that is replaced after a compaction: the compaction fails, with the
header in order. -/
theorem branchUpdateKey_error (h : Own Γ b r (.node q (.branch t (es₁ ++ e :: es₂) kids) ::ₘ O) s)
    (hq : ¬ Γ.keep q) (hn : s.pager.pages q = .node n) (hover : Node.maxInline Γ.P < e.size)
    (hfit : Fits Γ.P (es₁ ++ es₂) key []) (hroom : ¬ n.RoomBelow (recordStub Γ.P key [])) :
    ∃ s' n', BranchNode.updateKey Γ.env q es₁.length key s = (.error .assertion, s') ∧
      s'.pager.pages q = .node n' ∧ Node.Bounded Γ.P n' := by
  obtain ⟨n', hrep, hown⟩ := h.unfold_node
  obtain rfl : n = n' := Page.node.inj (hn.symm.trans (hown.rep _ (Multiset.mem_cons_self _ _)))
  obtain ⟨l₁, slot, l₂, hs⟩ := hrep.around rfl
  have hreq := (hrep.request_cases Γ.hP rfl hs key []).2.1 hroom hover hfit
  obtain ⟨s₁, -, h₁, hrun⟩ := branchUpdate_begin key hrep hs hq hown
  refine ⟨s₁, _, ?_, h₁.rep _ (Multiset.mem_cons_self _ _), hrep.without_bounded rfl hs⟩
  rw [hrun]
  unfold BranchNode.updateFrom
  rw [show (0 : Nat) = ([] : Bytes).length from rfl, hreq]
  rfl

/-- A key in overflow pages that is replaced below the records: `space_used` is wrong afterwards,
and all else is as for a key in the page. -/
theorem branchUpdateKey_overwrites
    (h : Own Γ (b + recordPages Γ.P key []) r (.node q (.branch t (es₁ ++ e :: es₂) kids) ::ₘ O) s)
    (hq : ¬ Γ.keep q) (hadm : Admissible Γ.P key []) (hn : s.pager.pages q = .node n)
    (hover : Node.maxInline Γ.P < e.size) (hfit : Fits Γ.P (es₁ ++ es₂) key [])
    (hroom : n.RoomBelow (recordStub Γ.P key [])) :
    ∃ s' n' bucket run, BranchNode.updateKey Γ.env q es₁.length key s = (.ok true, s') ∧
      n'.Lists Γ.P (es₁ ++ ⟨key, [], bucket, run⟩ :: es₂) kids ∧ n'.Miscounts ∧
      Own Γ b r (.page q (.node n') ::ₘ
        (recordsOf Γ.P (es₁ ++ ⟨key, [], bucket, run⟩ :: es₂) + (recordsOf Γ.P [e] + O))) s' := by
  obtain ⟨n₀, hrep, hown⟩ := h.unfold_node
  obtain rfl : n = n₀ := Page.node.inj (hn.symm.trans (hown.rep _ (Multiset.mem_cons_self _ _)))
  obtain ⟨l₁, slot, l₂, hs⟩ := hrep.around rfl
  obtain ⟨s₁, -, h₁, hrun⟩ := branchUpdate_begin key hrep hs hq hown
  obtain ⟨n₂, m₁, slot₂, m₂, hreq, hvac⟩ :=
    (hrep.request_cases Γ.hP rfl hs key []).1 (.inl hroom) hfit
  have hlen : m₁.length = es₁.length := by
    rw [← hs.length]
    simpa using congrArg List.length hvac.bare₁
  have hslot : n₂.slots[es₁.length]? = some slot₂ := by
    rw [hvac.vacant.slots, ← hlen]
    simp
  -- The key size of a record in overflow pages was not cleared, and it is subtracted once more.
  have hkey : slot₂.keySize = e.key.length := by
    have h1 := congrArg Slot.keySize hvac.bare
    change slot₂.keySize = (slot.cleared n.isLeaf).keySize at h1
    rw [h1, hs.cleared_overflow n.isLeaf hover, hs.keySize_eq]
  have hleaf : n₂.isLeaf = false := by
    have : n₂.type = .kBranch := hvac.type.trans hrep.body.1
    simp [Node.isLeaf, this]
  obtain ⟨s₂, hset, h₂⟩ :=
    h₁.setNode hq { n₂ with spaceUsed := u16 ((n₂.spaceUsed : Int) - slot₂.keySize) }
  obtain ⟨s₃, run, offset, d, n₃, hstore, hn₃, hcheck, h₃⟩ :=
    h₂.storeRecord_uncounted hq hvac.vacant hadm fun _ => rfl
  rw [hlen] at hstore
  rw [hleaf, if_neg Bool.false_ne_true] at hn₃
  have hlists := hvac.lists hrep hs ⟨key, [], slot₂.isBucket, run⟩ offset d
  -- More was taken off than the stub counted, and the 16-bit sum does not come back to it.
  have hmis : n₃.spaceUsed ≠ Node.slotsSpace n₃.isLeaf n₃.slots := by
    have hsize : Node.recordSize n₂.isLeaf
        ⟨offset, Entry.record Γ.P ⟨key, [], slot₂.isBucket, run⟩, key.length,
        slot₂.isBucket, slot₂.word⟩ = Node.stubSize Γ.P (key.length + ([] : Bytes).length) :=
      recordSize_eq (e := ⟨key, [], slot₂.isBucket, run⟩) rfl
        (fun hl => by rw [hleaf] at hl; cases hl) fun _ => rfl
    have hslots : Node.slotsSpace n₃.isLeaf n₃.slots = Node.slotsSpace n₂.isLeaf (m₁ ++
        ⟨offset, Entry.record Γ.P ⟨key, [], slot₂.isBucket, run⟩, key.length, slot₂.isBucket,
          slot₂.word⟩ :: m₂) := by
      rw [hn₃]
      rfl
    have hspace : n₃.spaceUsed = u16 ((u16 ((n₂.spaceUsed : Int) - slot₂.keySize) : Int) +
        Node.stubSize Γ.P (key.length + ([] : Bytes).length)) := by rw [hn₃]
    have hused := hvac.vacant.used
    have hlow := hvac.vacant.room
    have hhigh := hvac.vacant.bounded.hi
    have hmax := Γ.hP.lt_max
    have hmin := Γ.hP.min
    have hbound := (hrep.admissible e (List.mem_append_right _ List.mem_cons_self)).key_le
    have hvalue := hrep.body.2.1 e (List.mem_append_right _ List.mem_cons_self)
    unfold Entry.size at hover
    rw [hvalue, List.length_nil] at hover
    unfold Node.maxInline at hover
    unfold kKeyMaxSize at hbound
    rw [Node.slotsSpace_append] at hused
    rw [hslots, Node.slotsSpace_append, Node.slotsSpace_cons, hsize, hspace, hkey]
    unfold u16
    omega
  refine ⟨s₃, n₃, slot₂.isBucket, run, ?_, ?_, ⟨?_, hmis⟩, h₃.perm ?_⟩
  · rw [hrun]
    unfold BranchNode.updateFrom
    rw [show (0 : Nat) = ([] : Bytes).length from rfl, hreq, Exec.lift_ok_bind]
    simp only [Bool.not_true, Bool.false_eq_true, if_false]
    rw [getSlot_of_getElem? hslot, Exec.pure_bind_apply, Exec.bind_of_ok hset,
      Exec.bind_of_ok hstore, Exec.bind_of_ok h₃.getNode]
    show (do
      Exec.lift (n₃.checkLayout Γ.P)
      return true : TxM Bool) s₃ = _
    rw [hcheck]
    rfl
  · rw [hn₃]
    exact ⟨hlists.heads, hlists.words⟩
  · rw [hn₃]
    exact hleaf
  · rw [recordsOf_insert, recordsOf_insert _ ⟨key, [], slot₂.isBucket, run⟩]
    abel_nf

/-- A key in overflow pages whose request is granted: the compaction fails, or `space_used` is
wrong afterwards. -/
theorem branchUpdateKey_spoils
    (h : Own Γ (b + recordPages Γ.P key []) r (.node q (.branch t (es₁ ++ e :: es₂) kids) ::ₘ O) s)
    (hq : ¬ Γ.keep q) (hadm : Admissible Γ.P key []) (hover : Node.maxInline Γ.P < e.size)
    (hfit : Fits Γ.P (es₁ ++ es₂) key []) {ok : Bool} {s' : TxState}
    (hupdate : BranchNode.updateKey Γ.env q es₁.length key s = (.ok ok, s')) :
    ok = true ∧ HoldsMiscounted Γ b r q O s' := by
  obtain ⟨n, hrep, hown⟩ := h.unfold_node
  have hn : s.pager.pages q = .node n := hown.rep _ (Multiset.mem_cons_self _ _)
  by_cases hroom : n.RoomBelow (recordStub Γ.P key [])
  · obtain ⟨s₁, n', bucket, run, hrun, -, hmis, h₁⟩ :=
      h.branchUpdateKey_overwrites hq hadm hn hover hfit hroom
    cases hrun.symm.trans hupdate
    exact ⟨rfl, n', recordsOf Γ.P (es₁ ++ ⟨key, [], bucket, run⟩ :: es₂) + recordsOf Γ.P [e], hmis,
      h₁.perm (by rw [add_assoc])⟩
  · obtain ⟨s₁, -, herror, -⟩ := h.branchUpdateKey_error hq hn hover hfit hroom
    cases herror.symm.trans hupdate

end Own

/-! ## Child pointers take no space -/

/-- The page `q` holds a branch with the numbers `a`. -/
def BranchAt (q : Nat) (a : Ledger) (s : TxState) : Prop :=
  ∃ n, s.pager.pages q = .node n ∧ n.isLeaf = false ∧ n.ledger = a

namespace BranchAt

variable {q : Nat} {a : Ledger} {n : Node} {slotId child : Nat} {isRightChild : Bool}

theorem getNode : Exec.Keeps (BranchAt q a) (Pager.getNode q) fun n => n.isLeaf = false ∧
    n.ledger = a := by
  intro s hs
  obtain ⟨n, hpage, hn⟩ := hs
  have hsame := Reads.getNode q s
  refine ⟨by rw [hsame]; exact ⟨n, hpage, hn⟩, fun m hm => ?_⟩
  have hrun : Pager.getNode q s = (.ok m, s) := Prod.ext hm hsame
  obtain ⟨_, s₁, h₁, hrest⟩ := Exec.bind_eq_ok hrun
  obtain ⟨_, s₂, h₂, hread⟩ := Exec.bind_eq_ok hrest
  obtain rfl : s₁ = s := (congrArg Prod.snd h₁).symm.trans (Exec.ReadOnly.require s)
  obtain rfl : s₂ = s₁ := (congrArg Prod.snd h₂).symm.trans (Exec.ReadOnly.require s₁)
  rw [Exec.read_bind, hpage] at hread
  obtain rfl := Except.ok.inj (Prod.mk.inj hread).1
  exact hn

theorem setNode (hleaf : n.isLeaf = false) (hn : n.ledger = a) :
    Exec.Keeps (BranchAt q a) (Pager.setNode q n) fun _ => True :=
  Exec.Keeps.change fun _ _ => ⟨n, Function.update_self _ _ _, hleaf, hn⟩

theorem withLeftChild (hleaf : n.isLeaf = false) (hn : n.ledger = a) : Exec.Keeps (BranchAt q a)
    (BranchNode.withLeftChild n slotId child) fun n' => n'.isLeaf = false ∧ n'.ledger = a := by
  unfold BranchNode.withLeftChild Node.getSlot
  cases hslot : n.slots[slotId]? with
  | none => exact Exec.Keeps.raise_bind
  | some slot =>
    refine Exec.Keeps.pure ⟨hleaf, ?_⟩
    obtain ⟨l₁, l₂, hl, rfl⟩ := ListAt.exists_split hslot
    have hcell : Node.cell false { slot with word := child } = Node.cell false slot := rfl
    rw [← hn]
    unfold Node.ledger
    simp only [Node.isLeaf] at hleaf ⊢
    rw [hleaf, hl, ListAt.set_length, List.map_append, List.map_append, List.map_cons,
      List.map_cons, hcell]

theorem setTailChild : Exec.Keeps (BranchAt q a) (BranchNode.setTailChild q child) fun _ => True :=
  getNode.bind fun _ hn => setNode hn.1 hn.2

theorem setLeftChild :
    Exec.Keeps (BranchAt q a) (BranchNode.setLeftChild q slotId child) fun _ => True := by
  refine getNode.bind fun n hn => ?_
  exact Exec.Keeps.ite (fun _ => setTailChild) fun _ => (withLeftChild hn.1 hn.2).bind fun _ hn' =>
    setNode hn'.1 hn'.2

theorem setRightChild :
    Exec.Keeps (BranchAt q a) (BranchNode.setRightChild q slotId child) fun _ => True := by
  refine getNode.bind fun n hn => Exec.Keeps.require.bind fun _ _ => ?_
  exact Exec.Keeps.ite (fun _ => setTailChild) fun _ => (withLeftChild hn.1 hn.2).bind fun _ hn' =>
    setNode hn'.1 hn'.2

theorem putChild :
    Exec.Keeps (BranchAt q a) (BranchNode.putChild q slotId child isRightChild) fun _ => True :=
  Exec.Keeps.ite (fun _ => setRightChild) fun _ =>
    getNode.bind fun _ hn => (withLeftChild hn.1 hn.2).bind fun _ hn' => setNode hn'.1 hn'.2

/-- The numbers of a branch after a call that changes children. -/
theorem books {α : Type} {Q : α → Prop} {x : TxM α} {r : Except Err α} {s s' : TxState}
    (hx : ∀ a, Exec.Keeps (BranchAt q a) x Q) (hn : s.pager.pages q = .node n)
    (hleaf : n.isLeaf = false) (hrun : x s = (r, s')) : Books q id s s' := by
  obtain ⟨n', hn', -, hledger⟩ := (hx n.ledger s ⟨n, hn, hleaf, rfl⟩).1
  rw [hrun] at hn'
  exact Books.intro hn hn' hledger

end BranchAt

/-! ## A wrong count stays -/

/-- Whether the count is wrong is seen in the numbers. -/
theorem Node.miscounts_of_ledger {n n' : Node} (hleaf : n'.isLeaf = false)
    (hledger : n'.ledger = n.ledger) (h : n.Miscounts) : n'.Miscounts := by
  have hsum : ∀ m : Node, Node.slotsSpace m.isLeaf m.slots = (m.ledger.cells.map Cell.size).sum :=
    fun m => by
    unfold Node.slotsSpace Node.ledger
    rw [List.map_map]
    rfl
  have hused : n'.spaceUsed = n.spaceUsed := Int.ofNat.inj (congrArg Ledger.spaceUsed hledger)
  refine ⟨hleaf, fun heq => h.2 ?_⟩
  rw [hsum, hledger, ← hsum, hused] at heq
  exact heq

theorem Miscounted.putChild {q slotId child : Nat} {isRightChild : Bool} {s : TxState}
    (h : Miscounted q s) : Miscounted q (BranchNode.putChild q slotId child isRightChild s).2 := by
  obtain ⟨n, hpage, hn⟩ := h
  obtain ⟨n', hpage', hleaf, hledger⟩ := (BranchAt.putChild s ⟨n, hpage, hn.1, rfl⟩).1
  exact ⟨n', hpage', Node.miscounts_of_ledger hleaf hledger hn⟩

/-- The left child of an update is written, and the count stays wrong. -/
theorem HoldsMiscounted.putChild {Γ : PageScope} {b r q slotId child : ℕ} {O : Multiset Obj}
    {s s' : TxState} {u : Unit} (h : HoldsMiscounted Γ b r q O s) (hq : ¬ Γ.keep q)
    (hrun : BranchNode.putChild q slotId child false s = (.ok u, s')) :
      HoldsMiscounted Γ b r q O s' := by
  obtain ⟨n, R, hn, hown⟩ := h
  have hpage : s.pager.pages q = .node n := hown.rep _ (Multiset.mem_cons_self _ _)
  have hbegin : BranchNode.putChild q slotId child false s = (do
      let n ← BranchNode.withLeftChild n slotId child
      Pager.setNode q n : TxM Unit) s := by
    unfold BranchNode.putChild
    rw [if_neg (by decide), Exec.bind_of_ok hown.getNode]
  obtain ⟨n', s₁, hchild, hset⟩ := Exec.bind_eq_ok (hbegin.symm.trans hrun)
  have hn' : n'.Miscounts := by
    obtain ⟨hleaf, hledger⟩ :=
      (BranchAt.withLeftChild hn.1 rfl s ⟨n, hpage, hn.1, rfl⟩).2 n' (congrArg Prod.fst hchild)
    exact Node.miscounts_of_ledger hleaf hledger hn
  have hsame : s₁ = s := by
    unfold BranchNode.withLeftChild at hchild
    have hread := (Reads.getSlot n slotId).bind (f := fun slot => (pure { n with
      slots := n.slots.set slotId { slot with word := child } } : TxM Node)) fun _ =>
        Exec.ReadOnly.pure
    exact (congrArg Prod.snd hchild).symm.trans (hread s)
  subst hsame
  obtain ⟨s₂, hset', h₂⟩ := hown.setNode hq n'
  obtain rfl := (Prod.mk.inj (hset'.symm.trans hset)).2
  exact ⟨n', R, hn', h₂⟩

end AtomKV
